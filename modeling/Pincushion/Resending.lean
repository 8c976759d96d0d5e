import Pincushion.Connection

/-! Every write of the device takes effect once. A write may reach the server
several times, but all that wait are made after it again, in order; so the server
ends with the writes as they were issued, however often the connection is lost. -/
namespace Pincushion.Connection
open KeyTree SortedDictionary Snapshot Runs
variable {κ α : Type*} [LinearOrder κ]

def FOutstandingPut.record (p : FOutstandingPut κ α) : FWriteRecord κ α :=
  ⟨p.path, .overwrite p.data, p.writeId, true⟩

def FOutstandingPut.patch (p : FOutstandingPut κ α) : Patch κ α := FNode.toPatch p.path p.data

/-- The outstanding writes as writes to the tree of leaves. -/
def patches (ps : List (Nat × FOutstandingPut κ α)) : List (Patch κ α) :=
  ps.map fun e => e.2.patch

def Request.put? : Request κ α → Option (Nat × FOutstandingPut κ α)
  | .put index p => some (index, p)
  | _ => none

def Response.put? : Response → Option (Nat × Int)
  | .put index writeId => some (index, writeId)
  | _ => none

def Request.isAuth : Request κ α → Bool
  | .auth => true
  | _ => false

def Response.isAuth : Response → Bool
  | .auth _ => true
  | _ => false

/-- The writes that the application has issued. -/
def Event.issued? : Event κ α → Option (Patch κ α)
  | .set path node => some (FNode.toPatch path node)
  | _ => none

def issued (es : List (Event κ α)) : List (Patch κ α) := es.filterMap Event.issued?

namespace Client

/-- The outstanding writes are those that the server has received over this connection and
those that it has not. It has the first in it, and comes to what was issued by making the
second. The write tree has them after the writes whose acknowledgement is held back. -/
structure Phase (t : Tree κ α) (ws : List (Patch κ α)) (c : Client κ α)
    (held : List (FOutstandingPut κ α)) (received waiting : List (Nat × FOutstandingPut κ α)) :
    Prop where
  puts : c.outstandingPuts = received ++ waiting
  sorted : Sorted c.outstandingPuts
  numbered : ∀ e ∈ c.outstandingPuts, e.1 < c.putCounter
  responses : c.down.filterMap Response.put? = received.map fun e => (e.1, e.2.writeId)
  requests : c.up.filterMap Request.put? = if c.canSendWrites then waiting else []
  offline : c.canSendWrites = false → received = []
  auth : c.up.countP Request.isAuth + c.down.countP Response.isAuth =
    if c.connectionState = .authenticating then 1 else 0
  writes : c.pendingWriteTree.allWrites =
    (held ++ c.outstandingPuts.map Prod.snd).map FOutstandingPut.record
  heldBack : held.map FOutstandingPut.writeId = c.putsToAck
  ascending : c.pendingWriteTree.allWrites.Pairwise fun v w => v.writeId < w.writeId
  bounded : ∀ w ∈ c.pendingWriteTree.allWrites, w.writeId < c.writeIdCounter
  last : c.pendingWriteTree.lastWriteId < c.writeIdCounter
  counted : 0 ≤ c.writeIdCounter
  absorbed : c.server.tree.Absorbs (patches received)
  settled : (patches waiting).foldl Tree.patch c.server.tree = ws.foldl Tree.patch t

def Reliable (t : Tree κ α) (ws : List (Patch κ α)) (c : Client κ α) : Prop :=
  ∃ held received waiting, c.Phase t ws held received waiting

variable {t : Tree κ α} {ws : List (Patch κ α)} {c c' : Client κ α}
  {held : List (FOutstandingPut κ α)} {received waiting : List (Nat × FOutstandingPut κ α)}

/-- Only what all issued writes come to matters. -/
theorem Reliable.congr {t' : Tree κ α} {ws' : List (Patch κ α)} (h : c.Reliable t ws)
    (heq : ws.foldl Tree.patch t = ws'.foldl Tree.patch t') : c.Reliable t' ws' := by
  obtain ⟨held, received, waiting, hphase⟩ := h
  exact ⟨held, received, waiting, { hphase with settled := hphase.settled.trans heq }⟩

theorem foldl_sendPut (ps : List (Nat × FOutstandingPut κ α)) (c : Client κ α) :
    ps.foldl sendPut c = { c with up := c.up ++ ps.map fun e => .put e.1 e.2 } := by
  induction ps generalizing c with
  | nil => simp
  | cons p ps ih =>
    rw [List.foldl_cons, ih, sendPut]
    simp

theorem foldl_sendListen (qs : List (List κ)) (c : Client κ α) :
    qs.foldl (fun c _ => c.sendListen) c =
      { c with
        up := c.up ++ qs.map fun _ => .listen
        unackedListensCount := c.unackedListensCount + qs.length } := by
  induction qs generalizing c with
  | nil => simp
  | cons q qs ih =>
    rw [List.foldl_cons, ih, sendListen]
    simp [Nat.add_comm, Nat.add_left_comm]

theorem restoreState_eq (c : Client κ α) : c.restoreState =
    { c with
      up := c.up ++ c.listens.map (fun _ => .listen) ++
        c.outstandingPuts.map fun e => .put e.1 e.2
      unackedListensCount := c.unackedListensCount + c.listens.length } := by
  rw [restoreState, foldl_sendListen, foldl_sendPut]

theorem reliable_init (server : FNode κ α) : (init server).Reliable server.tree [] := by
  refine ⟨[], [], [], ?_⟩
  constructor <;>
    simp [init, sorted_nil, FWriteTree.init, canSendWrites, patches, Tree.Absorbs]

theorem Phase.settled_outstanding (h : c.Phase t ws held received waiting) :
    (patches c.outstandingPuts).foldl Tree.patch c.server.tree = ws.foldl Tree.patch t := by
  rw [h.puts, patches, List.map_append, ← h.settled]
  exact h.absorbed.foldl_append (patches waiting)

/-- A connection that is lost leaves every outstanding write to be sent again. -/
theorem Phase.onDisconnect (h : c.Phase t ws held received waiting) :
    c.onDisconnect.Phase t ws held [] c.outstandingPuts :=
  { puts := rfl
    sorted := h.sorted
    numbered := h.numbered
    responses := rfl
    requests := by simp [Client.onDisconnect, canSendWrites]
    offline := fun _ => rfl
    auth := rfl
    writes := h.writes
    heldBack := h.heldBack
    ascending := h.ascending
    bounded := h.bounded
    last := h.last
    counted := h.counted
    absorbed := absorbs_nil _
    settled := h.settled_outstanding }

/-- A request that is neither a write nor an authentication changes nothing of this. -/
theorem Phase.sendOther {request : Request κ α} (n : Nat) (h : c.Phase t ws held received waiting)
    (hput : request.put? = none) (hauth : request.isAuth = false) :
    { c with up := c.up ++ [request], unackedListensCount := n }.Phase t ws held received
      waiting :=
  { h with
    requests := by
      rw [List.filterMap_append, List.filterMap_cons_none hput, List.filterMap_nil,
        List.append_nil]
      exact h.requests
    auth := by
      rw [List.countP_append, List.countP_singleton, hauth, if_neg Bool.false_ne_true,
        Nat.add_zero]
      exact h.auth }

/-- Once connected, the device sends every outstanding write again. -/
theorem Phase.restoreState {down : List Response} (h : c.Phase t ws held received waiting)
    (hoffline : c.canSendWrites = false) (hdown : down.filterMap Response.put? = [])
    (hauth : c.up.countP Request.isAuth + down.countP Response.isAuth = 0) :
    ({ c with connectionState := .connected, down := down } : Client κ α).restoreState.Phase t ws
      held [] c.outstandingPuts := by
  have hup : c.up.filterMap Request.put? = [] := by simpa [hoffline] using h.requests
  have hlistens : (c.listens.map fun _ => (Request.listen : Request κ α)).filterMap
      Request.put? = [] := List.filterMap_eq_nil_iff.mpr (by simp [Request.put?])
  have hputs : ∀ ps : List (Nat × FOutstandingPut κ α),
      (ps.map fun e => (Request.put e.1 e.2 : Request κ α)).filterMap Request.put? = ps := by
    intro ps
    induction ps with
    | nil => rfl
    | cons p ps ih => simp [Request.put?, ih]
  rw [restoreState_eq]
  exact
    { puts := rfl
      sorted := h.sorted
      numbered := h.numbered
      responses := hdown
      requests := by
        rw [List.filterMap_append, List.filterMap_append, hup, hlistens, hputs]
        rfl
      offline := fun _ => rfl
      auth := by
        have hzero : (c.listens.map fun _ => (Request.listen : Request κ α)).countP
            Request.isAuth = 0 := by simp [List.countP_eq_zero, Request.isAuth]
        have hzero' : (c.outstandingPuts.map fun e => (Request.put e.1 e.2 : Request κ α)).countP
            Request.isAuth = 0 := by simp [List.countP_eq_zero, Request.isAuth]
        simp only [List.countP_append, hzero, hzero', Nat.add_zero]
        simpa using hauth
      writes := h.writes
      heldBack := h.heldBack
      ascending := h.ascending
      bounded := h.bounded
      last := h.last
      counted := h.counted
      absorbed := absorbs_nil _
      settled := h.settled_outstanding }

theorem putInternal_eq (c : Client κ α) (p : FOutstandingPut κ α) : c.putInternal p =
    { c with
      putCounter := c.putCounter + 1
      outstandingPuts := insertKey c.putCounter p c.outstandingPuts
      up := c.up ++ if c.canSendWrites then [.put c.putCounter p] else [] } := by
  cases hsend : c.canSendWrites with
  | true => simp [Client.putInternal, canSendWrites, sendPut, of_decide_eq_true hsend]
  | false => simp [Client.putInternal, canSendWrites, of_decide_eq_false hsend]

/-- A write that is issued waits with the others, and is sent at once when that is possible. -/
theorem Phase.putInternal {p : FOutstandingPut κ α} {writeTree : FWriteTree κ α}
    (h : c.Phase t ws held received waiting) (hid : p.writeId = c.writeIdCounter)
    (hall : writeTree.allWrites = c.pendingWriteTree.allWrites ++ [p.record])
    (hlast : writeTree.lastWriteId = p.writeId) :
    ({ c with
      writeIdCounter := c.writeIdCounter + 1
      pendingWriteTree := writeTree }.putInternal p).Phase t (ws ++ [p.patch]) held received
        (waiting ++ [(c.putCounter, p)]) := by
  have hputs : insertKey c.putCounter p c.outstandingPuts =
      c.outstandingPuts ++ [(c.putCounter, p)] := insertKey_of_lt p h.numbered
  have hsend : ∀ u : FWriteTree κ α, ({ c with
      writeIdCounter := c.writeIdCounter + 1
      pendingWriteTree := u } : Client κ α).canSendWrites = c.canSendWrites := fun _ => rfl
  rw [putInternal_eq]
  exact
    { puts := by rw [hputs, h.puts, List.append_assoc]
      sorted := sorted_insertKey p h.sorted
      numbered := fun e he => by
        cases mem_insertKey he with
        | inl he =>
          rw [he]
          exact Nat.lt_succ_self _
        | inr he => exact (h.numbered e he).trans (Nat.lt_succ_self _)
      responses := h.responses
      requests := by
        rw [List.filterMap_append, h.requests, hsend]
        change _ = if c.canSendWrites then _ else _
        split_ifs <;> rfl
      offline := h.offline
      auth := by
        have hzero : (if c.canSendWrites then [Request.put c.putCounter p] else []).countP
            Request.isAuth = 0 := by split_ifs <;> rfl
        rw [List.countP_append, hsend, hzero, Nat.add_zero]
        exact h.auth
      writes := by
        rw [hall, h.writes, hputs]
        simp
      heldBack := h.heldBack
      ascending := by
        rw [hall]
        refine List.pairwise_append.mpr ⟨h.ascending, List.pairwise_singleton .., ?_⟩
        intro w hw v hv
        have hlt := h.bounded w hw
        rw [List.mem_singleton.mp hv]
        change w.writeId < p.writeId
        omega
      bounded := fun w hw => by
        rw [hall] at hw
        change w.writeId < c.writeIdCounter + 1
        cases List.mem_append.mp hw with
        | inl hw =>
          have hlt := h.bounded w hw
          omega
        | inr hw =>
          rw [List.mem_singleton.mp hw]
          change p.writeId < _
          omega
      last := by
        rw [hlast, hid]
        change c.writeIdCounter < c.writeIdCounter + 1
        omega
      counted := by
        have hcounted := h.counted
        change 0 ≤ c.writeIdCounter + 1
        omega
      absorbed := h.absorbed
      settled := by
        rw [patches, List.map_append, List.foldl_append, List.foldl_append]
        exact congrArg (Tree.patch · p.patch) h.settled }

/-- The first write under way reaches the server. -/
theorem Phase.receive {up : List (Request κ α)} {index : Nat} {p : FOutstandingPut κ α} (ok : Bool)
    (h : c.Phase t ws held received waiting) (hup : c.up = .put index p :: up) :
    ∃ rest, waiting = (index, p) :: rest ∧
      (({ c with up := up } : Client κ α).onRequest ok (.put index p)).Phase t ws held
        (received ++ [(index, p)]) rest := by
  have hrequests := h.requests
  rw [hup, List.filterMap_cons] at hrequests
  cases hsend : c.canSendWrites with
  | false =>
    rw [hsend] at hrequests
    cases hrequests
  | true =>
    simp only [hsend, if_true, Request.put?] at hrequests
    refine ⟨up.filterMap Request.put?, hrequests.symm, ?_⟩
    have hauth := h.auth
    rw [hup, List.countP_cons_of_neg (by simp [Request.isAuth])] at hauth
    exact
      { puts := by
          rw [List.append_assoc, List.singleton_append]
          exact h.puts.trans (by rw [← hrequests])
        sorted := h.sorted
        numbered := h.numbered
        responses := by
          rw [onRequest, List.filterMap_append, List.map_append]
          exact congrArg (· ++ [(index, p.writeId)]) h.responses
        requests := by
          change up.filterMap Request.put? = if c.canSendWrites then _ else _
          rw [hsend, if_pos rfl]
        offline := fun hoffline => by
          change c.canSendWrites = false at hoffline
          rw [hsend] at hoffline
          cases hoffline
        auth := by
          rw [onRequest, List.countP_append]
          exact hauth
        writes := h.writes
        heldBack := h.heldBack
        ascending := h.ascending
        bounded := h.bounded
        last := h.last
        counted := h.counted
        absorbed := by
          rw [onRequest, FNode.tree_updateChild, patches, List.map_append]
          exact h.absorbed.snoc _
        settled := by
          rw [onRequest, FNode.tree_updateChild, ← h.settled, ← hrequests]
          rfl }

/-- The oldest of the waiting writes, or one behind those that are held back, is acknowledged. -/
theorem ackWrite_eq {us vs : List (FWriteRecord κ α)} {w : FWriteRecord κ α}
    (hall : c.pendingWriteTree.allWrites = us ++ w :: vs)
    (hascending : c.pendingWriteTree.allWrites.Pairwise fun v w => v.writeId < w.writeId)
    (hbounded : ∀ w ∈ c.pendingWriteTree.allWrites, w.writeId < c.writeIdCounter)
    (hlast : c.pendingWriteTree.lastWriteId < c.writeIdCounter) (hcounted : 0 ≤ c.writeIdCounter) :
    ∃ u, c.ackWrite w.writeId = some { c with pendingWriteTree := u } ∧ u.allWrites = us ++ vs ∧
      u.lastWriteId < c.writeIdCounter := by
  rw [hall] at hascending hbounded
  have hids : ∀ v ∈ us, v.writeId ≠ w.writeId := by
    intro v hv
    exact Int.ne_of_lt ((List.pairwise_append.mp hascending).2.2 v hv w (List.mem_cons_self ..))
  obtain ⟨u, b, hremove, hrest, hid⟩ := FWriteTree.removeWriteId_eq hall hids
  refine ⟨u, by simp [ackWrite, hremove], hrest, ?_⟩
  rcases hid with hid | hid | ⟨v, hv, hid⟩
  · rw [hid]
    exact hlast
  · rw [hid]
    omega
  · rw [hid]
    refine hbounded v ?_
    cases List.mem_append.mp hv with
    | inl hv => exact List.mem_append_left _ hv
    | inr hv => exact List.mem_append_right _ (List.mem_cons_of_mem w hv)

/-- The acknowledgements that were held back are made up for. -/
theorem foldlM_ackWrite {us vs : List (FWriteRecord κ α)} {c : Client κ α}
    (hall : c.pendingWriteTree.allWrites = us ++ vs)
    (hascending : c.pendingWriteTree.allWrites.Pairwise fun v w => v.writeId < w.writeId)
    (hbounded : ∀ w ∈ c.pendingWriteTree.allWrites, w.writeId < c.writeIdCounter)
    (hlast : c.pendingWriteTree.lastWriteId < c.writeIdCounter) (hcounted : 0 ≤ c.writeIdCounter) :
    ∃ u, (us.map FWriteRecord.writeId).foldlM ackWrite c = some { c with pendingWriteTree := u } ∧
      u.allWrites = vs ∧ u.lastWriteId < c.writeIdCounter := by
  induction us generalizing c with
  | nil => exact ⟨c.pendingWriteTree, rfl, hall, hlast⟩
  | cons w us ih =>
    have hfirst : c.pendingWriteTree.allWrites = [] ++ w :: (us ++ vs) := hall
    obtain ⟨u, hack, hrest, hlast'⟩ := ackWrite_eq hfirst hascending hbounded hlast hcounted
    rw [hall] at hascending hbounded
    rw [List.nil_append] at hrest
    obtain ⟨u', hfold, hdone⟩ := ih (c := { c with pendingWriteTree := u }) hrest
      (by rw [hrest]; exact (List.pairwise_cons.mp hascending).2)
      (by rw [hrest]; exact fun v hv => hbounded v (List.mem_cons_of_mem w hv)) hlast' hcounted
    refine ⟨u', ?_, hdone⟩
    rw [List.map_cons, List.foldlM_cons, hack]
    exact hfold

/-- The answer to a write is to the first of those that the server has received. -/
theorem Phase.received_of_response {index : Nat} {writeId : Int} {down : List Response}
    (h : c.Phase t ws held received waiting) (hdown : c.down = .put index writeId :: down) :
    ∃ p rest, received = (index, p) :: rest ∧ p.writeId = writeId ∧
      objectForKey index c.outstandingPuts = some p := by
  have hresponses := h.responses
  rw [hdown, List.filterMap_cons] at hresponses
  cases received with
  | nil => cases hresponses
  | cons e rest =>
    obtain ⟨k, p⟩ := e
    simp only [Response.put?, List.map_cons, List.cons.injEq, Prod.mk.injEq] at hresponses
    obtain ⟨⟨rfl, rfl⟩, -⟩ := hresponses
    refine ⟨p, rest, rfl, rfl, objectForKey_of_mem h.sorted ?_⟩
    rw [h.puts]
    exact List.mem_cons_self ..

/-- A response that is neither to a write nor to the authentication changes nothing of this. -/
theorem Phase.dropOther {response : Response} {down : List Response} (n : Nat)
    (h : c.Phase t ws held received waiting) (hdown : c.down = response :: down)
    (hput : response.put? = none) (hauth : response.isAuth = false) :
    { c with down := down, unackedListensCount := n }.Phase t ws held received waiting :=
  { h with
    responses := by
      have hresponses := h.responses
      rw [hdown, List.filterMap_cons, hput] at hresponses
      exact hresponses
    auth := by
      have hcount := h.auth
      rw [hdown, List.countP_cons_of_neg (by simp [hauth])] at hcount
      exact hcount }

/-- The acknowledgements that were held back are passed on. -/
theorem Phase.ackPuts (h : c.Phase t ws held received waiting) :
    ∃ u, c.ackPuts = some { c with pendingWriteTree := u, putsToAck := [] } ∧
      u.allWrites = (c.outstandingPuts.map Prod.snd).map FOutstandingPut.record ∧
      { c with pendingWriteTree := u, putsToAck := [] }.Phase t ws [] received waiting := by
  have hall : c.pendingWriteTree.allWrites = held.map FOutstandingPut.record ++
      (c.outstandingPuts.map Prod.snd).map FOutstandingPut.record := by
    rw [h.writes, List.map_append]
  have hids : (held.map FOutstandingPut.record).map FWriteRecord.writeId = c.putsToAck := by
    rw [← h.heldBack, List.map_map]
    rfl
  obtain ⟨u, hfold, hrest, hlast⟩ := foldlM_ackWrite hall h.ascending h.bounded h.last h.counted
  rw [hids] at hfold
  have hascending := h.ascending
  have hbounded := h.bounded
  rw [hall] at hascending hbounded
  refine ⟨u, by simp [Client.ackPuts, hfold], hrest, ?_⟩
  exact
    { h with
      writes := hrest
      heldBack := rfl
      ascending := by
        rw [hrest]
        exact (List.pairwise_append.mp hascending).2.1
      bounded := fun w hw => hbounded w (List.mem_append_right _ (hrest ▸ hw))
      last := hlast }

/-- The answer to a write takes it from the outstanding ones. The write tree keeps it where
the acknowledgement is held back. -/
theorem Phase.answer {index : Nat} {p : FOutstandingPut κ α} {down : List Response}
    {held' : List (FOutstandingPut κ α)} {u : FWriteTree κ α} {acks : List Int}
    (h : c.Phase t ws held ((index, p) :: received) waiting)
    (hdown : c.down = .put index p.writeId :: down)
    (hwrites : u.allWrites =
      (held' ++ (received ++ waiting).map Prod.snd).map FOutstandingPut.record)
    (hheld : held'.map FOutstandingPut.writeId = acks)
    (hsub : u.allWrites.Sublist c.pendingWriteTree.allWrites)
    (hlast : u.lastWriteId < c.writeIdCounter) :
    ({ c with
      down := down
      outstandingPuts := removeKey index c.outstandingPuts
      pendingWriteTree := u
      putsToAck := acks } : Client κ α).Phase t ws held' received waiting := by
  have hremove : removeKey index c.outstandingPuts = received ++ waiting := by
    have hsorted := h.sorted
    rw [h.puts, List.cons_append] at hsorted ⊢
    exact removeKey_first hsorted
  have hnumbered := h.numbered
  have hresponses := h.responses
  have hauth := h.auth
  have habsorbed : c.server.tree.Absorbs (patches ([(index, p)] ++ received)) := h.absorbed
  rw [patches, List.map_append] at habsorbed
  rw [h.puts] at hnumbered
  rw [hdown, List.filterMap_cons, List.map_cons] at hresponses
  rw [hdown, List.countP_cons_of_neg (by simp [Response.isAuth])] at hauth
  exact
    { puts := hremove
      sorted := sorted_removeKey index h.sorted
      numbered := fun e he => by
        have he' : e ∈ received ++ waiting := hremove ▸ he
        exact hnumbered e (List.mem_cons_of_mem _ he')
      responses := (List.cons.inj hresponses).2
      requests := h.requests
      offline := fun hoffline => by cases h.offline hoffline
      auth := hauth
      writes := by
        rw [hwrites, ← hremove]
      heldBack := hheld
      ascending := h.ascending.sublist hsub
      bounded := fun w hw => h.bounded w (hsub.mem hw)
      last := hlast
      counted := h.counted
      absorbed := habsorbed.of_append
      settled := h.settled }

/-- With no listen waiting, the acknowledgement of a write is passed on. -/
theorem Phase.ackPut {index : Nat} {p : FOutstandingPut κ α} {down : List Response}
    (h : c.Phase t ws held ((index, p) :: received) waiting)
    (hdown : c.down = .put index p.writeId :: down) :
    ∃ u, ({ c with
        down := down
        outstandingPuts := removeKey index c.outstandingPuts } : Client κ α).ackWrite p.writeId =
      some { c with
        down := down
        outstandingPuts := removeKey index c.outstandingPuts
        pendingWriteTree := u } ∧
      ({ c with
        down := down
        outstandingPuts := removeKey index c.outstandingPuts
        pendingWriteTree := u } : Client κ α).Phase t ws held received waiting := by
  have hall : c.pendingWriteTree.allWrites = held.map FOutstandingPut.record ++
      p.record :: ((received ++ waiting).map Prod.snd).map FOutstandingPut.record := by
    rw [h.writes, h.puts]
    simp
  obtain ⟨u, hack, hrest, hlast⟩ := ackWrite_eq
    (c := { c with down := down, outstandingPuts := removeKey index c.outstandingPuts })
    hall h.ascending h.bounded h.last h.counted
  refine ⟨u, hack, h.answer hdown (by simp [hrest]) h.heldBack ?_ hlast⟩
  rw [hrest, hall]
  exact List.Sublist.append_left (List.sublist_cons_self ..) _

/-- While a listen waits, the acknowledgement is held back. -/
theorem Phase.holdBack {index : Nat} {p : FOutstandingPut κ α} {down : List Response}
    (h : c.Phase t ws held ((index, p) :: received) waiting)
    (hdown : c.down = .put index p.writeId :: down) :
    ({ c with
      down := down
      outstandingPuts := removeKey index c.outstandingPuts
      putsToAck := c.putsToAck ++ [p.writeId] } : Client κ α).Phase t ws (held ++ [p]) received
        waiting := by
  refine h.answer hdown ?_ ?_ (List.Sublist.refl _) h.last
  · rw [h.writes, h.puts]
    simp
  · rw [List.map_append, h.heldBack]
    rfl

/-- What the application listens to does not matter for its writes. -/
theorem Phase.setListens (listens : List (List κ)) (h : c.Phase t ws held received waiting) :
    { c with listens := listens }.Phase t ws held received waiting := { h with }

/-- The way to a new connection, before anything is sent over it. -/
theorem Phase.setState {state : ConnectionState} (token : Bool)
    (h : c.Phase t ws held received waiting)
    (hc : c.connectionState ≠ .authenticating ∧ c.connectionState ≠ .connected)
    (hstate : state ≠ .authenticating ∧ state ≠ .connected) :
    { c with connectionState := state, authToken := token }.Phase t ws held received waiting := by
  have hsend : c.canSendWrites = false := by simp [canSendWrites, hc.2]
  have hsend' : ({ c with connectionState := state, authToken := token } :
      Client κ α).canSendWrites = false := by simp [canSendWrites, hstate.2]
  have hrequests := h.requests
  have hauth := h.auth
  rw [if_neg hc.1] at hauth
  rw [hsend] at hrequests
  exact
    { h with
      requests := by
        rw [hsend']
        exact hrequests
      offline := fun _ => h.offline hsend
      auth := by
        rw [if_neg hstate.1]
        exact hauth }

theorem Phase.authenticate (h : c.Phase t ws held received waiting)
    (hstate : c.connectionState = .connecting) :
    { c with connectionState := .authenticating, up := c.up ++ [Request.auth] }.Phase t ws held received
      waiting := by
  have hsend : c.canSendWrites = false := by simp [canSendWrites, hstate]
  have hrequests := h.requests
  have hauth := h.auth
  rw [hsend] at hrequests
  rw [hstate, if_neg (by decide)] at hauth
  exact
    { h with
      requests := by
        rw [List.filterMap_append, hrequests]
        rfl
      offline := fun _ => h.offline hsend
      auth := by
        have hone : [(Request.auth : Request κ α)].countP Request.isAuth = 1 := rfl
        rw [List.countP_append, if_pos rfl, hone]
        change _ + 1 + c.down.countP Response.isAuth = 1
        omega }

/-- The server answers a request that is not a write. -/
theorem Phase.receiveOther {request : Request κ α} {up : List (Request κ α)} (ok : Bool)
    (h : c.Phase t ws held received waiting) (hup : c.up = request :: up)
    (hput : request.put? = none) :
    (({ c with up := up } : Client κ α).onRequest ok request).Phase t ws held received
      waiting := by
  have hrequests := h.requests
  have hauth := h.auth
  rw [hup, List.filterMap_cons, hput] at hrequests
  rw [hup, List.countP_cons] at hauth
  cases request with
  | put index p => cases hput
  | unlisten => exact { h with requests := hrequests, auth := hauth }
  | auth =>
    refine { h with requests := hrequests, responses := ?_, auth := ?_ }
    · rw [onRequest, List.filterMap_append, List.filterMap_cons_none rfl, List.filterMap_nil,
        List.append_nil]
      exact h.responses
    · rw [onRequest, List.countP_append]
      simp only [Request.isAuth, if_true, List.countP_singleton, Response.isAuth] at hauth ⊢
      rw [← hauth]
      omega
  | listen =>
    refine { h with requests := hrequests, responses := ?_, auth := ?_ }
    · rw [onRequest, List.filterMap_append, List.filterMap_cons_none rfl, List.filterMap_nil,
        List.append_nil]
      exact h.responses
    · rw [onRequest, List.countP_append]
      simpa [Request.isAuth, Response.isAuth] using hauth

/-- The answer to an authentication comes while it is waited for, and is the only one. -/
theorem Phase.authenticating {ok : Bool} {down : List Response}
    (h : c.Phase t ws held received waiting) (hdown : c.down = .auth ok :: down) :
    c.canSendWrites = false ∧ c.up.countP Request.isAuth + down.countP Response.isAuth = 0 := by
  have hauth := h.auth
  rw [hdown, List.countP_cons, Response.isAuth, if_pos rfl] at hauth
  split_ifs at hauth with hstate
  refine ⟨by simp [canSendWrites, hstate], ?_⟩
  omega

theorem Phase.onResponse {response : Response} {down : List Response}
    (h : c.Phase t ws held received waiting) (hdown : c.down = response :: down)
    (hstep : ({ c with down := down } : Client κ α).onResponse response = some c') :
    c'.Reliable t ws := by
  cases response with
  | put index writeId =>
    obtain ⟨p, rest, rfl, rfl, hget⟩ := h.received_of_response hdown
    simp only [Client.onResponse, hget] at hstep
    split_ifs at hstep with hcount
    · obtain ⟨u, hack, hphase⟩ := h.ackPut hdown
      rw [hack] at hstep
      cases hstep
      exact ⟨held, rest, waiting, hphase⟩
    · cases hstep
      exact ⟨held ++ [p], rest, waiting, h.holdBack hdown⟩
  | listen =>
    have hdrop := h.dropOther (c.unackedListensCount - 1) hdown rfl rfl
    simp only [Client.onResponse] at hstep
    split_ifs at hstep with hzero hlast
    · obtain ⟨u, hack, -, hphase⟩ := hdrop.ackPuts
      rw [hack] at hstep
      cases hstep
      exact ⟨[], received, waiting, hphase⟩
    · cases hstep
      exact ⟨held, received, waiting, hdrop⟩
  | auth ok =>
    obtain ⟨hoffline, hauth⟩ := h.authenticating hdown
    have hresponses := h.responses
    rw [hdown, List.filterMap_cons_none rfl] at hresponses
    cases ok with
    | true =>
      cases hstep
      refine ⟨held, [], c.outstandingPuts, h.restoreState hoffline ?_ hauth⟩
      rw [hresponses, h.offline hoffline, List.map_nil]
    | false =>
      cases hstep
      refine ⟨held, [], c.outstandingPuts, ?_⟩
      exact { h.onDisconnect with }

theorem Reliable.quiet {e : Event κ α} (he : e.issued? = none) (h : c.Reliable t ws) :
    c.Reliable t (ws ++ e.issued?.toList) := by
  rw [he, Option.toList_none, List.append_nil]
  exact h

theorem reliable_step {e : Event κ α} (h : c.Reliable t ws) (hstep : c.step e = some c') :
    c'.Reliable t (ws ++ e.issued?.toList) := by
  obtain ⟨held, received, waiting, h⟩ := h
  cases e with
  | set path node =>
    simp only [step, Client.set, FWriteTree.addOverwriteAtPath] at hstep
    split at hstep
    · rename_i u hadd
      split_ifs at hadd
      cases hstep
      cases hadd
      exact ⟨held, received, _, Phase.putInternal (p := ⟨path, node, c.writeIdCounter⟩) h rfl rfl rfl⟩
    · cases hstep
  | listen query =>
    refine Reliable.quiet rfl ?_
    simp only [step] at hstep
    split_ifs at hstep with hmem hconnected
    · cases hstep
      exact ⟨held, received, waiting,
        (h.setListens (c.listens ++ [query])).sendOther _ rfl rfl⟩
    · cases hstep
      exact ⟨held, received, waiting, h.setListens _⟩
  | unlisten query =>
    refine Reliable.quiet rfl ?_
    simp only [step] at hstep
    split_ifs at hstep with hmem hconnected
    · cases hstep
      exact ⟨held, received, waiting,
        (h.setListens (c.listens.erase query)).sendOther c.unackedListensCount rfl rfl⟩
    · cases hstep
      exact ⟨held, received, waiting, h.setListens _⟩
    · cases hstep
      exact ⟨held, received, waiting, h⟩
  | retry =>
    refine Reliable.quiet rfl ?_
    simp only [step] at hstep
    split_ifs at hstep with hstate
    cases hstep
    exact ⟨held, received, waiting, h.setState c.authToken (by simp [hstate]) (by simp)⟩
  | openNetworkConnection token =>
    refine Reliable.quiet rfl ?_
    simp only [step] at hstep
    split_ifs at hstep with hstate
    cases hstep
    exact ⟨held, received, waiting, h.setState token (by simp [hstate]) (by simp)⟩
  | onReady =>
    refine Reliable.quiet rfl ?_
    simp only [step] at hstep
    split_ifs at hstep with hstate htoken
    · cases hstep
      exact ⟨held, received, waiting, h.authenticate hstate⟩
    · cases hstep
      have hoffline : c.canSendWrites = false := by simp [canSendWrites, hstate]
      have hauth := h.auth
      rw [hstate] at hauth
      refine ⟨held, [], c.outstandingPuts, h.restoreState hoffline ?_ hauth⟩
      rw [h.responses, h.offline hoffline, List.map_nil]
  | receive ok =>
    refine Reliable.quiet rfl ?_
    simp only [step] at hstep
    split at hstep
    · rename_i request up hup
      cases hstep
      cases hput : request.put? with
      | none => exact ⟨held, received, waiting, h.receiveOther ok hup hput⟩
      | some e =>
        cases request with
        | put index p =>
          obtain ⟨rest, -, hphase⟩ := h.receive ok hup
          exact ⟨held, _, rest, hphase⟩
        | _ => cases hput
    · cases hstep
  | onDataMessage =>
    refine Reliable.quiet rfl ?_
    simp only [step] at hstep
    split at hstep
    · rename_i response down hdown
      exact h.onResponse hdown hstep
    · cases hstep
  | onDisconnect =>
    cases hstep
    exact Reliable.quiet rfl ⟨held, [], c.outstandingPuts, h.onDisconnect⟩

theorem issued_snoc (es : List (Event κ α)) (e : Event κ α) :
    issued (es ++ [e]) = issued es ++ e.issued?.toList := by
  rw [issued, List.filterMap_append]
  cases he : e.issued? <;> simp [he, issued]

theorem reliable_run {server : FNode κ α} {es : List (Event κ α)}
    (hrun : run step (init server) es = some c) : c.Reliable server.tree (issued es) := by
  have hstart : (init server).Reliable server.tree (issued []) := reliable_init server
  refine run_invariant_past (fun past c => c.Reliable server.tree (issued past)) ?_ hstart hrun
  intro past c e c' h hstep
  rw [issued_snoc]
  exact reliable_step h hstep

/-- Two writes are sent, the first reaches the server and its answer is lost, and both are
sent again. -/
def sentTwice : List (Event Nat Nat) :=
  [.retry, .openNetworkConnection false, .onReady, .set [1, 2] (.leaf 20), .set [1, 2] (.leaf 21),
    .receive true, .onDisconnect, .retry, .openNetworkConnection false, .onReady, .receive true]

def resent : Client Nat Nat := (run step (init .emptyNode) sentTwice).getD (init .emptyNode)

end Client

end Pincushion.Connection
