import Pincushion.OwnView

/-! No assertion of the client fails. A write is always numbered above those that wait, an
acknowledgement always finds its record, and every answer to a listen was counted. Once all
messages of a connection have arrived, nothing waits any more. -/
namespace Pincushion.Connection
open KeyTree SortedDictionary Snapshot Runs
variable {κ α : Type*} [LinearOrder κ]

def Request.isListen : Request κ α → Bool
  | .listen => true
  | _ => false

def Response.isListen : Response → Bool
  | .listen => true
  | _ => false

namespace Client
variable {t : Tree κ α} {ws : List (Patch κ α)} {c c' : Client κ α}
  {held : List (FOutstandingPut κ α)} {received waiting : List (Nat × FOutstandingPut κ α)}

/-- The listens that are counted are on their way to the server or their answers on the way back. -/
def Counted (c : Client κ α) : Prop :=
  c.unackedListensCount = c.up.countP Request.isListen + c.down.countP Response.isListen

theorem Counted.same (h : c.Counted) (hcount : c'.unackedListensCount = c.unackedListensCount)
    (hup : c'.up.countP Request.isListen = c.up.countP Request.isListen)
    (hdown : c'.down.countP Response.isListen = c.down.countP Response.isListen) : c'.Counted := by
  rw [Counted, hcount, hup, hdown]
  exact h

theorem Counted.restoreState {down : List Response} (h : c.Counted)
    (hdown : down.countP Response.isListen = c.down.countP Response.isListen) :
    ({ c with connectionState := .connected, down := down } : Client κ α).restoreState.Counted := by
  have hlistens : ∀ qs : List (List κ),
      (qs.map fun _ => (.listen : Request κ α)).countP Request.isListen = qs.length := by
    intro qs
    induction qs with
    | nil => rfl
    | cons q qs ih => rw [List.map_cons, List.countP_cons_of_pos rfl, ih, List.length_cons]
  have hputs : ∀ ps : List (Nat × FOutstandingPut κ α),
      (ps.map fun e => (.put e.1 e.2 : Request κ α)).countP Request.isListen = 0 := by
    intro ps
    rw [List.countP_eq_zero]
    intro r hr
    obtain ⟨e, -, rfl⟩ := List.mem_map.mp hr
    exact Bool.false_ne_true
  rw [restoreState_eq, Counted, List.countP_append, List.countP_append, hlistens, hputs, hdown]
  have hcounted : c.unackedListensCount = _ := h
  change c.unackedListensCount + c.listens.length = c.up.countP Request.isListen +
    c.listens.length + 0 + c.down.countP Response.isListen
  omega

theorem ackWrite_counted {writeId : Int} (h : c.Counted) (hack : c.ackWrite writeId = some c') :
    c'.Counted := by
  obtain ⟨x, -, rfl⟩ := Option.map_eq_some_iff.mp hack
  exact h

theorem ackPuts_counted (h : c.Counted) (hack : c.ackPuts = some c') : c'.Counted := by
  obtain ⟨m, hfold, rfl⟩ := Option.map_eq_some_iff.mp hack
  have hm : m.Counted := by
    clear hack
    generalize c.putsToAck = ids at hfold
    induction ids generalizing c with
    | nil =>
      cases hfold
      exact h
    | cons id ids ih =>
      rw [List.foldlM_cons] at hfold
      obtain ⟨c'', hack, hrest⟩ := Option.bind_eq_some_iff.mp hfold
      exact ih (ackWrite_counted h hack) hrest
  exact hm

theorem Counted.onResponse {response : Response} {down : List Response} (h : c.Counted)
    (hdown : c.down = response :: down)
    (hstep : ({ c with down := down } : Client κ α).onResponse response = some c') :
    c'.Counted := by
  have hcounted : c.unackedListensCount = _ := h
  rw [hdown, List.countP_cons] at hcounted
  cases response with
  | auth ok =>
    cases ok with
    | true =>
      cases hstep
      exact h.restoreState (by rw [hdown, List.countP_cons_of_neg (by simp [Response.isListen])])
    | false =>
      cases hstep
      rfl
  | listen =>
    simp only [Client.onResponse] at hstep
    rw [Response.isListen, if_pos rfl] at hcounted
    have hless : ({ c with down := down, unackedListensCount := c.unackedListensCount - 1 } :
        Client κ α).Counted := by
      change c.unackedListensCount - 1 =
        c.up.countP Request.isListen + down.countP Response.isListen
      omega
    split_ifs at hstep
    · exact ackPuts_counted hless hstep
    · cases hstep
      exact hless
  | put index writeId =>
    simp only [Response.isListen, Bool.false_eq_true, if_false, Nat.add_zero] at hcounted
    simp only [Client.onResponse] at hstep
    split at hstep
    · split_ifs at hstep
      · exact ackWrite_counted (c := { c with
          down := down, outstandingPuts := removeKey index c.outstandingPuts }) hcounted hstep
      · cases hstep
        exact hcounted
    · cases hstep
      exact hcounted

theorem counted_step {e : Event κ α} (h : c.Counted) (hstep : c.step e = some c') :
    c'.Counted := by
  have hcounted : c.unackedListensCount = _ := h
  cases e with
  | set path node =>
    simp only [step, Client.set] at hstep
    split at hstep
    · cases hstep
      rw [putInternal_eq]
      refine h.same rfl ?_ rfl
      rw [List.countP_append]
      split_ifs <;> rfl
    · cases hstep
  | listen query =>
    simp only [step] at hstep
    split_ifs at hstep <;> cases hstep
    · simp only [Counted, sendListen, List.countP_append]
      rw [show ([.listen] : List (Request κ α)).countP Request.isListen = 1 from rfl]
      omega
    · exact h
  | unlisten query =>
    simp only [step] at hstep
    split_ifs at hstep <;> cases hstep
    · refine h.same rfl ?_ rfl
      rw [List.countP_append]
      rfl
    · exact h
    · exact h
  | retry =>
    simp only [step] at hstep
    split_ifs at hstep
    cases hstep
    exact h
  | openNetworkConnection token =>
    simp only [step] at hstep
    split_ifs at hstep
    cases hstep
    exact h
  | onReady =>
    simp only [step] at hstep
    split_ifs at hstep <;> cases hstep
    · refine h.same rfl ?_ rfl
      rw [List.countP_append]
      rfl
    · exact h.restoreState rfl
  | receive ok =>
    simp only [step] at hstep
    split at hstep
    · rename_i request up hup
      cases hstep
      rw [hup, List.countP_cons] at hcounted
      cases request <;>
        simp only [Request.isListen, Bool.false_eq_true, if_false, if_true, Nat.add_zero] at hcounted
      all_goals
        simp only [Counted, onRequest, List.countP_append]
      · exact hcounted
      · rw [show [Response.listen].countP Response.isListen = 1 from rfl]
        omega
      · exact hcounted
      · exact hcounted
    · cases hstep
  | onDataMessage =>
    simp only [step] at hstep
    split at hstep
    · rename_i response down hdown
      exact h.onResponse hdown hstep
    · cases hstep
  | onDisconnect =>
    cases hstep
    rfl

theorem counted_run {server : FNode κ α} {es : List (Event κ α)}
    (hrun : run step (init server) es = some c) : c.Counted :=
  run_invariant Counted (fun _ _ _ h hstep => counted_step h hstep)
    (rfl : (init server).Counted) hrun

/-- A response of the server is always expected. -/
theorem Phase.onResponse_isSome {response : Response} {down : List Response}
    (h : c.Phase t ws held received waiting) (hcounted : c.Counted)
    (hdown : c.down = response :: down) :
    (({ c with down := down } : Client κ α).onResponse response).isSome := by
  cases response with
  | auth ok => cases ok <;> rfl
  | listen =>
    have hpos : c.unackedListensCount ≠ 0 := by
      rw [Counted, hdown, List.countP_cons_of_pos rfl] at hcounted
      omega
    obtain ⟨u, hack, -⟩ := (h.dropOther (c.unackedListensCount - 1) hdown rfl rfl).ackPuts
    simp only [Client.onResponse, hpos, if_false]
    split_ifs
    · rw [hack]
      rfl
    · rfl
  | put index writeId =>
    obtain ⟨p, rest, rfl, rfl, hget⟩ := h.received_of_response hdown
    obtain ⟨u, hack, -⟩ := h.ackPut hdown
    simp only [Client.onResponse, hget]
    split_ifs
    · rw [hack]
      rfl
    · rfl

/-- Nothing of the connection is changed. -/
def SameConnection (c c' : Client κ α) : Prop :=
  c'.up = c.up ∧ c'.down = c.down ∧ c'.connectionState = c.connectionState

theorem ackWrite_same {writeId : Int} (hack : c.ackWrite writeId = some c') :
    c.SameConnection c' := by
  obtain ⟨x, -, rfl⟩ := Option.map_eq_some_iff.mp hack
  exact ⟨rfl, rfl, rfl⟩

theorem foldlM_ackWrite_same {ids : List Int} (hfold : ids.foldlM ackWrite c = some c') :
    c.SameConnection c' := by
  induction ids generalizing c with
  | nil =>
    cases hfold
    exact ⟨rfl, rfl, rfl⟩
  | cons id ids ih =>
    rw [List.foldlM_cons] at hfold
    obtain ⟨m, hack, hrest⟩ := Option.bind_eq_some_iff.mp hfold
    obtain ⟨hup, hdown, hstate⟩ := ackWrite_same hack
    obtain ⟨hup', hdown', hstate'⟩ := ih hrest
    exact ⟨hup'.trans hup, hdown'.trans hdown, hstate'.trans hstate⟩

/-- A response does not send anything, except that the end of an authentication does. -/
theorem onResponse_same {response : Response} {down : List Response}
    (hauth : response.isAuth = false)
    (hstep : ({ c with down := down } : Client κ α).onResponse response = some c') :
    c'.up = c.up ∧ c'.down = down ∧ c'.connectionState = c.connectionState := by
  cases response with
  | auth ok => cases hauth
  | listen =>
    simp only [Client.onResponse] at hstep
    split_ifs at hstep
    · obtain ⟨m, hfold, rfl⟩ := Option.map_eq_some_iff.mp hstep
      exact foldlM_ackWrite_same hfold
    · cases hstep
      exact ⟨rfl, rfl, rfl⟩
  | put index writeId =>
    simp only [Client.onResponse] at hstep
    split at hstep
    · split_ifs at hstep
      · exact ackWrite_same hstep
      · cases hstep
        exact ⟨rfl, rfl, rfl⟩
    · cases hstep
      exact ⟨rfl, rfl, rfl⟩

/-- A client that is connected, with all that is known of it. -/
structure Online (t : Tree κ α) (ws : List (Patch κ α)) (c : Client κ α) : Prop where
  viewed : c.Viewed t ws
  reliable : c.Reliable t ws
  counted : c.Counted
  sends : c.canSendWrites = true

theorem online_step {e : Event κ α} (h : c.Online t ws) (he : e.issued? = none)
    (hlisten : c.Listening e) (hstep : c.step e = some c') (hsend : c'.canSendWrites = true) :
    c'.Online t ws := by
  have hviewed := viewed_step h.viewed h.reliable hlisten hstep
  have hreliable := reliable_step h.reliable hstep
  rw [he, Option.toList_none, List.append_nil] at hviewed hreliable
  exact ⟨hviewed, hreliable, counted_step h.counted hstep, hsend⟩

theorem Online.no_auth (h : c.Online t ws) : c.down.countP Response.isAuth = 0 := by
  obtain ⟨held, received, waiting, hphase⟩ := h.reliable
  have hauth := hphase.auth
  have hstate : c.connectionState = .connected := of_decide_eq_true h.sends
  rw [hstate] at hauth
  simp only [reduceCtorEq, if_false] at hauth
  omega

/-- All requests under way arrive. -/
theorem Online.receiveAll (ok : Bool) {n : Nat} (h : c.Online t ws) (hn : c.up.length = n) :
    ∃ c', run step c (List.replicate n (.receive ok)) = some c' ∧ c'.up = [] ∧ c'.Online t ws := by
  induction n generalizing c with
  | zero => exact ⟨c, rfl, List.length_eq_zero_iff.mp hn, h⟩
  | succ n ih =>
    obtain ⟨request, up, hup⟩ := List.exists_cons_of_length_eq_add_one hn
    have hstep : c.step (.receive ok) = some (({ c with up := up } : Client κ α).onRequest ok
        request) := by
      simp [Client.step, hup]
    have hsend : (({ c with up := up } : Client κ α).onRequest ok request).canSendWrites = true := by
      cases request <;> exact h.sends
    have hlength : (({ c with up := up } : Client κ α).onRequest ok request).up.length = n := by
      rw [hup, List.length_cons] at hn
      cases request <;> exact Nat.succ.inj hn
    obtain ⟨c', hrun, hdone⟩ := ih (online_step (e := .receive ok) h rfl trivial hstep hsend) hlength
    exact ⟨c', run_cons_eq.mpr ⟨_, hstep, hrun⟩, hdone⟩

/-- All responses under way are handled. -/
theorem Online.answerAll {n : Nat} (h : c.Online t ws) (hup : c.up = []) (hn : c.down.length = n) :
    ∃ c', run step c (List.replicate n .onDataMessage) = some c' ∧ c'.up = [] ∧ c'.down = [] ∧
      c'.Online t ws := by
  induction n generalizing c with
  | zero => exact ⟨c, rfl, hup, List.length_eq_zero_iff.mp hn, h⟩
  | succ n ih =>
    obtain ⟨response, down, hdown⟩ := List.exists_cons_of_length_eq_add_one hn
    obtain ⟨held, received, waiting, hphase⟩ := h.reliable
    obtain ⟨m, hm⟩ := Option.isSome_iff_exists.mp (hphase.onResponse_isSome h.counted hdown)
    have hstep : c.step .onDataMessage = some m := by
      simp [Client.step, hdown, hm]
    have hauth : response.isAuth = false := by
      have hnone := h.no_auth
      rw [hdown, List.countP_eq_zero] at hnone
      simpa using hnone response (List.mem_cons_self ..)
    obtain ⟨hmup, hmdown, hmstate⟩ := onResponse_same hauth hm
    have hmup' : m.up = [] := hmup.trans hup
    have hmsend : m.canSendWrites = true := by
      rw [canSendWrites, hmstate]
      exact h.sends
    rw [hdown, List.length_cons] at hn
    have hlisten : c.Listening .onDataMessage := by
      intro hhead
      rw [hdown, List.head?_cons] at hhead
      cases hhead
      cases hauth
    obtain ⟨c', hrun, hdone⟩ := ih (online_step h rfl hlisten hstep hmsend) hmup'
      (by rw [hmdown]; exact Nat.succ.inj hn)
    exact ⟨c', run_cons_eq.mpr ⟨m, hstep, hrun⟩, hdone⟩

/-- With nothing under way nothing waits. -/
theorem Online.settled (h : c.Online t ws) (hup : c.up = []) (hdown : c.down = []) :
    c.outstandingPuts = [] ∧ c.pendingWriteTree.allWrites = [] ∧
      c.server.tree = ws.foldl Tree.patch t := by
  obtain ⟨held, received, waiting, hphase⟩ := h.reliable
  have hrequests := hphase.requests
  have hresponses := hphase.responses
  have hcounted : c.unackedListensCount = _ := h.counted
  rw [hup, h.sends, if_pos rfl] at hrequests
  rw [hdown] at hresponses
  rw [hup, hdown] at hcounted
  obtain rfl : waiting = [] := hrequests.symm
  obtain rfl : received = [] := List.map_eq_nil_iff.mp hresponses.symm
  have hnone : c.putsToAck = [] := by
    by_contra hsome
    have hpos := h.viewed.waits h.sends hsome
    rw [hcounted] at hpos
    exact Nat.lt_irrefl 0 hpos
  cases hphase.held_nil hnone
  refine ⟨hphase.puts, ?_, hphase.settled⟩
  rw [hphase.writes, hphase.puts]
  rfl

end Client

end Pincushion.Connection
