import Pincushion.Resending

/-! What the device shows of its own writes. While listens wait for their answers,
acknowledgements are held back; a later write may then not be acknowledged before
them. It is not, as long as a connection comes back with some listen to send again. -/
namespace Pincushion.Connection
open KeyTree SortedDictionary Snapshot Runs
variable {κ α : Type*} [LinearOrder κ]

namespace Client
variable {t : Tree κ α} {ws : List (Patch κ α)} {c c' : Client κ α}
  {held : List (FOutstandingPut κ α)} {received waiting : List (Nat × FOutstandingPut κ α)}

/-- When all writes are sent again while acknowledgements are held back, a listen goes first. -/
def Listening (c : Client κ α) : Event κ α → Prop
  | .onReady => c.authToken = false → c.putsToAck = [] ∨ c.listens ≠ []
  | .onDataMessage => c.down.head? = some (.auth true) → c.putsToAck = [] ∨ c.listens ≠ []
  | _ => True

instance (c : Client κ α) : (e : Event κ α) → Decidable (c.Listening e)
  | .onReady => inferInstanceAs (Decidable (_ → _))
  | .onDataMessage => inferInstanceAs (Decidable (_ → _))
  | .set .. | .listen _ | .unlisten _ | .retry | .openNetworkConnection _ | .receive _
  | .onDisconnect => isTrue trivial

/-- The write tree shows what was issued, and acknowledgements are held back only while a
listen waits. -/
structure Viewed (t : Tree κ α) (ws : List (Patch κ α)) (c : Client κ α) : Prop where
  sound : c.pendingWriteTree.Sound
  shown : (c.pendingWriteTree.latest c.server).tree = ws.foldl Tree.patch t
  waits : c.canSendWrites = true → c.putsToAck ≠ [] → 0 < c.unackedListensCount

theorem Viewed.congr {t' : Tree κ α} {ws' : List (Patch κ α)} (h : c.Viewed t ws)
    (heq : ws.foldl Tree.patch t = ws'.foldl Tree.patch t') : c.Viewed t' ws' :=
  ⟨h.sound, h.shown.trans heq, h.waits⟩

theorem patches_records (ps : List (FOutstandingPut κ α)) :
    FImmutableTree.patches ((ps.map FOutstandingPut.record).flatMap FWriteRecord.writes) =
      ps.map FOutstandingPut.patch := by
  induction ps with
  | nil => rfl
  | cons p ps ih =>
    rw [List.map_cons, List.flatMap_cons, FImmutableTree.patches_append, ih]
    rfl

theorem overwrites_records {ps : List (FOutstandingPut κ α)} :
    ∀ r ∈ ps.map FOutstandingPut.record, ∃ node, r.write = .overwrite node := by
  intro r hr
  obtain ⟨p, -, rfl⟩ := List.mem_map.mp hr
  exact ⟨p.data, rfl⟩

/-- What the device shows on top of any data: the writes whose acknowledgement is held back,
then the outstanding ones. -/
theorem Phase.latest_eq (h : c.Phase t ws held received waiting) (server : FNode κ α) :
    (c.pendingWriteTree.latest server).tree =
      (held.map FOutstandingPut.patch ++ patches c.outstandingPuts).foldl Tree.patch
        server.tree := by
  rw [FWriteTree.tree_latest, FWriteTree.pending, h.writes, patches_records, List.map_append,
    List.map_map]
  rfl

/-- Where nothing is held back, the device shows what the server comes to. -/
theorem Phase.shown (h : c.Phase t ws [] received waiting) :
    (c.pendingWriteTree.latest c.server).tree = ws.foldl Tree.patch t :=
  (h.latest_eq c.server).trans h.settled_outstanding

theorem Phase.held_nil (h : c.Phase t ws held received waiting) (hnone : c.putsToAck = []) :
    held = [] := List.map_eq_nil_iff.mp (h.heldBack.trans hnone)

theorem Phase.viewed_of_flushed (h : c.Phase t ws held received waiting)
    (hsound : c.pendingWriteTree.Sound) (hnone : c.putsToAck = []) : c.Viewed t ws := by
  cases h.held_nil hnone
  exact ⟨hsound, h.shown, fun _ hsome => absurd hnone hsome⟩

/-- A write on its way to the server, for the first time or again, is shown already. -/
theorem Phase.latest_receive {index : Nat} {p : FOutstandingPut κ α}
    (h : c.Phase t ws held received waiting) (hmem : (index, p) ∈ c.outstandingPuts) :
    (c.pendingWriteTree.latest (c.server.updateChild p.path p.data)).tree =
      (c.pendingWriteTree.latest c.server).tree := by
  have hpatch : p.patch ∈ held.map FOutstandingPut.patch ++ patches c.outstandingPuts :=
    List.mem_append_right _ (List.mem_map.mpr ⟨(index, p), hmem, rfl⟩)
  rw [h.latest_eq, h.latest_eq, FNode.tree_updateChild]
  exact foldl_patch_of_mem c.server.tree hpatch

/-- Acknowledging the first of the records keeps the write tree sound. -/
theorem sound_ackWrite {w : FWriteRecord κ α} {rest : List (FWriteRecord κ α)}
    (hsound : c.pendingWriteTree.Sound) (hall : c.pendingWriteTree.allWrites = w :: rest)
    (hover : ∀ r ∈ rest, ∃ node, r.write = .overwrite node)
    (hack : c.ackWrite w.writeId = some c') :
    c'.pendingWriteTree.Sound ∧ c'.pendingWriteTree.allWrites = rest := by
  obtain ⟨⟨u, b⟩, hremove, rfl⟩ := Option.map_eq_some_iff.mp hack
  exact FWriteTree.sound_removeWriteId hsound hall (FWriteTree.anchored_of_overwrites hover) hremove

theorem sound_foldlM_ackWrite {us vs : List (FWriteRecord κ α)}
    (hsound : c.pendingWriteTree.Sound) (hall : c.pendingWriteTree.allWrites = us ++ vs)
    (hover : ∀ r ∈ us ++ vs, ∃ node, r.write = .overwrite node)
    (hfold : (us.map FWriteRecord.writeId).foldlM ackWrite c = some c') :
    c'.pendingWriteTree.Sound := by
  induction us generalizing c with
  | nil =>
    cases hfold
    exact hsound
  | cons w us ih =>
    rw [List.map_cons, List.foldlM_cons] at hfold
    obtain ⟨c'', hack, hrest⟩ := Option.bind_eq_some_iff.mp hfold
    have hover' : ∀ r ∈ us ++ vs, ∃ node, r.write = .overwrite node := fun r hr =>
      hover r (List.mem_cons_of_mem w hr)
    obtain ⟨hsound', hall'⟩ := sound_ackWrite hsound hall hover' hack
    exact ih hsound' hall' hover' hrest

theorem Phase.overwrites (h : c.Phase t ws held received waiting) :
    ∀ r ∈ c.pendingWriteTree.allWrites, ∃ node, r.write = .overwrite node := by
  rw [h.writes]
  exact overwrites_records

/-- Once the acknowledgements that were held back are passed on, everything is shown. -/
theorem Phase.viewed_ackPuts (h : c.Phase t ws held received waiting)
    (hsound : c.pendingWriteTree.Sound) (hack : c.ackPuts = some c') : c'.Viewed t ws := by
  obtain ⟨u, hack', -, hphase⟩ := h.ackPuts
  rw [hack'] at hack
  cases hack
  obtain ⟨c'', hfold, heq⟩ := Option.map_eq_some_iff.mp hack'
  have hall : c.pendingWriteTree.allWrites = held.map FOutstandingPut.record ++
      (c.outstandingPuts.map Prod.snd).map FOutstandingPut.record := by
    rw [h.writes, List.map_append]
  have hids : (held.map FOutstandingPut.record).map FWriteRecord.writeId = c.putsToAck := by
    rw [← h.heldBack, List.map_map]
    rfl
  rw [← hids] at hfold
  have hsound' := sound_foldlM_ackWrite hsound hall (hall ▸ h.overwrites) hfold
  have hu : c''.pendingWriteTree = u := congrArg pendingWriteTree heq
  exact hphase.viewed_of_flushed (hu ▸ hsound') rfl

theorem viewed_init (server : FNode κ α) : (init server).Viewed server.tree [] :=
  ⟨FWriteTree.sound_init, rfl, fun _ hsome => absurd rfl hsome⟩

/-- The listens that are sent again make sure that what is held back goes first. -/
theorem Viewed.restoreState {down : List Response} (h : c.Viewed t ws)
    (hlisten : c.putsToAck = [] ∨ c.listens ≠ []) :
    ({ c with connectionState := .connected, down := down } : Client κ α).restoreState.Viewed
      t ws := by
  rw [restoreState_eq]
  refine ⟨h.sound, h.shown, fun _ hsome => ?_⟩
  cases hlisten with
  | inl hnone => exact absurd hnone hsome
  | inr hlistens =>
    have hpos := List.length_pos_iff.mpr hlistens
    change 0 < c.unackedListensCount + c.listens.length
    omega

theorem Viewed.onResponse {response : Response} {down : List Response} (h : c.Viewed t ws)
    (hphase : c.Phase t ws held received waiting) (hdown : c.down = response :: down)
    (hlisten : c.Listening .onDataMessage)
    (hstep : ({ c with down := down } : Client κ α).onResponse response = some c') :
    c'.Viewed t ws := by
  cases response with
  | put index writeId =>
    obtain ⟨p, rest, rfl, rfl, hget⟩ := hphase.received_of_response hdown
    have hsend : c.canSendWrites = true := by
      cases hsend : c.canSendWrites with
      | true => rfl
      | false => cases hphase.offline hsend
    simp only [Client.onResponse, hget] at hstep
    split_ifs at hstep with hcount
    · -- nothing is held back while no listen waits, so the acknowledged write is the oldest
      have hnone : c.putsToAck = [] := by
        by_contra hsome
        have hpos := h.waits hsend hsome
        omega
      cases hphase.held_nil hnone
      obtain ⟨u, hack, hphase'⟩ := hphase.ackPut hdown
      have hall : c.pendingWriteTree.allWrites =
          p.record :: ((rest ++ waiting).map Prod.snd).map FOutstandingPut.record := by
        rw [hphase.writes, hphase.puts]
        rfl
      obtain ⟨hsound, -⟩ := sound_ackWrite (w := p.record) (c := { c with
        down := down, outstandingPuts := removeKey index c.outstandingPuts }) h.sound hall
        overwrites_records hack
      rw [hack] at hstep
      cases hstep
      exact hphase'.viewed_of_flushed hsound hnone
    · cases hstep
      exact ⟨h.sound, h.shown, fun _ _ => Nat.pos_of_ne_zero hcount⟩
  | listen =>
    have hdrop := hphase.dropOther (c.unackedListensCount - 1) hdown rfl rfl
    simp only [Client.onResponse] at hstep
    split_ifs at hstep with hzero hlast
    · exact hdrop.viewed_ackPuts h.sound hstep
    · cases hstep
      exact ⟨h.sound, h.shown, fun _ _ => Nat.pos_of_ne_zero hlast⟩
  | auth ok =>
    cases ok with
    | true =>
      cases hstep
      refine h.restoreState (hlisten ?_)
      rw [hdown]
      rfl
    | false =>
      cases hstep
      exact ⟨h.sound, h.shown, fun hsend => by cases hsend⟩

theorem viewed_step {e : Event κ α} (h : c.Viewed t ws) (hreliable : c.Reliable t ws)
    (hlisten : c.Listening e) (hstep : c.step e = some c') :
    c'.Viewed t (ws ++ e.issued?.toList) := by
  obtain ⟨held, received, waiting, hphase⟩ := hreliable
  cases e with
  | set path node =>
    simp only [step, Client.set] at hstep
    split at hstep
    · rename_i u hadd
      cases hstep
      have hsound : u.Sound := FWriteTree.sound_step (e := .set path node c.writeIdCounter)
        h.sound trivial hadd
      simp only [FWriteTree.addOverwriteAtPath] at hadd
      split_ifs at hadd
      cases hadd
      rw [putInternal_eq]
      refine ⟨hsound, ?_, h.waits⟩
      rw [List.foldl_append, ← h.shown, FWriteTree.latest, List.foldl_append]
      exact FNode.tree_updateChild ..
    · cases hstep
  | listen query =>
    simp only [step] at hstep
    split_ifs at hstep with hmem hconnected <;> cases hstep <;>
      simp only [Event.issued?, Option.toList_none, List.append_nil]
    · exact ⟨h.sound, h.shown, fun _ _ => Nat.succ_pos _⟩
    · exact ⟨h.sound, h.shown, h.waits⟩
  | unlisten query =>
    simp only [step] at hstep
    split_ifs at hstep with hmem hconnected <;> cases hstep <;>
      simp only [Event.issued?, Option.toList_none, List.append_nil]
    · exact ⟨h.sound, h.shown, h.waits⟩
    · exact ⟨h.sound, h.shown, h.waits⟩
    · exact h
  | retry =>
    simp only [step] at hstep
    split_ifs at hstep with hstate
    cases hstep
    simp only [Event.issued?, Option.toList_none, List.append_nil]
    exact ⟨h.sound, h.shown, fun hsend => by cases hsend⟩
  | openNetworkConnection token =>
    simp only [step] at hstep
    split_ifs at hstep with hstate
    cases hstep
    simp only [Event.issued?, Option.toList_none, List.append_nil]
    exact ⟨h.sound, h.shown, fun hsend => by cases hsend⟩
  | onReady =>
    simp only [step] at hstep
    split_ifs at hstep with hstate htoken <;> cases hstep <;>
      simp only [Event.issued?, Option.toList_none, List.append_nil]
    · exact ⟨h.sound, h.shown, fun hsend => by cases hsend⟩
    · exact h.restoreState (hlisten (Bool.eq_false_of_not_eq_true htoken))
  | receive ok =>
    simp only [step] at hstep
    split at hstep
    · rename_i request up hup
      cases hstep
      simp only [Event.issued?, Option.toList_none, List.append_nil]
      cases request with
      | put index p =>
        obtain ⟨rest, rfl, -⟩ := hphase.receive ok hup
        have hmem : (index, p) ∈ c.outstandingPuts := by
          rw [hphase.puts]
          exact List.mem_append_right _ (List.mem_cons_self ..)
        exact ⟨h.sound, (hphase.latest_receive hmem).trans h.shown, h.waits⟩
      | _ => exact ⟨h.sound, h.shown, h.waits⟩
    · cases hstep
  | onDataMessage =>
    simp only [step] at hstep
    split at hstep
    · rename_i response down hdown
      simp only [Event.issued?, Option.toList_none, List.append_nil]
      exact h.onResponse hphase hdown hlisten hstep
    · cases hstep
  | onDisconnect =>
    cases hstep
    simp only [Event.issued?, Option.toList_none, List.append_nil]
    exact ⟨h.sound, h.shown, fun hsend => by cases hsend⟩

theorem viewed_run {server : FNode κ α} {es : List (Event κ α)}
    (hrun : run step (init server) es = some c)
    (hlisten : Along step Listening (init server) es) : c.Viewed server.tree (issued es) := by
  have hstart : (init server).Viewed server.tree (issued []) ∧
      (init server).Reliable server.tree (issued []) :=
    ⟨viewed_init server, reliable_init server⟩
  refine (run_invariant_along_past (fun past c => c.Viewed server.tree (issued past) ∧
    c.Reliable server.tree (issued past)) ?_ hstart hlisten hrun).1
  intro past c e c' h hc hstep
  rw [issued_snoc]
  exact ⟨viewed_step h.1 h.2 hc hstep, reliable_step h.2 hstep⟩

/-- A write is made, but its acknowledgement is held back when the connection is lost; the node
above it is then written. -/
def lostWhileHeld : List (Event Nat Nat) :=
  [.listen [1], .retry, .openNetworkConnection false, .onReady, .receive true, .onDataMessage,
    .set [1, 2] (.leaf 20), .listen [3], .receive true, .onDataMessage, .onDisconnect,
    .set [1] (.children [(2, .leaf 21)])]

def reconnect : List (Event Nat Nat) := [.retry, .openNetworkConnection false, .onReady]

/-- The listens go first, and the answers to them pass on what was held back. -/
def restored : Client Nat Nat :=
  (run step (init .emptyNode) (lostWhileHeld ++ reconnect ++ [.receive true, .receive true,
    .onDataMessage, .onDataMessage, .receive true])).getD (init .emptyNode)

/-- With no listen left the later write is acknowledged first, and the device goes back to
showing the earlier one. -/
example : (run step (init .emptyNode) (lostWhileHeld ++ [.unlisten [1], .unlisten [3]] ++
    reconnect ++ [.receive true, .onDataMessage])).bind (fun c =>
      (c.pendingWriteTree.calculateCompleteEventCacheAtPath [1, 2]
        (some (c.server.getChild [1, 2]))).map fun n =>
          (n.val?, (c.server.getChild [1, 2]).val?)) = some (some 20, some 21) := by
  decide

end Client

end Pincushion.Connection
