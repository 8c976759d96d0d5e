import Pincushion.OwnView
import Pincushion.Canonical

/-! The nodes that a view is put together from. When all that is written is canonical, so
is every view; and what holds of the data of the server through one write holds through all. -/
namespace Pincushion.Snapshot
open KeyTree SortedDictionary
variable {κ α : Type*} [LinearOrder κ]

namespace FImmutableTree

/-- Every node that is written somewhere is canonical. -/
inductive Canonical : FImmutableTree κ (FNode κ α) → Prop
  | mk {value : Option (FNode κ α)} {cs : List (κ × FImmutableTree κ (FNode κ α))}
      (written : ∀ v, value = some v → v.Canonical) (children : ∀ e ∈ cs, Canonical e.2) :
      Canonical (.node value cs)

variable {t u : FImmutableTree κ (FNode κ α)} {n v : FNode κ α}

theorem canonical_empty : (empty : FImmutableTree κ (FNode κ α)).Canonical :=
  .mk (fun v hv => by cases hv) fun e he => by cases he

theorem canonical_ofValue (hv : v.Canonical) :
    (ofValue v : FImmutableTree κ (FNode κ α)).Canonical :=
  .mk (fun v' hv' => Option.some.inj hv' ▸ hv) fun e he => by cases he

theorem Canonical.child {value : Option (FNode κ α)} {cs : List (κ × FImmutableTree κ (FNode κ α))}
    (h : (node value cs).Canonical) (k : κ) : ((objectForKey k cs).getD empty).Canonical := by
  cases h with
  | mk written children =>
    cases hget : objectForKey k cs with
    | none => exact canonical_empty
    | some child => exact children _ (mem_of_objectForKey hget)

theorem Canonical.of_find {p q : List κ} (h : t.Canonical)
    (hfind : t.findRootMostValueAndPath p = some (q, v)) : v.Canonical := by
  induction p generalizing t q with
  | nil =>
    cases h with
    | @mk value cs written children =>
      cases value with
      | none => cases hfind
      | some v =>
        cases hfind
        exact written v rfl
  | cons k p ih =>
    cases h with
    | @mk value cs written children =>
      cases value with
      | none =>
        rw [findRootMostValueAndPath] at hfind
        cases hget : objectForKey k cs with
        | none =>
          rw [hget] at hfind
          cases hfind
        | some child =>
          rw [hget] at hfind
          obtain ⟨y, hy, heq⟩ := Option.map_eq_some_iff.mp hfind
          cases heq
          exact ih (children (k, child) (mem_of_objectForKey hget)) hy
      | some v =>
        cases hfind
        exact written v rfl

theorem Canonical.of_complete {p : List κ} (h : t.Canonical)
    (hcomplete : t.completeNodeAtPath p = some n) : n.Canonical := by
  rw [completeNodeAtPath] at hcomplete
  cases hfind : t.findRootMostValueAndPath p with
  | none =>
    rw [hfind] at hcomplete
    cases hcomplete
  | some x =>
    rw [hfind] at hcomplete
    cases hcomplete
    exact (h.of_find hfind).getChild _

theorem Canonical.insertKey {value : Option (FNode κ α)}
    {cs : List (κ × FImmutableTree κ (FNode κ α))} {k : κ} (h : (node value cs).Canonical)
    (hu : u.Canonical) : (node value (insertKey k u cs)).Canonical := by
  cases h with
  | mk written children =>
    refine .mk written fun e he => ?_
    cases mem_insertKey he with
    | inl he => exact he ▸ hu
    | inr he => exact children e he

theorem Canonical.setValue (h : t.Canonical) (p : List κ) (hv : v.Canonical) :
    (t.setValue p v).Canonical := by
  induction p generalizing t with
  | nil =>
    cases h with
    | mk written children => exact .mk (fun v' hv' => Option.some.inj hv' ▸ hv) children
  | cons k p ih =>
    cases t with
    | node value cs => exact h.insertKey (ih (h.child k))

theorem Canonical.setTree (h : t.Canonical) (p : List κ) (hu : u.Canonical) :
    (t.setTree p u).Canonical := by
  induction p generalizing t with
  | nil =>
    cases t
    exact hu
  | cons k p ih =>
    cases t with
    | node value cs =>
      rw [setTree_cons rfl]
      split_ifs
      · cases h with
        | mk written children => exact .mk written fun e he => children e (mem_removeKey he)
      · exact h.insertKey (ih (h.child k))

theorem Canonical.addWrite (h : t.Canonical) (hv : v.Canonical) (p : List κ) :
    (t.addWrite v p).Canonical := by
  cases p with
  | nil => exact canonical_ofValue hv
  | cons k p =>
    rw [FImmutableTree.addWrite]
    cases hfind : t.findRootMostValueAndPath (k :: p) with
    | none => exact h.setTree _ (canonical_ofValue hv)
    | some x => exact h.setValue _ ((h.of_find hfind).updateChild _ hv)

theorem Canonical.subtreeAtPath (h : t.Canonical) (p : List κ) :
    (t.subtreeAtPath p).Canonical := by
  induction p generalizing t with
  | nil =>
    cases t
    exact h
  | cons k p ih =>
    cases h with
    | @mk value cs written children =>
      rw [FImmutableTree.subtreeAtPath]
      cases hget : objectForKey k cs with
      | none => exact canonical_empty
      | some child => exact ih (children _ (mem_of_objectForKey hget))

theorem Canonical.applySubtreeWrite (h : t.Canonical) (p : List κ) (hn : n.Canonical) :
    (t.applySubtreeWrite p n).Canonical := by
  induction h generalizing p n with
  | @mk value cs written children ih =>
    cases value with
    | some v => exact hn.updateChild p (written v rfl)
    | none =>
      rw [FImmutableTree.applySubtreeWrite]
      clear written children
      induction cs generalizing n with
      | nil => exact hn
      | cons e rest ihrest =>
        rw [applyChildWrites]
        exact ihrest (fun e' he' => ih e' (List.mem_cons_of_mem e he'))
          (ih e (List.mem_cons_self ..) _ hn)

end FImmutableTree

namespace FWriteTree

/-- All that waits is canonical, in the list of records and in the compound write. -/
structure Canonical (t : FWriteTree κ α) : Prop where
  visible : t.visibleWrites.writeTree.Canonical
  pending : ∀ x ∈ t.pending, x.2.Canonical

variable {t t' : FWriteTree κ α}

theorem canonical_init : (init : FWriteTree κ α).Canonical :=
  ⟨FImmutableTree.canonical_empty, fun x hx => by cases hx⟩

theorem canonical_addWrites {c : FCompoundWrite κ α} {ws : List (List κ × FNode κ α)}
    (path : List κ) (hc : c.writeTree.Canonical) (hws : ∀ x ∈ ws, x.2.Canonical) :
    (ws.foldl (fun newWrite x => newWrite.addWrite x.2 (path ++ x.1)) c).writeTree.Canonical := by
  induction ws generalizing c with
  | nil => exact hc
  | cons x ws ih =>
    exact ih (hc.addWrite (hws x (List.mem_cons_self ..)) _) fun y hy =>
      hws y (List.mem_cons_of_mem x hy)

/-- Records laid over each other from the root. -/
theorem canonical_layerTree {records : List (FWriteRecord κ α)} {c : FCompoundWrite κ α}
    (hc : c.writeTree.Canonical) (h : ∀ r ∈ records, ∀ x ∈ r.writes, x.2.Canonical) :
    (records.foldl (layerWrite []) c).writeTree.Canonical := by
  induction records generalizing c with
  | nil => exact hc
  | cons r records ih =>
    refine ih ?_ fun r' hr' => h r' (List.mem_cons_of_mem r hr')
    have hr := h r (List.mem_cons_self ..)
    cases hw : r.write with
    | overwrite node =>
      simp only [FWriteRecord.writes, hw, List.mem_singleton, forall_eq] at hr
      simp only [layerWrite, hw, List.nil_prefix, if_true]
      exact hc.addWrite hr _
    | merge changedChildren =>
      simp only [FWriteRecord.writes, hw, List.forall_mem_map] at hr
      simp only [layerWrite, hw, List.nil_prefix, if_true]
      exact canonical_addWrites _ hc hr

theorem pending_addOverwriteAtPath {path : List κ} {newData : FNode κ α} {writeId : Int}
    {visible : Bool} (hadd : t.addOverwriteAtPath path newData writeId visible = some t') :
    t'.pending = t.pending ++ [(path, newData)] := by
  simp only [addOverwriteAtPath] at hadd
  split_ifs at hadd <;> cases hadd <;> simp [pending, FWriteRecord.writes]

theorem Canonical.addOverwriteAtPath {path : List κ} {newData : FNode κ α} {writeId : Int}
    {visible : Bool} (h : t.Canonical) (hnew : newData.Canonical)
    (hadd : t.addOverwriteAtPath path newData writeId visible = some t') : t'.Canonical := by
  refine ⟨?_, fun x hx => ?_⟩
  · simp only [FWriteTree.addOverwriteAtPath] at hadd
    split_ifs at hadd <;> cases hadd
    · exact h.visible.addWrite hnew path
    · exact h.visible
  · rw [pending_addOverwriteAtPath hadd, List.mem_append, List.mem_singleton] at hx
    cases hx with
    | inl hx => exact h.pending x hx
    | inr hx => exact hx ▸ hnew

theorem canonical_resetTree (h : ∀ x ∈ t.pending, x.2.Canonical) : t.resetTree.Canonical := by
  refine ⟨canonical_layerTree FImmutableTree.canonical_empty fun r hr x hx => ?_, h⟩
  exact h x (List.mem_flatMap.mpr ⟨r, List.mem_of_mem_filter hr, hx⟩)

theorem canonical_removeWriteAtPath {c : FCompoundWrite κ α} (hc : c.writeTree.Canonical)
    (path : List κ) : (c.removeWriteAtPath path).writeTree.Canonical := by
  rw [FCompoundWrite.removeWriteAtPath]
  split_ifs
  · exact FImmutableTree.canonical_empty
  · exact hc.setTree path FImmutableTree.canonical_empty

theorem canonical_removeRecord {c : FCompoundWrite κ α} (hc : c.writeTree.Canonical)
    (record : FWriteRecord κ α) : (removeRecord c record).writeTree.Canonical := by
  rw [removeRecord]
  cases record.write with
  | overwrite node => exact canonical_removeWriteAtPath hc record.path
  | merge changedChildren =>
    simp only
    generalize changedChildren.enumerateWrites = ws
    induction ws generalizing c with
    | nil => exact hc
    | cons x ws ih => exact ih (canonical_removeWriteAtPath hc _)

theorem pending_removeWriteId {writeId : Int} {b : Bool}
    (h : t.removeWriteId writeId = some (t', b)) : ∀ x ∈ t'.pending, x ∈ t.pending := by
  have herase : ∀ (i : Nat), ∀ x ∈ (t.allWrites.eraseIdx i).flatMap FWriteRecord.writes,
      x ∈ t.pending := by
    intro i x hx
    obtain ⟨r, hr, hxr⟩ := List.mem_flatMap.mp hx
    exact List.mem_flatMap.mpr ⟨r, List.mem_of_mem_eraseIdx hr, hxr⟩
  simp only [removeWriteId] at h
  split at h
  · cases h
  · split at h
    · cases h
    · split_ifs at h <;> cases h <;> exact herase _

theorem Canonical.removeWriteId {writeId : Int} {b : Bool} (h : t.Canonical)
    (hremove : t.removeWriteId writeId = some (t', b)) : t'.Canonical := by
  have hpending : ∀ x ∈ t'.pending, x.2.Canonical := fun x hx =>
    h.pending x (pending_removeWriteId hremove x hx)
  refine ⟨?_, hpending⟩
  simp only [FWriteTree.removeWriteId] at hremove
  split at hremove
  · cases hremove
  · split at hremove
    · cases hremove
    · split_ifs at hremove <;> cases hremove
      · exact h.visible
      · exact (canonical_resetTree hpending).visible
      · exact canonical_removeRecord h.visible _

/-- A view is canonical when what it is made from is. -/
theorem Canonical.eventCache {path : List κ} {completeServerCache : Option (FNode κ α)}
    {n : FNode κ α} (h : t.Canonical) (hserver : ∀ s ∈ completeServerCache, s.Canonical)
    (hview : t.calculateCompleteEventCacheAtPath path completeServerCache = some n) :
    n.Canonical := by
  rw [calculateCompleteEventCacheAtPath] at hview
  cases hcomplete : t.visibleWrites.completeNodeAtPath path with
  | some shadowingNode =>
    simp only [hcomplete, Option.some.injEq] at hview
    exact hview ▸ h.visible.of_complete hcomplete
  | none =>
    simp only [hcomplete] at hview
    have hchild : (t.visibleWrites.childCompoundWriteAtPath path).writeTree.Canonical := by
      rw [FCompoundWrite.childCompoundWriteAtPath]
      split_ifs
      · exact h.visible
      · simp only [hcomplete]
        exact h.visible.subtreeAtPath path
    have hbase : (completeServerCache.getD .emptyNode).Canonical := by
      cases completeServerCache with
      | none => exact FNode.canonical_emptyNode
      | some s => exact hserver s rfl
    split_ifs at hview
    · exact hserver n hview
    · cases hview
      exact hchild.applySubtreeWrite [] hbase

end FWriteTree

end Pincushion.Snapshot

namespace Pincushion.Connection
open KeyTree SortedDictionary Snapshot Runs
variable {κ α : Type*} [LinearOrder κ]

namespace Client
variable {P : List κ → FNode κ α → Prop} {S : FNode κ α → Prop} {c c' : Client κ α}

/-- All that is under way or waits was issued as `P` says, and the data of the server are as
`S` says. -/
structure Carries (P : List κ → FNode κ α → Prop) (S : FNode κ α → Prop) (c : Client κ α) :
    Prop where
  server : S c.server
  requests : ∀ e ∈ c.up.filterMap Request.put?, P e.2.path e.2.data
  outstanding : ∀ e ∈ c.outstandingPuts, P e.2.path e.2.data
  writes : c.pendingWriteTree.Canonical
  pending : ∀ x ∈ c.pendingWriteTree.pending, P x.1 x.2

theorem carries_init {server : FNode κ α} (h : S server) : (init server).Carries P S where
  server := h
  requests := fun e he => by cases he
  outstanding := fun e he => by cases he
  writes := FWriteTree.canonical_init
  pending := fun x hx => by cases hx

theorem Carries.ackWrite {writeId : Int} (h : c.Carries P S)
    (hack : c.ackWrite writeId = some c') : c'.Carries P S := by
  obtain ⟨⟨u, b⟩, hremove, rfl⟩ := Option.map_eq_some_iff.mp hack
  exact ⟨h.server, h.requests, h.outstanding, h.writes.removeWriteId hremove,
    fun x hx => h.pending x (FWriteTree.pending_removeWriteId hremove x hx)⟩

theorem Carries.foldlM_ackWrite {ids : List Int} (h : c.Carries P S)
    (hfold : ids.foldlM Client.ackWrite c = some c') : c'.Carries P S := by
  induction ids generalizing c with
  | nil =>
    cases hfold
    exact h
  | cons id ids ih =>
    rw [List.foldlM_cons] at hfold
    obtain ⟨m, hack, hrest⟩ := Option.bind_eq_some_iff.mp hfold
    exact ih (h.ackWrite hack) hrest

theorem Carries.ackPuts (h : c.Carries P S) (hack : c.ackPuts = some c') : c'.Carries P S := by
  obtain ⟨m, hfold, rfl⟩ := Option.map_eq_some_iff.mp hack
  have hm := h.foldlM_ackWrite hfold
  exact ⟨hm.server, hm.requests, hm.outstanding, hm.writes, hm.pending⟩

theorem Carries.onDisconnect (h : c.Carries P S) : c.onDisconnect.Carries P S :=
  ⟨h.server, (fun e he => by cases he), h.outstanding, h.writes, h.pending⟩

/-- Further requests that are no writes. -/
theorem Carries.sendOthers {c' : Client κ α} (h : c.Carries P S) (requests : List (Request κ α))
    (hnone : ∀ r ∈ requests, r.put? = none) (hup : c'.up = c.up ++ requests)
    (hserver : c'.server = c.server) (hputs : c'.outstandingPuts = c.outstandingPuts)
    (hwrites : c'.pendingWriteTree = c.pendingWriteTree) : c'.Carries P S := by
  have hothers : requests.filterMap Request.put? = [] := List.filterMap_eq_nil_iff.mpr hnone
  refine ⟨hserver ▸ h.server, ?_, hputs ▸ h.outstanding, hwrites ▸ h.writes, hwrites ▸ h.pending⟩
  rw [hup, List.filterMap_append, hothers, List.append_nil]
  exact h.requests

theorem Carries.restoreState {down : List Response} (h : c.Carries P S) :
    ({ c with connectionState := .connected, down := down } : Client κ α).restoreState.Carries
      P S := by
  rw [restoreState_eq]
  refine ⟨h.server, fun e he => ?_, h.outstanding, h.writes, h.pending⟩
  simp only [List.filterMap_append, List.filterMap_map, List.mem_append] at he
  rcases he with (he | he) | he
  · exact h.requests e he
  · obtain ⟨q, -, hq⟩ := List.mem_filterMap.mp he
    cases hq
  · obtain ⟨p, hp, hpe⟩ := List.mem_filterMap.mp he
    cases hpe
    exact h.outstanding _ hp

theorem Carries.onResponse {response : Response} {down : List Response} (h : c.Carries P S)
    (hstep : ({ c with down := down } : Client κ α).onResponse response = some c') :
    c'.Carries P S := by
  have hdrop : ∀ (n : Nat) (puts : List (Nat × FOutstandingPut κ α)) (held : List Int),
      (∀ e ∈ puts, e ∈ c.outstandingPuts) →
      ({ c with down := down, unackedListensCount := n, outstandingPuts := puts,
                putsToAck := held } : Client κ α).Carries P S := fun n puts held hputs =>
    ⟨h.server, h.requests, fun e he => h.outstanding e (hputs e he), h.writes, h.pending⟩
  cases response with
  | auth ok =>
    cases ok with
    | true =>
      cases hstep
      exact h.restoreState
    | false =>
      cases hstep
      exact ⟨h.server, (fun e he => by cases he), h.outstanding, h.writes, h.pending⟩
  | listen =>
    simp only [Client.onResponse] at hstep
    split_ifs at hstep
    · exact (hdrop _ _ _ fun e he => he).ackPuts hstep
    · cases hstep
      exact hdrop _ _ _ fun e he => he
  | put index writeId =>
    simp only [Client.onResponse] at hstep
    split at hstep
    · split_ifs at hstep
      · exact (hdrop _ _ _ fun e he => mem_removeKey he).ackWrite hstep
      · cases hstep
        exact hdrop _ _ _ fun e he => mem_removeKey he
    · cases hstep
      exact hdrop _ _ _ fun e he => he

/-- Every write that the event issues is as `P` says. -/
def Issues (P : List κ → FNode κ α → Prop) : Event κ α → Prop
  | .set path node => P path node
  | _ => True

section Step
variable (hcanonical : ∀ p v, P p v → v.Canonical)
variable (hserver : ∀ n p v, S n → P p v → S (n.updateChild p v))
include hcanonical hserver

theorem carries_step {e : Event κ α} (h : c.Carries P S) (he : Issues P e)
    (hstep : c.step e = some c') : c'.Carries P S := by
  cases e with
  | set path node =>
    simp only [step, Client.set] at hstep
    split at hstep
    · rename_i u hadd
      cases hstep
      rw [putInternal_eq]
      have houtstanding : ∀ e ∈ insertKey c.putCounter ⟨path, node, c.writeIdCounter⟩
          c.outstandingPuts, P e.2.path e.2.data := by
        intro e hmem
        cases mem_insertKey hmem with
        | inl hnew => exact hnew ▸ he
        | inr hold => exact h.outstanding e hold
      have hpending : ∀ x ∈ u.pending, P x.1 x.2 := by
        intro x hx
        rw [FWriteTree.pending_addOverwriteAtPath hadd, List.mem_append, List.mem_singleton] at hx
        cases hx with
        | inl hold => exact h.pending x hold
        | inr hnew => exact hnew ▸ he
      refine ⟨h.server, fun x hx => ?_, houtstanding,
        h.writes.addOverwriteAtPath (hcanonical _ _ he) hadd, hpending⟩
      simp only [List.filterMap_append, List.mem_append] at hx
      cases hx with
      | inl hold => exact h.requests x hold
      | inr hnew =>
        split_ifs at hnew
        · obtain rfl := List.mem_singleton.mp hnew
          exact he
        · cases hnew
    · cases hstep
  | listen query =>
    simp only [step] at hstep
    split_ifs at hstep <;> cases hstep
    · exact h.sendOthers [.listen] (by simp [Request.put?]) rfl rfl rfl rfl
    · exact h.sendOthers [] (by simp) (List.append_nil _).symm rfl rfl rfl
  | unlisten query =>
    simp only [step] at hstep
    split_ifs at hstep <;> cases hstep
    · exact h.sendOthers [.unlisten] (by simp [Request.put?]) rfl rfl rfl rfl
    · exact h.sendOthers [] (by simp) (List.append_nil _).symm rfl rfl rfl
    · exact h
  | retry =>
    simp only [step] at hstep
    split_ifs at hstep
    cases hstep
    exact h.sendOthers [] (by simp) (List.append_nil _).symm rfl rfl rfl
  | openNetworkConnection token =>
    simp only [step] at hstep
    split_ifs at hstep
    cases hstep
    exact h.sendOthers [] (by simp) (List.append_nil _).symm rfl rfl rfl
  | onReady =>
    simp only [step] at hstep
    split_ifs at hstep <;> cases hstep
    · exact h.sendOthers [.auth] (by simp [Request.put?]) rfl rfl rfl rfl
    · exact h.restoreState
  | receive ok =>
    simp only [step] at hstep
    split at hstep
    · rename_i request up hup
      cases hstep
      have hrest : ∀ e ∈ up.filterMap Request.put?, P e.2.path e.2.data := by
        intro e hmem
        obtain ⟨r, hr, hre⟩ := List.mem_filterMap.mp hmem
        exact h.requests e (List.mem_filterMap.mpr ⟨r, hup ▸ List.mem_cons_of_mem _ hr, hre⟩)
      cases request with
      | put index p =>
        have hp : P p.path p.data := h.requests (index, p)
          (List.mem_filterMap.mpr ⟨_, hup ▸ List.mem_cons_self .., rfl⟩)
        exact ⟨hserver _ _ _ h.server hp, hrest, h.outstanding, h.writes, h.pending⟩
      | _ => exact ⟨h.server, hrest, h.outstanding, h.writes, h.pending⟩
    · cases hstep
  | onDataMessage =>
    simp only [step] at hstep
    split at hstep
    · exact h.onResponse hstep
    · cases hstep
  | onDisconnect =>
    cases hstep
    exact h.onDisconnect

theorem carries_run {server : FNode κ α} {es : List (Event κ α)} (hstart : S server)
    (hes : ∀ e ∈ es, Issues P e) (hrun : run step (init server) es = some c) : c.Carries P S :=
  run_invariant_along (Carries P S)
    (fun _ _ _ h he hstep => carries_step hcanonical hserver h he hstep) (carries_init hstart)
    (along_of_forall fun _ => hes) hrun

end Step

end Client

end Pincushion.Connection
