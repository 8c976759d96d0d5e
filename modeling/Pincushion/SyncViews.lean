import Pincushion.CanonicalView
import Pincushion.SyncOperations

/-! Runs of the tree of views. Whatever comes from the application and from the server, and in
whatever order, every view shows what would be shown if it were worked out anew. -/
namespace Pincushion.Snapshot
open KeyTree SortedDictionary Runs
variable {κ α ρ : Type*} [LinearOrder κ]

namespace FWriteTree
variable {t t' : FWriteTree κ α} {S : Schema κ}

/-- What waits are sets of nodes that fit the schema. -/
structure Fitting (t : FWriteTree κ α) (S : Schema κ) : Prop where
  sound : t.Sound
  canonical : t.Canonical
  overwrites : ∀ record ∈ t.allWrites, ∃ node, record.write = .overwrite node
  allowed : ∀ x ∈ t.pending, (FNode.toPatch x.1 x.2).Allowed S

theorem fitting_init (S : Schema κ) : (init : FWriteTree κ α).Fitting S :=
  ⟨sound_init, canonical_init, fun record h => (by cases h), fun x hx => (by cases hx)⟩

theorem Fitting.regular (h : t.Fitting S) (path : List κ) :
    (⟨path, t⟩ : FWriteTreeRef κ α).Regular (S.sub path) where
  canonical := h.canonical.visible
  fits := by
    have hlayered : t.visibleWrites.overlay = _ := h.sound.layered
    refine Overlay.Fits.sub ?_ path
    rw [hlayered]
    refine fits_layer (fits_bare S) fun u hu => ?_
    obtain ⟨x, hx, rfl⟩ := FImmutableTree.mem_patches hu
    exact h.allowed x hx

theorem Fitting.addOverwriteAtPath {path : List κ} {newData : FNode κ α} {writeId : Int}
    (h : t.Fitting S) (hnew : newData.Canonical) (hallowed : (FNode.toPatch path newData).Allowed S)
    (hadd : t.addOverwriteAtPath path newData writeId true = some t') :
    t'.Fitting S ∧
      t'.visibleWrites.overlay = t.visibleWrites.overlay.patch (FNode.toPatch path newData) := by
  have hpending := pending_addOverwriteAtPath hadd
  refine ⟨⟨sound_step (e := .set path newData writeId) h.sound trivial hadd,
    h.canonical.addOverwriteAtPath hnew hadd, ?_, fun x hx => ?_⟩, ?_⟩
  · simp only [FWriteTree.addOverwriteAtPath] at hadd
    split_ifs at hadd
    cases hadd
    intro record hrecord
    cases List.mem_append.mp hrecord with
    | inl hold => exact h.overwrites record hold
    | inr hlast =>
      rw [List.mem_singleton.mp hlast]
      exact ⟨newData, rfl⟩
  · rw [hpending, List.mem_append, List.mem_singleton] at hx
    cases hx with
    | inl hx => exact h.allowed x hx
    | inr hx => exact hx ▸ hallowed
  · simp only [FWriteTree.addOverwriteAtPath] at hadd
    split_ifs at hadd
    cases hadd
    exact FCompoundWrite.overlay_addWrite _ newData path

/-- Without data of the server there is something to show only under a write. -/
theorem covered_of_eventCache {path : List κ} {n : FNode κ α}
    (h : t.calculateCompleteEventCacheAtPath path none = some n) :
    (t.visibleWrites.overlay path).isSome := by
  cases hcomplete : t.visibleWrites.completeNodeAtPath path with
  | some m =>
    have hoverlay := FCompoundWrite.overlay_of_complete _ hcomplete []
    rw [List.append_nil] at hoverlay
    rw [hoverlay]
    rfl
  | none =>
    have hroot : (t.visibleWrites.childCompoundWriteAtPath path).overlay [] = none := by
      rw [FCompoundWrite.overlay_child _ hcomplete, Overlay.sub, List.append_nil]
      exact (FCompoundWrite.overlay_eq_none _).mpr hcomplete
    have hno : (t.visibleWrites.childCompoundWriteAtPath path).hasCompleteWriteAtPath [] =
        false := by
      rw [FCompoundWrite.hasCompleteWriteAtPath, (FCompoundWrite.overlay_eq_none _).mp hroot]
      rfl
    simp [calculateCompleteEventCacheAtPath, hcomplete, hno] at h

/-- When the oldest write goes, only what it alone covered is uncovered. -/
theorem Fitting.removeWriteId {record : FWriteRecord κ α} {rest : List (FWriteRecord κ α)} {b : Bool}
    (h : t.Fitting S) (hall : t.allWrites = record :: rest)
    (hremove : t.removeWriteId record.writeId = some (t', b)) :
    t'.Fitting S ∧ Retreats record.path t.visibleWrites.overlay t'.visibleWrites.overlay ∧
      (b = false → t'.visibleWrites = t.visibleWrites) := by
  obtain ⟨hsound, hrest⟩ := sound_removeWriteId h.sound hall
    (anchored_of_overwrites fun c hc => h.overwrites c (hall ▸ List.mem_cons_of_mem record hc))
    hremove
  obtain ⟨node, hnode⟩ := h.overwrites record (hall ▸ List.mem_cons_self ..)
  refine ⟨⟨hsound, h.canonical.removeWriteId hremove, fun c hc => h.overwrites c ?_, fun x hx =>
    h.allowed x (pending_removeWriteId hremove x hx)⟩, ?_, ?_⟩
  · rw [hall]
    exact List.mem_cons_of_mem record (hrest ▸ hc)
  · have hlayered : t.visibleWrites.overlay = Overlay.bare.layer (FImmutableTree.patches t.pending) :=
      h.sound.layered
    have hlayered' : t'.visibleWrites.overlay =
        Overlay.bare.layer (FImmutableTree.patches t'.pending) := hsound.layered
    have hpatches : FImmutableTree.patches t.pending =
        FNode.toPatch record.path node :: FImmutableTree.patches t'.pending := by
      rw [pending, pending, hall, hrest, List.flatMap_cons, FImmutableTree.patches_append]
      simp [FWriteRecord.writes, hnode, FImmutableTree.patches]
    rw [hlayered, hlayered', hpatches, Overlay.layer_cons]
    constructor
    · intro q hq
      refine (Overlay.layer_congr _ ?_).symm
      exact Patch.act_of_not_prefix (w := FNode.toPatch record.path node) hq
    · intro q hq
      exact Overlay.layer_of_covers (Overlay.isSome_layer_iff.mp hq)
  · rintro rfl
    simp only [FWriteTree.removeWriteId] at hremove
    split at hremove
    · cases hremove
    · split at hremove
      · cases hremove
      · split_ifs at hremove <;> cases hremove
        rfl

end FWriteTree

namespace FSyncTree
variable {t t' : FSyncTree ρ κ α} {S : Schema κ}

/-- The data and the writes that come fit the schema, and writes are answered in their order. -/
def Fitting (S : Schema κ) (t : FSyncTree ρ κ α) : SyncEvent ρ κ α → Prop
  | .userOverwrite path newData _ => newData.Canonical ∧ (FNode.toPatch path newData).Allowed S
  | .ackUserWrite writeId _ =>
    t.pendingWriteTree.allWrites.head?.map FWriteRecord.writeId = some writeId
  | .serverOverwrite path newData => newData.Canonical ∧ newData.tree.Within (S.sub path)
  | .serverMerge path changedChildren => changedChildren.writeTree.Canonical ∧
      changedChildren.overlay.Fits (S.sub path) ∧ ∀ q, q <+: path → q ≠ path → ¬ S.leaf q
  | _ => True

structure Kept (S : Schema κ) (t : FSyncTree ρ κ α) : Prop where
  writes : t.pendingWriteTree.Fitting S
  views : Follow t.syncPointTree t.pendingWriteTree.visibleWrites.overlay S

theorem kept_init (S : Schema κ) : (init : FSyncTree ρ κ α).Kept S :=
  ⟨FWriteTree.fitting_init S, follow_empty⟩

theorem follows_newView (h : t.Kept S) (path : List κ) (registration : ρ) :
    (t.newView path registration).viewCache.Follows
      (t.pendingWriteTree.visibleWrites.overlay.sub path) (S.sub path) := by
  have hw := h.writes.regular path
  rw [newView, serverCacheForQuery]
  cases hcache : completeServerCacheOnPath t.syncPointTree path with
  | some serverCacheNode =>
    obtain ⟨hcanonical, hwithin⟩ := completeServerCacheOnPath_spec h.views hcache
    exact follows_initialViewCache hw rfl hcanonical hwithin
  | none =>
    obtain ⟨hcanonical, hwithin⟩ := completeServerChildren_spec (h.views.subtreeAtPath path)
    exact follows_initialViewCache hw rfl hcanonical hwithin

theorem Kept.addEventRegistration (h : t.Kept S) (registration : ρ) (path : List κ) :
    (t.addEventRegistration registration path).Kept S := by
  refine ⟨h.writes, h.views.setValue ?_⟩
  cases hview : t.syncPointTree.valueAtPath path with
  | some view =>
    have hfollows := h.views.valueAtPath hview
    exact hfollows
  | none => exact follows_newView h path registration

theorem Kept.removeEventRegistration (h : t.Kept S) (isMatch : ρ → Bool) (path : List κ) :
    (t.removeEventRegistration isMatch path).Kept S := by
  rw [FSyncTree.removeEventRegistration]
  cases hview : t.syncPointTree.valueAtPath path with
  | none => exact h
  | some view =>
    dsimp only
    split_ifs
    · exact ⟨h.writes, h.views.removeValueAtPath path⟩
    · have hfollows := h.views.valueAtPath hview
      exact ⟨h.writes, h.views.setValue hfollows⟩

section Run
variable [DecidableEq α]

theorem Kept.applyOperation {path : List κ} {operation : FOperationType κ α} {o : Overlay κ α}
    (hwrites : t.pendingWriteTree.Fitting S) (hviews : Follow t.syncPointTree o S)
    (h : operation.Applies path o t.pendingWriteTree.visibleWrites.overlay S) :
    (t.applyOperationToSyncPoints path operation).Kept S :=
  ⟨hwrites, follow_applyOperationHelper hviews (hwrites.regular []) (fun m hm => by cases hm) h⟩

theorem Kept.ackUserWriteWithWriteId {record : FWriteRecord κ α} {rest : List (FWriteRecord κ α)}
    {revert : Bool} (h : t.Kept S) (hall : t.pendingWriteTree.allWrites = record :: rest)
    (hack : t.ackUserWriteWithWriteId record.writeId revert = some t') : t'.Kept S := by
  have hfind : t.pendingWriteTree.writeForId record.writeId = some record := by
    simp [FWriteTree.writeForId, hall]
  simp only [FSyncTree.ackUserWriteWithWriteId, hfind] at hack
  cases hremove : t.pendingWriteTree.removeWriteId record.writeId with
  | none =>
    rw [hremove] at hack
    cases hack
  | some result =>
    obtain ⟨writes, needToReevaluate⟩ := result
    obtain ⟨hwrites, hretreats, hsame⟩ := h.writes.removeWriteId hall hremove
    rw [hremove] at hack
    cases needToReevaluate with
    | true =>
      cases hack
      exact Kept.applyOperation hwrites h.views hretreats
    | false =>
      cases hack
      refine ⟨hwrites, ?_⟩
      change Follow t.syncPointTree writes.visibleWrites.overlay S
      rw [hsame rfl]
      exact h.views

theorem kept_step {e : SyncEvent ρ κ α} (h : t.Kept S) (he : t.Fitting S e)
    (hstep : t.step e = some t') : t'.Kept S := by
  cases e with
  | userOverwrite path newData writeId =>
    obtain ⟨hnew, hallowed⟩ := he
    obtain ⟨writes, hadd, rfl⟩ := Option.map_eq_some_iff.mp hstep
    obtain ⟨hwrites, hoverlay⟩ := h.writes.addOverwriteAtPath hnew hallowed hadd
    exact Kept.applyOperation hwrites h.views ⟨hnew, hallowed.above, hoverlay⟩
  | ackUserWrite writeId revert =>
    cases hall : t.pendingWriteTree.allWrites with
    | nil =>
      rw [Fitting, hall] at he
      cases he
    | cons record rest =>
      rw [Fitting, hall] at he
      cases he
      exact h.ackUserWriteWithWriteId hall hstep
  | serverOverwrite path newData =>
    cases hstep
    exact Kept.applyOperation h.writes h.views ⟨he.1, he.2, rfl⟩
  | serverMerge path changedChildren =>
    cases hstep
    exact Kept.applyOperation h.writes h.views ⟨he.1, he.2.1, he.2.2, rfl⟩
  | listenComplete path =>
    cases hstep
    have happlies : FOperationType.listenComplete.Applies path
      t.pendingWriteTree.visibleWrites.overlay t.pendingWriteTree.visibleWrites.overlay S := rfl
    exact Kept.applyOperation h.writes h.views happlies
  | addEventRegistration registration path =>
    cases hstep
    exact h.addEventRegistration registration path
  | removeEventRegistration isMatch path =>
    cases hstep
    exact h.removeEventRegistration isMatch path

theorem kept_run {es : List (SyncEvent ρ κ α)} (hrun : run step init es = some t)
    (hfit : Along step (Fitting S) init es) : t.Kept S :=
  run_invariant_along (Kept S) (fun _ _ _ h he hstep => kept_step h he hstep) (kept_init S) hfit hrun

end Run

section Sample

/-- A value below every key. -/
def flatSchema : Schema Nat where
  leaf q := q.length = 1
  apart p r hp hr := by
    rw [List.length_append, hp] at hr
    exact List.length_eq_zero_iff.mp (by omega)

def oneValue (a : Nat) : FNode Nat Nat := .children [(1, .leaf a)]

theorem oneValue_fits (a : Nat) : (oneValue a).Canonical ∧ (oneValue a).tree.Within flatSchema := by
  constructor
  · refine .children (by simp [Sorted]) ?_ ?_ <;> intro e he <;>
      obtain rfl := List.mem_singleton.mp he
    · rfl
    · exact .leaf a
  · intro q b hq
    cases q with
    | nil => cases hq
    | cons k q =>
      rw [FNode.tree_cons] at hq
      by_cases hk : k = 1
      · subst hk
        cases q with
        | nil => rfl
        | cons k' q =>
          change (FNode.leaf a : FNode Nat Nat).tree (k' :: q) = some b at hq
          rw [FNode.tree_cons] at hq
          change (FNode.emptyNode : FNode Nat Nat).tree q = some b at hq
          rw [FNode.tree_emptyNode] at hq
          cases hq
      · have hchild : (oneValue a).getImmediateChild k = .emptyNode := by
          simp [oneValue, FNode.getImmediateChild, objectForKey, hk]
        rw [hchild, FNode.tree_emptyNode] at hq
        cases hq

theorem leaf_within (a : Nat) :
    (FNode.leaf a : FNode Nat Nat).tree.Within (flatSchema.sub [1]) := by
  intro q b hq
  cases q with
  | nil => rfl
  | cons k q =>
    rw [FNode.tree_cons] at hq
    change (FNode.emptyNode : FNode Nat Nat).tree q = some b at hq
    rw [FNode.tree_emptyNode] at hq
    cases hq

/-- A value is written twice while the server changes it too; the first write is refused, the
second one acknowledged. -/
def writtenTwice : List (SyncEvent Nat Nat Nat) :=
  [.addEventRegistration 0 [], .addEventRegistration 1 [1], .serverOverwrite [] (oneValue 3),
    .userOverwrite [1] (.leaf 5) 0, .serverOverwrite [1] (.leaf 4),
    .userOverwrite [1] (.leaf 6) 1, .ackUserWrite 0 true, .ackUserWrite 1 false]

def settledTree : FSyncTree Nat Nat Nat := (run step init writtenTwice).getD init

end Sample

end FSyncTree

end Pincushion.Snapshot
