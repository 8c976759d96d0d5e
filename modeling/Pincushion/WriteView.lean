import Pincushion.WriteTree
import Mathlib.Data.Nat.Basic

/-! The view of a device. As long as the server acknowledges the writes in the
order they were made, the compound write stays what the waiting writes amount
to, and the view is the data of the server with these writes made on it. -/
namespace Pincushion.Snapshot
open KeyTree SortedDictionary Runs
variable {κ α : Type*} [LinearOrder κ]

namespace FCompoundWrite

/-- Writes are taken away one by one when none lies above another. -/
theorem overlay_removeWrites (c : FCompoundWrite κ α) (ps : List (List κ))
    (h : ∀ p ∈ ps, ∀ r, r <+: p → r ≠ p → c.overlay r = none) (q : List κ) :
    (ps.foldl removeWriteAtPath c).overlay q =
      if ∃ p ∈ ps, p <+: q then none else c.overlay q := by
  induction ps generalizing c with
  | nil => simp
  | cons p ps ih =>
    have hfirst := overlay_removeWriteAtPath c (h p (List.mem_cons_self ..))
    have hrest : ∀ p' ∈ ps, ∀ r, r <+: p' → r ≠ p' → (c.removeWriteAtPath p).overlay r = none := by
      intro p' hp' r hr hne
      rw [hfirst, h p' (List.mem_cons_of_mem p hp') r hr hne, ite_self]
    rw [List.foldl_cons, ih _ hrest, hfirst]
    by_cases hq : ∃ p' ∈ ps, p' <+: q
    · obtain ⟨p', hp', hpq⟩ := hq
      rw [if_pos ⟨p', hp', hpq⟩, if_pos ⟨p', List.mem_cons_of_mem p hp', hpq⟩]
    · rw [if_neg hq]
      refine if_congr ⟨fun hp => ⟨p, List.mem_cons_self .., hp⟩, ?_⟩ rfl rfl
      rintro ⟨p', hp', hpq⟩
      cases List.mem_cons.mp hp' with
      | inl heq => exact heq ▸ hpq
      | inr hp' => exact absurd ⟨p', hp', hpq⟩ hq

end FCompoundWrite

/-- No write of a record lies above another one of it. -/
theorem FWriteRecord.not_above {record : FWriteRecord κ α} {x y : List κ × FNode κ α} {r : List κ}
    (hx : x ∈ record.writes) (hy : y ∈ record.writes) (hr : r <+: x.1) (hne : r ≠ x.1) :
    ¬ y.1 <+: r := by
  intro hyr
  cases hw : record.write with
  | overwrite node =>
    simp only [writes, hw, List.mem_singleton] at hx hy
    subst hx hy
    exact hne (hr.eq_of_length (Nat.le_antisymm hr.length_le hyr.length_le))
  | merge changedChildren =>
    simp only [writes, hw, List.mem_map] at hx hy
    obtain ⟨x, hx, rfl⟩ := hx
    obtain ⟨y, hy, rfl⟩ := hy
    obtain ⟨u, hu, habove⟩ :=
      FImmutableTree.uncovered_above _ [] changedChildren.wellFormed hx
    obtain ⟨s, rfl⟩ := (List.prefix_append record.path y.1).trans hyr
    rw [List.nil_append] at hu
    subst hu
    have hs : s <+: x.1 := (List.prefix_append_right_inj record.path).mp hr
    have hnone := habove s hs fun heq => hne (by rw [heq])
    have hcover : (Overlay.bare.layer (FImmutableTree.patches
        changedChildren.writeTree.forEach) s).isSome :=
      Overlay.isSome_layer_iff.mpr ⟨_, List.mem_map.mpr ⟨y, hy, rfl⟩,
        (List.prefix_append_right_inj record.path).mp hyr⟩
    rw [FImmutableTree.layer_patches changedChildren.wellFormed, hnone] at hcover
    cases hcover

namespace FWriteTree
variable {w : FWriteRecord κ α} {index : Nat}

/-- A removed write that is found shadowed is covered by a later one. -/
theorem of_scan_shadowed {entries : List (FWriteRecord κ α × Nat)} {overlaps overlaps' : Bool}
    (h : scan w index entries true overlaps = (false, overlaps')) :
    ∃ e ∈ entries, e.1.containsPath w.path = true := by
  induction entries generalizing overlaps with
  | nil => cases h
  | cons e rest ih =>
    simp only [scan, if_true] at h
    split_ifs at h with hvisible hshadow hbelow
    · exact ⟨e, List.mem_cons_self .., hshadow.2⟩
    all_goals
      obtain ⟨e', he', hcontains⟩ := ih h
      exact ⟨e', List.mem_cons_of_mem e he', hcontains⟩

/-- A removed write that is found to stand alone is neither covered nor above another. -/
theorem of_scan_apart {entries : List (FWriteRecord κ α × Nat)} {overlaps : Bool}
    (hvisible : ∀ e ∈ entries, e.1.visible = true) (hindex : ∀ e ∈ entries, index ≤ e.2)
    (h : scan w index entries true overlaps = (true, false)) :
    overlaps = false ∧
      ∀ e ∈ entries, e.1.containsPath w.path = false ∧ ¬ w.path <+: e.1.path := by
  induction entries generalizing overlaps with
  | nil =>
    cases h
    exact ⟨rfl, fun e he => by cases he⟩
  | cons e rest ih =>
    have hrest : ∀ o, scan w index rest true o = (true, false) → o = false ∧
        ∀ e' ∈ rest, e'.1.containsPath w.path = false ∧ ¬ w.path <+: e'.1.path :=
      fun o => ih (fun e' he' => hvisible e' (List.mem_cons_of_mem e he'))
        fun e' he' => hindex e' (List.mem_cons_of_mem e he')
    simp only [scan, if_true, hvisible e (List.mem_cons_self ..),
      hindex e (List.mem_cons_self ..), true_and] at h
    split_ifs at h with hshadow hbelow
    · cases rest <;> cases h
    · cases (hrest true h).1
    · obtain ⟨hoverlaps, hall⟩ := hrest overlaps h
      refine ⟨hoverlaps, fun e' he' => ?_⟩
      cases List.mem_cons.mp he' with
      | inl heq =>
        subst heq
        exact ⟨Bool.eq_false_iff.mpr hshadow, hbelow⟩
      | inr he' => exact hall e' he'

/-- The writes of a record that stands alone meet none of the later ones. -/
theorem apart_of_scan {rest : List (FWriteRecord κ α)} (hanchored : Anchored w rest)
    (h : ∀ c ∈ rest, c.containsPath w.path = false ∧ ¬ w.path <+: c.path)
    {x y : List κ × FNode κ α} (hx : x ∈ w.writes) (hy : y ∈ rest.flatMap FWriteRecord.writes) :
    ¬ y.1 <+: x.1 ∧ ¬ x.1 <+: y.1 := by
  obtain ⟨c, hc, hyc⟩ := List.mem_flatMap.mp hy
  obtain ⟨hcontains, hnot⟩ := h c hc
  have hwx := FWriteRecord.prefix_of_mem_writes hx
  have hbelow : ¬ w.path <+: y.1 := fun hwy => hnot (hanchored c hc y hyc hwy)
  refine ⟨fun hyx => ?_, fun hxy => hbelow (hwx.trans hxy)⟩
  cases List.prefix_or_prefix_of_prefix hyx hwx with
  | inl hyw =>
    have htrue := (FWriteRecord.containsPath_iff c w.path).mpr ⟨y, hyc, hyw⟩
    rw [hcontains] at htrue
    cases htrue
  | inr hwy => exact hbelow hwy

/-- The compound write without the writes of the oldest record, when that stands alone. -/
theorem layered_removeWrites {t : FWriteTree κ α} {rest : List (FWriteRecord κ α)}
    (ht : t.Layered) (hall : t.allWrites = w :: rest) (hanchored : Anchored w rest)
    (h : ∀ c ∈ rest, c.containsPath w.path = false ∧ ¬ w.path <+: c.path) :
    ((w.writes.map Prod.fst).foldl FCompoundWrite.removeWriteAtPath t.visibleWrites).overlay =
      Overlay.bare.layer (FImmutableTree.patches (rest.flatMap FWriteRecord.writes)) := by
  have hlayer : t.visibleWrites.overlay = Overlay.bare.layer
      (FImmutableTree.patches w.writes ++
        FImmutableTree.patches (rest.flatMap FWriteRecord.writes)) := by
    rw [ht, pending, hall, List.flatMap_cons, FImmutableTree.patches_append]
  have huncovered : ∀ p ∈ w.writes.map Prod.fst, ∀ r, r <+: p → r ≠ p →
      t.visibleWrites.overlay r = none := by
    intro p hp r hr hne
    obtain ⟨x, hx, rfl⟩ := List.mem_map.mp hp
    rw [hlayer]
    refine Overlay.layer_of_not_covers rfl fun v hv hvr => ?_
    cases List.mem_append.mp hv with
    | inl hv =>
      obtain ⟨y, hy, rfl⟩ := FImmutableTree.mem_patches hv
      exact FWriteRecord.not_above hx hy hr hne hvr
    | inr hv =>
      obtain ⟨y, hy, rfl⟩ := FImmutableTree.mem_patches hv
      exact (apart_of_scan hanchored h hx hy).1 (hvr.trans hr)
  funext q
  rw [FCompoundWrite.overlay_removeWrites _ _ huncovered, Overlay.layer_of_apart q, ← hlayer]
  · refine if_congr ?_ rfl rfl
    simp only [FImmutableTree.patches, List.mem_map, exists_exists_and_eq_and]
    rfl
  · intro v hv u hu
    obtain ⟨x, hx, rfl⟩ := FImmutableTree.mem_patches hv
    obtain ⟨y, hy, rfl⟩ := FImmutableTree.mem_patches hu
    exact apart_of_scan hanchored h hx hy

/-- The paths at which the code takes a record away are those of its writes. -/
theorem removeRecord_eq (c : FCompoundWrite κ α) (w : FWriteRecord κ α) :
    removeRecord c w = (w.writes.map Prod.fst).foldl FCompoundWrite.removeWriteAtPath c := by
  cases hw : w.write with
  | overwrite node => simp [removeRecord, FWriteRecord.writes, hw]
  | merge merge => simp [removeRecord, FWriteRecord.writes, hw, List.foldl_map]

/-- Acknowledging the oldest write leaves what the other ones amount to. -/
theorem layered_removeWriteId {t t' : FWriteTree κ α} {b : Bool} {rest : List (FWriteRecord κ α)}
    (ht : t.Layered) (hall : t.allWrites = w :: rest)
    (hvisible : ∀ c ∈ t.allWrites, c.visible = true) (hanchored : Anchored w rest)
    (h : t.removeWriteId w.writeId = some (t', b)) : t'.Layered ∧ t'.allWrites = rest := by
  have hfind : (w :: rest).findIdx? (fun record => record.writeId == w.writeId) = some 0 := by
    simp [List.findIdx?_cons]
  have hentries : ∀ e ∈ rest.zipIdx.reverse, e.1 ∈ rest := fun e he =>
    List.fst_mem_of_mem_zipIdx (List.mem_reverse.mp he)
  have hw : w.visible = true := hvisible w (by simp [hall])
  simp only [removeWriteId, hall, hfind, List.getElem?_cons_zero, List.eraseIdx_zero,
    List.tail_cons, hw] at h
  cases hscan : scan w 0 rest.zipIdx.reverse true false with
  | mk visible overlaps =>
    simp only [hscan] at h
    cases visible with
    | false =>
      cases h
      refine ⟨?_, rfl⟩
      obtain ⟨e, he, hcontains⟩ := of_scan_shadowed hscan
      obtain ⟨y, hy, hyw⟩ := (FWriteRecord.containsPath_iff _ _).mp hcontains
      rw [Layered, ht, pending, pending, hall, List.flatMap_cons, FImmutableTree.patches_append]
      refine Overlay.layer_of_shadowed fun v hv => ?_
      obtain ⟨x, hx, rfl⟩ := FImmutableTree.mem_patches hv
      refine ⟨FNode.toPatch y.1 y.2, List.mem_map.mpr ⟨y, ?_, rfl⟩,
        hyw.trans (FWriteRecord.prefix_of_mem_writes hx)⟩
      exact List.mem_flatMap.mpr ⟨e.1, hentries e he, hy⟩
    | true =>
      cases overlaps with
      | true =>
        cases h
        exact ⟨layered_resetTree _, rfl⟩
      | false =>
        cases h
        refine ⟨?_, rfl⟩
        obtain ⟨-, hapart⟩ := of_scan_apart
          (fun e he => hvisible e.1 (by simp [hall, hentries e he])) (fun e _ => Nat.zero_le e.2)
          hscan
        have hrest : ∀ c ∈ rest, c.containsPath w.path = false ∧ ¬ w.path <+: c.path := by
          intro c hc
          obtain ⟨i, hi⟩ := List.mem_iff_getElem?.mp hc
          exact hapart (c, i) (by simp [List.mem_zipIdx_iff_getElem?, hi])
        rw [Layered, removeRecord_eq, layered_removeWrites ht hall hanchored hrest]
        rfl

/-- Any waiting write can be acknowledged; the others stay, in their order. -/
theorem removeWriteId_eq {t : FWriteTree κ α} {us vs : List (FWriteRecord κ α)}
    (hall : t.allWrites = us ++ w :: vs) (hids : ∀ u ∈ us, u.writeId ≠ w.writeId) :
    ∃ t' b, t.removeWriteId w.writeId = some (t', b) ∧ t'.allWrites = us ++ vs ∧
      (t'.lastWriteId = t.lastWriteId ∨ t'.lastWriteId = -1 ∨
        ∃ v ∈ us ++ vs, t'.lastWriteId = v.writeId) := by
  have hfind : (us ++ w :: vs).findIdx? (fun record => record.writeId == w.writeId) =
      some us.length := by
    have hnone : us.findIdx? (fun record => record.writeId == w.writeId) = none := by
      simpa [List.findIdx?_eq_none_iff] using hids
    simp [List.findIdx?_append, hnone, List.findIdx?_cons]
  simp only [removeWriteId, hall, hfind, List.getElem?_append_right (Nat.le_refl _), Nat.sub_self,
    List.getElem?_cons_zero, List.eraseIdx_append_of_length_le (Nat.le_refl _),
    List.eraseIdx_zero, List.tail_cons]
  cases scan w us.length (us ++ vs).zipIdx.reverse w.visible false with
  | mk visible overlaps =>
    cases visible with
    | false => exact ⟨_, _, rfl, rfl, Or.inl rfl⟩
    | true =>
      cases overlaps with
      | false => exact ⟨_, _, rfl, rfl, Or.inl rfl⟩
      | true =>
        refine ⟨_, _, rfl, rfl, Or.inr ?_⟩
        simp only [resetTree]
        cases hlast : (us ++ vs).getLast? with
        | none => exact Or.inl rfl
        | some v => exact Or.inr ⟨v, List.mem_of_getLast? hlast, rfl⟩

inductive WriteEvent (κ α : Type*) [LinearOrder κ] where
  | set (path : List κ) (newData : FNode κ α) (writeId : Int)
  | update (path : List κ) (changedChildren : FCompoundWrite κ α) (writeId : Int)
  | ack (writeId : Int)
  | purge

/-- What the calls of the application and the answers of the server do. -/
def step (t : FWriteTree κ α) : WriteEvent κ α → Option (FWriteTree κ α)
  | .set path newData writeId => t.addOverwriteAtPath path newData writeId true
  | .update path changedChildren writeId => t.addMergeAtPath path changedChildren writeId
  | .ack writeId => (t.removeWriteId writeId).map Prod.fst
  | .purge => some t.removeAllWrites

/-- Acknowledgements come in the order of the writes, and no waiting update starts above
the path of the write that goes and reaches below it. -/
def InOrder (t : FWriteTree κ α) : WriteEvent κ α → Prop
  | .ack writeId => ∃ w rest, t.allWrites = w :: rest ∧ w.writeId = writeId ∧ Anchored w rest
  | _ => True

structure Sound (t : FWriteTree κ α) : Prop where
  layered : t.Layered
  visible : ∀ c ∈ t.allWrites, c.visible = true

theorem sound_init : (init : FWriteTree κ α).Sound := ⟨layered_init, fun c hc => by cases hc⟩

theorem sound_removeWriteId {t t' : FWriteTree κ α} {b : Bool} {rest : List (FWriteRecord κ α)}
    (ht : t.Sound) (hall : t.allWrites = w :: rest) (hanchored : Anchored w rest)
    (h : t.removeWriteId w.writeId = some (t', b)) : t'.Sound ∧ t'.allWrites = rest := by
  obtain ⟨hlayered, hrest⟩ := layered_removeWriteId ht.layered hall ht.visible hanchored h
  refine ⟨⟨hlayered, fun c hc => ht.visible c ?_⟩, hrest⟩
  rw [hall]
  exact List.mem_cons_of_mem w (hrest ▸ hc)

theorem sound_step {t t' : FWriteTree κ α} {e : WriteEvent κ α} (ht : t.Sound)
    (horder : t.InOrder e) (h : t.step e = some t') : t'.Sound := by
  cases e with
  | set path newData writeId =>
    refine ⟨layered_addOverwrite ht.layered h, fun c hc => ?_⟩
    simp only [step, addOverwriteAtPath] at h
    split_ifs at h
    cases h
    cases List.mem_append.mp hc with
    | inl hc => exact ht.visible c hc
    | inr hc => rw [List.mem_singleton.mp hc]
  | update path changedChildren writeId =>
    refine ⟨layered_addMerge ht.layered h, fun c hc => ?_⟩
    simp only [step, addMergeAtPath] at h
    split_ifs at h
    cases h
    cases List.mem_append.mp hc with
    | inl hc => exact ht.visible c hc
    | inr hc => rw [List.mem_singleton.mp hc]
  | ack writeId =>
    obtain ⟨w, rest, hall, rfl, hanchored⟩ := horder
    obtain ⟨⟨t'', b⟩, hremove, rfl⟩ := Option.map_eq_some_iff.mp h
    exact (sound_removeWriteId ht hall hanchored hremove).1
  | purge =>
    cases h
    exact ⟨FCompoundWrite.overlay_emptyWrite, fun c hc => by cases hc⟩

theorem sound_run {t : FWriteTree κ α} {es : List (WriteEvent κ α)}
    (hrun : run step init es = some t) (horder : Along step InOrder init es) : t.Sound :=
  run_invariant_along Sound (fun _ _ _ ht hc h => sound_step ht hc h) sound_init horder hrun

/-- The data of the server with the waiting writes made on them in order. -/
def latest (t : FWriteTree κ α) (server : FNode κ α) : FNode κ α :=
  t.allWrites.foldl FWriteRecord.applyTo server

theorem tree_applyTo (n : FNode κ α) (record : FWriteRecord κ α) :
    (FWriteRecord.applyTo n record).tree =
      (FImmutableTree.patches record.writes).foldl Tree.patch n.tree := by
  rw [FWriteRecord.applyTo]
  generalize record.writes = ws
  induction ws generalizing n with
  | nil => rfl
  | cons x ws ih => rw [List.foldl_cons, ih, FNode.tree_updateChild]; rfl

theorem tree_latest (t : FWriteTree κ α) (server : FNode κ α) :
    (t.latest server).tree = (FImmutableTree.patches t.pending).foldl Tree.patch server.tree := by
  rw [latest, pending]
  generalize t.allWrites = records
  induction records generalizing server with
  | nil => rfl
  | cons record records ih =>
    rw [List.foldl_cons, ih, List.flatMap_cons, FImmutableTree.patches_append, List.foldl_append,
      tree_applyTo]

/-- No leaf of the server's data lies above the path of a waiting write. -/
def ClearFor (t : FWriteTree κ α) (server : FNode κ α) : Prop :=
  ∀ x ∈ t.pending, server.tree.ClearAbove x.1

instance (t : FWriteTree κ α) (server : FNode κ α) : Decidable (t.ClearFor server) :=
  inferInstanceAs (Decidable (∀ x ∈ t.pending, _))

theorem tree_latest_over {t : FWriteTree κ α} {server : FNode κ α} (ht : t.Layered)
    (h : t.ClearFor server) : (t.latest server).tree = server.tree.over t.visibleWrites.overlay := by
  rw [tree_latest, ht, over_layer _ fun w hw => ?_, over_bare]
  obtain ⟨x, hx, rfl⟩ := FImmutableTree.mem_patches hw
  exact h x hx

/-- The view at a path, from the data of the server at that path, is what is there once
the waiting writes have been made in order. -/
theorem eventCache_of_layered {t : FWriteTree κ α} {server : FNode κ α} (ht : t.Layered)
    (h : t.ClearFor server) (path : List κ) :
    ∃ n, t.calculateCompleteEventCacheAtPath path (some (server.getChild path)) = some n ∧
      n.tree = ((t.latest server).getChild path).tree := by
  have hlatest : ((t.latest server).getChild path).tree =
      (server.getChild path).tree.over (t.visibleWrites.overlay.sub path) := by
    rw [FNode.tree_getChild, tree_latest_over ht h, FNode.tree_getChild, sub_over]
  rw [hlatest, calculateCompleteEventCacheAtPath]
  cases hcomplete : t.visibleWrites.completeNodeAtPath path with
  | some n =>
    refine ⟨n, rfl, ?_⟩
    funext q
    simp only [Tree.over, Overlay.sub, FCompoundWrite.overlay_of_complete _ hcomplete,
      Option.getD_some]
  | none =>
    have hchild := FCompoundWrite.overlay_child _ hcomplete
    rw [← hchild]
    cases hempty : (t.visibleWrites.childCompoundWriteAtPath path).isEmpty with
    | true =>
      refine ⟨server.getChild path, by simp [hempty], ?_⟩
      rw [FCompoundWrite.overlay_of_isEmpty _ hempty, over_bare]
    | false =>
      refine ⟨(t.visibleWrites.childCompoundWriteAtPath path).applyToNode (server.getChild path),
        by simp [hempty], ?_⟩
      apply FCompoundWrite.tree_applyToNode
      rw [hchild, FNode.tree_getChild]
      refine Tree.ClearOf.sub ?_ path
      rw [ht]
      refine clearOf_layer fun w hw => ?_
      obtain ⟨x, hx, rfl⟩ := FImmutableTree.mem_patches hw
      exact h x hx

/-- Without the data of the server there is a view exactly below the path of a waiting write. -/
theorem eventCache_none {t : FWriteTree κ α} (ht : t.Layered) (path : List κ) :
    (t.calculateCompleteEventCacheAtPath path none).isSome ↔ ∃ x ∈ t.pending, x.1 <+: path := by
  have hcover : (t.visibleWrites.overlay path).isSome ↔ ∃ x ∈ t.pending, x.1 <+: path := by
    rw [ht, Overlay.isSome_layer_iff]
    simp only [FImmutableTree.patches, List.mem_map, exists_exists_and_eq_and]
    rfl
  rw [← hcover, calculateCompleteEventCacheAtPath]
  cases hcomplete : t.visibleWrites.completeNodeAtPath path with
  | some n =>
    have hsome := FCompoundWrite.overlay_of_complete _ hcomplete []
    rw [List.append_nil] at hsome
    simp [hsome]
  | none =>
    have hnone := (FCompoundWrite.overlay_eq_none _).mpr hcomplete
    have hroot : (t.visibleWrites.childCompoundWriteAtPath path).hasCompleteWriteAtPath [] =
        false := by
      have hchild := congrFun (FCompoundWrite.overlay_child _ hcomplete) []
      rw [Overlay.sub, List.append_nil, hnone] at hchild
      rw [FCompoundWrite.hasCompleteWriteAtPath, (FCompoundWrite.overlay_eq_none _).mp hchild]
      rfl
    simp [hnone, hroot]

/-- A record is replaced, a list below it is written, and the first write is acknowledged. -/
def replaceThenAppend : List (WriteEvent Nat Nat) :=
  [.set [1, 2] (.children [(3, .leaf 30), (4, .leaf 40)]) 0, .set [1, 2, 4] (.leaf 41) 1,
    .set [1, 5] (.leaf 50) 2, .ack 0]

def replacedThenAppended : FWriteTree Nat Nat := (run step init replaceThenAppend).getD init

def savedRecord : FNode Nat Nat := .children [(1, .children [(2, .children [(3, .leaf 3)])])]

/-- Out of order the view goes wrong: the second write was made into the node of the first,
and is not taken out of it. -/
example : ((run step init [.set [1] (.children [(2, .leaf 20)]) 0, .set [1, 2] (.leaf 21) 1,
    .ack 1]).bind fun t => (t.calculateCompleteEventCacheAtPath [1, 2]
      (some savedRecord)).map fun n => (n.val?, ((t.latest savedRecord).getChild [1, 2]).val?)) =
    some (some 21, some 20) := by
  decide

end FWriteTree

end Pincushion.Snapshot
