import Pincushion.CompoundWrite

/-! Applying a compound write. Its writes lie apart from each other, so making
them in the order of the tree leaves at every path what the tree says there. -/
namespace Pincushion.Snapshot
open KeyTree SortedDictionary
variable {κ α β : Type*}

namespace FImmutableTree

/-! Whatever `forEach` reaches lies below the path it starts from, and what it
reaches through a child lies below the key of that child. -/
mutual
theorem prefix_of_mem_forEach (t : FImmutableTree κ β) {p : List κ} {x : List κ × β}
    (h : x ∈ t.forEachPathSoFar p) : p <+: x.1 := by
  cases t with
  | node value cs =>
    rw [forEachPathSoFar] at h
    cases List.mem_append.mp h with
    | inl h =>
      obtain ⟨e, -, he⟩ := prefix_of_mem_forEachChild cs h
      exact (List.prefix_append p [e.1]).trans he
    | inr h =>
      cases value with
      | none => cases h
      | some v =>
        rw [Option.map_some, Option.toList_some, List.mem_singleton] at h
        subst h
        exact List.prefix_rfl
theorem prefix_of_mem_forEachChild (cs : List (κ × FImmutableTree κ β)) {p : List κ}
    {x : List κ × β} (h : x ∈ forEachChildSoFar cs p) : ∃ e ∈ cs, p ++ [e.1] <+: x.1 := by
  cases cs with
  | nil => cases h
  | cons e rest =>
    obtain ⟨childKey, childTree⟩ := e
    rw [forEachChildSoFar] at h
    cases List.mem_append.mp h with
    | inl h => exact ⟨_, List.mem_cons_self .., prefix_of_mem_forEach childTree h⟩
    | inr h =>
      obtain ⟨e, he, hx⟩ := prefix_of_mem_forEachChild rest h
      exact ⟨e, List.mem_cons_of_mem _ he, hx⟩
end

/-- Two paths that go on from a common one by different keys part there. -/
theorem apart_of_ne {k k' : κ} {p x q : List κ} (hx : p ++ [k] <+: x) (h : k ≠ k') :
    ¬ x <+: p ++ k' :: q ∧ ¬ p ++ k' :: q <+: x := by
  have hne : p ++ [k] ≠ p ++ [k'] := by simpa using h
  have hlen : (p ++ [k]).length = (p ++ [k']).length := by simp
  have hq : p ++ [k'] <+: p ++ k' :: q := ⟨q, by simp⟩
  constructor
  · intro hxq
    have hpre := List.prefix_of_prefix_length_le (hx.trans hxq) hq (Nat.le_of_eq hlen)
    exact hne (hpre.eq_of_length hlen)
  · intro hqx
    have hpre := List.prefix_of_prefix_length_le hx (hq.trans hqx) (Nat.le_of_eq hlen)
    exact hne (hpre.eq_of_length hlen)

variable [LinearOrder κ]

/-! Without priorities the node between the writes is only passed on. -/
mutual
def applySubtreeWrite : FImmutableTree κ (FNode κ α) → List κ → FNode κ α → FNode κ α
  | .node (some value) _, relativePath, n => n.updateChild relativePath value
  | .node none cs, relativePath, n => applyChildWrites cs relativePath n
def applyChildWrites : List (κ × FImmutableTree κ (FNode κ α)) → List κ → FNode κ α → FNode κ α
  | [], _, blockNode => blockNode
  | (childKey, childTree) :: rest, relativePath, blockNode =>
    applyChildWrites rest relativePath
      (childTree.applySubtreeWrite (relativePath ++ [childKey]) blockNode)
end

/-- The writes that `forEach` reaches, as writes to the tree of leaves. -/
def patches (ws : List (List κ × FNode κ α)) : List (Patch κ α) :=
  ws.map fun x => FNode.toPatch x.1 x.2

theorem patches_append (vs ws : List (List κ × FNode κ α)) :
    patches (vs ++ ws) = patches vs ++ patches ws := List.map_append ..

theorem mem_patches {ws : List (List κ × FNode κ α)} {w : Patch κ α} (h : w ∈ patches ws) :
    ∃ x ∈ ws, FNode.toPatch x.1 x.2 = w := List.mem_map.mp h

/-! Applying makes the writes that `forEach` reaches, one after the other. -/
mutual
theorem tree_applySubtreeWrite (t : FImmutableTree κ (FNode κ α)) (p : List κ) (n : FNode κ α)
    (h : t.WellFormed) : (t.applySubtreeWrite p n).tree =
      (patches (t.forEachPathSoFar p)).foldl Tree.patch n.tree := by
  cases t with
  | node value cs =>
    cases value with
    | none =>
      rw [applySubtreeWrite, forEachPathSoFar, Option.map_none, Option.toList_none, List.append_nil]
      exact tree_applyChildWrites cs p n h.2.2
    | some v =>
      obtain rfl : cs = [] := h.1 rfl
      rw [applySubtreeWrite, FNode.tree_updateChild]
      rfl
theorem tree_applyChildWrites (cs : List (κ × FImmutableTree κ (FNode κ α))) (p : List κ)
    (n : FNode κ α) (h : AllWellFormed cs) : (applyChildWrites cs p n).tree =
      (patches (forEachChildSoFar cs p)).foldl Tree.patch n.tree := by
  cases cs with
  | nil => rfl
  | cons e rest =>
    obtain ⟨childKey, childTree⟩ := e
    rw [applyChildWrites, forEachChildSoFar, patches_append, List.foldl_append,
      tree_applyChildWrites rest p _ h.2, tree_applySubtreeWrite childTree _ n h.1]
end

/-! The writes that `forEach` reaches, laid one over the other, say at each path
what the tree says there. -/
mutual
theorem layer_forEach (t : FImmutableTree κ (FNode κ α)) (p q : List κ) (h : t.WellFormed) :
    Overlay.bare.layer (patches (t.forEachPathSoFar p)) (p ++ q) = t.overlay q := by
  cases t with
  | node value cs =>
    cases value with
    | none =>
      rw [forEachPathSoFar, Option.map_none, Option.toList_none, List.append_nil]
      exact layer_forEachChild cs p q h
    | some v =>
      obtain rfl : cs = [] := h.1 rfl
      rw [overlay_value]
      calc
        Overlay.bare.layer (patches ((node (some v) []).forEachPathSoFar p)) (p ++ q)
            = (FNode.toPatch p v).act (p ++ q) none := rfl
        _ = some (v.tree q) := by
            rw [Patch.act_of_prefix (List.prefix_append p q)]
            simp [FNode.toPatch]
theorem layer_forEachChild (cs : List (κ × FImmutableTree κ (FNode κ α))) (p q : List κ)
    (h : (node none cs).WellFormed) :
    Overlay.bare.layer (patches (forEachChildSoFar cs p)) (p ++ q) =
      (node none cs).overlay q := by
  cases q with
  | nil =>
    rw [overlay_nil]
    refine Overlay.layer_of_not_covers rfl fun w hw hwp => ?_
    obtain ⟨x, hx, rfl⟩ := mem_patches hw
    obtain ⟨e, -, he⟩ := prefix_of_mem_forEachChild cs hx
    have hlen := (he.trans hwp).length_le
    simp only [List.length_append, List.length_cons, List.length_nil] at hlen
    omega
  | cons k q =>
    rw [overlay_cons]
    cases cs with
    | nil => exact (congrFun overlay_empty q).symm
    | cons e rest =>
      obtain ⟨childKey, childTree⟩ := e
      obtain ⟨-, hsorted, hall⟩ := h
      obtain ⟨hfirst, hrest⟩ := List.pairwise_cons.mp hsorted
      rw [forEachChildSoFar, patches_append, Overlay.layer_append]
      by_cases hk : k = childKey
      · subst hk
        have hlater : ∀ w ∈ patches (forEachChildSoFar rest p),
            ¬ w.path <+: p ++ k :: q ∧ ¬ p ++ k :: q <+: w.path := by
          intro w hw
          obtain ⟨x, hx, rfl⟩ := mem_patches hw
          obtain ⟨e, he, hpre⟩ := prefix_of_mem_forEachChild rest hx
          exact apart_of_ne hpre (hfirst e he).ne'
        have hchild := layer_forEach childTree (p ++ [k]) q hall.1
        rw [List.append_assoc, List.singleton_append] at hchild
        rw [Overlay.layer_of_apart_all _ hlater, hchild]
        simp [objectForKey]
      · have hearlier : ∀ w ∈ patches (childTree.forEachPathSoFar (p ++ [childKey])),
            ¬ w.path <+: p ++ k :: q := by
          intro w hw
          obtain ⟨x, hx, rfl⟩ := mem_patches hw
          exact (apart_of_ne (prefix_of_mem_forEach childTree hx) (Ne.symm hk)).1
        have hchildren := layer_forEachChild rest p (k :: q)
          ⟨fun hv => (Bool.false_ne_true hv).elim, hrest, hall.2⟩
        rw [overlay_cons] at hchildren
        have hbare : Overlay.bare.layer (patches (childTree.forEachPathSoFar (p ++ [childKey])))
            (p ++ k :: q) = Overlay.bare (p ++ k :: q) := Overlay.layer_of_not_covers rfl hearlier
        rw [Overlay.layer_congr _ hbare, hchildren]
        simp [objectForKey, hk]
end

/-! Nothing is written above a write of the tree. -/
mutual
theorem uncovered_above (t : FImmutableTree κ (FNode κ α)) (p : List κ)
    {x : List κ × FNode κ α} (h : t.WellFormed) (hx : x ∈ t.forEachPathSoFar p) :
    ∃ r, x.1 = p ++ r ∧ ∀ s, s <+: r → s ≠ r → t.overlay s = none := by
  cases t with
  | node value cs =>
    cases value with
    | none =>
      rw [forEachPathSoFar, Option.map_none, Option.toList_none, List.append_nil] at hx
      obtain ⟨k, child, r, hmem, heq, hr⟩ := uncovered_above_child cs p h.2.2 hx
      refine ⟨k :: r, heq, fun s hs hne => ?_⟩
      cases s with
      | nil => exact overlay_nil
      | cons k' s =>
        obtain ⟨rfl, hs'⟩ := List.cons_prefix_cons.mp hs
        rw [overlay_cons, objectForKey_of_mem h.2.1 hmem]
        exact hr s hs' (by simpa using hne)
    | some v =>
      obtain rfl : cs = [] := h.1 rfl
      obtain rfl := List.mem_singleton.mp hx
      exact ⟨[], by simp, fun s hs hne => absurd (List.prefix_nil.mp hs) hne⟩
theorem uncovered_above_child (cs : List (κ × FImmutableTree κ (FNode κ α))) (p : List κ)
    {x : List κ × FNode κ α} (h : AllWellFormed cs) (hx : x ∈ forEachChildSoFar cs p) :
    ∃ k child r, (k, child) ∈ cs ∧ x.1 = p ++ k :: r ∧
      ∀ s, s <+: r → s ≠ r → child.overlay s = none := by
  cases cs with
  | nil => cases hx
  | cons e rest =>
    obtain ⟨childKey, childTree⟩ := e
    rw [forEachChildSoFar] at hx
    cases List.mem_append.mp hx with
    | inl hx =>
      obtain ⟨r, heq, hr⟩ := uncovered_above childTree (p ++ [childKey]) h.1 hx
      exact ⟨childKey, childTree, r, List.mem_cons_self .., by simpa using heq, hr⟩
    | inr hx =>
      obtain ⟨k, child, r, hmem, heq, hr⟩ := uncovered_above_child rest p h.2 hx
      exact ⟨k, child, r, List.mem_cons_of_mem _ hmem, heq, hr⟩
end

theorem layer_patches {t : FImmutableTree κ (FNode κ α)} (h : t.WellFormed) :
    Overlay.bare.layer (patches t.forEach) = t.overlay := by
  funext q
  exact layer_forEach t [] q h

/-- Applying shows the node through what the tree says. -/
theorem tree_apply {t : FImmutableTree κ (FNode κ α)} {n : FNode κ α} (h : t.WellFormed)
    (hn : n.tree.ClearOf t.overlay) : (t.applySubtreeWrite [] n).tree = n.tree.over t.overlay := by
  have hclear : ∀ w ∈ patches t.forEach, n.tree.ClearAbove w.path := by
    intro w hw q hq hne
    obtain ⟨x, hx, rfl⟩ := mem_patches hw
    obtain ⟨r, heq, hr⟩ := uncovered_above t [] h hx
    rw [List.nil_append] at heq
    subst heq
    obtain ⟨s, hs⟩ := hq
    refine hn q s (hr q ⟨s, hs⟩ hne) ?_
    rw [← layer_patches h, hs]
    exact Overlay.isSome_layer_iff.mpr ⟨_, hw, List.prefix_rfl⟩
  rw [tree_applySubtreeWrite t [] n h, ← layer_patches h, over_layer Overlay.bare hclear, over_bare]
  rfl

theorem wellFormed_subtreeAtPath {t : FImmutableTree κ β} (p : List κ) (h : t.WellFormed) :
    (t.subtreeAtPath p).WellFormed := by
  induction p generalizing t with
  | nil =>
    cases t
    exact h
  | cons k p ih =>
    cases t with
    | node value cs =>
      have hchild := ih (wellFormed_child k h)
      rw [subtreeAtPath]
      cases hget : objectForKey k cs with
      | none => exact wellFormed_empty
      | some child => rwa [hget] at hchild

/-- Below a path that no write covers, the subtree says what the tree says. -/
theorem overlay_subtreeAtPath {t : FImmutableTree κ (FNode κ α)} {p : List κ}
    (h : t.overlay p = none) : (t.subtreeAtPath p).overlay = t.overlay.sub p := by
  induction p generalizing t with
  | nil =>
    cases t
    rfl
  | cons k p ih =>
    cases t with
    | node value cs =>
      cases value with
      | some a =>
        rw [overlay_value] at h
        cases h
      | none =>
        have hsub : (node none cs).overlay.sub (k :: p) =
            ((objectForKey k cs).getD empty).overlay.sub p := by
          funext q
          exact overlay_cons k (p ++ q)
        rw [overlay_cons] at h
        rw [subtreeAtPath, hsub]
        cases hget : objectForKey k cs with
        | none =>
          rw [Option.getD_none, overlay_empty]
          rfl
        | some child =>
          rw [hget] at h
          exact ih h

end FImmutableTree

end Pincushion.Snapshot
