import Pincushion.Snapshot

/-! Compound writes: the writes that wait, merged into one tree. A write below
one that is there already changes the node of that one; a write above others
takes their place. -/
namespace Pincushion.Snapshot
open KeyTree SortedDictionary
variable {κ α β : Type*}

inductive FImmutableTree (κ β : Type*) where
  | node (value : Option β) (children : List (κ × FImmutableTree κ β))

namespace FImmutableTree

def empty : FImmutableTree κ β := .node none []

def ofValue (value : β) : FImmutableTree κ β := .node (some value) []

def value : FImmutableTree κ β → Option β
  | .node value _ => value

def isEmpty : FImmutableTree κ β → Bool
  | .node value cs => value.isNone && cs.isEmpty

theorem eq_empty {t : FImmutableTree κ β} (h : t.isEmpty = true) : t = empty := by
  cases t with
  | node value cs =>
    simp only [isEmpty, Bool.and_eq_true, Option.isNone_iff_eq_none, List.isEmpty_iff] at h
    rw [h.1, h.2, empty]

theorem isEmpty_ofValue (value : β) : (ofValue value : FImmutableTree κ β).isEmpty = false := rfl

/-! `forEach` reaches the children before the value of the node itself. -/
mutual
def forEachPathSoFar : FImmutableTree κ β → List κ → List (List κ × β)
  | .node value cs, pathSoFar =>
    forEachChildSoFar cs pathSoFar ++ (value.map fun v => (pathSoFar, v)).toList
def forEachChildSoFar : List (κ × FImmutableTree κ β) → List κ → List (List κ × β)
  | [], _ => []
  | (childKey, childTree) :: rest, pathSoFar =>
    childTree.forEachPathSoFar (pathSoFar ++ [childKey]) ++ forEachChildSoFar rest pathSoFar
end

def forEach (t : FImmutableTree κ β) : List (List κ × β) := t.forEachPathSoFar []

section Get
variable [DecidableEq κ]

def findRootMostValueAndPath : FImmutableTree κ β → List κ → Option (List κ × β)
  | .node (some value) _, _ => some ([], value)
  | .node none _, [] => none
  | .node none cs, front :: rest => match objectForKey front cs with
    | some child => (child.findRootMostValueAndPath rest).map fun x => (front :: x.1, x.2)
    | none => none

def subtreeAtPath : FImmutableTree κ β → List κ → FImmutableTree κ β
  | t, [] => t
  | .node _ cs, front :: rest => match objectForKey front cs with
    | some childTree => childTree.subtreeAtPath rest
    | none => empty

end Get

variable [LinearOrder κ]

def setValue : FImmutableTree κ β → List κ → β → FImmutableTree κ β
  | .node _ cs, [], newValue => .node (some newValue) cs
  | .node value cs, front :: rest, newValue =>
    .node value (insertKey front
      (((objectForKey front cs).getD empty).setValue rest newValue) cs)

def setTree : FImmutableTree κ β → List κ → FImmutableTree κ β → FImmutableTree κ β
  | _, [], newTree => newTree
  | .node value cs, front :: rest, newTree =>
    let newChild := ((objectForKey front cs).getD empty).setTree rest newTree
    .node value (if newChild.isEmpty then removeKey front cs else insertKey front newChild cs)

/-! Writes are leaves of the tree, and the children of a node ascend. -/
mutual
def WellFormed : FImmutableTree κ β → Prop
  | .node value cs => (value.isSome → cs = []) ∧ Sorted cs ∧ AllWellFormed cs
def AllWellFormed : List (κ × FImmutableTree κ β) → Prop
  | [] => True
  | (_, child) :: rest => child.WellFormed ∧ AllWellFormed rest
end

theorem allWellFormed_iff {cs : List (κ × FImmutableTree κ β)} :
    AllWellFormed cs ↔ ∀ e ∈ cs, e.2.WellFormed := by
  induction cs with
  | nil => simp [AllWellFormed]
  | cons e rest ih => simp [AllWellFormed, ih]

theorem wellFormed_empty : (empty : FImmutableTree κ β).WellFormed :=
  ⟨fun _ => rfl, sorted_nil, trivial⟩

theorem wellFormed_ofValue (value : β) : (ofValue value : FImmutableTree κ β).WellFormed :=
  ⟨fun _ => rfl, sorted_nil, trivial⟩

theorem wellFormed_child {value : Option β} {cs : List (κ × FImmutableTree κ β)} (front : κ)
    (h : (node value cs).WellFormed) : ((objectForKey front cs).getD empty).WellFormed := by
  cases hget : objectForKey front cs with
  | none => exact wellFormed_empty
  | some child => exact allWellFormed_iff.mp h.2.2 _ (mem_of_objectForKey hget)

theorem wellFormed_insertKey {cs : List (κ × FImmutableTree κ β)} {front : κ}
    {child : FImmutableTree κ β} (h : (node none cs).WellFormed) (hc : child.WellFormed) :
    (node none (insertKey front child cs)).WellFormed := by
  refine ⟨fun hv => (Bool.false_ne_true hv).elim, sorted_insertKey _ h.2.1,
    allWellFormed_iff.mpr fun e he => ?_⟩
  cases mem_insertKey he with
  | inl he =>
    subst he
    exact hc
  | inr he => exact allWellFormed_iff.mp h.2.2 e he

theorem wellFormed_removeKey {value : Option β} {cs : List (κ × FImmutableTree κ β)} (front : κ)
    (h : (node value cs).WellFormed) : (node value (removeKey front cs)).WellFormed := by
  refine ⟨fun hv => ?_, sorted_removeKey _ h.2.1,
    allWellFormed_iff.mpr fun e he => allWellFormed_iff.mp h.2.2 e (mem_removeKey he)⟩
  rw [h.1 hv]
  rfl

theorem setTree_cons {value : Option β} {cs : List (κ × FImmutableTree κ β)} {front : κ}
    {rest : List κ} {u child : FImmutableTree κ β}
    (h : ((objectForKey front cs).getD empty).setTree rest u = child) :
    (node value cs).setTree (front :: rest) u =
      node value (if child.isEmpty then removeKey front cs else insertKey front child cs) := by
  subst h
  rfl

theorem isEmpty_setTree (t : FImmutableTree κ β) (p : List κ) {u : FImmutableTree κ β}
    (h : u.isEmpty = false) : (t.setTree p u).isEmpty = false := by
  induction p generalizing t with
  | nil =>
    cases t
    exact h
  | cons front rest ih =>
    cases t with
    | node value cs =>
      rw [setTree_cons rfl, if_neg (by simp [ih])]
      simp [isEmpty, insertKey_ne_nil]

/-- Nothing is to be removed from a node without children. -/
theorem setTree_empty_leaf (value : Option β) (front : κ) (rest : List κ) :
    (node value []).setTree (front :: rest) empty = node value [] := by
  induction rest generalizing value front with
  | nil => rfl
  | cons front' rest ih =>
    have hchild : ((objectForKey front []).getD empty).setTree (front' :: rest) empty =
        (empty : FImmutableTree κ β) := ih none front'
    rw [setTree_cons hchild]
    rfl

theorem wellFormed_setTree_empty (t : FImmutableTree κ β) (p : List κ) (h : t.WellFormed) :
    (t.setTree p empty).WellFormed := by
  induction p generalizing t with
  | nil =>
    cases t
    exact wellFormed_empty
  | cons front rest ih =>
    cases t with
    | node value cs =>
      cases value with
      | none =>
        rw [setTree_cons rfl]
        split_ifs with hempty
        · exact wellFormed_removeKey front h
        · exact wellFormed_insertKey h (ih _ (wellFormed_child front h))
      | some v =>
        obtain rfl : cs = [] := h.1 rfl
        rw [setTree_empty_leaf]
        exact wellFormed_ofValue v

/-! What a tree of nodes says at each path. -/
section Nodes

def completeNodeAtPath (t : FImmutableTree κ (FNode κ α)) (p : List κ) : Option (FNode κ α) :=
  match t.findRootMostValueAndPath p with
  | some (rootMost, value) => some (value.getChild (p.drop rootMost.length))
  | none => none

def overlay (t : FImmutableTree κ (FNode κ α)) : Overlay κ α := fun p =>
  (t.completeNodeAtPath p).map FNode.val?

variable {t : FImmutableTree κ (FNode κ α)} {a : FNode κ α} {k k' : κ} {p q : List κ}
  {cs : List (κ × FImmutableTree κ (FNode κ α))}

theorem completeNodeAtPath_cons (k : κ) (p : List κ) :
    (node none cs).completeNodeAtPath (k :: p) =
      ((objectForKey k cs).getD empty).completeNodeAtPath p := by
  have hempty : (empty : FImmutableTree κ (FNode κ α)).findRootMostValueAndPath p = none := by
    cases p <;> rfl
  cases hget : objectForKey k cs with
  | none => simp [completeNodeAtPath, findRootMostValueAndPath, hget, hempty]
  | some child =>
    simp only [completeNodeAtPath, findRootMostValueAndPath, hget, Option.getD_some]
    cases child.findRootMostValueAndPath p <;> simp

/-- What a write has at a path it has there for everything below. -/
theorem completeNodeAtPath_append (t : FImmutableTree κ (FNode κ α)) {n : FNode κ α}
    (h : t.completeNodeAtPath p = some n) (q : List κ) :
    t.completeNodeAtPath (p ++ q) = some (n.getChild q) := by
  induction p generalizing t with
  | nil =>
    cases t with
    | node value cs =>
      cases value with
      | none => cases h
      | some a =>
        cases h
        cases q <;> cases a <;> rfl
  | cons k p ih =>
    cases t with
    | node value cs =>
      cases value with
      | none =>
        rw [completeNodeAtPath_cons] at h
        rw [List.cons_append, completeNodeAtPath_cons]
        exact ih _ h
      | some a =>
        cases h
        simp [completeNodeAtPath, findRootMostValueAndPath, ← FNode.getChild_append]

theorem overlay_value (a : FNode κ α) : (node (some a) cs).overlay p = some (a.tree p) := by
  cases p <;> rfl

theorem overlay_nil : (node none cs).overlay [] = none := rfl

theorem overlay_cons (k : κ) (p : List κ) :
    (node none cs).overlay (k :: p) = ((objectForKey k cs).getD empty).overlay p := by
  rw [overlay, completeNodeAtPath_cons, overlay]

theorem overlay_empty : (empty : FImmutableTree κ (FNode κ α)).overlay = Overlay.bare := by
  funext p
  cases p with
  | nil => rfl
  | cons k p =>
    rw [empty, overlay_cons]
    induction p with
    | nil => rfl
    | cons k' p ih => exact (overlay_cons k' p).trans ih

/-- A write that finds none above or at its path takes the place of those below it. -/
def addWrite (t : FImmutableTree κ (FNode κ α)) (v : FNode κ α) : List κ →
    FImmutableTree κ (FNode κ α)
  | [] => ofValue v
  | front :: rest => match t.findRootMostValueAndPath (front :: rest) with
    | some (rootMost, value) =>
      t.setValue rootMost (value.updateChild ((front :: rest).drop rootMost.length) v)
    | none => t.setTree (front :: rest) (ofValue v)

theorem addWrite_value (a v : FNode κ α) :
    (node (some a) cs).addWrite v (k :: p) = node (some (a.updateChild (k :: p) v)) cs := rfl

theorem addWrite_of_some {v : FNode κ α} {rootMost : List κ} (h : t.WellFormed)
    (hfind : t.findRootMostValueAndPath p = some (rootMost, a)) :
    t.addWrite v p = t.setValue rootMost (a.updateChild (p.drop rootMost.length) v) := by
  cases p with
  | cons k p => simp [addWrite, hfind]
  | nil =>
    cases t with
    | node value cs =>
      cases value with
      | none => cases hfind
      | some b =>
        cases hfind
        obtain rfl : cs = [] := h.1 rfl
        cases a with
        | leaf value => rfl
        | children cs => rfl

theorem addWrite_of_none {v : FNode κ α} (hfind : t.findRootMostValueAndPath p = none) :
    t.addWrite v p = t.setTree p (ofValue v) := by
  cases p with
  | nil =>
    cases t
    rfl
  | cons k p => simp [addWrite, hfind]

/-- Below a node without a write, a write goes on at the child. -/
theorem addWrite_cons {v : FNode κ α} (h : (node none cs).WellFormed) (k : κ) (p : List κ) :
    (node none cs).addWrite v (k :: p) =
      node none (insertKey k (((objectForKey k cs).getD empty).addWrite v p) cs) := by
  have hchild := wellFormed_child k h
  have hfind : (node none cs).findRootMostValueAndPath (k :: p) =
      (((objectForKey k cs).getD empty).findRootMostValueAndPath p).map
        fun x => (k :: x.1, x.2) := by
    cases hget : objectForKey k cs with
    | none => cases p <;> simp [findRootMostValueAndPath, hget, empty, objectForKey]
    | some child => simp [findRootMostValueAndPath, hget]
  cases hc : ((objectForKey k cs).getD empty).findRootMostValueAndPath p with
  | none =>
    rw [hc] at hfind
    rw [addWrite_of_none hfind, addWrite_of_none hc, setTree_cons rfl,
      if_neg (by simp [isEmpty_setTree _ _ (isEmpty_ofValue v)])]
  | some x =>
    obtain ⟨rootMost, a⟩ := x
    rw [hc] at hfind
    rw [addWrite_of_some h hfind, addWrite_of_some hchild hc]
    rfl

theorem wellFormed_addWrite (v : FNode κ α) (p : List κ) (h : t.WellFormed) :
    (t.addWrite v p).WellFormed := by
  induction p generalizing t with
  | nil => exact wellFormed_ofValue v
  | cons k p ih =>
    cases t with
    | node value cs =>
      cases value with
      | some a =>
        rw [addWrite_value]
        exact ⟨fun _ => h.1 rfl, h.2⟩
      | none =>
        rw [addWrite_cons h]
        exact wellFormed_insertKey h (ih (wellFormed_child k h))

theorem act_cons (v : FNode κ α) (k : κ) (p q : List κ) (b : Option (Option α)) :
    (FNode.toPatch (k :: p) v).act (k :: q) b = (FNode.toPatch p v).act q b := by
  simp only [Patch.act, FNode.toPatch, List.cons_prefix_cons, true_and, List.length_cons,
    List.drop_succ_cons]
  congr

/-- What the tree says after a write is what the write makes of what it said. -/
theorem overlay_addWrite (v : FNode κ α) (p : List κ) (h : t.WellFormed) :
    (t.addWrite v p).overlay = t.overlay.patch (FNode.toPatch p v) := by
  funext q
  induction p generalizing t q with
  | nil => simp [addWrite, ofValue, overlay_value, Overlay.patch, Patch.act, FNode.toPatch]
  | cons k p ih =>
    cases t with
    | node value cs =>
      cases value with
      | some a =>
        rw [addWrite_value, overlay_value, FNode.tree_updateChild, Overlay.patch, overlay_value]
        simp only [Tree.patch, Patch.act, Option.map_some]
        split_ifs <;> rfl
      | none =>
        rw [addWrite_cons h]
        cases q with
        | nil => rw [overlay_nil, Overlay.patch, overlay_nil, Patch.act_of_not_prefix (by simp [FNode.toPatch])]
        | cons k' q =>
          rw [overlay_cons, Overlay.patch, overlay_cons]
          by_cases hk : k' = k
          · subst hk
            rw [objectForKey_insertKey_self, Option.getD_some, ih (wellFormed_child k' h),
              Overlay.patch, act_cons]
          · rw [objectForKey_insertKey_ne _ _ hk, Patch.act_of_apart] <;>
              simp [FNode.toPatch, hk, Ne.symm hk]

/-- Taking a tree away uncovers what is below its path, where no write above covers that. -/
theorem overlay_setTree_empty (h : ∀ r, r <+: p → r ≠ p → t.overlay r = none) :
    (t.setTree p empty).overlay q = if p <+: q then none else t.overlay q := by
  induction p generalizing t q with
  | nil =>
    cases t
    simp [setTree, overlay_empty, Overlay.bare]
  | cons k p ih =>
    cases t with
    | node value cs =>
      cases value with
      | some a => cases h [] List.nil_prefix (by simp)
      | none =>
        have hchild : ∀ r, r <+: p → r ≠ p → ((objectForKey k cs).getD empty).overlay r = none := by
          intro r hr hne
          rw [← overlay_cons]
          exact h (k :: r) (List.cons_prefix_cons.mpr ⟨rfl, hr⟩) (by simpa using hne)
        rw [setTree_cons rfl]
        cases q with
        | nil => simp [overlay_nil]
        | cons k' q =>
          rw [overlay_cons, overlay_cons]
          by_cases hk : k' = k
          · subst hk
            have hnew := ih (q := q) hchild
            simp only [List.cons_prefix_cons, true_and, ← hnew]
            split_ifs with hempty
            · rw [objectForKey_removeKey_self, eq_empty hempty]
              rfl
            · rw [objectForKey_insertKey_self]
              rfl
          · simp only [List.cons_prefix_cons, Ne.symm hk, false_and, if_false]
            split_ifs
            · rw [objectForKey_removeKey_ne _ hk]
            · rw [objectForKey_insertKey_ne _ _ hk]

end Nodes

end FImmutableTree

end Pincushion.Snapshot
