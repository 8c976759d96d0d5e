import Pincushion.Overlay
import Pincushion.SortedDictionary

/-! The nodes of a snapshot, `FLeafNode` and `FChildrenNode`, where
`FEmptyNode` is the node without children. Nothing here gives a node a priority,
so priorities are left out. One order stands for the comparators of the keys. -/
namespace Pincushion.Snapshot
open KeyTree SortedDictionary
variable {κ α : Type*}

inductive FNode (κ α : Type*) where
  | leaf (value : α)
  | children (children : List (κ × FNode κ α))

namespace FNode

def emptyNode : FNode κ α := .children []

def isEmpty : FNode κ α → Bool
  | .leaf _ => false
  | .children cs => cs.isEmpty

/-- The value of a leaf node. -/
def val? : FNode κ α → Option α
  | .leaf value => some value
  | .children _ => none

theorem eq_emptyNode {n : FNode κ α} (h : n.isEmpty = true) : n = emptyNode := by
  cases n with
  | leaf value => cases h
  | children cs => rw [List.isEmpty_iff.mp h, emptyNode]

section Get
variable [DecidableEq κ]

def getImmediateChild (childName : κ) : FNode κ α → FNode κ α
  | .leaf _ => emptyNode
  | .children cs => (objectForKey childName cs).getD emptyNode

def getChild : FNode κ α → List κ → FNode κ α
  | n, [] => n
  | .leaf _, _ :: _ => emptyNode
  | .children cs, front :: rest => ((objectForKey front cs).getD emptyNode).getChild rest

/-- The leaves of a node by their paths. -/
def tree (n : FNode κ α) : Tree κ α := fun p => (n.getChild p).val?

theorem getChild_emptyNode (p : List κ) : (emptyNode : FNode κ α).getChild p = emptyNode := by
  induction p with
  | nil => rfl
  | cons front rest ih => simpa [emptyNode, getChild, objectForKey] using ih

theorem getChild_cons (n : FNode κ α) (front : κ) (rest : List κ) :
    n.getChild (front :: rest) = (n.getImmediateChild front).getChild rest := by
  cases n with
  | leaf value => exact (getChild_emptyNode rest).symm
  | children cs => rfl

theorem getChild_append (n : FNode κ α) (p q : List κ) :
    n.getChild (p ++ q) = (n.getChild p).getChild q := by
  induction p generalizing n with
  | nil => rfl
  | cons front rest ih => rw [List.cons_append, getChild_cons, getChild_cons, ih]

theorem tree_getChild (n : FNode κ α) (p : List κ) : (n.getChild p).tree = n.tree.sub p := by
  funext q
  simp only [tree, Tree.sub, getChild_append]

theorem tree_emptyNode : (emptyNode : FNode κ α).tree = KeyTree.empty := by
  funext p
  simp only [tree, getChild_emptyNode]
  rfl

end Get

variable [LinearOrder κ]

def updateImmediateChild : FNode κ α → κ → FNode κ α → FNode κ α
  | .leaf value, childName, newChildNode =>
    if newChildNode.isEmpty then .leaf value
    else .children (insertKey childName newChildNode [])
  | .children cs, childName, newChildNode =>
    if newChildNode.isEmpty then .children (removeKey childName cs)
    else .children (insertKey childName newChildNode cs)

def updateChild : FNode κ α → List κ → FNode κ α → FNode κ α
  | _, [], newChildNode => newChildNode
  | .leaf value, front :: rest, newChildNode =>
    if newChildNode.isEmpty then .leaf value
    else (leaf value).updateImmediateChild front (emptyNode.updateChild rest newChildNode)
  | .children cs, front :: rest, newChildNode =>
    (children cs).updateImmediateChild front
      (((objectForKey front cs).getD emptyNode).updateChild rest newChildNode)

variable {n v c : FNode κ α} {k k' : κ} {p q r : List κ}

theorem getImmediateChild_update_self :
    (n.updateImmediateChild k c).getImmediateChild k = c := by
  cases n with
  | leaf value =>
    cases hc : c.isEmpty with
    | true => simp only [updateImmediateChild, hc, if_true, getImmediateChild, ← eq_emptyNode hc]
    | false => simp [updateImmediateChild, hc, getImmediateChild, objectForKey_insertKey_self]
  | children cs =>
    cases hc : c.isEmpty with
    | true =>
      simp only [updateImmediateChild, hc, if_true, getImmediateChild, objectForKey_removeKey_self,
        Option.getD_none, ← eq_emptyNode hc]
    | false => simp [updateImmediateChild, hc, getImmediateChild, objectForKey_insertKey_self]

theorem getImmediateChild_update_ne (h : k' ≠ k) :
    (n.updateImmediateChild k c).getImmediateChild k' = n.getImmediateChild k' := by
  cases n with
  | leaf value =>
    cases hc : c.isEmpty with
    | true => simp only [updateImmediateChild, hc, if_true]
    | false =>
      simp [updateImmediateChild, hc, getImmediateChild, objectForKey_insertKey_ne _ _ h,
        objectForKey]
  | children cs =>
    cases hc : c.isEmpty with
    | true => simp [updateImmediateChild, hc, getImmediateChild, objectForKey_removeKey_ne _ h]
    | false => simp [updateImmediateChild, hc, getImmediateChild, objectForKey_insertKey_ne _ _ h]

theorem isEmpty_updateImmediateChild (h : c.isEmpty = false) :
    (n.updateImmediateChild k c).isEmpty = false := by
  have hnil : ∀ cs : List (κ × FNode κ α), (children (insertKey k c cs)).isEmpty = false :=
    fun cs => List.isEmpty_eq_false_iff.mpr (insertKey_ne_nil k c cs)
  cases n with
  | leaf value =>
    rw [updateImmediateChild, if_neg (by simp [h])]
    exact hnil []
  | children cs =>
    rw [updateImmediateChild, if_neg (by simp [h])]
    exact hnil cs

theorem val_updateImmediateChild :
    (n.updateImmediateChild k c).val? = if c.isEmpty then n.val? else none := by
  cases n <;> by_cases hc : c.isEmpty <;> simp [updateImmediateChild, hc, val?]

theorem isEmpty_updateChild_emptyNode (p : List κ) (h : v.isEmpty = true) :
    (emptyNode : FNode κ α).updateChild p v = emptyNode := by
  induction p with
  | nil => exact eq_emptyNode h
  | cons front rest ih =>
    calc
      (emptyNode : FNode κ α).updateChild (front :: rest) v
          = emptyNode.updateImmediateChild front (emptyNode.updateChild rest v) := rfl
      _ = emptyNode := by rw [ih]; rfl

/-- Below the first key a write goes on at the child, in a leaf at an empty one. -/
theorem updateChild_cons (n : FNode κ α) (k : κ) (p : List κ) (v : FNode κ α) :
    n.updateChild (k :: p) v =
      n.updateImmediateChild k ((n.getImmediateChild k).updateChild p v) := by
  cases n with
  | leaf value =>
    by_cases hv : v.isEmpty
    · simp only [updateChild, hv, if_true, getImmediateChild, isEmpty_updateChild_emptyNode p hv]
      rfl
    · simp [updateChild, hv, getImmediateChild]
  | children cs => rfl

theorem getChild_updateChild (n v : FNode κ α) (p q : List κ) :
    (n.updateChild p v).getChild (p ++ q) = v.getChild q := by
  induction p generalizing n with
  | nil => cases n <;> rfl
  | cons k p ih =>
    rw [updateChild_cons, List.cons_append, getChild_cons, getImmediateChild_update_self, ih]

theorem getChild_updateChild_above (n v : FNode κ α) (q r : List κ) :
    (n.updateChild (q ++ r) v).getChild q = (n.getChild q).updateChild r v := by
  induction q generalizing n with
  | nil => rfl
  | cons k q ih =>
    rw [List.cons_append, updateChild_cons, getChild_cons, getImmediateChild_update_self, ih,
      ← getChild_cons]

/-- A write is not seen from a path that parts from its own. -/
theorem getChild_updateChild_apart (n v : FNode κ α) (h : ¬ p <+: q) (h' : ¬ q <+: p) :
    (n.updateChild p v).getChild q = n.getChild q := by
  induction p generalizing n q with
  | nil => exact absurd List.nil_prefix h
  | cons k p ih =>
    cases q with
    | nil => exact absurd List.nil_prefix h'
    | cons k' q =>
      rw [updateChild_cons, getChild_cons, getChild_cons]
      by_cases hk : k' = k
      · subst hk
        rw [getImmediateChild_update_self]
        exact ih _ (fun hpq => h (List.cons_prefix_cons.mpr ⟨rfl, hpq⟩))
          fun hqp => h' (List.cons_prefix_cons.mpr ⟨rfl, hqp⟩)
      · rw [getImmediateChild_update_ne hk]

theorem isEmpty_updateChild (n v : FNode κ α) (p : List κ) (h : v.isEmpty = false) :
    (n.updateChild p v).isEmpty = false := by
  induction p generalizing n with
  | nil => cases n <;> exact h
  | cons k p ih =>
    rw [updateChild_cons]
    exact isEmpty_updateImmediateChild (ih _)

theorem val_updateChild (n v : FNode κ α) (h : r ≠ []) :
    (n.updateChild r v).val? = if v.isEmpty then n.val? else none := by
  cases r with
  | nil => exact absurd rfl h
  | cons k p =>
    cases n with
    | children cs =>
      rw [updateChild_cons, val_updateImmediateChild]
      split_ifs <;> rfl
    | leaf value =>
      by_cases hv : v.isEmpty
      · simp [updateChild, hv]
      · have hchild := isEmpty_updateChild emptyNode v p (Bool.eq_false_iff.mpr hv)
        rw [updateChild_cons, val_updateImmediateChild, getImmediateChild, hchild]
        simp [hv]

/-- The write of a node at a path. -/
def toPatch (p : List κ) (v : FNode κ α) : Patch κ α := ⟨p, v.tree, v.isEmpty⟩

/-- `updateChild` is a write to the tree of leaves. -/
theorem tree_updateChild (n v : FNode κ α) (p : List κ) :
    (n.updateChild p v).tree = n.tree.patch (toPatch p v) := by
  funext q
  simp only [tree, Tree.patch, toPatch]
  by_cases hpq : p <+: q
  · obtain ⟨r, rfl⟩ := hpq
    simp [getChild_updateChild]
  · by_cases hqp : q <+: p
    · obtain ⟨r, rfl⟩ := hqp
      have hr : r ≠ [] := by
        rintro rfl
        exact hpq (by simp)
      rw [getChild_updateChild_above, val_updateChild _ _ hr]
      by_cases hv : v.isEmpty <;> simp [hv, hpq]
    · rw [getChild_updateChild_apart n v hpq hqp]
      simp [hpq, hqp]

end FNode

end Pincushion.Snapshot
