import Mathlib.Data.List.Basic

/-! Trees of leaves addressed by paths of keys, as hierarchical databases keep
them. A node is there exactly when some leaf lies at it or below it, so writing
an empty tree at a path removes the node. -/
namespace Pincushion.KeyTree
variable {κ α : Type*}

def Tree (κ α : Type*) := List κ → Option α

def empty : Tree κ α := fun _ => none

def leaf (a : α) : Tree κ α
  | [] => some a
  | _ :: _ => none

/-- The node at a path, as a tree of its own. -/
def Tree.sub (t : Tree κ α) (p : List κ) : Tree κ α := fun q => t (p ++ q)

def Tree.value (t : Tree κ α) : Option α := t []

/-- Two paths of one length meet only when they are equal. -/
theorem not_prefix_of_ne {p q : List κ} (hlen : p.length = q.length) (h : p ≠ q) : ¬ p <+: q :=
  fun hpq => h (hpq.eq_of_length hlen)

variable [DecidableEq κ]

/-- Replace the node at `p`; a leaf above `p` gives way to the new child. -/
def Tree.setValue (t : Tree κ α) (p : List κ) (v : Tree κ α) : Tree κ α := fun q =>
  if p <+: q then v (q.drop p.length) else if q <+: p then none else t q

theorem sub_setValue_self (t v : Tree κ α) (p : List κ) : (t.setValue p v).sub p = v := by
  funext q
  simp [Tree.sub, Tree.setValue]

/-- Paths that part ways below a common point do not see each other. -/
theorem sub_setValue_apart (t v : Tree κ α) {p q : List κ} (h : ¬ p <+: q) (h' : ¬ q <+: p) :
    (t.setValue p v).sub q = t.sub q := by
  funext r
  have hp : ¬ p <+: q ++ r := by
    intro hpr
    cases List.prefix_or_prefix_of_prefix hpr (List.prefix_append q r) with
    | inl hpq =>
      exact h hpq
    | inr hqp =>
      exact h' hqp
  have hq : ¬ q ++ r <+: p := fun hqr => h' ((List.prefix_append q r).trans hqr)
  simp [Tree.sub, Tree.setValue, hp, hq]

theorem sub_setValue_below (t v : Tree κ α) (p r : List κ) :
    (t.setValue (p ++ r) v).sub p = (t.sub p).setValue r v := by
  funext q
  simp [Tree.sub, Tree.setValue, List.prefix_append_right_inj, List.drop_length_add_append]

theorem sub_setValue_ne (t v : Tree κ α) {p q : List κ} (hlen : p.length = q.length)
    (h : p ≠ q) : (t.setValue p v).sub q = t.sub q :=
  sub_setValue_apart t v (not_prefix_of_ne hlen h) (not_prefix_of_ne hlen.symm h.symm)

/-- A write below `p` is not seen from another node at the depth of `p`. -/
theorem sub_setValue_below_ne (t v : Tree κ α) {p q : List κ} (r : List κ)
    (hlen : p.length = q.length) (h : p ≠ q) : (t.setValue (p ++ r) v).sub q = t.sub q := by
  apply sub_setValue_apart
  · intro hpr
    exact not_prefix_of_ne hlen h
      (List.prefix_of_prefix_length_le ((List.prefix_append p r).trans hpr) List.prefix_rfl
        (by omega))
  · intro hqp
    have hpq := List.prefix_of_prefix_length_le hqp (List.prefix_append p r) (by omega)
    exact not_prefix_of_ne hlen.symm h.symm hpq

end Pincushion.KeyTree
