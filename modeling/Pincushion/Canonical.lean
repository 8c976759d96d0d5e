import Pincushion.Snapshot

/-! Nodes in which no child is empty and the children are in order. Writes keep them
so, and such a node is determined by its leaves. -/
namespace Pincushion.Snapshot
open KeyTree SortedDictionary
variable {κ α : Type*} [LinearOrder κ]

namespace FNode

inductive Canonical : FNode κ α → Prop
  | leaf (value : α) : Canonical (.leaf value)
  | children {cs : List (κ × FNode κ α)} (sorted : Sorted cs)
      (nonempty : ∀ e ∈ cs, e.2.isEmpty = false) (canonical : ∀ e ∈ cs, Canonical e.2) :
      Canonical (.children cs)

variable {n n' v : FNode κ α} {k : κ}

theorem canonical_emptyNode : (emptyNode : FNode κ α).Canonical :=
  .children sorted_nil (fun e he => by cases he) (fun e he => by cases he)

theorem Canonical.getImmediateChild (h : n.Canonical) (k : κ) :
    (n.getImmediateChild k).Canonical := by
  cases h with
  | leaf value => exact canonical_emptyNode
  | children sorted nonempty canonical =>
    rename_i cs
    rw [FNode.getImmediateChild]
    cases hget : objectForKey k cs with
    | none => exact canonical_emptyNode
    | some c => exact canonical _ (mem_of_objectForKey hget)

theorem Canonical.getChild (h : n.Canonical) (p : List κ) : (n.getChild p).Canonical := by
  induction p generalizing n with
  | nil => cases n <;> exact h
  | cons k p ih =>
    rw [getChild_cons]
    exact ih (h.getImmediateChild k)

theorem Canonical.updateImmediateChild (h : n.Canonical) (k : κ) (hv : v.Canonical) :
    (n.updateImmediateChild k v).Canonical := by
  have hinsert : ∀ {cs : List (κ × FNode κ α)}, (FNode.children cs).Canonical →
      v.isEmpty = false → (FNode.children (insertKey k v cs)).Canonical := by
    intro cs hcs hempty
    cases hcs with
    | children sorted nonempty canonical =>
      refine .children (sorted_insertKey v sorted) (fun e he => ?_) (fun e he => ?_)
      · cases mem_insertKey he with
        | inl he => exact he ▸ hempty
        | inr he => exact nonempty e he
      · cases mem_insertKey he with
        | inl he => exact he ▸ hv
        | inr he => exact canonical e he
  cases h with
  | leaf value =>
    rw [FNode.updateImmediateChild]
    split_ifs with hempty
    · exact .leaf value
    · exact hinsert canonical_emptyNode (Bool.eq_false_iff.mpr hempty)
  | children sorted nonempty canonical =>
    rw [FNode.updateImmediateChild]
    split_ifs with hempty
    · exact .children (sorted_removeKey k sorted) (fun e he => nonempty e (mem_removeKey he))
        fun e he => canonical e (mem_removeKey he)
    · exact hinsert (.children sorted nonempty canonical) (Bool.eq_false_iff.mpr hempty)

theorem Canonical.updateChild (h : n.Canonical) (p : List κ) (hv : v.Canonical) :
    (n.updateChild p v).Canonical := by
  induction p generalizing n with
  | nil => cases n <;> exact hv
  | cons k p ih =>
    rw [updateChild_cons]
    exact h.updateImmediateChild k (ih (h.getImmediateChild k))

theorem tree_cons (n : FNode κ α) (k : κ) (q : List κ) :
    n.tree (k :: q) = (n.getImmediateChild k).tree q := by
  rw [tree, getChild_cons]
  rfl

/-- A canonical node that is not empty has a leaf. -/
theorem Canonical.exists_leaf (h : n.Canonical) (hne : n.isEmpty = false) :
    ∃ q a, n.tree q = some a := by
  induction h with
  | leaf value => exact ⟨[], value, rfl⟩
  | @children cs sorted nonempty canonical ih =>
    cases cs with
    | nil => cases hne
    | cons e rest =>
      have hmem : e ∈ e :: rest := List.mem_cons_self ..
      obtain ⟨q, a, hq⟩ := ih e hmem (nonempty e hmem)
      refine ⟨e.1 :: q, a, ?_⟩
      rw [tree_cons, FNode.getImmediateChild, objectForKey_of_mem sorted hmem]
      exact hq

/-- Two canonical nodes with the same leaves are the same. -/
theorem Canonical.ext (h : n.Canonical) (h' : n'.Canonical) (htree : n.tree = n'.tree) :
    n = n' := by
  induction h generalizing n' with
  | leaf value =>
    have hroot := congrFun htree []
    cases n' with
    | leaf value' =>
      cases hroot
      rfl
    | children cs' => cases hroot
  | @children cs sorted nonempty canonical ih =>
    cases h' with
    | leaf value' => cases congrFun htree []
    | @children cs' sorted' nonempty' canonical' =>
      have hchild : ∀ k, ((objectForKey k cs).getD emptyNode).tree =
          ((objectForKey k cs').getD emptyNode).tree := by
        intro k
        funext q
        have hkq := congrFun htree (k :: q)
        rwa [tree_cons, tree_cons] at hkq
      have hempty : ∀ {c : FNode κ α}, c.Canonical → c.isEmpty = false →
          c.tree ≠ (emptyNode : FNode κ α).tree := by
        intro c hc hne heq
        obtain ⟨q, a, hq⟩ := hc.exists_leaf hne
        rw [heq, tree_emptyNode] at hq
        cases hq
      congr 1
      refine Sorted.eq_of_objectForKey sorted sorted' fun k => ?_
      have hk := hchild k
      cases hget : objectForKey k cs with
      | none =>
        cases hget' : objectForKey k cs' with
        | none => rfl
        | some c' =>
          rw [hget, hget'] at hk
          have hmem := mem_of_objectForKey hget'
          exact absurd hk.symm (hempty (canonical' _ hmem) (nonempty' _ hmem))
      | some c =>
        have hmem := mem_of_objectForKey hget
        cases hget' : objectForKey k cs' with
        | none =>
          rw [hget, hget'] at hk
          exact absurd hk (hempty (canonical _ hmem) (nonempty _ hmem))
        | some c' =>
          rw [hget, hget'] at hk
          exact congrArg some (ih _ hmem (canonical' _ (mem_of_objectForKey hget')) hk)

end FNode

end Pincushion.Snapshot
