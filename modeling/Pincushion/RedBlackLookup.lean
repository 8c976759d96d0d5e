import Pincushion.RedBlackRemove

/-! Looking up in a red-black tree is looking up in the list of its entries, and a balanced tree
passes its own check. -/
namespace Pincushion.SortedDictionary
variable {κ β : Type*}

section Entries
variable [LinearOrder κ] {l r : List (κ × β)} {key k : κ} {v : β}

theorem objectForKey_of_ne (h : ∀ e ∈ l, e.1 ≠ key) : objectForKey key l = none := by
  cases hkey : objectForKey key l with
  | none => rfl
  | some v => exact absurd rfl (h _ (mem_of_objectForKey hkey))

theorem objectForKey_before (h : Sorted (l ++ (k, v) :: r)) (hlt : key < k) :
    objectForKey key (l ++ (k, v) :: r) = objectForKey key l := by
  obtain ⟨-, -, -, hkr, -⟩ := sorted_middle.mp h
  induction l with
  | nil =>
    refine objectForKey_of_ne fun e he => ?_
    cases List.mem_cons.mp he with
    | inl heq => exact heq ▸ hlt.ne'
    | inr hmem => exact (hlt.trans (hkr e hmem)).ne'
  | cons e l ih =>
    rw [List.cons_append, objectForKey, objectForKey, ih (List.pairwise_cons.mp h).2]

theorem objectForKey_after (hl : ∀ e ∈ l, e.1 < key) :
    objectForKey key (l ++ r) = objectForKey key r := by
  induction l with
  | nil => rfl
  | cons e l ih =>
    rw [List.cons_append, objectForKey, if_neg (hl e (List.mem_cons_self ..)).ne',
      ih fun e' he' => hl e' (List.mem_cons_of_mem e he')]

/-- The last key before a key that is present. -/
def predecessorKey (key : κ) (d : List (κ × β)) : Option (Option κ) :=
  if key ∈ d.map Prod.fst then
    some ((d.filter fun e => e.1 < key).getLast?.map Prod.fst)
  else none

theorem filter_before (h : ∀ e ∈ r, key ≤ e.1) :
    (l ++ r).filter (fun e => e.1 < key) = l.filter fun e => e.1 < key := by
  have hr : r.filter (fun e => e.1 < key) = [] := by
    rw [List.filter_eq_nil_iff]
    intro e he
    simpa using h e he
  rw [List.filter_append, hr, List.append_nil]

theorem filter_after (h : ∀ e ∈ l, e.1 < key) :
    (l ++ r).filter (fun e => e.1 < key) = l ++ r.filter fun e => e.1 < key := by
  rw [List.filter_append, List.filter_eq_self.mpr fun e he => decide_eq_true (h e he)]

theorem predecessorKey_before (h : Sorted (l ++ (k, v) :: r)) (hlt : key < k) :
    predecessorKey key (l ++ (k, v) :: r) = predecessorKey key l := by
  obtain ⟨-, -, -, hkr, -⟩ := sorted_middle.mp h
  have hfrom : ∀ e ∈ (k, v) :: r, key < e.1 := by
    intro e he
    cases List.mem_cons.mp he with
    | inl heq => exact heq ▸ hlt
    | inr hmem => exact hlt.trans (hkr e hmem)
  have hmem : key ∈ (l ++ (k, v) :: r).map Prod.fst ↔ key ∈ l.map Prod.fst := by
    rw [List.map_append, List.mem_append, or_iff_left]
    intro hr
    obtain ⟨e, he, heq⟩ := List.mem_map.mp hr
    exact (hfrom e he).ne' heq
  rw [predecessorKey, predecessorKey, filter_before fun e he => (hfrom e he).le]
  simp only [hmem]

theorem predecessorKey_at (h : Sorted (l ++ (key, v) :: r)) :
    predecessorKey key (l ++ (key, v) :: r) = some (l.getLast?.map Prod.fst) := by
  obtain ⟨-, -, hlk, hkr, -⟩ := sorted_middle.mp h
  have hfrom : ∀ e ∈ (key, v) :: r, key ≤ e.1 := by
    intro e he
    cases List.mem_cons.mp he with
    | inl heq => exact heq ▸ le_refl key
    | inr hmem => exact (hkr e hmem).le
  rw [predecessorKey, if_pos (by simp), filter_before hfrom,
    List.filter_eq_self.mpr fun e he => decide_eq_true (hlk e he)]

theorem predecessorKey_after (hl : ∀ e ∈ l, e.1 < key) (hlt : k < key) :
    predecessorKey key (l ++ (k, v) :: r) = (predecessorKey key r).map (·.or (some k)) := by
  have hmem : key ∈ (l ++ (k, v) :: r).map Prod.fst ↔ key ∈ r.map Prod.fst := by
    have hleft : key ∉ l.map Prod.fst := by
      intro hkey
      obtain ⟨e, he, heq⟩ := List.mem_map.mp hkey
      exact (hl e he).ne heq
    simp [hleft, hlt.ne']
  rw [predecessorKey, predecessorKey, filter_after hl, List.filter_cons_of_pos (by simpa using hlt)]
  simp only [hmem, List.getLast?_append, List.getLast?_cons]
  split_ifs
  · cases (r.filter fun e => e.1 < key).getLast? <;> rfl
  · rfl

end Entries

namespace FLLRBNode
variable {n : Nat} {t : FLLRBNode κ β}

theorem Balanced.check (h : Balanced n t) : t.check = some n := by
  induction h with
  | empty => rfl
  | two hl hr ihl ihr => simp [FLLRBNode.check, hr.isRed, ihl, ihr, BLACK]
  | three ha hb hc iha ihb ihc =>
    simp [FLLRBNode.check, ha.isRed, hb.isRed, hc.isRed, iha, ihb, ihc, RED, BLACK]

theorem Balanced.two_pow_le (h : Balanced n t) : 2 ^ n ≤ t.count + 1 := by
  induction h with
  | empty => exact Nat.le_refl _
  | two hl hr ihl ihr =>
    rw [count, Nat.pow_succ]
    omega
  | three ha hb hc iha ihb ihc =>
    rw [count, count, Nat.pow_succ]
    omega

theorem Balanced.checkMaxDepth (h : Balanced n t) : t.checkMaxDepth = some true := by
  rw [FLLRBNode.checkMaxDepth, h.check, Option.map_some, decide_eq_true h.two_pow_le]

variable [LinearOrder κ] {key : κ}

theorem get_eq (h : Sorted t.inorderTraversal) :
    t.get key = objectForKey key t.inorderTraversal := by
  induction t with
  | empty => rfl
  | value k v c l r ihl ihr =>
    have hs := h
    obtain ⟨hl, hr, hlk, -, -⟩ := sorted_middle.mp h
    rw [inorderTraversal] at hs ⊢
    rw [get]
    split_ifs with heq hlt
    · subst heq
      rw [objectForKey_after hlk, objectForKey, if_pos rfl]
    · rw [objectForKey_before hs hlt, ihl hl]
    · have hgt : k < key := lt_of_le_of_ne (not_lt.mp hlt) (Ne.symm heq)
      have hlkey : ∀ e ∈ l.inorderTraversal, e.1 < key := fun e he => (hlk e he).trans hgt
      rw [objectForKey_after hlkey, objectForKey, if_neg heq, ihr hr]

/-- On the way down the parent from which the way last went right is remembered. -/
theorem getPredecessorKey_below (h : Sorted t.inorderTraversal) (rightParent : Option κ) :
    t.getPredecessorKey key rightParent =
      (predecessorKey key t.inorderTraversal).map (·.or rightParent) := by
  induction t generalizing rightParent with
  | empty => rfl
  | value k v c l r ihl ihr =>
    obtain ⟨hl, hr, hlk, hkr, -⟩ := sorted_middle.mp h
    rw [inorderTraversal] at h ⊢
    rw [getPredecessorKey]
    split_ifs with heq hleft hlt
    · subst heq
      rw [predecessorKey_at h]
      cases l with
      | empty => rfl
      | value => cases hleft
    · subst heq
      rw [predecessorKey_at h, maxKey_eq_last]
      cases hlast : l.inorderTraversal.getLast? with
      | some e => rfl
      | none =>
        rw [List.getLast?_eq_none_iff] at hlast
        exact absurd hlast (inorder_ne_nil (by simpa using hleft))
    · rw [predecessorKey_before h hlt, ihl hl]
    · have hgt : k < key := lt_of_le_of_ne (not_lt.mp hlt) (Ne.symm heq)
      rw [predecessorKey_after (fun e he => (hlk e he).trans hgt) hgt, ihr hr, Option.map_map]
      congr 1
      funext p
      cases p <;> rfl

theorem getPredecessorKey_eq (h : Sorted t.inorderTraversal) :
    t.getPredecessorKey key none = predecessorKey key t.inorderTraversal := by
  rw [getPredecessorKey_below h]
  cases predecessorKey key t.inorderTraversal with
  | none => rfl
  | some p => cases p <;> rfl

end FLLRBNode

end Pincushion.SortedDictionary
