import Pincushion.RedBlackTree

/-! Inserting into a red-black tree keeps it balanced and does to its entries what inserting into
a sorted list does. -/
namespace Pincushion.SortedDictionary
variable {κ β : Type*}

section Entries
variable [LinearOrder κ] {l r : List (κ × β)} {k k' : κ} {v v' : β}

theorem sorted_middle : Sorted (l ++ (k, v) :: r) ↔ Sorted l ∧ Sorted r ∧
    (∀ e ∈ l, e.1 < k) ∧ (∀ e ∈ r, k < e.1) ∧ ∀ e ∈ l, ∀ e' ∈ r, e.1 < e'.1 := by
  rw [Sorted, List.pairwise_append, List.pairwise_cons]
  constructor
  · rintro ⟨hl, ⟨hk, hr⟩, hlr⟩
    exact ⟨hl, hr, fun e he => hlr e he _ (List.mem_cons_self ..), hk,
      fun e he e' he' => hlr e he e' (List.mem_cons_of_mem _ he')⟩
  · rintro ⟨hl, hr, hlk, hkr, hlr⟩
    refine ⟨hl, ⟨hkr, hr⟩, fun e he e' he' => ?_⟩
    cases List.mem_cons.mp he' with
    | inl heq => exact heq ▸ hlk e he
    | inr hmem => exact hlr e he e' hmem

theorem insertKey_before (h : k < k') :
    insertKey k v (l ++ (k', v') :: r) = insertKey k v l ++ (k', v') :: r := by
  induction l with
  | nil => simp [insertKey, h]
  | cons e l ih =>
    simp only [List.cons_append, insertKey, ih]
    split_ifs <;> rfl

theorem insertKey_at (h : ∀ e ∈ l, e.1 < k) :
    insertKey k v (l ++ (k, v') :: r) = l ++ (k, v) :: r := by
  induction l with
  | nil => simp [insertKey]
  | cons e l ih =>
    have he := h e (List.mem_cons_self ..)
    rw [List.cons_append, insertKey, if_neg he.not_gt, if_neg he.ne',
      ih fun e' he' => h e' (List.mem_cons_of_mem e he')]
    rfl

theorem insertKey_after (hl : ∀ e ∈ l, e.1 < k) (h : k' < k) :
    insertKey k v (l ++ (k', v') :: r) = l ++ (k', v') :: insertKey k v r := by
  induction l with
  | nil => simp [insertKey, h.not_gt, h.ne']
  | cons e l ih =>
    have he := hl e (List.mem_cons_self ..)
    rw [List.cons_append, insertKey, if_neg he.not_gt, if_neg he.ne',
      ih fun e' he' => hl e' (List.mem_cons_of_mem e he')]
    rfl

end Entries

namespace FLLRBNode

/-- A black node over one or two entries, with the same number of black nodes on every way. -/
inductive Balanced : Nat → FLLRBNode κ β → Prop
  | empty : Balanced 0 .empty
  | two {n : Nat} {k : κ} {v : β} {l r : FLLRBNode κ β} (left : Balanced n l)
      (right : Balanced n r) : Balanced (n + 1) (.value k v BLACK l r)
  | three {n : Nat} {k k' : κ} {v v' : β} {a b c : FLLRBNode κ β} (first : Balanced n a)
      (second : Balanced n b) (third : Balanced n c) :
      Balanced (n + 1) (.value k' v' BLACK (.value k v RED a b) c)

/-- The root may be red. -/
inductive Loose : Nat → FLLRBNode κ β → Prop
  | black {n : Nat} {t : FLLRBNode κ β} (balanced : Balanced n t) : Loose n t
  | red {n : Nat} {k : κ} {v : β} {l r : FLLRBNode κ β} (left : Balanced n l)
      (right : Balanced n r) : Loose n (.value k v RED l r)

/-- The root is red, and its left child may be red as well. -/
inductive Overfull : Nat → FLLRBNode κ β → Prop
  | loose {n : Nat} {t : FLLRBNode κ β} (loose : Loose n t) : Overfull n t
  | red {n : Nat} {k k' : κ} {v v' : β} {a b c : FLLRBNode κ β} (first : Balanced n a)
      (second : Balanced n b) (third : Balanced n c) :
      Overfull n (.value k' v' RED (.value k v RED a b) c)

variable {n : Nat} {t l r : FLLRBNode κ β} {k : κ} {v : β}

theorem Balanced.isRed (h : Balanced n t) : t.isRed = false := by
  cases h <;> rfl

@[simp] theorem isRed_value (k : κ) (v : β) (c : Bool) (l r : FLLRBNode κ β) :
    (value k v c l r).isRed = c := rfl

@[simp] theorem left_value (k : κ) (v : β) (c : Bool) (l r : FLLRBNode κ β) :
    (value k v c l r).left = l := rfl

@[simp] theorem right_value (k : κ) (v : β) (c : Bool) (l r : FLLRBNode κ β) :
    (value k v c l r).right = r := rfl

/-! What `fixUp` does, by the colors it finds. -/
section FixUp
variable {lk rk : κ} {lv rv : β} {ll lr rl rr a b : FLLRBNode κ β} (c : Bool)

theorem fixUp_black (hl : l.isRed = false) (hr : r.isRed = false) :
    (value k v c l r).fixUp = value k v c l r := by
  simp [fixUp, hl, hr]

theorem fixUp_left (hll : ll.isRed = false) (hr : r.isRed = false) :
    (value k v c (value lk lv RED ll lr) r).fixUp = value k v c (value lk lv RED ll lr) r := by
  simp [fixUp, hll, hr]

theorem fixUp_right (hl : l.isRed = false) (hrr : rr.isRed = false) :
    (value k v c l (value rk rv RED rl rr)).fixUp = value rk rv c (value k v RED l rl) rr := by
  simp [fixUp, rotateLeft, hl, hrr, RED]

theorem fixUp_both (hll : ll.isRed = false) :
    (value k v c (value lk lv RED ll lr) (value rk rv RED rl rr)).fixUp =
      value k v (!c) (value lk lv BLACK ll lr) (value rk rv BLACK rl rr) := by
  simp [fixUp, colorFlip, withColor, hll, RED, BLACK]

theorem fixUp_redRed (hr : r.isRed = false) :
    (value k v c (value lk lv RED (value rk rv RED a b) lr) r).fixUp =
      value lk lv (!c) (value rk rv BLACK a b) (value k v BLACK lr r) := by
  simp [fixUp, rotateRight, colorFlip, withColor, hr, RED, BLACK]

end FixUp

/-- Below a black node one child may be red. -/
theorem balanced_fixUp (hl : Loose n l) (hr : Balanced n r) :
    Balanced (n + 1) (value k v BLACK l r).fixUp := by
  cases hl with
  | black hl =>
    rw [fixUp_black _ hl.isRed hr.isRed]
    exact .two hl hr
  | red hll hlr =>
    rw [fixUp_left _ hll.isRed hr.isRed]
    exact .three hll hlr hr

theorem balanced_fixUp_right (hl : Balanced n l) (hr : Loose n r) :
    Balanced (n + 1) (value k v BLACK l r).fixUp := by
  cases hr with
  | black hr => exact balanced_fixUp (.black hl) hr
  | red hrl hrr =>
    rw [fixUp_right _ hl.isRed hrr.isRed]
    exact .three hl hrl hrr

/-- With both red, the node becomes red instead. -/
theorem loose_fixUp (hl : Loose n l) (hr : Loose n r) :
    Loose (n + 1) (value k v BLACK l r).fixUp := by
  cases hl with
  | black hl => exact .black (balanced_fixUp_right hl hr)
  | red hll hlr =>
    cases hr with
    | black hr => exact .black (balanced_fixUp (.red hll hlr) hr)
    | red hrl hrr =>
      rw [fixUp_both _ hll.isRed]
      exact .red (.two hll hlr) (.two hrl hrr)

/-- Below a red node only one child may be red, and is then on the left. -/
theorem overfull_fixUp (hl : Loose n l) (hr : Balanced n r) :
    Overfull n (value k v RED l r).fixUp := by
  cases hl with
  | black hl =>
    rw [fixUp_black _ hl.isRed hr.isRed]
    exact .loose (.red hl hr)
  | red hll hlr =>
    rw [fixUp_left _ hll.isRed hr.isRed]
    exact .red hll hlr hr

theorem overfull_fixUp_right (hl : Balanced n l) (hr : Loose n r) :
    Overfull n (value k v RED l r).fixUp := by
  cases hr with
  | black hr =>
    rw [fixUp_black _ hl.isRed hr.isRed]
    exact .loose (.red hl hr)
  | red hrl hrr =>
    rw [fixUp_right _ hl.isRed hrr.isRed]
    exact .red hl hrl hrr

theorem loose_fixUp_overfull (hl : Overfull n l) (hr : Balanced n r) :
    Loose (n + 1) (value k v BLACK l r).fixUp := by
  cases hl with
  | loose hl => exact loose_fixUp hl (.black hr)
  | red hll hlm hlr =>
    rw [fixUp_redRed _ hr.isRed]
    exact .red (.two hll hlm) (.two hlr hr)

section Insert
variable [LinearOrder κ] {key : κ} {value' : β}

/-- Into a balanced tree. -/
theorem loose_insertKey (h : Balanced n t) : Loose n (t.insertKey key value') := by
  induction h with
  | empty => exact .red .empty .empty
  | two hl hr ihl ihr =>
    rw [insertKey]
    split_ifs
    · exact loose_fixUp ihl (.black hr)
    · exact loose_fixUp (.black hl) (.black hr)
    · exact loose_fixUp (.black hl) ihr
  | three ha hb hc iha ihb ihc =>
    rw [insertKey]
    split_ifs
    · refine loose_fixUp_overfull ?_ hc
      rw [insertKey]
      split_ifs
      · exact overfull_fixUp iha hb
      · exact overfull_fixUp (.black ha) hb
      · exact overfull_fixUp_right ha ihb
    · exact loose_fixUp (.red ha hb) (.black hc)
    · exact loose_fixUp (.red ha hb) ihc

theorem inorder_insertKey (h : Sorted t.inorderTraversal) :
    (t.insertKey key value').inorderTraversal =
      SortedDictionary.insertKey key value' t.inorderTraversal := by
  induction t with
  | empty => rfl
  | value k v c l r ihl ihr =>
    obtain ⟨hl, hr, hlk, hkr, -⟩ := sorted_middle.mp h
    rw [insertKey, inorderTraversal]
    split_ifs with hlt heq
    · rw [inorder_fixUp, inorderTraversal, ihl hl, insertKey_before hlt]
    · subst heq
      rw [inorder_fixUp, inorderTraversal, insertKey_at hlk]
    · have hgt : k < key := lt_of_le_of_ne (not_lt.mp hlt) (Ne.symm heq)
      have hlkey : ∀ e ∈ l.inorderTraversal, e.1 < key := fun e he => (hlk e he).trans hgt
      rw [inorder_fixUp, inorderTraversal, ihr hr, insertKey_after hlkey hgt]

end Insert

/-- A red root made black. -/
theorem Loose.blacken (h : Loose n t) : ∃ m, Balanced m (t.withColor BLACK) := by
  cases h with
  | black h =>
    refine ⟨n, ?_⟩
    cases h with
    | empty => exact .empty
    | two hl hr => exact .two hl hr
    | three ha hb hc => exact .three ha hb hc
  | red hl hr => exact ⟨n + 1, .two hl hr⟩

end FLLRBNode

end Pincushion.SortedDictionary
