import Pincushion.RedBlackInsert

/-! Removing the first entry of a red-black tree. On the way down there is always a red node at
hand, so that what is removed is never the only entry of its node; on the way up `fixUp`
rebalances. -/
namespace Pincushion.SortedDictionary
variable {κ β : Type*}

namespace FLLRBNode
variable {n : Nat} {t l r : FLLRBNode κ β} {k lk rk xk : κ} {v lv rv xv : β}
  {ll lr rl rr x y z : FLLRBNode κ β}

/-! How the way is prepared, by the shapes it finds. -/
section Prepare
variable (c : Bool)

theorem leftward_empty : (value k v c .empty r).leftward = value k v c .empty r := rfl

theorem leftward_red : (value k v c (value lk lv RED ll lr) r).leftward =
    value k v c (value lk lv RED ll lr) r := by
  simp [leftward, RED]

theorem leftward_three :
    (value k v c (value lk lv BLACK (value xk xv RED x y) z) r).leftward =
      value k v c (value lk lv BLACK (value xk xv RED x y) z) r := by
  simp [leftward, RED]

theorem leftward_two (hll : ll.isRed = false) (hrl : rl.isRed = false) :
    (value k v c (value lk lv BLACK ll lr) (value rk rv BLACK rl rr)).leftward =
      value k v (!c) (value lk lv RED ll lr) (value rk rv RED rl rr) := by
  simp [leftward, moveRedLeft, colorFlip, withColor, isEmpty, hll, hrl, RED, BLACK]

theorem leftward_steal (hll : ll.isRed = false) :
    (value k v c (value lk lv BLACK ll lr)
      (value rk rv BLACK (value xk xv RED x y) z)).leftward =
      value xk xv c (value k v BLACK (value lk lv RED ll lr) x) (value rk rv BLACK y z) := by
  simp [leftward, moveRedLeft, colorFlip, withColor, withRight, rotateRight, rotateLeft, isEmpty,
    hll, RED, BLACK]

theorem rightward_red : (value k v c (value lk lv RED ll lr) r).rightward =
    value lk lv c ll (value k v RED lr r) := by
  simp [rightward, rotateRight, RED]

theorem rightward_empty (hl : l.isRed = false) :
    (value k v c l .empty).rightward = value k v c l .empty := by
  simp [rightward, hl, isEmpty]

theorem rightward_right (hl : l.isRed = false) :
    (value k v c l (value rk rv RED rl rr)).rightward = value k v c l (value rk rv RED rl rr) := by
  simp [rightward, hl, RED]

theorem rightward_three (hl : l.isRed = false) :
    (value k v c l (value rk rv BLACK (value xk xv RED x y) z)).rightward =
      value k v c l (value rk rv BLACK (value xk xv RED x y) z) := by
  simp [rightward, hl, RED]

theorem rightward_two (hll : ll.isRed = false) (hrl : rl.isRed = false) :
    (value k v c (value lk lv BLACK ll lr) (value rk rv BLACK rl rr)).rightward =
      value k v (!c) (value lk lv RED ll lr) (value rk rv RED rl rr) := by
  simp [rightward, moveRedRight, colorFlip, withColor, isEmpty, hll, hrl, RED, BLACK]

theorem rightward_steal (hrl : rl.isRed = false) :
    (value k v c (value lk lv BLACK (value xk xv RED x y) z)
      (value rk rv BLACK rl rr)).rightward =
      value lk lv c (value xk xv BLACK x y) (value k v BLACK z (value rk rv RED rl rr)) := by
  simp [rightward, moveRedRight, colorFlip, withColor, rotateRight, isEmpty, hrl, RED, BLACK]

end Prepare

/-- A red node over balanced ones. -/
inductive Red (n : Nat) : FLLRBNode κ β → Prop
  | mk {k : κ} {v : β} {l r : FLLRBNode κ β} (left : Balanced n l) (right : Balanced n r) :
      Red n (.value k v RED l r)

/-- A black node over two entries. -/
inductive Three (n : Nat) : FLLRBNode κ β → Prop
  | mk {k : κ} {v : β} {l r : FLLRBNode κ β} (left : Red n l) (right : Balanced n r) :
      Three n (.value k v BLACK l r)

theorem Red.loose (h : Red n t) : Loose n t := by
  cases h with
  | mk hl hr => exact .red hl hr

/-- Before the way goes left, the left child is over two entries, or both are red and the node
has changed its color. -/
theorem leftward_spec (k : κ) (v : β) (c : Bool) (hl : Balanced (n + 1) l)
    (hr : Balanced (n + 1) r) :
    (∃ k' v' x y, (value k v c l r).leftward = value k' v' c x y ∧ Three n x ∧
      Balanced (n + 1) y ∧ (k' = k ∨ (k', v') ∈ r.inorderTraversal)) ∨
    ∃ x y, (value k v c l r).leftward = value k v (!c) x y ∧ Red n x ∧ Red n y := by
  cases hl with
  | two hll hlr =>
    cases hr with
    | two hrl hrr =>
      exact Or.inr ⟨_, _, leftward_two c hll.isRed hrl.isRed, .mk hll hlr, .mk hrl hrr⟩
    | three ha hb hc =>
      exact Or.inl ⟨_, _, _, _, leftward_steal c hll.isRed, .mk (.mk hll hlr) ha, .two hb hc,
        Or.inr (by simp [inorderTraversal])⟩
  | three ha hb hc =>
    exact Or.inl ⟨_, _, _, _, leftward_three c, .mk (.mk ha hb) hc, hr, Or.inl rfl⟩

/-- Before it goes right, the right child may also be a black node over a red one on its right. -/
theorem rightward_spec (k : κ) (v : β) (c : Bool) (hl : Balanced (n + 1) l)
    (hr : Balanced (n + 1) r) :
    ((value k v c l r).rightward = value k v c l r ∧ Three n r) ∨
    (∃ k' v' x y z, (value k v c l r).rightward = value k' v' c x (value k v BLACK y z) ∧
      Balanced (n + 1) x ∧ Balanced n y ∧ Red n z ∧ (k', v') ∈ l.inorderTraversal) ∨
    ∃ x y, (value k v c l r).rightward = value k v (!c) x y ∧ Red n x ∧ Red n y := by
  have hblack := hl.isRed
  cases hr with
  | two hrl hrr =>
    cases hl with
    | two hll hlr =>
      exact Or.inr (Or.inr ⟨_, _, rightward_two c hll.isRed hrl.isRed, .mk hll hlr, .mk hrl hrr⟩)
    | three ha hb hc =>
      exact Or.inr (Or.inl ⟨_, _, _, _, _, rightward_steal c hrl.isRed, .two ha hb, hc,
        .mk hrl hrr, by simp [inorderTraversal]⟩)
  | three ha hb hc => exact Or.inl ⟨rightward_three c hblack, .mk (.mk ha hb) hc⟩

/-- What removing leaves of a node over balanced ones. Its color may have gone down first, and
comes up again as far as it can; a single entry leaves nothing. -/
inductive Removed (n : Nat) (c : Bool) : FLLRBNode κ β → Prop
  | kept {k : κ} {v : β} {l r : FLLRBNode κ β} (left : Balanced n l) (right : Balanced n r) :
      Removed n c (.value k v c l r)
  | flipped {m : Nat} {k : κ} {v : β} {l r : FLLRBNode κ β} (height : n = m + 1)
      (left : Loose m l) (right : Loose m r) : Removed n c (value k v (!c) l r).fixUp
  | gone (height : n = 0) : Removed n c .empty

theorem Removed.loose (h : Removed n RED t) : Loose n t := by
  cases h with
  | kept hl hr => exact .red hl hr
  | flipped height hl hr =>
    subst height
    exact loose_fixUp hl hr
  | gone height =>
    subst height
    exact .black .empty

/-- At the root the color that is left does not matter. -/
theorem Removed.blacken (h : Removed n BLACK t) : ∃ m, Balanced m (t.withColor BLACK) := by
  cases h with
  | kept hl hr => exact ⟨_, .two hl hr⟩
  | @flipped m k v l r height hl hr =>
    change ∃ m, Balanced m ((value k v RED l r).fixUp.withColor BLACK)
    cases hl with
    | black hl =>
      cases hr with
      | black hr =>
        rw [fixUp_black _ hl.isRed hr.isRed]
        exact ⟨_, .two hl hr⟩
      | red hrl hrr =>
        rw [fixUp_right _ hl.isRed hrr.isRed]
        exact ⟨_, .three hl hrl hrr⟩
    | red hll hlr =>
      cases hr with
      | black hr =>
        rw [fixUp_left _ hll.isRed hr.isRed]
        exact ⟨_, .three hll hlr hr⟩
      | red hrl hrr =>
        rw [fixUp_both _ hll.isRed]
        exact ⟨_, .two (.two hll hlr) (.two hrl hrr)⟩
  | gone height => exact ⟨0, .empty⟩

/-! The first entry. -/
section RemoveMin

/-- What is left when the first entry is removed from a tree. -/
def Pops (t t' : FLLRBNode κ β) : Prop := t'.inorderTraversal = t.inorderTraversal.tail

theorem removeMin_eq {c c' : Bool} (hl : l.isEmpty = false)
    (hn : (value k v c l r).leftward = value xk xv c' x y) :
    (value k v c l r).removeMin = (value xk xv c' x.removeMin y).fixUp := by
  rw [removeMin, if_neg (by simp [hl]), hn]
  rfl

theorem removeMin_last (c : Bool) : (value k v c .empty r).removeMin = .empty := by
  simp [removeMin, isEmpty]

theorem inorder_ne_nil (h : t.isEmpty = false) : t.inorderTraversal ≠ [] := by
  cases t with
  | empty => cases h
  | value => simp [inorderTraversal]

theorem pops_of_left {c c' : Bool} (hn : (value k v c l r).leftward = value xk xv c' x y)
    (hx : x.isEmpty = false) {x' : FLLRBNode κ β} (h : Pops x x') :
    Pops (value k v c l r) (value xk xv c' x' y).fixUp := by
  have hinorder := inorder_leftward (value k v c l r)
  rw [Pops, inorder_fixUp, ← hinorder, hn, inorderTraversal, inorderTraversal, h,
    List.tail_append_of_ne_nil (inorder_ne_nil hx)]

theorem inorder_of_left {c c' : Bool} (hn : (value k v c l r).leftward = value xk xv c' x y)
    {x' : FLLRBNode κ β} (h : x'.inorderTraversal = x.inorderTraversal) :
    (value xk xv c' x' y).fixUp.inorderTraversal = (value k v c l r).inorderTraversal := by
  rw [inorder_fixUp, ← inorder_leftward (value k v c l r), hn, inorderTraversal, inorderTraversal, h]

/-- In a black node over two entries the first goes from the red one. -/
theorem removeMin_three (hl : Red n l) (hr : Balanced n r) (hloose : Loose n l.removeMin)
    (hpops : Pops l l.removeMin) :
    Balanced (n + 1) (value k v BLACK l r).removeMin ∧
      Pops (value k v BLACK l r) (value k v BLACK l r).removeMin := by
  cases hl with
  | mk hll hlr =>
    rw [removeMin_eq rfl (leftward_red BLACK)]
    exact ⟨balanced_fixUp hloose hr, pops_of_left (leftward_red BLACK) rfl hpops⟩

theorem removed_removeMin (c : Bool) (hl : Balanced n l) (hr : Balanced n r) :
    Removed n c (value k v c l r).removeMin ∧
      Pops (value k v c l r) (value k v c l r).removeMin := by
  induction n generalizing k v c l r with
  | zero =>
    cases hl
    cases hr
    rw [removeMin_last]
    exact ⟨.gone rfl, rfl⟩
  | succ n ih =>
    have hred : ∀ {x : FLLRBNode κ β}, Red n x → Loose n x.removeMin ∧ Pops x x.removeMin := by
      intro x hx
      cases hx with
      | mk hl hr =>
        obtain ⟨hremoved, hpops⟩ := ih RED hl hr
        exact ⟨hremoved.loose, hpops⟩
    have hl' : l.isEmpty = false := by cases hl <;> rfl
    rcases leftward_spec k v c hl hr with ⟨k', v', x, y, hn, hx, hy, -⟩ | ⟨x, y, hn, hx, hy⟩ <;>
      rw [removeMin_eq hl' hn]
    · cases hx with
      | mk hxl hxr =>
        obtain ⟨hloose, hpops⟩ := hred hxl
        obtain ⟨hbalanced, hpops'⟩ := removeMin_three hxl hxr hloose hpops
        refine ⟨?_, pops_of_left hn rfl hpops'⟩
        rw [fixUp_black _ hbalanced.isRed hy.isRed]
        exact .kept hbalanced hy
    · obtain ⟨hloose, hpops⟩ := hred hx
      have hx' : x.isEmpty = false := by cases hx; rfl
      exact ⟨.flipped rfl hloose hy.loose, pops_of_left hn hx' hpops⟩

theorem min_of_nonempty (h : t.isEmpty = false) :
    ∃ mk mv, t.min = some (mk, mv) ∧ t.inorderTraversal = (mk, mv) :: t.inorderTraversal.tail := by
  obtain ⟨e, rest, hlist⟩ := List.exists_cons_of_ne_nil (inorder_ne_nil h)
  exact ⟨e.1, e.2, by rw [min_eq_head, hlist, List.head?_cons], by rw [hlist]; rfl⟩

end RemoveMin

end FLLRBNode

end Pincushion.SortedDictionary
