import Pincushion.RedBlackRemoveMin

/-! Removing the entry of a key from a red-black tree keeps it balanced, and does to its entries
what removing from a list does. -/
namespace Pincushion.SortedDictionary
variable {κ β : Type*}

section Entries
variable [LinearOrder κ] {l r : List (κ × β)} {key k : κ} {v : β}

theorem removeKey_of_ne (h : ∀ e ∈ l, e.1 ≠ key) : removeKey key l = l :=
  List.filter_eq_self.mpr fun e he => decide_eq_true (h e he)

theorem removeKey_before (h : Sorted (l ++ (k, v) :: r)) (hlt : key < k) :
    removeKey key (l ++ (k, v) :: r) = removeKey key l ++ (k, v) :: r := by
  obtain ⟨-, -, -, hkr, -⟩ := sorted_middle.mp h
  have hr : removeKey key ((k, v) :: r) = (k, v) :: r := by
    refine removeKey_of_ne fun e he => ?_
    cases List.mem_cons.mp he with
    | inl heq => exact heq ▸ hlt.ne'
    | inr hmem => exact (hlt.trans (hkr e hmem)).ne'
  rw [removeKey, List.filter_append]
  exact congrArg _ hr

theorem removeKey_after (h : Sorted (l ++ (k, v) :: r)) (hlt : k < key) :
    removeKey key (l ++ (k, v) :: r) = l ++ (k, v) :: removeKey key r := by
  obtain ⟨-, -, hlk, -, -⟩ := sorted_middle.mp h
  have hl : removeKey key l = l := removeKey_of_ne fun e he => ((hlk e he).trans hlt).ne
  rw [removeKey, List.filter_append, List.filter_cons_of_pos (by simpa using hlt.ne)]
  exact congrArg (· ++ _) hl

theorem removeKey_at (h : Sorted (l ++ (key, v) :: r)) :
    removeKey key (l ++ (key, v) :: r) = l ++ r := by
  obtain ⟨-, -, hlk, hkr, -⟩ := sorted_middle.mp h
  have hl : removeKey key l = l := removeKey_of_ne fun e he => (hlk e he).ne
  have hr : removeKey key r = r := removeKey_of_ne fun e he => (hkr e he).ne'
  rw [removeKey, List.filter_append, List.filter_cons_of_neg (by simp), ← removeKey, ← removeKey,
    hl, hr]

end Entries

namespace FLLRBNode
variable {n : Nat} {t l r : FLLRBNode κ β} {k lk rk xk : κ} {v lv rv xv : β}
  {ll lr rl rr x y z : FLLRBNode κ β}
variable [LinearOrder κ] {key : κ}

theorem remove_left {c c' : Bool} (hlt : key < k)
    (hn : (value k v c l r).leftward = value xk xv c' x y) :
    (value k v c l r).remove key = (value xk xv c' (x.remove key) y).fixUp := by
  rw [remove, if_pos hlt, hn]
  rfl

theorem remove_right {c c' : Bool} (hge : ¬ key < k)
    (hn : (value k v c l r).rightward = value xk xv c' x y) (hne : xk ≠ key) :
    (value k v c l r).remove key = (value xk xv c' x (y.remove key)).fixUp := by
  rw [remove, if_neg hge, hn]
  simp [key?, hne, withRight]

theorem remove_last {c c' : Bool} (hge : ¬ key < k)
    (hn : (value k v c l r).rightward = value key xv c' x .empty) :
    (value k v c l r).remove key = .empty := by
  rw [remove, if_neg hge, hn]
  simp [key?, isEmpty]

theorem remove_here {c c' : Bool} {mk : κ} {mv : β} (hge : ¬ key < k)
    (hn : (value k v c l r).rightward = value key xv c' x y) (hmin : y.min = some (mk, mv)) :
    (value k v c l r).remove key = (value mk mv c' x (y.removeMin.remove key)).fixUp := by
  have hy : y.isEmpty = false := by
    cases y with
    | empty => cases hmin
    | value => rfl
  rw [remove, if_neg hge, hn]
  simp [key?, hy, hmin, withEntry, withRight]

/-- The key lies before all entries. -/
def Before (key : κ) (t : FLLRBNode κ β) : Prop := ∀ e ∈ t.inorderTraversal, key < e.1

theorem before_left {c c' : Bool} (h : Before key (value k v c l r))
    (hn : (value k v c l r).leftward = value xk xv c' x y) : Before key x := by
  intro e he
  have hinorder := inorder_leftward (value k v c l r)
  refine h e ?_
  rw [← hinorder, hn, inorderTraversal]
  exact List.mem_append_left _ he

theorem before_lt {c : Bool} (h : Before key (value k v c l r)) : key < k :=
  h (k, v) (by simp [inorderTraversal])

/-- A tree that is looked through for a key before all its entries stays as it is. -/
theorem before_three (hl : Red n l) (hr : Balanced n r) (hbefore : Before key (value k v BLACK l r))
    (hred : Red n (l.remove key)) (hinorder : (l.remove key).inorderTraversal = l.inorderTraversal) :
    Balanced (n + 1) ((value k v BLACK l r).remove key) ∧
      ((value k v BLACK l r).remove key).inorderTraversal =
        (value k v BLACK l r).inorderTraversal := by
  have hn : (value k v BLACK l r).leftward = value k v BLACK l r := by
    cases hl
    exact leftward_red BLACK
  rw [remove_left (before_lt hbefore) hn]
  refine ⟨?_, inorder_of_left hn hinorder⟩
  exact balanced_fixUp hred.loose hr

theorem before_remove (c : Bool) (hl : Balanced n l) (hr : Balanced n r)
    (hbefore : Before key (value k v c l r)) :
    (∃ k' v' l' r', (value k v c l r).remove key = value k' v' c l' r' ∧ Balanced n l' ∧
      Balanced n r') ∧
    ((value k v c l r).remove key).inorderTraversal = (value k v c l r).inorderTraversal := by
  induction n generalizing k v c l r with
  | zero =>
    cases hl
    have hn := leftward_empty (k := k) (v := v) (r := r) c
    rw [remove_left (before_lt hbefore) hn]
    refine ⟨?_, inorder_of_left hn (by rw [remove])⟩
    rw [remove, fixUp_black _ rfl hr.isRed]
    exact ⟨k, v, .empty, r, rfl, .empty, hr⟩
  | succ n ih =>
    have hred : ∀ {x : FLLRBNode κ β}, Red n x → Before key x → Red n (x.remove key) ∧
        (x.remove key).inorderTraversal = x.inorderTraversal := by
      intro x hx hb
      cases hx with
      | mk hl hr =>
        obtain ⟨⟨k', v', l', r', hshape, hl', hr'⟩, hinorder⟩ := ih RED hl hr hb
        exact ⟨hshape ▸ .mk hl' hr', hinorder⟩
    rcases leftward_spec k v c hl hr with ⟨k', v', x, y, hn, hx, hy, -⟩ | ⟨x, y, hn, hx, hy⟩ <;>
      rw [remove_left (before_lt hbefore) hn]
    · have hfirst := before_left hbefore hn
      cases hx with
      | mk hxl hxr =>
        have hbelow : Before key _ := fun e he => hfirst e (List.mem_append_left _ he)
        obtain ⟨hred', hinorder⟩ := hred hxl hbelow
        obtain ⟨hbalanced, hinorder'⟩ := before_three hxl hxr hfirst hred' hinorder
        refine ⟨?_, inorder_of_left hn hinorder'⟩
        rw [fixUp_black _ hbalanced.isRed hy.isRed]
        exact ⟨_, _, _, _, rfl, hbalanced, hy⟩
    · obtain ⟨hred', hinorder⟩ := hred hx (before_left hbefore hn)
      refine ⟨?_, inorder_of_left hn hinorder⟩
      cases hy with
      | mk hyl hyr =>
        generalize x.remove key = x' at hred'
        cases hred' with
        | mk hxl hxr =>
          rw [fixUp_both _ hxl.isRed, Bool.not_not]
          exact ⟨_, _, _, _, rfl, .two hxl hxr, .two hyl hyr⟩

theorem before_balanced (h : Balanced n t) (hbefore : Before key t) :
    Balanced n (t.remove key) ∧ (t.remove key).inorderTraversal = t.inorderTraversal := by
  cases h with
  | empty =>
    rw [remove]
    exact ⟨.empty, rfl⟩
  | two hl hr =>
    obtain ⟨⟨k', v', l', r', hshape, hl', hr'⟩, hinorder⟩ := before_remove BLACK hl hr hbefore
    exact ⟨hshape ▸ .two hl' hr', hinorder⟩
  | three ha hb hc =>
    have hfirst : Before key _ := fun e he => hbefore e (List.mem_append_left _ he)
    obtain ⟨⟨k', v', l', r', hshape, hl', hr'⟩, hinorder⟩ := before_remove RED ha hb hfirst
    exact before_three (.mk ha hb) hc hbefore (hshape ▸ .mk hl' hr') hinorder

theorem before_loose (h : Loose n t) (hbefore : Before key t) :
    Loose n (t.remove key) ∧ (t.remove key).inorderTraversal = t.inorderTraversal := by
  cases h with
  | black h =>
    obtain ⟨hbalanced, hinorder⟩ := before_balanced h hbefore
    exact ⟨.black hbalanced, hinorder⟩
  | red hl hr =>
    obtain ⟨⟨k', v', l', r', hshape, hl', hr'⟩, hinorder⟩ := before_remove RED hl hr hbefore
    exact ⟨hshape ▸ .red hl' hr', hinorder⟩

/-- What is left when the entry of a key is removed from a tree. -/
def Removes (key : κ) (t t' : FLLRBNode κ β) : Prop :=
  t'.inorderTraversal = SortedDictionary.removeKey key t.inorderTraversal

theorem removes_left {c c' : Bool} (hs : Sorted (value k v c l r).inorderTraversal)
    (hn : (value k v c l r).leftward = value xk xv c' x y) (hlt : key < xk)
    {x' : FLLRBNode κ β} (h : Removes key x x') :
    Removes key (value k v c l r) (value xk xv c' x' y).fixUp := by
  rw [← inorder_leftward, hn, inorderTraversal] at hs
  rw [Removes, inorder_fixUp, ← inorder_leftward (value k v c l r), hn, inorderTraversal,
    inorderTraversal, removeKey_before hs hlt, h]

theorem removes_right {c c' : Bool} (hs : Sorted (value k v c l r).inorderTraversal)
    (hn : (value k v c l r).rightward = value xk xv c' x y) (hlt : xk < key)
    {y' : FLLRBNode κ β} (h : Removes key y y') :
    Removes key (value k v c l r) (value xk xv c' x y').fixUp := by
  rw [← inorder_rightward, hn, inorderTraversal] at hs
  rw [Removes, inorder_fixUp, ← inorder_rightward (value k v c l r), hn, inorderTraversal,
    inorderTraversal, removeKey_after hs hlt, h]

/-- The entry gives way to the next one, and the key is not found again. -/
theorem removes_here {c c' : Bool} {mk : κ} {mv : β} {y' y'' : FLLRBNode κ β}
    (hs : Sorted (value k v c l r).inorderTraversal)
    (hn : (value k v c l r).rightward = value key xv c' x y)
    (hmin : y.inorderTraversal = (mk, mv) :: y.inorderTraversal.tail) (hpops : Pops y y')
    (hsame : y''.inorderTraversal = y'.inorderTraversal) :
    Removes key (value k v c l r) (value mk mv c' x y'').fixUp := by
  rw [← inorder_rightward, hn, inorderTraversal] at hs
  rw [Removes, inorder_fixUp, ← inorder_rightward (value k v c l r), hn, inorderTraversal,
    inorderTraversal, removeKey_at hs, hsame, hpops, ← hmin]

/-- What comes after an entry that is removed comes after its key. -/
theorem before_pops {c c' : Bool} {y' : FLLRBNode κ β}
    (hs : Sorted (value k v c l r).inorderTraversal)
    (hn : (value k v c l r).rightward = value key xv c' x y) (hpops : Pops y y') :
    Before key y' := by
  rw [← inorder_rightward, hn, inorderTraversal] at hs
  obtain ⟨-, -, -, hkr, -⟩ := sorted_middle.mp hs
  intro e he
  rw [hpops] at he
  exact hkr e (List.mem_of_mem_tail he)

theorem sorted_of_left {c c' : Bool} (hs : Sorted (value k v c l r).inorderTraversal)
    (hn : (value k v c l r).leftward = value xk xv c' x y) : Sorted x.inorderTraversal := by
  rw [← inorder_leftward, hn, inorderTraversal] at hs
  exact (sorted_middle.mp hs).1

theorem sorted_of_right {c c' : Bool} (hs : Sorted (value k v c l r).inorderTraversal)
    (hn : (value k v c l r).rightward = value xk xv c' x y) : Sorted y.inorderTraversal := by
  rw [← inorder_rightward, hn, inorderTraversal] at hs
  exact (sorted_middle.mp hs).2.1

/-- The entry of the key has been brought here. -/
theorem remove_found {c c' : Bool} (hge : ¬ key < k)
    (hs : Sorted (value k v c l r).inorderTraversal)
    (hn : (value k v c l r).rightward = value key xv c' x y) (hy : y.isEmpty = false)
    (hpops : Pops y y.removeMin)
    (hsame : (y.removeMin.remove key).inorderTraversal = y.removeMin.inorderTraversal) :
    ∃ mk mv, (value k v c l r).remove key =
      (value mk mv c' x (y.removeMin.remove key)).fixUp ∧
      Removes key (value k v c l r) (value mk mv c' x (y.removeMin.remove key)).fixUp := by
  obtain ⟨mk, mv, hmin, hfirst⟩ := min_of_nonempty hy
  exact ⟨mk, mv, remove_here hge hn hmin, removes_here hs hn hfirst hpops hsame⟩

/-- What is to be shown of the red nodes further down. -/
def Removable (key : κ) (n : Nat) (t : FLLRBNode κ β) : Prop :=
  Sorted t.inorderTraversal → Loose n (t.remove key) ∧ Removes key t (t.remove key)

/-- A black node over two entries, one of which is red, on the left or, on the way to the right,
put there. -/
theorem remove_three (hl : Red n l) (hr : Balanced n r)
    (hs : Sorted (value k v BLACK l r).inorderTraversal)
    (hred : ∀ {x : FLLRBNode κ β}, Red n x → Removable key n x) :
    Balanced (n + 1) ((value k v BLACK l r).remove key) ∧
      Removes key (value k v BLACK l r) ((value k v BLACK l r).remove key) := by
  cases hl with
  | @mk lk lv ll lr hll hlr =>
    by_cases hlt : key < k
    · have hn : (value k v BLACK (value lk lv RED ll lr) r).leftward =
          value k v BLACK (value lk lv RED ll lr) r := leftward_red BLACK
      obtain ⟨hloose, hremoves⟩ := hred (.mk hll hlr) (sorted_of_left hs hn)
      rw [remove_left hlt hn]
      exact ⟨balanced_fixUp hloose hr, removes_left hs hn hlt hremoves⟩
    · have hn : (value k v BLACK (value lk lv RED ll lr) r).rightward =
          value lk lv BLACK ll (value k v RED lr r) := rightward_red BLACK
      have hlk : lk < k := (sorted_middle.mp hs).2.2.1 (lk, lv) (by simp [inorderTraversal])
      have hkey : lk < key := hlk.trans_le (not_lt.mp hlt)
      obtain ⟨hloose, hremoves⟩ := hred (.mk hlr hr) (sorted_of_right hs hn)
      rw [remove_right hlt hn hkey.ne]
      exact ⟨balanced_fixUp_right hll hloose, removes_right hs hn hkey hremoves⟩

/-- The same node when the red one has been put on the right. -/
theorem remove_bent (hl : Balanced n l) (hr : Red n r) (hge : ¬ key < k)
    (hs : Sorted (value k v BLACK l r).inorderTraversal)
    (hred : ∀ {x : FLLRBNode κ β}, Red n x → Removable key n x) :
    Balanced (n + 1) ((value k v BLACK l r).remove key) ∧
      Removes key (value k v BLACK l r) ((value k v BLACK l r).remove key) := by
  cases hr with
  | @mk rk rv rl rr hrl hrr =>
    have hn : (value k v BLACK l (value rk rv RED rl rr)).rightward =
        value k v BLACK l (value rk rv RED rl rr) := rightward_right BLACK hl.isRed
    by_cases heq : k = key
    · subst heq
      obtain ⟨hremoved, hpops⟩ := removed_removeMin (k := rk) (v := rv) RED hrl hrr
      obtain ⟨hloose, hsame⟩ := before_loose hremoved.loose (before_pops hs hn hpops)
      obtain ⟨mk, mv, heq, hremoves⟩ := remove_found hge hs hn rfl hpops hsame
      rw [heq]
      exact ⟨balanced_fixUp_right hl hloose, hremoves⟩
    · have hkey : k < key := lt_of_le_of_ne (not_lt.mp hge) heq
      obtain ⟨hloose, hremoves⟩ := hred (.mk hrl hrr) (sorted_of_right hs hn)
      rw [remove_right hge hn heq]
      exact ⟨balanced_fixUp_right hl hloose, removes_right hs hn hkey hremoves⟩

/-- A node over two single entries, or none. -/
theorem removed_zero (c : Bool) (hs : Sorted (value k v c .empty .empty).inorderTraversal) :
    Removed 0 c ((value k v c .empty .empty).remove key) ∧
      Removes key (value k v c .empty .empty) ((value k v c .empty .empty).remove key) := by
  have hsame : Removes key (.empty : FLLRBNode κ β) .empty := rfl
  cases lt_trichotomy key k with
  | inl hlt =>
    have hn := leftward_empty (k := k) (v := v) (r := .empty) c
    rw [remove_left hlt hn, remove]
    refine ⟨?_, removes_left hs hn hlt hsame⟩
    rw [fixUp_black _ rfl rfl]
    exact .kept .empty .empty
  | inr h =>
    have hn := rightward_empty (k := k) (v := v) (l := .empty) c rfl
    cases h with
    | inl heq =>
      subst heq
      rw [remove_last (lt_irrefl key) hn]
      exact ⟨.gone rfl, (removeKey_at hs).symm⟩
    | inr hlt =>
      rw [remove_right hlt.not_gt hn hlt.ne, remove]
      refine ⟨?_, removes_right hs hn hlt hsame⟩
      rw [fixUp_black _ rfl rfl]
      exact .kept .empty .empty

/-- The way to the left. -/
theorem removed_left (c : Bool) (hl : Balanced (n + 1) l) (hr : Balanced (n + 1) r)
    (hs : Sorted (value k v c l r).inorderTraversal) (hlt : key < k)
    (hred : ∀ {x : FLLRBNode κ β}, Red n x → Removable key n x) :
    Removed (n + 1) c ((value k v c l r).remove key) ∧
      Removes key (value k v c l r) ((value k v c l r).remove key) := by
  obtain ⟨-, -, -, hkr, -⟩ := sorted_middle.mp hs
  cases leftward_spec k v c hl hr with
  | inl h =>
    obtain ⟨k', v', x, y, hn, hx, hy, hk'⟩ := h
    have hlt' : key < k' := by
      cases hk' with
      | inl heq => exact heq ▸ hlt
      | inr hmem => exact hlt.trans (hkr _ hmem)
    have hsx := sorted_of_left hs hn
    rw [remove_left hlt hn]
    cases hx with
    | mk hxl hxr =>
      obtain ⟨hbalanced, hremoves⟩ := remove_three hxl hxr hsx hred
      refine ⟨?_, removes_left hs hn hlt' hremoves⟩
      rw [fixUp_black _ hbalanced.isRed hy.isRed]
      exact .kept hbalanced hy
  | inr h =>
    obtain ⟨x, y, hn, hx, hy⟩ := h
    obtain ⟨hloose, hremoves⟩ := hred hx (sorted_of_left hs hn)
    rw [remove_left hlt hn]
    exact ⟨.flipped rfl hloose hy.loose, removes_left hs hn hlt hremoves⟩

/-- The way to the right, when the key is not here. -/
theorem removed_right (c : Bool) (hl : Balanced (n + 1) l) (hr : Balanced (n + 1) r)
    (hs : Sorted (value k v c l r).inorderTraversal) (hlt : k < key)
    (hred : ∀ {x : FLLRBNode κ β}, Red n x → Removable key n x) :
    Removed (n + 1) c ((value k v c l r).remove key) ∧
      Removes key (value k v c l r) ((value k v c l r).remove key) := by
  obtain ⟨-, -, hlk, -, -⟩ := sorted_middle.mp hs
  have hge : ¬ key < k := hlt.not_gt
  rcases rightward_spec k v c hl hr with
    ⟨hn, hthree⟩ | ⟨k', v', x, y, z, hn, hx, hy, hz, hmem⟩ | ⟨x, y, hn, hx, hy⟩
  · have hsr := sorted_of_right hs hn
    rw [remove_right hge hn hlt.ne]
    cases hthree with
    | mk hrl hrr =>
      obtain ⟨hbalanced, hremoves⟩ := remove_three hrl hrr hsr hred
      refine ⟨?_, removes_right hs hn hlt hremoves⟩
      rw [fixUp_black _ hl.isRed hbalanced.isRed]
      exact .kept hl hbalanced
  · have hlt' : k' < key := (hlk _ hmem).trans hlt
    obtain ⟨hbalanced, hremoves⟩ := remove_bent hy hz hge (sorted_of_right hs hn) hred
    rw [remove_right hge hn hlt'.ne]
    refine ⟨?_, removes_right hs hn hlt' hremoves⟩
    rw [fixUp_black _ hx.isRed hbalanced.isRed]
    exact .kept hx hbalanced
  · obtain ⟨hloose, hremoves⟩ := hred hy (sorted_of_right hs hn)
    rw [remove_right hge hn hlt.ne]
    exact ⟨.flipped rfl hx.loose hloose, removes_right hs hn hlt hremoves⟩

/-- The key is here, unless it has just been rotated to the right. -/
theorem removed_here (c : Bool) (hl : Balanced (n + 1) l) (hr : Balanced (n + 1) r)
    (hs : Sorted (value key v c l r).inorderTraversal)
    (hred : ∀ {x : FLLRBNode κ β}, Red n x → Removable key n x) :
    Removed (n + 1) c ((value key v c l r).remove key) ∧
      Removes key (value key v c l r) ((value key v c l r).remove key) := by
  obtain ⟨-, -, hlk, -, -⟩ := sorted_middle.mp hs
  have hge := lt_irrefl key
  rcases rightward_spec key v c hl hr with
    ⟨hn, hthree⟩ | ⟨k', v', x, y, z, hn, hx, hy, hz, hmem⟩ | ⟨x, y, hn, hx, hy⟩
  · cases hthree with
    | @mk rk rv rl rr hrl hrr =>
      obtain ⟨hloose, hpops⟩ : Loose n rl.removeMin ∧ Pops rl rl.removeMin := by
        cases hrl with
        | mk ha hb => exact ⟨(removed_removeMin RED ha hb).1.loose, (removed_removeMin RED ha hb).2⟩
      obtain ⟨hbalanced, hpops'⟩ := removeMin_three (k := rk) (v := rv) hrl hrr hloose hpops
      obtain ⟨hbalanced', hsame⟩ := before_balanced hbalanced (before_pops hs hn hpops')
      obtain ⟨mk, mv, heq, hremoves⟩ := remove_found hge hs hn rfl hpops' hsame
      rw [heq]
      refine ⟨?_, hremoves⟩
      rw [fixUp_black _ hl.isRed hbalanced'.isRed]
      exact .kept hl hbalanced'
  · have hlt' : k' < key := hlk _ hmem
    obtain ⟨hbalanced, hremoves⟩ := remove_bent hy hz hge (sorted_of_right hs hn) hred
    rw [remove_right hge hn hlt'.ne]
    refine ⟨?_, removes_right hs hn hlt' hremoves⟩
    rw [fixUp_black _ hx.isRed hbalanced.isRed]
    exact .kept hx hbalanced
  · cases hy with
    | @mk yk yv yl yr hyl hyr =>
      obtain ⟨hremoved, hpops⟩ := removed_removeMin (k := yk) (v := yv) RED hyl hyr
      obtain ⟨hloose, hsame⟩ := before_loose hremoved.loose (before_pops hs hn hpops)
      obtain ⟨mk, mv, heq, hremoves⟩ := remove_found hge hs hn rfl hpops hsame
      rw [heq]
      exact ⟨.flipped rfl hx.loose hloose, hremoves⟩

theorem removed_remove (c : Bool) (hl : Balanced n l) (hr : Balanced n r)
    (hs : Sorted (value k v c l r).inorderTraversal) :
    Removed n c ((value k v c l r).remove key) ∧
      Removes key (value k v c l r) ((value k v c l r).remove key) := by
  induction n generalizing k v c l r with
  | zero =>
    cases hl
    cases hr
    exact removed_zero c hs
  | succ n ih =>
    have hred : ∀ {x : FLLRBNode κ β}, Red n x → Removable key n x := by
      intro x hx hsx
      cases hx with
      | mk hxl hxr =>
        obtain ⟨hremoved, hremoves⟩ := ih RED hxl hxr hsx
        exact ⟨hremoved.loose, hremoves⟩
    cases lt_trichotomy key k with
    | inl hlt => exact removed_left c hl hr hs hlt hred
    | inr h =>
      cases h with
      | inl heq =>
        subst heq
        exact removed_here c hl hr hs hred
      | inr hlt => exact removed_right c hl hr hs hlt hred

/-- At the root. -/
theorem balanced_remove (key : κ) (h : Balanced n t) (hs : Sorted t.inorderTraversal) :
    (∃ m, Balanced m ((t.remove key).withColor BLACK)) ∧
      ((t.remove key).withColor BLACK).inorderTraversal =
        SortedDictionary.removeKey key t.inorderTraversal := by
  rw [inorder_withColor]
  cases h with
  | empty =>
    rw [remove]
    exact ⟨⟨0, .empty⟩, rfl⟩
  | two hl hr =>
    obtain ⟨hremoved, hremoves⟩ := removed_remove BLACK hl hr hs
    exact ⟨hremoved.blacken, hremoves⟩
  | @three m _ _ _ _ _ _ _ ha hb hc =>
    have hred : ∀ {x : FLLRBNode κ β}, Red m x → Removable key m x := by
      intro x hx hsx
      cases hx with
      | mk hxl hxr =>
        obtain ⟨hremoved, hremoves⟩ := removed_remove RED hxl hxr hsx
        exact ⟨hremoved.loose, hremoves⟩
    obtain ⟨hbalanced, hremoves⟩ := remove_three (.mk ha hb) hc hs hred
    exact ⟨(Loose.black hbalanced).blacken, hremoves⟩

end FLLRBNode

end Pincushion.SortedDictionary
