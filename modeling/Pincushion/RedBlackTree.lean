import Mathlib.Algebra.Group.Nat.Defs
import Pincushion.SortedDictionary

/-! The search trees behind large dictionaries, left-leaning red-black trees. An empty node
answers to everything by itself, and is not red. -/
namespace Pincushion.SortedDictionary
variable {κ β : Type*}

inductive FLLRBNode (κ β : Type*) where
  | empty
  | value (key : κ) (value : β) (color : Bool) (left right : FLLRBNode κ β)

namespace FLLRBNode

def RED : Bool := true
def BLACK : Bool := false

def isRed : FLLRBNode κ β → Bool
  | .empty => false
  | .value _ _ color _ _ => color

def isEmpty : FLLRBNode κ β → Bool
  | .empty => true
  | .value .. => false

def count : FLLRBNode κ β → Nat
  | .empty => 0
  | .value _ _ _ left right => left.count + 1 + right.count

def left : FLLRBNode κ β → FLLRBNode κ β
  | .empty => .empty
  | .value _ _ _ left _ => left

def right : FLLRBNode κ β → FLLRBNode κ β
  | .empty => .empty
  | .value _ _ _ _ right => right

/-! `copyWith` changes one thing at a time. -/
def withColor (color : Bool) : FLLRBNode κ β → FLLRBNode κ β
  | .empty => .empty
  | .value k v _ l r => .value k v color l r

def withLeft : FLLRBNode κ β → FLLRBNode κ β → FLLRBNode κ β
  | .empty, _ => .empty
  | .value k v c _ r, left => .value k v c left r

def withRight : FLLRBNode κ β → FLLRBNode κ β → FLLRBNode κ β
  | .empty, _ => .empty
  | .value k v c l _, right => .value k v c l right

def withEntry : FLLRBNode κ β → Option (κ × β) → FLLRBNode κ β
  | .value _ _ c l r, some (k, v) => .value k v c l r
  | t, _ => t

def key? : FLLRBNode κ β → Option κ
  | .empty => none
  | .value k _ _ _ _ => some k

/-- The entries in order. -/
def inorderTraversal : FLLRBNode κ β → List (κ × β)
  | .empty => []
  | .value k v _ l r => l.inorderTraversal ++ (k, v) :: r.inorderTraversal

def min : FLLRBNode κ β → Option (κ × β)
  | .empty => none
  | .value k v _ l _ => if l.isEmpty then some (k, v) else l.min

def minKey (t : FLLRBNode κ β) : Option κ := t.min.map Prod.fst

def maxKey : FLLRBNode κ β → Option κ
  | .empty => none
  | .value k _ _ _ r => if r.isEmpty then some k else r.maxKey

def rotateLeft : FLLRBNode κ β → FLLRBNode κ β
  | .value k v c l (.value rk rv _ rl rr) => .value rk rv c (.value k v RED l rl) rr
  | _ => .empty

def rotateRight : FLLRBNode κ β → FLLRBNode κ β
  | .value k v c (.value lk lv _ ll lr) r => .value lk lv c ll (.value k v RED lr r)
  | _ => .empty

def colorFlip : FLLRBNode κ β → FLLRBNode κ β
  | .empty => .empty
  | .value k v c l r =>
    .value k v (!c) (l.withColor (!l.isRed)) (r.withColor (!r.isRed))

def fixUp (t : FLLRBNode κ β) : FLLRBNode κ β :=
  let n := if t.right.isRed && !t.left.isRed then t.rotateLeft else t
  let n := if n.left.isRed && n.left.left.isRed then n.rotateRight else n
  if n.left.isRed && n.right.isRed then n.colorFlip else n

def moveRedLeft (t : FLLRBNode κ β) : FLLRBNode κ β :=
  let n := t.colorFlip
  if n.right.left.isRed then ((n.withRight n.right.rotateRight).rotateLeft).colorFlip else n

def moveRedRight (t : FLLRBNode κ β) : FLLRBNode κ β :=
  let n := t.colorFlip
  if n.left.left.isRed then n.rotateRight.colorFlip else n

/-- Before the way goes left, that the left child or its left child is red. -/
def leftward (t : FLLRBNode κ β) : FLLRBNode κ β :=
  if !t.left.isEmpty && !t.left.isRed && !t.left.left.isRed then t.moveRedLeft else t

def rightward (t : FLLRBNode κ β) : FLLRBNode κ β :=
  let n := if t.left.isRed then t.rotateRight else t
  if !n.right.isEmpty && !n.right.isRed && !n.right.left.isRed then n.moveRedRight else n

/-- The number of black nodes on every way down; `none` is an exception, which finds a red node
below a red one or on the right, or two ways with different numbers. -/
def check : FLLRBNode κ β → Option Nat
  | .empty => some 0
  | .value _ _ c l r =>
    if c && l.isRed then none
    else if r.isRed then none
    else match l.check, r.check with
      | some blackDepth, some blackDepth' =>
        if blackDepth = blackDepth' then some (blackDepth + if c then 0 else 1) else none
      | _, _ => none

def checkMaxDepth (t : FLLRBNode κ β) : Option Bool :=
  t.check.map fun blackDepth => 2 ^ blackDepth ≤ t.count + 1

section Keys
variable [LinearOrder κ]

def insertKey (key : κ) (value : β) : FLLRBNode κ β → FLLRBNode κ β
  | .empty => .value key value RED .empty .empty
  | .value k v c l r =>
    if key < k then (FLLRBNode.value k v c (insertKey key value l) r).fixUp
    else if key = k then (FLLRBNode.value k value c l r).fixUp
    else (FLLRBNode.value k v c l (insertKey key value r)).fixUp

/-- The loop of `get:`, from the root down. -/
def get (key : κ) : FLLRBNode κ β → Option β
  | .empty => none
  | .value k v _ l r => if key = k then some v else if key < k then l.get key else r.get key

/-- The loop of `getPredecessorKey:`; an exception is `none`, no predecessor is `some none`. -/
def getPredecessorKey (key : κ) : FLLRBNode κ β → Option κ → Option (Option κ)
  | .empty, _ => none
  | .value k _ _ l r, rightParent =>
    if key = k then some (if l.isEmpty then rightParent else l.maxKey)
    else if key < k then l.getPredecessorKey key rightParent
    else r.getPredecessorKey key (some k)

end Keys

/-! What the rearrangements do to the entries, and to their number. -/
section Entries
variable (t : FLLRBNode κ β)

@[simp] theorem inorder_withColor (c : Bool) :
    (t.withColor c).inorderTraversal = t.inorderTraversal := by
  cases t <;> rfl

@[simp] theorem inorder_colorFlip : t.colorFlip.inorderTraversal = t.inorderTraversal := by
  cases t with
  | empty => rfl
  | value k v c l r => simp [colorFlip, inorderTraversal]

theorem inorder_rotateLeft (h : t.right.isEmpty = false) :
    t.rotateLeft.inorderTraversal = t.inorderTraversal := by
  cases t with
  | empty => cases h
  | value k v c l r =>
    cases r with
    | empty => cases h
    | value rk rv rc rl rr => simp [rotateLeft, inorderTraversal]

theorem inorder_rotateRight (h : t.left.isEmpty = false) :
    t.rotateRight.inorderTraversal = t.inorderTraversal := by
  cases t with
  | empty => cases h
  | value k v c l r =>
    cases l with
    | empty => cases h
    | value lk lv lc ll lr => simp [rotateRight, inorderTraversal]

variable {t}

theorem isEmpty_of_isRed (h : t.isRed = true) : t.isEmpty = false := by
  cases t with
  | empty => cases h
  | value => rfl

theorem isEmpty_of_left (h : t.left.isRed = true) : t.isEmpty = false := by
  cases t with
  | empty => cases h
  | value => rfl

theorem isEmpty_of_right (h : t.right.isRed = true) : t.isEmpty = false := by
  cases t with
  | empty => cases h
  | value => rfl

variable (t)

@[simp] theorem inorder_fixUp : t.fixUp.inorderTraversal = t.inorderTraversal := by
  have hleft : (if t.right.isRed && !t.left.isRed then t.rotateLeft else t).inorderTraversal =
      t.inorderTraversal := by
    split_ifs with h
    · rw [Bool.and_eq_true] at h
      exact inorder_rotateLeft t (isEmpty_of_isRed h.1)
    · rfl
  rw [← hleft, fixUp]
  generalize (if t.right.isRed && !t.left.isRed then t.rotateLeft else t) = n
  have hright : (if n.left.isRed && n.left.left.isRed then n.rotateRight else n).inorderTraversal =
      n.inorderTraversal := by
    split_ifs with h
    · rw [Bool.and_eq_true] at h
      exact inorder_rotateRight n (isEmpty_of_isRed h.1)
    · rfl
  rw [← hright]
  split_ifs
  · exact inorder_colorFlip _
  · rfl
  · exact inorder_colorFlip _
  · rfl

theorem length_inorder : t.inorderTraversal.length = t.count := by
  induction t with
  | empty => rfl
  | value k v c l r ihl ihr =>
    rw [inorderTraversal, List.length_append, List.length_cons, ihl, ihr, count]
    omega

theorem min_eq_head : t.min = t.inorderTraversal.head? := by
  induction t with
  | empty => rfl
  | value k v c l r ihl ihr =>
    rw [min, inorderTraversal]
    cases l with
    | empty => rfl
    | value lk lv lc ll lr =>
      rw [isEmpty, if_neg Bool.false_ne_true, ihl, List.head?_append]
      cases hhead : (value lk lv lc ll lr).inorderTraversal.head? with
      | some e => rfl
      | none => simp [inorderTraversal] at hhead

theorem maxKey_eq_last : t.maxKey = (t.inorderTraversal.getLast?).map Prod.fst := by
  induction t with
  | empty => rfl
  | value k v c l r ihl ihr =>
    rw [maxKey, inorderTraversal]
    cases r with
    | empty => simp [isEmpty, inorderTraversal]
    | value rk rv rc rl rr =>
      rw [isEmpty, if_neg Bool.false_ne_true, ihr, List.getLast?_append, List.getLast?_cons]
      cases hlast : (value rk rv rc rl rr).inorderTraversal.getLast? with
      | some e => rfl
      | none => simp [inorderTraversal] at hlast

theorem inorder_moveRedLeft : t.moveRedLeft.inorderTraversal = t.inorderTraversal := by
  rw [← inorder_colorFlip t, moveRedLeft]
  generalize t.colorFlip = n
  split_ifs with h
  · have hright := isEmpty_of_left h
    cases n with
    | empty => rfl
    | value k v c l r =>
      cases r with
      | empty => cases hright
      | value rk rv rc rl rr =>
        cases rl with
        | empty => cases h
        | value => simp [withRight, rotateRight, rotateLeft, right, inorderTraversal]
  · rfl

theorem inorder_moveRedRight : t.moveRedRight.inorderTraversal = t.inorderTraversal := by
  rw [← inorder_colorFlip t, moveRedRight]
  split_ifs with h
  · rw [inorder_colorFlip, inorder_rotateRight _ (isEmpty_of_left h)]
  · rfl

theorem inorder_leftward : t.leftward.inorderTraversal = t.inorderTraversal := by
  rw [leftward]
  split_ifs
  · exact inorder_moveRedLeft t
  · rfl

theorem inorder_rightward : t.rightward.inorderTraversal = t.inorderTraversal := by
  have hrotate : (if t.left.isRed then t.rotateRight else t).inorderTraversal =
      t.inorderTraversal := by
    split_ifs with h
    · exact inorder_rotateRight t (isEmpty_of_isRed h)
    · rfl
  rw [← hrotate, rightward]
  split_ifs
  · exact inorder_moveRedRight _
  · rfl
  · exact inorder_moveRedRight _
  · rfl

variable {t}

theorem count_left_lt (h : t.isEmpty = false) : t.left.count < t.count := by
  cases t with
  | empty => cases h
  | value k v c l r =>
    rw [left, count]
    omega

theorem count_right_lt (h : t.isEmpty = false) : t.right.count < t.count := by
  cases t with
  | empty => cases h
  | value k v c l r =>
    rw [right, count]
    omega

theorem count_of_inorder {t' : FLLRBNode κ β} (h : t'.inorderTraversal = t.inorderTraversal) :
    t'.count = t.count := by
  rw [← length_inorder, h, length_inorder]

theorem isEmpty_of_inorder {t' : FLLRBNode κ β} (h : t'.inorderTraversal = t.inorderTraversal)
    (ht : t.isEmpty = false) : t'.isEmpty = false := by
  have hcount := count_of_inorder h
  cases t with
  | empty => cases ht
  | value k v c l r =>
    cases t' with
    | empty =>
      simp only [count] at hcount
      omega
    | value => rfl

theorem count_left_leftward (h : t.isEmpty = false) : t.leftward.left.count < t.count := by
  rw [← count_of_inorder (inorder_leftward t)]
  exact count_left_lt (isEmpty_of_inorder (inorder_leftward t) h)

theorem count_right_rightward (h : t.isEmpty = false) : t.rightward.right.count < t.count := by
  rw [← count_of_inorder (inorder_rightward t)]
  exact count_right_lt (isEmpty_of_inorder (inorder_rightward t) h)

end Entries

/-- The tree without its first entry. -/
def removeMin : FLLRBNode κ β → FLLRBNode κ β
  | .empty => .empty
  | .value k v c l r =>
    if l.isEmpty then .empty
    else
      let n := (FLLRBNode.value k v c l r).leftward
      (n.withLeft n.left.removeMin).fixUp
termination_by t => t.count
decreasing_by exact count_left_leftward rfl

theorem count_withLeft {t l : FLLRBNode κ β} (h : l.count ≤ t.left.count) :
    (t.withLeft l).count ≤ t.count := by
  cases t with
  | empty => exact Nat.le_refl _
  | value k v c l' r =>
    simp only [left] at h
    simp only [withLeft, count]
    omega

theorem count_removeMin (t : FLLRBNode κ β) : t.removeMin.count ≤ t.count := by
  induction t using removeMin.induct with
  | case1 => rw [removeMin]
  | case2 k v c l r h =>
    rw [removeMin, if_pos h]
    exact Nat.zero_le _
  | case3 k v c l r h n ih =>
    have hn : n.count = (FLLRBNode.value k v c l r).count := count_of_inorder (inorder_leftward _)
    rw [removeMin, if_neg h, ← hn]
    exact (count_of_inorder (inorder_fixUp _)).trans_le (count_withLeft ih)

/-- The tree without the entry of a key. An entry between two subtrees gives way to the first
of the right one, where the key is then looked for as well. -/
def remove [LinearOrder κ] (key : κ) : FLLRBNode κ β → FLLRBNode κ β
  | .empty => .empty
  | .value k v c l r =>
    if key < k then
      let n := (FLLRBNode.value k v c l r).leftward
      (n.withLeft (n.left.remove key)).fixUp
    else
      let n := (FLLRBNode.value k v c l r).rightward
      if n.key? = some key then
        if n.right.isEmpty then .empty
        else
          let n' := n.withEntry n.right.min
          (n'.withRight (n.right.removeMin.remove key)).fixUp
      else (n.withRight (n.right.remove key)).fixUp
termination_by t => t.count
decreasing_by
  · exact count_left_leftward rfl
  · exact (count_removeMin _).trans_lt (count_right_rightward rfl)
  · exact count_right_rightward rfl

end FLLRBNode

end Pincushion.SortedDictionary
