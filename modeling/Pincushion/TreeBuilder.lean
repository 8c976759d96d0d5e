import Mathlib.Data.List.Sort
import Pincushion.RedBlackLookup

/-! Building a tree from sorted entries. Their number is written with the digits one and two, and
each digit gives one or two pennants, entries over a complete tree, from the last entries on. -/
namespace Pincushion.SortedDictionary
variable {κ β : Type*}

/-- The low `bits` say which digits are two; `current` counts down from the highest. -/
structure Base1_2List where
  bits : Nat
  count : Nat
  current : Nat

def log_base2 (num : Nat) : Nat := Nat.log2 num

/-- An `unsigned int` as length; `current` is an `unsigned short`. -/
def base1_2List_new (length : Nat) : Base1_2List :=
  let num := (length + 1) % 2 ^ 32
  let count := log_base2 num
  { bits := num % 2 ^ count, count, current := (count + (2 ^ 16 - 1)) % 2 ^ 16 }

/-- Whether the next digit is one. -/
def base1_2List_next (list : Base1_2List) : Bool × Base1_2List :=
  (!list.bits.testBit list.current, { list with current := (list.current + (2 ^ 16 - 1)) % 2 ^ 16 })

/-- A complete black tree; `none` is an index out of range. -/
def buildBalancedTree (keys : List (κ × β)) (startIndex length : Nat) :
    Option (FLLRBNode κ β) :=
  -- the difference of the indices is unsigned
  let length' := if startIndex ≤ keys.length then Nat.min (keys.length - startIndex) length
    else length
  if length' = 0 then some .empty
  else if length' = 1 then
    (keys[startIndex]?).map fun e => .value e.1 e.2 FLLRBNode.BLACK .empty .empty
  else do
    let middle := length' / 2
    let left ← buildBalancedTree keys startIndex middle
    let right ← buildBalancedTree keys (startIndex + middle + 1) middle
    let e ← keys[startIndex + middle]?
    return .value e.1 e.2 FLLRBNode.BLACK left right
termination_by length
decreasing_by
  all_goals
    have : length' ≤ length := by
      simp only [length']
      split_ifs
      · exact Nat.min_le_right _ _
      · exact Nat.le_refl _
    omega

/-- A pennant from the last entries before `index`; what follows it hangs on its left. -/
def buildPennant (keyList : List (κ × β)) (color : Bool) (chunkSize index : Nat)
    (next : Nat → Option (FLLRBNode κ β)) : Option (FLLRBNode κ β) :=
  if chunkSize ≤ index then do
    let index' := index - chunkSize
    let e ← keyList[index']?
    let childTree ← buildBalancedTree keyList (index' + 1) (chunkSize - 1)
    let left ← next index'
    return .value e.1 e.2 color left childTree
  else none

/-- The loop over the digits, of which `remaining` are left. -/
def rootFrom12List (keyList : List (κ × β)) : (remaining : Nat) → Base1_2List → (index : Nat) →
    Option (FLLRBNode κ β)
  | 0, _, _ => some .empty
  | remaining + 1, list, index =>
    let (isOne, list) := base1_2List_next list
    let chunkSize := 2 ^ remaining
    if isOne then
      buildPennant keyList FLLRBNode.BLACK chunkSize index (rootFrom12List keyList remaining list)
    else
      buildPennant keyList FLLRBNode.BLACK chunkSize index fun index =>
        buildPennant keyList FLLRBNode.RED chunkSize index (rootFrom12List keyList remaining list)

def rootFromEntries (keyList : List (κ × β)) : Option (FLLRBNode κ β) :=
  let list := base1_2List_new keyList.length
  rootFrom12List keyList list.count list keyList.length

/-- The sorted keys with their values; two keys in the same place are an exception. -/
def sortedEntries [LinearOrder κ] (dictionary : List (κ × β)) : Option (List (κ × β)) :=
  let sorted := dictionary.insertionSort fun a b => a.1 ≤ b.1
  if sorted.IsChain fun a b => a.1 < b.1 then some sorted else none

section Build
variable {keys : List (κ × β)} {start n : Nat}

/-- A complete tree takes one entry between two runs of the same length. -/
theorem take_middle {e : κ × β} {m : Nat} (he : keys[start + m]? = some e) :
    (keys.drop start).take (m + 1 + m) =
      (keys.drop start).take m ++ e :: (keys.drop (start + m + 1)).take m := by
  have hrest : (keys.drop start).drop m = e :: keys.drop (start + m + 1) := by
    obtain ⟨hlt, heq⟩ := List.getElem?_eq_some_iff.mp he
    rw [List.drop_drop, List.drop_eq_getElem_cons hlt, heq]
  rw [Nat.add_assoc, List.take_add, hrest, Nat.add_comm 1 m, List.take_succ_cons]

theorem getElem?_of_lt {i : Nat} (h : i < keys.length) : ∃ e, keys[i]? = some e :=
  ⟨keys[i], List.getElem?_eq_getElem h⟩

theorem buildBalancedTree_zero : buildBalancedTree keys start 0 = some .empty := by
  rw [buildBalancedTree]
  simp

theorem buildBalancedTree_one (h : start < keys.length) : ∃ e, keys[start]? = some e ∧
    buildBalancedTree keys start 1 = some (.value e.1 e.2 FLLRBNode.BLACK .empty .empty) := by
  obtain ⟨e, he⟩ := getElem?_of_lt h
  have hmin : Nat.min (keys.length - start) 1 = 1 := Nat.min_eq_right (by omega)
  refine ⟨e, he, ?_⟩
  rw [buildBalancedTree]
  simp [h.le, hmin, he]

theorem buildBalancedTree_succ {m : Nat} {e : κ × β} {l r : FLLRBNode κ β} (hm : m ≠ 0)
    (h : start + (m + 1 + m) ≤ keys.length) (hl : buildBalancedTree keys start m = some l)
    (hr : buildBalancedTree keys (start + m + 1) m = some r) (he : keys[start + m]? = some e) :
    buildBalancedTree keys start (m + 1 + m) =
      some (.value e.1 e.2 FLLRBNode.BLACK l r) := by
  have hmin : Nat.min (keys.length - start) (m + 1 + m) = m + 1 + m :=
    Nat.min_eq_right (by omega)
  have hstart : start ≤ keys.length := by omega
  have hmiddle : (m + 1 + m) / 2 = m := by omega
  rw [buildBalancedTree]
  simp only [if_pos hstart, hmin, hmiddle, hl, hr, he]
  rw [if_neg (by omega), if_neg (by omega)]
  rfl

theorem buildBalancedTree_complete (n start : Nat) (h : start + (2 ^ n - 1) ≤ keys.length) :
    ∃ t, buildBalancedTree keys start (2 ^ n - 1) = some t ∧ FLLRBNode.Balanced n t ∧
      t.inorderTraversal = (keys.drop start).take (2 ^ n - 1) := by
  induction n generalizing start with
  | zero => exact ⟨.empty, buildBalancedTree_zero, .empty, by simp [FLLRBNode.inorderTraversal]⟩
  | succ n ih =>
    have hpos : 0 < 2 ^ n := Nat.two_pow_pos n
    have hlength : 2 ^ (n + 1) - 1 = (2 ^ n - 1) + 1 + (2 ^ n - 1) := by
      rw [Nat.pow_succ]
      omega
    rw [hlength] at h ⊢
    obtain ⟨l, hl, hbl, hil⟩ := ih start (by omega)
    obtain ⟨r, hr, hbr, hir⟩ := ih (start + (2 ^ n - 1) + 1) (by omega)
    obtain ⟨e, he⟩ := getElem?_of_lt (show start + (2 ^ n - 1) < keys.length by omega)
    refine ⟨.value e.1 e.2 FLLRBNode.BLACK l r, ?_, .two hbl hbr, ?_⟩
    · cases Nat.eq_zero_or_pos n with
      | inl hzero =>
        subst hzero
        obtain ⟨e', he', hone⟩ := buildBalancedTree_one (show start < keys.length by omega)
        cases hbl
        cases hbr
        rw [show start + (2 ^ 0 - 1) = start from rfl, he'] at he
        cases he
        exact hone
      | inr hn =>
        have hm : 2 ^ n - 1 ≠ 0 := by
          have := Nat.pow_le_pow_right (n := 2) (by omega) hn
          omega
        exact buildBalancedTree_succ hm h hl hr he
    · rw [FLLRBNode.inorderTraversal, hil, hir, take_middle he]

/-- A pennant takes the last entries before an index. -/
theorem buildPennant_spec (color : Bool) {index : Nat} {left : FLLRBNode κ β}
    (next : Nat → Option (FLLRBNode κ β)) (hchunk : 2 ^ n ≤ index) (hindex : index ≤ keys.length)
    (hnext : next (index - 2 ^ n) = some left)
    (hleft : left.inorderTraversal = keys.take (index - 2 ^ n)) :
    ∃ k v childTree, buildPennant keys color (2 ^ n) index next =
      some (.value k v color left childTree) ∧ FLLRBNode.Balanced n childTree ∧
      left.inorderTraversal ++ (k, v) :: childTree.inorderTraversal = keys.take index := by
  have hpos : 0 < 2 ^ n := Nat.two_pow_pos n
  obtain ⟨e, he⟩ := getElem?_of_lt (show index - 2 ^ n < keys.length by omega)
  obtain ⟨childTree, hbuild, hbalanced, hinorder⟩ :=
    buildBalancedTree_complete n (index - 2 ^ n + 1)
      (show index - 2 ^ n + 1 + (2 ^ n - 1) ≤ keys.length by omega)
  refine ⟨e.1, e.2, childTree, ?_, hbalanced, ?_⟩
  · rw [buildPennant, if_pos hchunk]
    simp only [he, hbuild, hnext]
    rfl
  · obtain ⟨hlt, heq⟩ := List.getElem?_eq_some_iff.mp he
    have hsplit : index = (index - 2 ^ n) + ((2 ^ n - 1) + 1) := by omega
    rw [hleft, hinorder]
    conv_rhs => rw [hsplit, List.take_add, List.drop_eq_getElem_cons hlt, heq, List.take_succ_cons]

theorem mod_digit (bits m : Nat) :
    bits % 2 ^ (m + 1) = bits % 2 ^ m + if bits.testBit m then 2 ^ m else 0 := by
  rw [Nat.pow_succ, Nat.mod_mul, Nat.testBit_eq_decide_div_mod_eq]
  cases Nat.mod_two_eq_zero_or_one (bits / 2 ^ m) with
  | inl h => simp [h]
  | inr h => simp [h]

/-- What is left to be placed is written with the digits that are left. -/
theorem rootFrom12List_spec (remaining : Nat) (list : Base1_2List) (index : Nat)
    (hcurrent : ∀ m, remaining = m + 1 → list.current = m) (hcount : remaining ≤ 2 ^ 16)
    (hindex : index + 1 = 2 ^ remaining + list.bits % 2 ^ remaining) (hlen : index ≤ keys.length) :
    ∃ t, rootFrom12List keys remaining list index = some t ∧ FLLRBNode.Balanced remaining t ∧
      t.inorderTraversal = keys.take index := by
  induction remaining generalizing list index with
  | zero =>
    have hzero : index = 0 := by
      rw [Nat.pow_zero, Nat.mod_one] at hindex
      omega
    subst hzero
    exact ⟨.empty, rfl, .empty, by simp [FLLRBNode.inorderTraversal]⟩
  | succ m ih =>
    have hm : list.current = m := hcurrent m rfl
    have hnext : ∀ m', m = m' + 1 → (list.current + (2 ^ 16 - 1)) % 2 ^ 16 = m' := by
      intro m' hm'
      omega
    have hdigit := mod_digit list.bits m
    have hpow : 2 ^ (m + 1) = 2 ^ m + 2 ^ m := by
      rw [Nat.pow_succ]
      omega
    rw [rootFrom12List, base1_2List_next, hm]
    have hlist : ∀ rest, rest + 1 = 2 ^ m + list.bits % 2 ^ m → rest ≤ keys.length →
        ∃ t, rootFrom12List keys m { list with current := (m + (2 ^ 16 - 1)) % 2 ^ 16 } rest =
          some t ∧ FLLRBNode.Balanced m t ∧ t.inorderTraversal = keys.take rest :=
      fun rest => ih { list with current := (m + (2 ^ 16 - 1)) % 2 ^ 16 } rest (hm ▸ hnext)
        (by omega)
    cases hbit : list.bits.testBit m with
    | false =>
      rw [hbit, if_neg Bool.false_ne_true] at hdigit
      obtain ⟨left, hleft, hbalanced, hinorder⟩ := hlist (index - 2 ^ m) (by omega) (by omega)
      obtain ⟨k, v, childTree, hpennant, hchild, hentries⟩ :=
        buildPennant_spec FLLRBNode.BLACK _ (by omega) hlen hleft hinorder
      exact ⟨_, hpennant, .two hbalanced hchild, hentries⟩
    | true =>
      rw [hbit, if_pos rfl] at hdigit
      obtain ⟨left, hleft, hbalanced, hinorder⟩ :=
        hlist (index - 2 ^ m - 2 ^ m) (by omega) (by omega)
      obtain ⟨k, v, childTree, hpennant, hchild, hentries⟩ :=
        buildPennant_spec FLLRBNode.RED _ (show 2 ^ m ≤ index - 2 ^ m by omega) (by omega) hleft
          hinorder
      obtain ⟨k', v', childTree', hpennant', hchild', hentries'⟩ :=
        buildPennant_spec FLLRBNode.BLACK (fun index =>
          buildPennant keys FLLRBNode.RED (2 ^ m) index (rootFrom12List keys m
            { list with current := (m + (2 ^ 16 - 1)) % 2 ^ 16 })) (by omega) hlen hpennant hentries
      exact ⟨_, hpennant', .three hbalanced hchild hchild', hentries'⟩

theorem rootFromEntries_spec (h : keys.length + 1 < 2 ^ 32) :
    ∃ n t, rootFromEntries keys = some t ∧ FLLRBNode.Balanced n t ∧ t.inorderTraversal = keys := by
  have hmod : (keys.length + 1) % 2 ^ 32 = keys.length + 1 := Nat.mod_eq_of_lt h
  have hle : 2 ^ Nat.log2 (keys.length + 1) ≤ keys.length + 1 :=
    Nat.log2_self_le (Nat.succ_ne_zero _)
  have hlt : keys.length + 1 < 2 ^ (Nat.log2 (keys.length + 1) + 1) := Nat.lt_log2_self
  have hlog : Nat.log2 (keys.length + 1) < 32 := (Nat.log2_lt (Nat.succ_ne_zero _)).mpr h
  have hbits : keys.length + 1 = 2 ^ Nat.log2 (keys.length + 1) +
      (keys.length + 1) % 2 ^ Nat.log2 (keys.length + 1) := by
    rw [Nat.mod_eq_sub_mod hle, Nat.mod_eq_of_lt (by rw [Nat.pow_succ] at hlt; omega)]
    omega
  obtain ⟨t, hroot, hbalanced, hinorder⟩ :=
    rootFrom12List_spec (Nat.log2 (keys.length + 1))
      (base1_2List_new keys.length) keys.length
      (by simp only [base1_2List_new, log_base2, hmod]; omega) (by omega)
      (by simpa only [base1_2List_new, log_base2, hmod, Nat.mod_mod] using hbits)
      (Nat.le_refl keys.length)
  refine ⟨_, t, ?_, hbalanced, by rw [hinorder, List.take_length]⟩
  simpa only [rootFromEntries, base1_2List_new, log_base2, hmod] using hroot

end Build

section Sorting
variable [LinearOrder κ] {dictionary : List (κ × β)}

/-- Different keys are never in the same place. -/
theorem sortedEntries_spec (h : (dictionary.map Prod.fst).Nodup) :
    ∃ d, sortedEntries dictionary = some d ∧ Sorted d ∧ d.Perm dictionary := by
  let d := dictionary.insertionSort fun a b => a.1 ≤ b.1
  have hperm : d.Perm dictionary := List.perm_insertionSort _ _
  have htotal : Std.Total fun a b : κ × β => a.1 ≤ b.1 := ⟨fun a b => le_total a.1 b.1⟩
  have htrans : IsTrans (κ × β) fun a b => a.1 ≤ b.1 := ⟨fun _ _ _ => le_trans⟩
  have hle : d.Pairwise fun a b => a.1 ≤ b.1 := List.pairwise_insertionSort _ _
  have hne : d.Pairwise fun a b => a.1 ≠ b.1 :=
    List.pairwise_map.mp ((hperm.map Prod.fst).nodup_iff.mpr h)
  have hsorted : Sorted d := hle.imp₂ (fun _ _ => lt_of_le_of_ne) hne
  have hchain : d.IsChain fun a b => a.1 < b.1 := List.Pairwise.isChain hsorted
  exact ⟨d, if_pos hchain, hsorted, hperm⟩

end Sorting

end Pincushion.SortedDictionary
