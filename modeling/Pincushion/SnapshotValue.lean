import Pincushion.SnapshotFormat
import Mathlib.Data.List.Perm.Subperm

/-! How a node is read: which keys count as indices, and when its children are an array. -/
namespace Pincushion.Snapshot
open KeyTree SortedDictionary SwiftNumber Literals FixedPoint
variable {α : Type*}

section Read
variable {decimalDigit : Char → Bool}

theorem valEntries_eq (cs : List (Key × FNode Key α)) :
    valEntries decimalDigit cs = cs.map fun e => (e.1, e.2.val decimalDigit) := by
  induction cs with
  | nil => rfl
  | cons e rest ih => rw [valEntries, ih, List.map_cons]

theorem objectForKey_valEntries (k : Key) (cs : List (Key × FNode Key α)) :
    objectForKey k (valEntries decimalDigit cs) =
      (objectForKey k cs).map (FNode.val decimalDigit) := by
  induction cs with
  | nil => rfl
  | cons e rest ih =>
    simp only [valEntries, objectForKey, ih]
    split_ifs <;> rfl

theorem le_maxKey {cs : List (Key × FNode Key α)} {m m' : Nat}
    (h : maxKey decimalDigit cs m = some m') :
    m ≤ m' ∧ ∀ e ∈ cs, ∃ i ≤ m', keyAsInt decimalDigit e.1 = some i := by
  induction cs generalizing m with
  | nil =>
    cases h
    exact ⟨Nat.le_refl _, fun e he => by cases he⟩
  | cons e rest ih =>
    simp only [maxKey] at h
    split at h
    · rename_i i hi
      obtain ⟨hle, hrest⟩ := ih h
      have hle' : m ≤ m' ∧ i ≤ m' := by
        split_ifs at hle <;> omega
      refine ⟨hle'.1, fun e' he' => ?_⟩
      cases List.mem_cons.mp he' with
      | inl heq => exact ⟨i, hle'.2, heq ▸ hi⟩
      | inr hmem => exact hrest e' hmem
    · cases h

theorem keyAsInt_le {key : Key} {i : Nat} (hi : keyAsInt decimalDigit key = some i) :
    i ≤ 2 ^ 63 - 1 := by
  simp only [keyAsInt, intForString] at hi
  split_ifs at hi with hzero hall
  obtain ⟨n, -, rfl⟩ := Option.map_eq_some_iff.mp hi
  exact Nat.min_le_right ..

/-- Keys with ASCII digits only, and not too many of them, are plain. -/
theorem plain_of_digits {key : Key}
    (hdigits : ∀ c ∈ key.name.toList, decimalDigit c = true → c.isDigit = true)
    (hshort : key.name.toList.length ≤ 18) : key.Plain decimalDigit := by
  intro i hi
  simp only [keyAsInt, intForString] at hi
  split_ifs at hi with hzero hall
  obtain ⟨n, hn, hmin⟩ := Option.map_eq_some_iff.mp hi
  have hascii : ∀ c ∈ key.name.toList, c.isDigit = true := fun c hc =>
    hdigits c hc (List.all_eq_true.mp hall c hc)
  rw [List.takeWhile_eq_self_iff.mpr hascii] at hn
  obtain ⟨hne, hvalue⟩ := digits_of_number hn
  obtain rfl : n = i := by
    have hlt := digits_lt hvalue
    have hle : 10 ^ key.name.toList.length ≤ 10 ^ 18 := Nat.pow_le_pow_right (by decide) hshort
    omega
  have hlist := toDigits_of_digits hvalue hne fun hhead => by
    rw [← length_units (toNat_of_digits hvalue)]
    exact not_lt.mp fun hlong => hzero ⟨hhead, hlong⟩
  have hname : key.name = (Key.ofIndex n).name :=
    String.toList_inj.mp (hlist.trans (Key.toList_ofIndex n).symm)
  exact congrArg Key.mk hname

theorem plain_ofIndex {i : Nat} (hi : i ≤ 2 ^ 63 - 1) : (Key.ofIndex i).Plain decimalDigit := by
  intro j hj
  simp only [keyAsInt, intForString] at hj
  split_ifs at hj with hzero hall
  obtain ⟨n, hn, hmin⟩ := Option.map_eq_some_iff.mp hj
  have hascii := isDigit_toDigits i
  rw [Key.toList_ofIndex, List.takeWhile_eq_self_iff.mpr hascii, number_toDigits] at hn
  cases hn
  rw [Nat.min_eq_left hi] at hmin
  rw [hmin]

/-- All keys below a node are integers, or its largest one is not looked for. -/
theorem maxKey_isSome {cs : List (Key × FNode Key α)} (m : Nat)
    (h : ∀ e ∈ cs, (keyAsInt decimalDigit e.1).isSome) : (maxKey decimalDigit cs m).isSome := by
  induction cs generalizing m with
  | nil => rfl
  | cons e rest ih =>
    obtain ⟨i, hi⟩ := Option.isSome_iff_exists.mp (h e (List.mem_cons_self ..))
    simp only [maxKey, hi]
    exact ih _ fun e' he' => h e' (List.mem_cons_of_mem e he')

/-- The largest key is one of them. -/
theorem maxKey_mem {cs : List (Key × FNode Key α)} {m m' : Nat}
    (h : maxKey decimalDigit cs m = some m') :
    m' = m ∨ ∃ e ∈ cs, keyAsInt decimalDigit e.1 = some m' := by
  induction cs generalizing m with
  | nil =>
    cases h
    exact Or.inl rfl
  | cons e rest ih =>
    simp only [maxKey] at h
    split at h
    · rename_i i hi
      cases ih h with
      | inl hm =>
        split_ifs at hm with hlt
        · exact Or.inr ⟨e, List.mem_cons_self .., hm ▸ hi⟩
        · exact Or.inl hm
      | inr hmem =>
        obtain ⟨e', he', hkey⟩ := hmem
        exact Or.inr ⟨e', List.mem_cons_of_mem e he', hkey⟩
    · cases h

theorem maxKey_le {cs : List (Key × FNode Key α)} {m m' : Nat}
    (h : maxKey decimalDigit cs m = some m') (hm : m ≤ 2 ^ 63 - 1) : m' ≤ 2 ^ 63 - 1 := by
  induction cs generalizing m with
  | nil =>
    cases h
    exact hm
  | cons e rest ih =>
    simp only [maxKey] at h
    split at h
    · rename_i i hi
      have hle := keyAsInt_le hi
      refine ih h ?_
      split_ifs <;> omega
    · cases h

theorem keyAsInt_ofIndex (hdigit : ∀ c : Char, c.isDigit = true → decimalDigit c = true) {i : Nat}
    (hi : i ≤ 2 ^ 63 - 1) : keyAsInt decimalDigit (.ofIndex i) = some i := by
  have hascii := isDigit_toDigits i
  have hzero : ¬ ((Key.ofIndex i).name.toList.head? = some '0' ∧
      1 < (units (Key.ofIndex i).name).length) := by
    rw [length_units (by rw [Key.toList_ofIndex]; exact toNat_of_digits (digits_toDigits i)),
      Key.toList_ofIndex]
    rintro ⟨hhead, hlong⟩
    have hvalue := digits_toDigits i
    have hle := Nat.length_toDigits_le_iff (b := 10) (n := i)
      (k := (Nat.toDigits 10 i).length - 1) (by decide) (by omega)
    cases hcs : Nat.toDigits 10 i with
    | nil => exact Nat.toDigits_ne_nil hcs
    | cons c rest =>
      rw [hcs] at hhead hvalue hle
      cases hhead
      obtain ⟨d, m, hd, hm, heq⟩ := digits_cons hvalue
      obtain rfl : d = 0 := Option.some.inj (hd.symm.trans (by decide))
      have hlt := digits_lt hm
      rw [List.length_cons, Nat.add_sub_cancel] at hle
      have := hle.mpr (by omega)
      omega
  rw [keyAsInt, if_neg hzero, intForString, if_pos, Key.toList_ofIndex,
    List.takeWhile_eq_self_iff.mpr hascii, number_toDigits, Option.map_some, Nat.min_eq_left hi]
  rw [Key.toList_ofIndex, List.all_eq_true]
  exact fun c hc => hdigit c (hascii c hc)

theorem objectForKey_indices (k : Key) (aval : List (Value α)) :
    (∃ i, k = .ofIndex i ∧
      objectForKey k (aval.zipIdx.map fun x => (Key.ofIndex x.2, x.1)) = aval[i]?) ∨
    (∀ i, k ≠ .ofIndex i) ∧
      objectForKey k (aval.zipIdx.map fun x => (Key.ofIndex x.2, x.1)) = none := by
  have hindex : ∀ (i j : Nat) (aval : List (Value α)),
      objectForKey (.ofIndex (i + j)) ((aval.zipIdx i).map fun x => (Key.ofIndex x.2, x.1)) =
        aval[j]? := by
    intro i j aval
    induction aval generalizing i j with
    | nil => rfl
    | cons v rest ih =>
      rw [List.zipIdx_cons, List.map_cons, objectForKey]
      cases j with
      | zero => exact if_pos rfl
      | succ j =>
        rw [if_neg fun h => by have := Key.ofIndex_injective h; omega, List.getElem?_cons_succ,
          ← ih (i + 1) j, Nat.add_right_comm, Nat.add_assoc]
  by_cases hk : ∃ i, k = .ofIndex i
  · obtain ⟨i, rfl⟩ := hk
    refine Or.inl ⟨i, rfl, ?_⟩
    rw [← hindex 0 i aval, Nat.zero_add]
  · refine Or.inr ⟨fun i hi => hk ⟨i, hi⟩, ?_⟩
    cases hget : objectForKey k (aval.zipIdx.map fun x => (Key.ofIndex x.2, x.1)) with
    | none => rfl
    | some v =>
      obtain ⟨x, -, hx⟩ := List.mem_map.mp (mem_of_objectForKey hget)
      exact absurd ⟨x.2, (congrArg Prod.fst hx).symm⟩ hk

/-- The value of a node with children is read as the dictionary of their values or, where all
keys are indices, as the array of them. -/
theorem val_children {cs : List (Key × FNode Key α)} (hne : cs ≠ [])
    (hplain : ∀ e ∈ cs, e.1.Plain decimalDigit) :
    (FNode.children cs).val decimalDigit = .dictionary (valEntries decimalDigit cs) ∨
    ∃ m ≤ 2 ^ 63 - 1, (FNode.children cs).val decimalDigit = .array ((List.range (m + 1)).map fun i =>
        (objectForKey (.ofIndex i) (valEntries decimalDigit cs)).getD .null) ∧
      ∀ e ∈ cs, ∃ i ≤ m, e.1 = .ofIndex i := by
  simp only [FNode.val, List.isEmpty_iff, hne, if_false]
  split
  · rename_i m hm
    split_ifs with hdense
    · refine Or.inr ⟨m, maxKey_le hm (Nat.zero_le _), rfl, fun e he => ?_⟩
      obtain ⟨i, hi, hkey⟩ := (le_maxKey hm).2 e he
      exact ⟨i, hi, hplain e he i hkey⟩
    · exact Or.inl rfl
  · exact Or.inl rfl

/-- What is read below a key is the value of the child. -/
theorem entries_val {cs : List (Key × FNode Key α)} (hne : cs ≠ [])
    (hplain : ∀ e ∈ cs, e.1.Plain decimalDigit) (k : Key) :
    (objectForKey k ((FNode.children cs).val decimalDigit).entries).getD .null =
      ((objectForKey k cs).map (FNode.val decimalDigit)).getD .null := by
  rcases val_children hne hplain with hval | ⟨m, -, hval, hindices⟩ <;> rw [hval, Value.entries]
  · rw [objectForKey_valEntries]
  · have hoff : (∀ i, k = .ofIndex i → m < i) → objectForKey k cs = none := by
      intro hk
      cases hget : objectForKey k cs with
      | none => rfl
      | some c =>
        obtain ⟨i, hi, hkey⟩ := hindices _ (mem_of_objectForKey hget)
        exact absurd (hk i hkey) (by omega)
    rcases objectForKey_indices k ((List.range (m + 1)).map fun i =>
        (objectForKey (.ofIndex i) (valEntries decimalDigit cs)).getD .null) with
      ⟨i, rfl, hget⟩ | ⟨hnot, hget⟩ <;> rw [hget]
    · by_cases hi : i < m + 1
      · rw [List.getElem?_map, List.getElem?_range hi, Option.map_some, Option.getD_some,
          objectForKey_valEntries]
      · rw [List.getElem?_eq_none (by simpa using hi), hoff]
        · rfl
        · intro j hj
          rw [← Key.ofIndex_injective hj]
          omega
    · rw [hoff fun i hi => absurd hi (hnot i)]
      rfl

/-- The children of a node with the leaves of an array of leaves. -/
theorem children_leaves {cs : List (Key × FNode Key α)} {as : List α}
    (hcs : (FNode.children cs).Canonical)
    (htree : (FNode.children cs).tree = (Value.array (as.map .leaf)).tree) (k : Key) :
    (∃ i a, k = .ofIndex i ∧ as[i]? = some a ∧ objectForKey k cs = some (.leaf a)) ∨
    (∀ i < as.length, k ≠ .ofIndex i) ∧ objectForKey k cs = none := by
  cases hcs with
  | children sorted nonempty canonical =>
    have hchild : ((objectForKey k cs).getD .emptyNode).tree =
        ((objectForKey k (Value.array (as.map .leaf)).entries).getD .null).tree := by
      funext q
      have hq := congrFun htree (k :: q)
      rwa [FNode.tree_cons, Value.tree_cons] at hq
    have hnone : ((objectForKey k cs).getD .emptyNode).tree = KeyTree.empty →
        objectForKey k cs = none := by
      intro hempty
      cases hget : objectForKey k cs with
      | none => rfl
      | some c =>
        have hmem := mem_of_objectForKey hget
        obtain ⟨q, a, hq⟩ := (canonical _ hmem).exists_leaf (nonempty _ hmem)
        rw [hget, Option.getD_some] at hempty
        rw [hempty] at hq
        cases hq
    rw [Value.entries] at hchild
    rcases objectForKey_indices k (as.map Value.leaf) with ⟨i, rfl, hentry⟩ | ⟨hnot, hentry⟩ <;>
      rw [hentry] at hchild
    · rw [List.getElem?_map] at hchild
      cases ha : as[i]? with
      | none =>
        rw [ha] at hchild
        refine Or.inr ⟨fun j hj hij => ?_, hnone (hchild.trans Value.tree_null)⟩
        rw [Key.ofIndex_injective hij, List.getElem?_eq_getElem hj] at ha
        cases ha
      | some a =>
        rw [ha, Option.map_some, Option.getD_some] at hchild
        refine Or.inl ⟨i, a, rfl, ha, ?_⟩
        cases hget : objectForKey (.ofIndex i) cs with
        | none =>
          rw [hget] at hchild
          cases congrFun hchild []
        | some c =>
          rw [hget, Option.getD_some] at hchild
          have hleaf : (Value.leaf a).tree = (FNode.leaf a : FNode Key α).tree := by
            funext q
            cases q <;> rfl
          have hc := canonical _ (mem_of_objectForKey hget)
          exact congrArg some (hc.ext (.leaf a) (hchild.trans hleaf))
    · exact Or.inr ⟨fun i _ => hnot i, hnone (hchild.trans Value.tree_null)⟩

/-- An array of leaves is read as it was stored. -/
theorem val_leaves (hdigit : ∀ c : Char, c.isDigit = true → decimalDigit c = true)
    {n : FNode Key α} {as : List α} (hn : n.Canonical) (htree : n.tree = (Value.array (as.map .leaf)).tree)
    (hne : as ≠ []) (hshort : as.length ≤ 2 ^ 63) :
    n.val decimalDigit = .array (as.map .leaf) := by
  have hpos := List.length_pos_iff.mpr hne
  have hindex : ∀ i < as.length, keyAsInt decimalDigit (.ofIndex i) = some i := fun i hi =>
    keyAsInt_ofIndex hdigit (by omega)
  cases n with
  | leaf value => cases congrFun htree []
  | children cs =>
    have hget := children_leaves hn htree
    have hsome : ∀ i (hi : i < as.length), objectForKey (.ofIndex i) cs = some (.leaf as[i]) := by
      intro i hi
      rcases hget (.ofIndex i) with ⟨j, a, hij, ha, hleaf⟩ | ⟨hnot, -⟩
      · obtain rfl := Key.ofIndex_injective hij
        rw [List.getElem?_eq_getElem hi] at ha
        cases ha
        exact hleaf
      · exact absurd rfl (hnot i hi)
    have hkeys : ∀ e ∈ cs, ∃ i < as.length, e.1 = .ofIndex i := by
      intro e he
      rcases hget e.1 with ⟨i, a, hi, ha, -⟩ | ⟨-, hnone⟩
      · exact ⟨i, (List.getElem?_eq_some_iff.mp ha).1, hi⟩
      · cases hn with
        | children sorted =>
          rw [objectForKey_of_mem sorted he] at hnone
          cases hnone
    have hlength : as.length ≤ cs.length := by
      have hsub : (List.range as.length).map Key.ofIndex ⊆ cs.map Prod.fst := by
        intro k hk
        obtain ⟨i, hi, rfl⟩ := List.mem_map.mp hk
        exact List.mem_map.mpr ⟨_, mem_of_objectForKey (hsome i (List.mem_range.mp hi)), rfl⟩
      have hnodup : ((List.range as.length).map Key.ofIndex).Nodup :=
        List.nodup_range.map Key.ofIndex_injective
      have hle := (hnodup.subperm hsub).length_le
      rwa [List.length_map, List.length_range, List.length_map] at hle
    have hmax : maxKey decimalDigit cs 0 = some (as.length - 1) := by
      have hisSome : (maxKey decimalDigit cs 0).isSome := maxKey_isSome 0 fun e he => by
        obtain ⟨i, hi, hkey⟩ := hkeys e he
        rw [hkey, hindex i hi]
        rfl
      obtain ⟨m, hm⟩ := Option.isSome_iff_exists.mp hisSome
      have hupper : m ≤ as.length - 1 := by
        cases maxKey_mem hm with
        | inl hzero => omega
        | inr hmem =>
          obtain ⟨e, he, hkey⟩ := hmem
          obtain ⟨i, hi, hei⟩ := hkeys e he
          rw [hei, hindex i hi] at hkey
          cases hkey
          omega
      have hlower : as.length - 1 ≤ m := by
        have hlast := mem_of_objectForKey (hsome (as.length - 1) (by omega))
        obtain ⟨i, hi, hkey⟩ := (le_maxKey hm).2 _ hlast
        rw [hindex _ (by omega)] at hkey
        cases hkey
        exact hi
      rw [hm, Nat.le_antisymm hupper hlower]
    have hcs : cs.isEmpty = false := by
      cases cs with
      | nil => exact absurd hlength (by simp [hne])
      | cons => rfl
    simp only [FNode.val, hcs, Bool.false_eq_true, if_false, hmax]
    rw [if_pos (by omega), Nat.sub_add_cancel hpos]
    congr 1
    refine List.ext_getElem (by simp) fun i hi hi' => ?_
    rw [List.length_map] at hi'
    rw [List.getElem_map, List.getElem_range, objectForKey_valEntries, hsome i hi', List.getElem_map]
    rfl

end Read

end Pincushion.Snapshot
