import Pincushion.Canonical
import Pincushion.KeyOrder
import Mathlib.Data.List.Nodup

/-! What the application stores and reads, and the nodes in between. A value becomes a
node without its nulls, an array one whose keys are its indices; a node with enough
such keys is read as an array again. Priorities and server values are left out. -/
namespace Pincushion.Snapshot
open KeyTree SortedDictionary SwiftNumber
variable {α : Type*}

/-- `NSNull`, a string or a number, `NSDictionary` and `NSArray`. -/
inductive Value (α : Type*) where
  | null
  | leaf (value : α)
  | dictionary (entries : List (Key × Value α))
  | array (elements : List (Value α))

def kFirebaseMaxObjectDepth : Nat := 1000
def kInvalidKeyCharacters : List Char := ['[', ']', '.', '#', '$', '/']

def isValidKey (key : Key) : Bool :=
  key.name != "" && key.name.toList.all fun c => !kInvalidKeyCharacters.contains c

/-- The key of an index. -/
def Key.ofIndex (i : Nat) : Key := ⟨toString i⟩

section Store
variable (isValidLeafValue : α → Bool)

mutual
/-- An exception is `none`. -/
def nodeFrom : Nat → Value α → Option (FNode Key α)
  | depth, .null => if kFirebaseMaxObjectDepth < depth then none else some .emptyNode
  | depth, .leaf value =>
    if kFirebaseMaxObjectDepth < depth then none
    else if isValidLeafValue value then some (.leaf value) else none
  | depth, .dictionary dval =>
    if kFirebaseMaxObjectDepth < depth then none
    else (dictionaryFrom (depth + 1) dval).map .children
  | depth, .array aval =>
    if kFirebaseMaxObjectDepth < depth then none
    else (arrayFrom (depth + 1) 0 aval).map .children
/-- The children that are not empty, in the order of their keys. -/
def dictionaryFrom : Nat → List (Key × Value α) → Option (List (Key × FNode Key α))
  | _, [] => some []
  | depth, (key, val) :: rest =>
    if isValidKey key then match nodeFrom depth val, dictionaryFrom depth rest with
      | some childNode, some children =>
        some (if childNode.isEmpty then children else insertKey key childNode children)
      | _, _ => none
    else none
def arrayFrom : Nat → Nat → List (Value α) → Option (List (Key × FNode Key α))
  | _, _, [] => some []
  | depth, i, val :: rest => match nodeFrom depth val, arrayFrom depth (i + 1) rest with
    | some childNode, some children =>
      some (if childNode.isEmpty then children else insertKey (.ofIndex i) childNode children)
    | _, _ => none
end

end Store

section Read
variable (decimalDigit : Char → Bool)

/-- The scanner stops at the first character that is no ASCII digit, and at the largest integer. -/
def intForString (string : String) : Option Nat :=
  if string.toList.all decimalDigit then
    (number 10 (string.toList.takeWhile Char.isDigit)).map fun num => min num (2 ^ 63 - 1)
  else none

/-- Leading zeros make a key a text. -/
def keyAsInt (key : Key) : Option Nat :=
  if key.name.toList.head? = some '0' ∧ 1 < (units key.name).length then none
  else intForString decimalDigit key.name

/-- The largest of the keys, where all are integers. -/
def maxKey : List (Key × FNode Key α) → Nat → Option Nat
  | [], m => some m
  | (key, _) :: rest, m => match keyAsInt decimalDigit key with
    | some i => maxKey rest (if m < i then i else m)
    | none => none

mutual
/-- The value of a node, as a snapshot has it. -/
def FNode.val : FNode Key α → Value α
  | .leaf value => .leaf value
  | .children cs =>
    if cs.isEmpty then .null
    else
      let obj := valEntries cs
      match maxKey decimalDigit cs 0 with
      | some m =>
        if m < 2 * cs.length then
          .array ((List.range (m + 1)).map fun i => (objectForKey (.ofIndex i) obj).getD .null)
        else .dictionary obj
      | none => .dictionary obj
def valEntries : List (Key × FNode Key α) → List (Key × Value α)
  | [] => []
  | (key, childNode) :: rest => (key, childNode.val) :: valEntries rest
end

end Read

/-- An array is a dictionary of its indices. -/
def Value.entries : Value α → List (Key × Value α)
  | .dictionary dval => dval
  | .array aval => aval.zipIdx.map fun x => (.ofIndex x.2, x.1)
  | .null | .leaf _ => []

/-- The leaves of a value. -/
def Value.tree : Value α → Tree Key α
  | .leaf value, [] => some value
  | _, [] => none
  | v, k :: q => match objectForKey k v.entries with
    | some child => child.tree q
    | none => none

theorem Key.toList_ofIndex (i : Nat) : (Key.ofIndex i).name.toList = Nat.toDigits 10 i := by
  simp [ofIndex, toString, Nat.repr]

theorem Key.ofIndex_injective : Function.Injective Key.ofIndex := by
  intro i j h
  have hvalue := congrArg (fun k : Key => digits 10 0 k.name.toList) h
  simp only [toList_ofIndex, digits_toDigits] at hvalue
  exact Option.some.inj hvalue

theorem isValidKey_iff (key : Key) : isValidKey key = true ↔
    key.name ≠ "" ∧ ∀ c ∈ key.name.toList, c ∉ kInvalidKeyCharacters := by
  simp [isValidKey]

theorem isValidKey_ofIndex (i : Nat) : isValidKey (.ofIndex i) = true := by
  have hne : (Key.ofIndex i).name ≠ "" := by
    intro hempty
    have hlist := Key.toList_ofIndex i
    rw [hempty] at hlist
    exact Nat.toDigits_ne_nil hlist.symm
  have hall : ∀ c ∈ kInvalidKeyCharacters, c.isDigit = false := Literals.of_all rfl
  refine (isValidKey_iff _).mpr ⟨hne, fun c hc hinvalid => ?_⟩
  rw [Key.toList_ofIndex] at hc
  have hdigit := isDigit_toDigits i c hc
  rw [hall c hinvalid] at hdigit
  cases hdigit

section Values
variable (decimalDigit : Char → Bool)

/-- A key that reads as an integer is the key of that index. -/
def Key.Plain (key : Key) : Prop := ∀ i, keyAsInt decimalDigit key = some i → key = .ofIndex i

/-- A dictionary has each key once. -/
inductive Value.Proper : Value α → Prop
  | null : Proper .null
  | leaf (value : α) : Proper (.leaf value)
  | dictionary {dval : List (Key × Value α)} (keys : (dval.map Prod.fst).Nodup)
      (plain : ∀ e ∈ dval, e.1.Plain decimalDigit) (proper : ∀ e ∈ dval, Proper e.2) :
      Proper (.dictionary dval)
  | array {aval : List (Value α)} (short : aval.length ≤ 2 ^ 63) (proper : ∀ v ∈ aval, Proper v) :
      Proper (.array aval)

end Values

theorem Value.tree_null : (null : Value α).tree = KeyTree.empty := by
  funext q
  cases q <;> rfl

theorem Value.tree_nil {v : Value α} (h : ∀ a, v ≠ .leaf a) : v.tree [] = none := by
  cases v with
  | leaf a => exact absurd rfl (h a)
  | _ => rfl

theorem Value.tree_cons (v : Value α) (k : Key) (q : List Key) :
    v.tree (k :: q) = ((objectForKey k v.entries).getD .null).tree q := by
  have hcases : v.tree (k :: q) = match objectForKey k v.entries with
      | some child => child.tree q
      | none => none := by
    cases v <;> rfl
  rw [hcases]
  cases objectForKey k v.entries with
  | some child => rfl
  | none => exact (congrFun tree_null q).symm

section Store
variable {isValidLeafValue : α → Bool}

/-- An array is stored as the dictionary of its indices. -/
theorem arrayFrom_eq (depth i : Nat) (aval : List (Value α)) :
    arrayFrom isValidLeafValue depth i aval =
      dictionaryFrom isValidLeafValue depth
        ((aval.zipIdx i).map fun x => (.ofIndex x.2, x.1)) := by
  induction aval generalizing i with
  | nil => rfl
  | cons v rest ih =>
    rw [List.zipIdx_cons, List.map_cons, dictionaryFrom, arrayFrom, if_pos (isValidKey_ofIndex i), ih]

theorem FNode.Canonical.insertChild {cs : List (Key × FNode Key α)} {key : Key} {n : FNode Key α}
    (h : (FNode.children cs).Canonical) (hn : n.Canonical) :
    (FNode.children (if n.isEmpty then cs else insertKey key n cs)).Canonical := by
  have hupdate := h.updateImmediateChild key hn
  rw [FNode.updateImmediateChild] at hupdate
  split_ifs at hupdate ⊢
  · exact h
  · exact hupdate

/-- The children of a dictionary are those of its entries that are not empty. -/
theorem children_of_dictionaryFrom {depth : Nat} {dval : List (Key × Value α)}
    {cs : List (Key × FNode Key α)} (hkeys : (dval.map Prod.fst).Nodup)
    (hchild : ∀ e ∈ dval, ∀ n, nodeFrom isValidLeafValue depth e.2 = some n →
      n.Canonical ∧ n.tree = e.2.tree)
    (h : dictionaryFrom isValidLeafValue depth dval = some cs) :
    (FNode.children cs).Canonical ∧ ∀ k, ((objectForKey k cs).getD .emptyNode).tree =
      ((objectForKey k dval).getD .null).tree := by
  induction dval generalizing cs with
  | nil =>
    cases h
    exact ⟨FNode.canonical_emptyNode, fun k => FNode.tree_emptyNode.trans Value.tree_null.symm⟩
  | cons e rest ih =>
    obtain ⟨key, val⟩ := e
    obtain ⟨hfirst, hrest⟩ := List.nodup_cons.mp hkeys
    simp only [dictionaryFrom] at h
    split_ifs at h with hvalid
    split at h
    · rename_i n children hn hchildren
      cases h
      obtain ⟨hcanonical, htree⟩ := hchild _ (List.mem_cons_self ..) n hn
      obtain ⟨hcanonical', htree'⟩ := ih hrest
        (fun e he => hchild e (List.mem_cons_of_mem _ he)) hchildren
      refine ⟨hcanonical'.insertChild hcanonical, fun k => ?_⟩
      have hnone : objectForKey key rest = none := by
        cases hget : objectForKey key rest with
        | none => rfl
        | some v =>
          exact absurd (List.mem_map.mpr ⟨_, mem_of_objectForKey hget, rfl⟩) hfirst
      by_cases hk : k = key
      · subst hk
        rw [objectForKey, if_pos rfl, Option.getD_some, ← htree]
        split_ifs with hempty
        · rw [htree' k, hnone, FNode.eq_emptyNode hempty, FNode.tree_emptyNode]
          exact Value.tree_null
        · rw [objectForKey_insertKey_self, Option.getD_some]
      · rw [objectForKey, if_neg hk, ← htree' k]
        split_ifs with hempty
        · rfl
        · rw [objectForKey_insertKey_ne _ _ hk]
    · cases h

theorem nodup_indices (aval : List (Value α)) :
    ((aval.zipIdx.map fun x => (Key.ofIndex x.2, x.1)).map Prod.fst).Nodup := by
  have hmap : (aval.zipIdx.map fun x => (Key.ofIndex x.2, x.1)).map Prod.fst =
      (aval.zipIdx.map Prod.snd).map Key.ofIndex := by
    rw [List.map_map, List.map_map]
    rfl
  rw [hmap, List.zipIdx_map_snd]
  exact List.Nodup.map Key.ofIndex_injective List.nodup_range'

/-- A value and the node it is stored as have the same leaves. -/
theorem tree_nodeFrom {decimalDigit : Char → Bool} {depth : Nat} {v : Value α} {n : FNode Key α}
    (hv : v.Proper decimalDigit) (h : nodeFrom isValidLeafValue depth v = some n) :
    n.Canonical ∧ n.tree = v.tree := by
  have hchildren : ∀ {cs : List (Key × FNode Key α)} {v : Value α}, (∀ a, v ≠ .leaf a) →
      (∀ k, ((objectForKey k cs).getD .emptyNode).tree =
        ((objectForKey k v.entries).getD .null).tree) → (FNode.children cs).tree = v.tree := by
    intro cs v hleaf hcs
    funext q
    cases q with
    | nil => exact (Value.tree_nil hleaf).symm
    | cons k q =>
      rw [FNode.tree_cons, Value.tree_cons]
      exact congrFun (hcs k) q
  induction hv generalizing depth n with
  | null =>
    simp only [nodeFrom] at h
    split_ifs at h
    cases h
    exact ⟨FNode.canonical_emptyNode, FNode.tree_emptyNode.trans Value.tree_null.symm⟩
  | leaf value =>
    simp only [nodeFrom] at h
    split_ifs at h
    cases h
    refine ⟨.leaf value, ?_⟩
    funext q
    cases q <;> rfl
  | dictionary keys plain proper ih =>
    simp only [nodeFrom] at h
    split_ifs at h
    obtain ⟨cs, hcs, rfl⟩ := Option.map_eq_some_iff.mp h
    obtain ⟨hcanonical, htree⟩ := children_of_dictionaryFrom keys (fun e he n hn => ih e he hn) hcs
    exact ⟨hcanonical, hchildren (by simp) htree⟩
  | array short proper ih =>
    rename_i aval
    simp only [nodeFrom] at h
    split_ifs at h
    obtain ⟨cs, hcs, rfl⟩ := Option.map_eq_some_iff.mp h
    rw [arrayFrom_eq] at hcs
    obtain ⟨hcanonical, htree⟩ := children_of_dictionaryFrom (nodup_indices aval) (fun e he n hn => by
      obtain ⟨x, hx, rfl⟩ := List.mem_map.mp he
      exact ih x.1 (List.fst_mem_of_mem_zipIdx hx) hn) hcs
    exact ⟨hcanonical, hchildren (by simp) htree⟩

end Store

end Pincushion.Snapshot
