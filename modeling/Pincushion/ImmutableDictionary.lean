import Pincushion.TreeBuilder

/-! The immutable dictionaries. A small one is an array that is searched from the front, a large
one a red-black tree; one becomes the other when it grows, and both are the list of entries. -/
namespace Pincushion.SortedDictionary
variable {κ β : Type*}

def SORTED_DICTIONARY_ARRAY_TO_RB_TREE_SIZE_THRESHOLD : Nat := 25

inductive FImmutableSortedDictionary (κ β : Type*) where
  | array (entries : List (κ × β))
  | tree (root : FLLRBNode κ β)

section Array
variable [LinearOrder κ]

def findInsertPositionForKey (key : κ) : List (κ × β) → Nat
  | [] => 0
  | e :: rest => if e.1 < key then findInsertPositionForKey key rest + 1 else 0

/-- The search ends early when the key lies before the next one. -/
def findKey (key : κ) : List (κ × β) → Option Nat
  | [] => none
  | e :: rest =>
    if key = e.1 then some 0
    else if key < e.1 then none
    else (findKey key rest).map (· + 1)

variable {d : List (κ × β)} {key : κ} {pos : Nat}

theorem findKey_some (h : findKey key d = some pos) :
    ∃ l v r, d = l ++ (key, v) :: r ∧ l.length = pos := by
  induction d generalizing pos with
  | nil => cases h
  | cons e rest ih =>
    rw [findKey] at h
    split_ifs at h with heq hlt
    · cases h
      subst heq
      exact ⟨[], e.2, rest, rfl, rfl⟩
    · cases hrest : findKey key rest with
      | none =>
        rw [hrest] at h
        cases h
      | some p =>
        rw [hrest] at h
        cases h
        obtain ⟨l, v, r, hsplit, hlength⟩ := ih hrest
        exact ⟨e :: l, v, r, by rw [hsplit]; rfl, by rw [List.length_cons, hlength]⟩

theorem findKey_none (hd : Sorted d) (h : findKey key d = none) : ∀ e ∈ d, e.1 ≠ key := by
  induction d with
  | nil => exact fun _ he => absurd he List.not_mem_nil
  | cons e rest ih =>
    obtain ⟨hfirst, hrest⟩ := List.pairwise_cons.mp hd
    rw [findKey] at h
    split_ifs at h with heq hlt
    · intro e' he'
      cases List.mem_cons.mp he' with
      | inl heq' => exact heq' ▸ hlt.ne'
      | inr hmem => exact (hlt.trans (hfirst e' hmem)).ne'
    · intro e' he'
      cases List.mem_cons.mp he' with
      | inl heq' => exact heq' ▸ Ne.symm heq
      | inr hmem => exact ih hrest (Option.map_eq_none_iff.mp h) e' hmem

theorem insertIdx_findInsertPosition (v : β) (h : findKey key d = none) :
    d.insertIdx (findInsertPositionForKey key d) (key, v) = insertKey key v d := by
  induction d with
  | nil => rfl
  | cons e rest ih =>
    rw [findKey] at h
    split_ifs at h with heq hlt
    · rw [findInsertPositionForKey, if_neg hlt.not_gt, insertKey, if_pos hlt]
      rfl
    · have hgt : e.1 < key := lt_of_le_of_ne (not_lt.mp hlt) (Ne.symm heq)
      rw [findInsertPositionForKey, if_pos hgt, insertKey, if_neg hlt, if_neg heq,
        List.insertIdx_succ_cons, ih (Option.map_eq_none_iff.mp h)]

end Array

namespace FImmutableSortedDictionary

def entries : FImmutableSortedDictionary κ β → List (κ × β)
  | .array entries => entries
  | .tree root => root.inorderTraversal

def isEmpty : FImmutableSortedDictionary κ β → Bool
  | .array entries => entries.isEmpty
  | .tree root => root.isEmpty

def minKey : FImmutableSortedDictionary κ β → Option κ
  | .array entries => entries.head?.map Prod.fst
  | .tree root => root.minKey

def maxKey : FImmutableSortedDictionary κ β → Option κ
  | .array entries => entries.getLast?.map Prod.fst
  | .tree root => root.maxKey

theorem isEmpty_eq (s : FImmutableSortedDictionary κ β) : s.isEmpty = s.entries.isEmpty := by
  cases s with
  | array d => rfl
  | tree root =>
    cases root with
    | empty => rfl
    | value k v c l r => simp [isEmpty, FLLRBNode.isEmpty, entries, FLLRBNode.inorderTraversal]

theorem minKey_eq (s : FImmutableSortedDictionary κ β) :
    s.minKey = s.entries.head?.map Prod.fst := by
  cases s with
  | array d => rfl
  | tree root => rw [minKey, FLLRBNode.minKey, FLLRBNode.min_eq_head, entries]

theorem maxKey_eq (s : FImmutableSortedDictionary κ β) :
    s.maxKey = s.entries.getLast?.map Prod.fst := by
  cases s with
  | array d => rfl
  | tree root => exact FLLRBNode.maxKey_eq_last root

variable [LinearOrder κ]

def arrayFromDictionary (dictionary : List (κ × β)) : Option (FImmutableSortedDictionary κ β) :=
  (sortedEntries dictionary).map .array

def treeFromDictionary (dictionary : List (κ × β)) : Option (FImmutableSortedDictionary κ β) := do
  let sortedKeyList ← sortedEntries dictionary
  let root ← rootFromEntries sortedKeyList
  return .tree root

def fromDictionary (dictionary : List (κ × β)) : Option (FImmutableSortedDictionary κ β) :=
  if dictionary.length ≤ SORTED_DICTIONARY_ARRAY_TO_RB_TREE_SIZE_THRESHOLD then
    arrayFromDictionary dictionary
  else treeFromDictionary dictionary

def insertKey (key : κ) (value : β) :
    FImmutableSortedDictionary κ β → Option (FImmutableSortedDictionary κ β)
  | .array entries =>
    match findKey key entries with
    | none =>
      if SORTED_DICTIONARY_ARRAY_TO_RB_TREE_SIZE_THRESHOLD ≤ entries.length then
        treeFromDictionary (entries ++ [(key, value)])
      else some (.array (entries.insertIdx (findInsertPositionForKey key entries) (key, value)))
    | some pos => some (.array (entries.set pos (key, value)))
  | .tree root => some (.tree ((root.insertKey key value).withColor FLLRBNode.BLACK))

/-- A tree is not touched for a key it does not have; it stays a tree however few are left. -/
def removeKey (key : κ) : FImmutableSortedDictionary κ β → FImmutableSortedDictionary κ β
  | .array entries =>
    match findKey key entries with
    | none => .array entries
    | some pos => .array (entries.eraseIdx pos)
  | .tree root =>
    if (root.get key).isNone then .tree root
    else .tree ((root.remove key).withColor FLLRBNode.BLACK)

def get (key : κ) : FImmutableSortedDictionary κ β → Option β
  | .array entries => (findKey key entries).bind fun pos => (entries[pos]?).map Prod.snd
  | .tree root => root.get key

def contains (key : κ) : FImmutableSortedDictionary κ β → Bool
  | .array entries => (findKey key entries).isSome
  | .tree root => (root.get key).isSome

/-- An exception is `none`. -/
def getPredecessorKey (key : κ) : FImmutableSortedDictionary κ β → Option (Option κ)
  | .array entries => (findKey key entries).map fun pos =>
    if pos = 0 then none else (entries[pos - 1]?).map Prod.fst
  | .tree root => root.getPredecessorKey key none

/-- Sorted, and either a small array or a balanced tree. -/
def WellFormed (s : FImmutableSortedDictionary κ β) : Prop :=
  Sorted s.entries ∧
    match s with
    | .array entries => entries.length ≤ SORTED_DICTIONARY_ARRAY_TO_RB_TREE_SIZE_THRESHOLD
    | .tree root => ∃ blackDepth, FLLRBNode.Balanced blackDepth root

variable {s : FImmutableSortedDictionary κ β} {key : κ} {dictionary : List (κ × β)}

theorem treeFromDictionary_spec (hkeys : (dictionary.map Prod.fst).Nodup)
    (hlength : dictionary.length + 1 < 2 ^ 32) :
    ∃ s, treeFromDictionary dictionary = some s ∧ s.WellFormed ∧ s.entries.Perm dictionary := by
  obtain ⟨d, hsort, hsorted, hperm⟩ := sortedEntries_spec hkeys
  obtain ⟨n, root, hroot, hbalanced, hinorder⟩ :=
    rootFromEntries_spec (show d.length + 1 < 2 ^ 32 from hperm.length_eq ▸ hlength)
  refine ⟨.tree root, by simp [treeFromDictionary, hsort, hroot], ⟨?_, n, hbalanced⟩, ?_⟩
  · rw [entries, hinorder]
    exact hsorted
  · rw [entries, hinorder]
    exact hperm

theorem fromDictionary_spec (hkeys : (dictionary.map Prod.fst).Nodup)
    (hlength : dictionary.length + 1 < 2 ^ 32) :
    ∃ s, fromDictionary dictionary = some s ∧ s.WellFormed ∧ s.entries.Perm dictionary := by
  rw [fromDictionary]
  split_ifs with hsmall
  · obtain ⟨d, hsort, hsorted, hperm⟩ := sortedEntries_spec hkeys
    exact ⟨.array d, by rw [arrayFromDictionary, hsort]; rfl,
      ⟨hsorted, hperm.length_eq.trans_le hsmall⟩, hperm⟩
  · exact treeFromDictionary_spec hkeys hlength

theorem nodup_keys {d : List (κ × β)} (h : Sorted d) : (d.map Prod.fst).Nodup :=
  List.pairwise_map.mpr (h.imp fun hlt => hlt.ne)

/-- An array that has grown too large becomes a tree. -/
theorem insertKey_convert {d : List (κ × β)} {v : β} (hd : Sorted d)
    (hlength : d.length ≤ SORTED_DICTIONARY_ARRAY_TO_RB_TREE_SIZE_THRESHOLD)
    (hkey : ∀ e ∈ d, e.1 ≠ key) :
    ∃ s, treeFromDictionary (d ++ [(key, v)]) = some s ∧ s.WellFormed ∧
      s.entries = SortedDictionary.insertKey key v d := by
  have hnodup : ((d ++ [(key, v)]).map Prod.fst).Nodup := by
    rw [List.map_append, List.nodup_append]
    refine ⟨nodup_keys hd, List.nodup_singleton key, fun k hk k' hk' => ?_⟩
    obtain ⟨e, he, heq⟩ := List.mem_map.mp hk
    rw [List.mem_singleton.mp hk', ← heq]
    exact hkey e he
  have hsize : (d ++ [(key, v)]).length + 1 < 2 ^ 32 := by
    rw [SORTED_DICTIONARY_ARRAY_TO_RB_TREE_SIZE_THRESHOLD] at hlength
    rw [List.length_append, List.length_singleton]
    omega
  obtain ⟨s, htree, hwell, hperm⟩ := treeFromDictionary_spec hnodup hsize
  refine ⟨s, htree, hwell, Sorted.eq_of_mem hwell.1 (sorted_insertKey v hd) fun e => ?_⟩
  rw [hperm.mem_iff, List.mem_append, List.mem_singleton]
  constructor
  · intro he
    cases he with
    | inl hmem =>
      refine mem_of_objectForKey ?_
      rw [objectForKey_insertKey_ne v d (hkey e hmem), objectForKey_of_mem hd hmem]
    | inr heq =>
      subst heq
      exact mem_of_objectForKey (objectForKey_insertKey_self key v d)
  · exact fun he => (mem_insertKey he).symm

theorem insertKey_spec (v : β) (h : s.WellFormed) :
    ∃ s', s.insertKey key v = some s' ∧ s'.WellFormed ∧
      s'.entries = SortedDictionary.insertKey key v s.entries := by
  obtain ⟨hs, hshape⟩ := h
  cases s with
  | array d =>
    have hsorted' : Sorted (SortedDictionary.insertKey key v d) := sorted_insertKey v hs
    rw [insertKey, entries]
    cases hfind : findKey key d with
    | none =>
      have hkey := findKey_none hs hfind
      simp only
      split_ifs with hlarge
      · exact insertKey_convert hs hshape hkey
      · refine ⟨_, rfl, ⟨?_, ?_⟩, insertIdx_findInsertPosition v hfind⟩
        · rw [entries, insertIdx_findInsertPosition v hfind]
          exact hsorted'
        · exact List.length_insertIdx_le_succ.trans (Nat.lt_of_not_le hlarge)
    | some pos =>
      obtain ⟨l, v', r, hsplit, hlength⟩ := findKey_some hfind
      subst hsplit
      subst hlength
      have hset : (l ++ (key, v') :: r).set l.length (key, v) =
          SortedDictionary.insertKey key v (l ++ (key, v') :: r) := by
        rw [insertKey_at (sorted_middle.mp hs).2.2.1]
        simp
      refine ⟨_, rfl, ⟨?_, (List.length_set ..).trans_le hshape⟩, hset⟩
      rw [entries, hset]
      exact hsorted'
  | tree root =>
    obtain ⟨n, hbalanced⟩ := hshape
    have hentries : (((root.insertKey key v).withColor FLLRBNode.BLACK)).inorderTraversal =
        SortedDictionary.insertKey key v root.inorderTraversal := by
      rw [FLLRBNode.inorder_withColor, FLLRBNode.inorder_insertKey hs]
    refine ⟨_, rfl, ⟨?_, (FLLRBNode.loose_insertKey hbalanced).blacken⟩, hentries⟩
    rw [entries, hentries]
    exact sorted_insertKey v hs

theorem removeKey_spec (key : κ) (h : s.WellFormed) : (s.removeKey key).WellFormed ∧
    (s.removeKey key).entries = SortedDictionary.removeKey key s.entries := by
  obtain ⟨hs, hshape⟩ := h
  have hsorted' := sorted_removeKey key hs
  cases s with
  | array d =>
    rw [removeKey]
    cases hfind : findKey key d with
    | none => exact ⟨⟨hs, hshape⟩, (removeKey_of_ne (findKey_none hs hfind)).symm⟩
    | some pos =>
      obtain ⟨l, v, r, hsplit, hlength⟩ := findKey_some hfind
      subst hsplit
      subst hlength
      have herase : (l ++ (key, v) :: r).eraseIdx l.length =
          SortedDictionary.removeKey key (l ++ (key, v) :: r) := by
        rw [removeKey_at hs, List.eraseIdx_append_of_length_le (Nat.le_refl _)]
        simp
      refine ⟨⟨?_, (List.length_eraseIdx_le _ _).trans hshape⟩, herase⟩
      rw [entries, herase]
      exact hsorted'
  | tree root =>
    rw [removeKey]
    split_ifs with habsent
    · rw [FLLRBNode.get_eq hs, Option.isNone_iff_eq_none] at habsent
      refine ⟨⟨hs, hshape⟩, (removeKey_of_ne fun e he heq => ?_).symm⟩
      rw [← heq] at habsent
      exact absurd ((objectForKey_of_mem hs he).symm.trans habsent) (Option.some_ne_none _)
    · obtain ⟨n, hbalanced⟩ := hshape
      obtain ⟨hbalanced', hentries⟩ := FLLRBNode.balanced_remove key hbalanced hs
      refine ⟨⟨?_, hbalanced'⟩, hentries⟩
      rw [entries, hentries]
      exact hsorted'

/-! Every question has the answer of the list. -/
theorem get_eq (key : κ) (h : s.WellFormed) : s.get key = objectForKey key s.entries := by
  obtain ⟨hs, -⟩ := h
  cases s with
  | array d =>
    rw [get, entries]
    cases hfind : findKey key d with
    | none => exact (objectForKey_of_ne (findKey_none hs hfind)).symm
    | some pos =>
      obtain ⟨l, v, r, hsplit, hlength⟩ := findKey_some hfind
      subst hsplit
      subst hlength
      rw [objectForKey_after (sorted_middle.mp hs).2.2.1]
      simp [objectForKey]
  | tree root => exact FLLRBNode.get_eq hs

theorem contains_eq (key : κ) (h : s.WellFormed) : s.contains key = (s.get key).isSome := by
  cases s with
  | array d =>
    rw [get, contains]
    cases hfind : findKey key d with
    | none => rfl
    | some pos =>
      obtain ⟨l, v, r, hsplit, hlength⟩ := findKey_some hfind
      subst hsplit
      subst hlength
      simp
  | tree root => rfl

theorem getPredecessorKey_eq (key : κ) (h : s.WellFormed) :
    s.getPredecessorKey key = predecessorKey key s.entries := by
  obtain ⟨hs, -⟩ := h
  cases s with
  | array d =>
    rw [getPredecessorKey, entries]
    cases hfind : findKey key d with
    | none =>
      have hkey : key ∉ d.map Prod.fst := by
        intro hmem
        obtain ⟨e, he, heq⟩ := List.mem_map.mp hmem
        exact findKey_none hs hfind e he heq
      rw [predecessorKey, if_neg hkey]
      rfl
    | some pos =>
      obtain ⟨l, v, r, hsplit, hlength⟩ := findKey_some hfind
      subst hsplit
      subst hlength
      rw [predecessorKey_at hs, Option.map_some]
      split_ifs with hzero
      · rw [List.length_eq_zero_iff.mp hzero]
        rfl
      · rw [List.getElem?_append_left (by omega), List.getLast?_eq_getElem?]
  | tree root => exact FLLRBNode.getPredecessorKey_eq hs

end FImmutableSortedDictionary

/-! Runs of insertions and removals. -/
inductive Change (κ β : Type*) where
  | insertKey (key : κ) (value : β)
  | removeKey (key : κ)

namespace Change
variable [LinearOrder κ]

/-- What a change does to the list of entries. -/
def onEntries (d : List (κ × β)) : Change κ β → List (κ × β)
  | .insertKey key value => SortedDictionary.insertKey key value d
  | .removeKey key => SortedDictionary.removeKey key d

def apply (s : FImmutableSortedDictionary κ β) :
    Change κ β → Option (FImmutableSortedDictionary κ β)
  | .insertKey key value => s.insertKey key value
  | .removeKey key => some (s.removeKey key)

theorem apply_spec {s : FImmutableSortedDictionary κ β} (change : Change κ β) (h : s.WellFormed) :
    ∃ s', change.apply s = some s' ∧ s'.WellFormed ∧
      s'.entries = change.onEntries s.entries := by
  cases change with
  | insertKey key value => exact FImmutableSortedDictionary.insertKey_spec value h
  | removeKey key =>
    exact ⟨s.removeKey key, rfl, FImmutableSortedDictionary.removeKey_spec key h⟩

def applyAll (s : FImmutableSortedDictionary κ β) (changes : List (Change κ β)) :
    Option (FImmutableSortedDictionary κ β) :=
  changes.foldlM (fun s change => change.apply s) s

theorem applyAll_spec {s : FImmutableSortedDictionary κ β} (changes : List (Change κ β))
    (h : s.WellFormed) : ∃ s', applyAll s changes = some s' ∧ s'.WellFormed ∧
      s'.entries = changes.foldl (fun d change => change.onEntries d) s.entries := by
  induction changes generalizing s with
  | nil => exact ⟨s, rfl, h, rfl⟩
  | cons change changes ih =>
    obtain ⟨s₁, happly, hwell, hentries⟩ := change.apply_spec h
    obtain ⟨s', hall, hwell', hentries'⟩ := ih hwell
    refine ⟨s', ?_, hwell', ?_⟩
    · rw [applyAll, List.foldlM_cons, happly]
      exact hall
    · rw [hentries', hentries, List.foldl_cons]

end Change

namespace FImmutableSortedDictionary
variable [LinearOrder κ]

/-- The dictionary answers as the list of its entries in order does, and the ways down a tree
are as short as its check wants them. -/
structure Represents (s : FImmutableSortedDictionary κ β) (d : List (κ × β)) : Prop where
  entries : s.entries = d
  sorted : Sorted d
  get : ∀ key, s.get key = objectForKey key d
  contains : ∀ key, s.contains key = (objectForKey key d).isSome
  getPredecessorKey : ∀ key, s.getPredecessorKey key = predecessorKey key d
  isEmpty : s.isEmpty = d.isEmpty
  minKey : s.minKey = d.head?.map Prod.fst
  maxKey : s.maxKey = d.getLast?.map Prod.fst
  checkMaxDepth : ∀ root, s = .tree root → root.checkMaxDepth = some true

theorem WellFormed.represents {s : FImmutableSortedDictionary κ β} (h : s.WellFormed) :
    s.Represents s.entries where
  entries := rfl
  sorted := h.1
  get := fun key => get_eq key h
  contains := fun key => by rw [contains_eq key h, get_eq key h]
  getPredecessorKey := fun key => getPredecessorKey_eq key h
  isEmpty := isEmpty_eq s
  minKey := minKey_eq s
  maxKey := maxKey_eq s
  checkMaxDepth := by
    intro root hroot
    subst hroot
    obtain ⟨blackDepth, hbalanced⟩ := h.2
    exact hbalanced.checkMaxDepth

end FImmutableSortedDictionary

end Pincushion.SortedDictionary
