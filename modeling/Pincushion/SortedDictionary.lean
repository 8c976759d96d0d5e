import Mathlib.Order.Lattice
import Mathlib.Data.List.Pairwise

/-! Dictionaries as lists of entries in the order of their keys. Looking up,
inserting and removing obey their laws on any list; the order makes every entry
the one that is looked up. -/
namespace Pincushion.SortedDictionary
variable {κ β : Type*}

/-- The keys ascend. -/
def Sorted [LT κ] (d : List (κ × β)) : Prop := d.Pairwise fun a b => a.1 < b.1

theorem sorted_nil [LT κ] : Sorted ([] : List (κ × β)) := List.Pairwise.nil

def objectForKey [DecidableEq κ] (k : κ) : List (κ × β) → Option β
  | [] => none
  | (k', v) :: rest => if k = k' then some v else objectForKey k rest

def removeKey [DecidableEq κ] (k : κ) (d : List (κ × β)) : List (κ × β) :=
  d.filter fun e => e.1 ≠ k

variable [LinearOrder κ]

def insertKey (k : κ) (v : β) : List (κ × β) → List (κ × β)
  | [] => [(k, v)]
  | (k', v') :: rest =>
    if k < k' then (k, v) :: (k', v') :: rest
    else if k = k' then (k, v) :: rest
    else (k', v') :: insertKey k v rest

variable {k k' : κ} {v : β} {d : List (κ × β)}

theorem insertKey_ne_nil (k : κ) (v : β) (d : List (κ × β)) : insertKey k v d ≠ [] := by
  cases d with
  | nil => simp [insertKey]
  | cons e rest =>
    simp only [insertKey]
    split_ifs <;> simp

theorem objectForKey_insertKey_self (k : κ) (v : β) (d : List (κ × β)) :
    objectForKey k (insertKey k v d) = some v := by
  induction d with
  | nil => simp [insertKey, objectForKey]
  | cons e rest ih =>
    simp only [insertKey]
    split_ifs with hlt heq
    · simp [objectForKey]
    · simp [objectForKey]
    · simp [objectForKey, heq, ih]

theorem objectForKey_insertKey_ne (v : β) (d : List (κ × β)) (h : k' ≠ k) :
    objectForKey k' (insertKey k v d) = objectForKey k' d := by
  induction d with
  | nil => simp [insertKey, objectForKey, h]
  | cons e rest ih =>
    simp only [insertKey]
    split_ifs with hlt heq
    · simp [objectForKey, h]
    · simp [objectForKey, ← heq, h]
    · simp [objectForKey, ih]

theorem objectForKey_removeKey_self (k : κ) (d : List (κ × β)) : objectForKey k (removeKey k d) = none := by
  induction d with
  | nil => rfl
  | cons e rest ih =>
    by_cases he : e.1 = k
    · simpa [removeKey, he] using ih
    · simpa [removeKey, he, objectForKey, Ne.symm he] using ih

theorem objectForKey_removeKey_ne (d : List (κ × β)) (h : k' ≠ k) : objectForKey k' (removeKey k d) = objectForKey k' d := by
  induction d with
  | nil => rfl
  | cons e rest ih =>
    by_cases he : e.1 = k
    · have hne : k' ≠ e.1 := fun heq => h (heq.trans he)
      rw [removeKey, List.filter_cons_of_neg (by simp [he]), ← removeKey, ih, objectForKey, if_neg hne]
    · by_cases heq : k' = e.1
      · simp [removeKey, he, objectForKey, heq]
      · simpa [removeKey, he, objectForKey, heq] using ih

theorem mem_of_objectForKey (h : objectForKey k d = some v) : (k, v) ∈ d := by
  induction d with
  | nil => cases h
  | cons e rest ih =>
    simp only [objectForKey] at h
    split_ifs at h with heq
    · cases h
      exact List.mem_cons.mpr (Or.inl (by rw [heq]))
    · exact List.mem_cons_of_mem _ (ih h)

theorem objectForKey_of_mem (hd : Sorted d) (h : (k, v) ∈ d) : objectForKey k d = some v := by
  induction d with
  | nil => cases h
  | cons e rest ih =>
    obtain ⟨hfirst, hrest⟩ := List.pairwise_cons.mp hd
    cases List.mem_cons.mp h with
    | inl heq =>
      subst heq
      simp [objectForKey]
    | inr hmem =>
      have hne : k ≠ e.1 := (hfirst _ hmem).ne'
      simp [objectForKey, hne, ih hrest hmem]

theorem mem_insertKey {e : κ × β} (h : e ∈ insertKey k v d) : e = (k, v) ∨ e ∈ d := by
  induction d with
  | nil => exact Or.inl (List.mem_singleton.mp h)
  | cons e' rest ih =>
    simp only [insertKey] at h
    split_ifs at h with hlt heq
    · exact List.mem_cons.mp h
    · cases List.mem_cons.mp h with
      | inl h => exact Or.inl h
      | inr h => exact Or.inr (List.mem_cons_of_mem _ h)
    · cases List.mem_cons.mp h with
      | inl h => exact Or.inr (h ▸ List.mem_cons_self ..)
      | inr h =>
        cases ih h with
        | inl h => exact Or.inl h
        | inr h => exact Or.inr (List.mem_cons_of_mem _ h)

theorem sorted_insertKey (v : β) (hd : Sorted d) : Sorted (insertKey k v d) := by
  induction d with
  | nil => exact List.pairwise_singleton ..
  | cons e rest ih =>
    obtain ⟨hfirst, hrest⟩ := List.pairwise_cons.mp hd
    simp only [insertKey]
    split_ifs with hlt heq
    · refine List.pairwise_cons.mpr ⟨fun e' he' => ?_, hd⟩
      cases List.mem_cons.mp he' with
      | inl he' =>
        subst he'
        exact hlt
      | inr he' => exact hlt.trans (hfirst e' he')
    · refine List.pairwise_cons.mpr ⟨fun e' he' => ?_, hrest⟩
      rw [heq]
      exact hfirst e' he'
    · refine List.pairwise_cons.mpr ⟨fun e' he' => ?_, ih hrest⟩
      cases mem_insertKey he' with
      | inl he' =>
        subst he'
        exact lt_of_le_of_ne (not_lt.mp hlt) (Ne.symm heq)
      | inr he' => exact hfirst e' he'

/-- A key above all others goes to the end. -/
theorem insertKey_of_lt (v : β) (h : ∀ e ∈ d, e.1 < k) : insertKey k v d = d ++ [(k, v)] := by
  induction d with
  | nil => rfl
  | cons e rest ih =>
    have he := h e (List.mem_cons_self ..)
    rw [insertKey, if_neg he.not_gt, if_neg he.ne', ih fun e' he' => h e' (List.mem_cons_of_mem e he'),
      List.cons_append]

theorem removeKey_first (hd : Sorted ((k, v) :: d)) : removeKey k ((k, v) :: d) = d := by
  obtain ⟨hfirst, -⟩ := List.pairwise_cons.mp hd
  rw [removeKey, List.filter_cons_of_neg (by simp), List.filter_eq_self]
  intro e he
  simpa using (hfirst e he).ne'

theorem sorted_removeKey (k : κ) (hd : Sorted d) : Sorted (removeKey k d) :=
  List.Pairwise.sublist List.filter_sublist hd

theorem mem_removeKey {e : κ × β} (h : e ∈ removeKey k d) : e ∈ d := (List.mem_filter.mp h).1

/-- The order of the entries is determined by their keys. -/
theorem Sorted.eq_of_mem {d d' : List (κ × β)} (hd : Sorted d) (hd' : Sorted d')
    (h : ∀ e, e ∈ d ↔ e ∈ d') : d = d' := by
  induction d generalizing d' with
  | nil =>
    cases d' with
    | nil => rfl
    | cons e' rest' => cases (h e').mpr (List.mem_cons_self ..)
  | cons e rest ih =>
    cases d' with
    | nil => cases (h e).mp (List.mem_cons_self ..)
    | cons e' rest' =>
      obtain ⟨hfirst, hrest⟩ := List.pairwise_cons.mp hd
      obtain ⟨hfirst', hrest'⟩ := List.pairwise_cons.mp hd'
      have heq : e = e' := by
        cases List.mem_cons.mp ((h e).mp (List.mem_cons_self ..)) with
        | inl heq => exact heq
        | inr he =>
          cases List.mem_cons.mp ((h e').mpr (List.mem_cons_self ..)) with
          | inl heq => exact heq.symm
          | inr he' => exact absurd (hfirst' e he) (hfirst e' he').not_gt
      subst heq
      congr 1
      refine ih hrest hrest' fun x => ⟨fun hx => ?_, fun hx => ?_⟩
      · cases List.mem_cons.mp ((h x).mp (List.mem_cons_of_mem e hx)) with
        | inl heq => exact absurd (heq ▸ hfirst x hx) (lt_irrefl _)
        | inr hx => exact hx
      · cases List.mem_cons.mp ((h x).mpr (List.mem_cons_of_mem e hx)) with
        | inl heq => exact absurd (heq ▸ hfirst' x hx) (lt_irrefl _)
        | inr hx => exact hx

theorem Sorted.eq_of_objectForKey {d d' : List (κ × β)} (hd : Sorted d) (hd' : Sorted d')
    (h : ∀ k, objectForKey k d = objectForKey k d') : d = d' := by
  refine Sorted.eq_of_mem hd hd' fun e => ⟨fun he => ?_, fun he => ?_⟩
  · exact mem_of_objectForKey (h e.1 ▸ objectForKey_of_mem hd he)
  · exact mem_of_objectForKey ((h e.1).symm ▸ objectForKey_of_mem hd' he)

end Pincushion.SortedDictionary
