import Pincushion.SnapshotValue

/-! Storing what was read. A node that can be stored is accepted again as the value it is
read as, and becomes the same node. -/
namespace Pincushion.Snapshot
open KeyTree SortedDictionary
variable {α : Type*}

/-- What a node must be to be stored at a depth. -/
inductive FNode.Storable (isValidLeafValue : α → Bool) (decimalDigit : Char → Bool) :
    Nat → FNode Key α → Prop
  | leaf {depth : Nat} {value : α} (shallow : depth ≤ kFirebaseMaxObjectDepth)
      (valid : isValidLeafValue value = true) : Storable isValidLeafValue decimalDigit depth (.leaf value)
  | children {depth : Nat} {cs : List (Key × FNode Key α)}
      (shallow : depth ≤ kFirebaseMaxObjectDepth) (sorted : Sorted cs)
      (valid : ∀ e ∈ cs, isValidKey e.1 = true) (plain : ∀ e ∈ cs, e.1.Plain decimalDigit)
      (nonempty : ∀ e ∈ cs, e.2.isEmpty = false)
      (storable : ∀ e ∈ cs, Storable isValidLeafValue decimalDigit (depth + 1) e.2) :
      Storable isValidLeafValue decimalDigit depth (.children cs)

section RoundTrip
variable {isValidLeafValue : α → Bool} {decimalDigit : Char → Bool} {depth : Nat}
  {v : Value α} {n : FNode Key α}

theorem FNode.Storable.canonical (h : n.Storable isValidLeafValue decimalDigit depth) :
    n.Canonical := by
  induction h with
  | leaf shallow valid => exact .leaf _
  | children shallow sorted valid plain nonempty storable ih => exact .children sorted nonempty ih

theorem FNode.Storable.shallow (h : n.Storable isValidLeafValue decimalDigit depth) :
    depth ≤ kFirebaseMaxObjectDepth := by
  cases h with
  | leaf shallow => exact shallow
  | children shallow => exact shallow

/-- A node and its value have the same leaves. -/
theorem tree_val (h : n.Storable isValidLeafValue decimalDigit depth) :
    (n.val decimalDigit).tree = n.tree := by
  induction h with
  | leaf shallow valid =>
    funext q
    cases q <;> rfl
  | @children depth cs shallow sorted valid plain nonempty storable ih =>
    by_cases hne : cs = []
    · subst hne
      exact Value.tree_null.trans FNode.tree_emptyNode.symm
    · funext q
      cases q with
      | nil =>
        refine Value.tree_nil fun a => ?_
        rcases val_children hne plain with hval | ⟨m, -, hval, -⟩ <;> rw [hval] <;> simp
      | cons k q =>
        rw [Value.tree_cons, FNode.tree_cons, entries_val hne plain, FNode.getImmediateChild]
        cases hget : objectForKey k cs with
        | none => exact (congrFun Value.tree_null q).trans (congrFun FNode.tree_emptyNode q).symm
        | some c => exact congrFun (ih _ (mem_of_objectForKey hget)) q

theorem nodup_keys {cs : List (Key × FNode Key α)} (h : Sorted cs) : (cs.map Prod.fst).Nodup :=
  List.pairwise_map.mpr (h.imp fun hlt => hlt.ne)

theorem proper_val (h : n.Storable isValidLeafValue decimalDigit depth) :
    (n.val decimalDigit).Proper decimalDigit := by
  induction h with
  | leaf shallow valid => exact .leaf _
  | @children depth cs shallow sorted valid plain nonempty storable ih =>
    by_cases hne : cs = []
    · subst hne
      exact .null
    · rcases val_children hne plain with hval | ⟨m, hm, hval, -⟩ <;> rw [hval]
      · rw [valEntries_eq]
        refine .dictionary ?_ (fun e he => ?_) fun e he => ?_
        · rw [List.map_map]
          exact nodup_keys sorted
        · obtain ⟨e', he', rfl⟩ := List.mem_map.mp he
          exact plain e' he'
        · obtain ⟨e', he', rfl⟩ := List.mem_map.mp he
          exact ih e' he'
      · refine .array ?_ fun v hv => ?_
        · rw [List.length_map, List.length_range]
          omega
        · obtain ⟨i, -, rfl⟩ := List.mem_map.mp hv
          rw [objectForKey_valEntries]
          cases hget : objectForKey (.ofIndex i) cs with
          | none => exact .null
          | some c => exact ih _ (mem_of_objectForKey hget)

theorem dictionaryFrom_isSome {dval : List (Key × Value α)}
    (hvalid : ∀ e ∈ dval, isValidKey e.1 = true)
    (h : ∀ e ∈ dval, (nodeFrom isValidLeafValue depth e.2).isSome) :
    (dictionaryFrom isValidLeafValue depth dval).isSome := by
  induction dval with
  | nil => rfl
  | cons e rest ih =>
    obtain ⟨n, hn⟩ := Option.isSome_iff_exists.mp (h e (List.mem_cons_self ..))
    obtain ⟨cs, hcs⟩ := Option.isSome_iff_exists.mp
      (ih (fun e' he' => hvalid e' (List.mem_cons_of_mem e he'))
        fun e' he' => h e' (List.mem_cons_of_mem e he'))
    simp only [dictionaryFrom, hvalid e (List.mem_cons_self ..), if_true, hn, hcs]
    rfl

/-- The value of a node is accepted where the node was. -/
theorem nodeFrom_val_isSome (h : n.Storable isValidLeafValue decimalDigit depth) :
    (nodeFrom isValidLeafValue depth (n.val decimalDigit)).isSome := by
  induction h with
  | leaf shallow valid => simp [FNode.val, nodeFrom, not_lt.mpr shallow, valid]
  | @children depth cs shallow sorted valid plain nonempty storable ih =>
    by_cases hne : cs = []
    · subst hne
      simp [FNode.val, nodeFrom, not_lt.mpr shallow]
    · rcases val_children hne plain with hval | ⟨m, -, hval, hindices⟩ <;> rw [hval]
      · simp only [nodeFrom, not_lt.mpr shallow, if_false, Option.isSome_map, valEntries_eq]
        refine dictionaryFrom_isSome (fun e he => ?_) fun e he => ?_
        · obtain ⟨e', he', rfl⟩ := List.mem_map.mp he
          exact valid e' he'
        · obtain ⟨e', he', rfl⟩ := List.mem_map.mp he
          exact ih e' he'
      · simp only [nodeFrom, not_lt.mpr shallow, if_false, Option.isSome_map, arrayFrom_eq]
        refine dictionaryFrom_isSome (fun e he => ?_) fun e he => ?_
        · obtain ⟨x, -, rfl⟩ := List.mem_map.mp he
          exact isValidKey_ofIndex x.2
        · obtain ⟨x, hx, rfl⟩ := List.mem_map.mp he
          obtain ⟨i, -, hi⟩ := List.mem_map.mp (List.fst_mem_of_mem_zipIdx hx)
          rw [objectForKey_valEntries] at hi
          cases hget : objectForKey (.ofIndex i) cs with
          | none =>
            obtain ⟨e, he⟩ := List.exists_mem_of_ne_nil cs hne
            have hdeep := (storable e he).shallow
            rw [hget] at hi
            simp [← hi, nodeFrom, not_lt.mpr hdeep]
          | some c =>
            rw [hget] at hi
            rw [← hi]
            exact ih _ (mem_of_objectForKey hget)

/-- Every child comes from an entry of the dictionary. -/
theorem mem_dictionaryFrom {dval : List (Key × Value α)} {cs : List (Key × FNode Key α)}
    (h : dictionaryFrom isValidLeafValue depth dval = some cs) :
    ∀ e ∈ cs, isValidKey e.1 = true ∧ e.2.isEmpty = false ∧
      ∃ v, (e.1, v) ∈ dval ∧ nodeFrom isValidLeafValue depth v = some e.2 := by
  induction dval generalizing cs with
  | nil =>
    cases h
    intro e he
    cases he
  | cons entry rest ih =>
    simp only [dictionaryFrom] at h
    split_ifs at h with hvalid
    split at h
    · rename_i childNode children hn hchildren
      cases h
      have hrest : ∀ e ∈ children, isValidKey e.1 = true ∧ e.2.isEmpty = false ∧
          ∃ v, (e.1, v) ∈ entry :: rest ∧ nodeFrom isValidLeafValue depth v = some e.2 := by
        intro e he
        obtain ⟨hkey, hempty, v, hv, hnode⟩ := ih hchildren e he
        exact ⟨hkey, hempty, v, List.mem_cons_of_mem entry hv, hnode⟩
      intro e he
      split_ifs at he with hempty
      · exact hrest e he
      · cases mem_insertKey he with
        | inl heq =>
          subst heq
          exact ⟨hvalid, Bool.eq_false_iff.mpr hempty, entry.2, List.mem_cons_self .., hn⟩
        | inr he => exact hrest e he
    · cases h

/-- Whatever is accepted becomes a node that can be stored. -/
theorem storable_nodeFrom (hv : v.Proper decimalDigit)
    (h : nodeFrom isValidLeafValue depth v = some n) :
    n.Storable isValidLeafValue decimalDigit depth := by
  have hempty : ∀ {depth : Nat}, depth ≤ kFirebaseMaxObjectDepth →
      (FNode.emptyNode : FNode Key α).Storable isValidLeafValue decimalDigit depth := fun hdepth =>
    .children hdepth sorted_nil (fun e he => by cases he) (fun e he => by cases he)
      (fun e he => by cases he) fun e he => by cases he
  have hchildren : ∀ {depth : Nat} {dval : List (Key × Value α)} {cs : List (Key × FNode Key α)},
      depth ≤ kFirebaseMaxObjectDepth → (FNode.children cs).Canonical →
      (∀ e ∈ dval, e.1.Plain decimalDigit) →
      (∀ e ∈ dval, ∀ n, nodeFrom isValidLeafValue (depth + 1) e.2 = some n →
        n.Storable isValidLeafValue decimalDigit (depth + 1)) →
      dictionaryFrom isValidLeafValue (depth + 1) dval = some cs →
      (FNode.children cs).Storable isValidLeafValue decimalDigit depth := by
    intro depth dval cs hdepth hcanonical hplain hstorable hcs
    have hmem := mem_dictionaryFrom hcs
    cases hcanonical with
    | children sorted nonempty canonical =>
      refine .children hdepth sorted (fun e he => (hmem e he).1) (fun e he => ?_) nonempty
        fun e he => ?_
      · obtain ⟨-, -, v, hv, -⟩ := hmem e he
        exact hplain _ hv
      · obtain ⟨-, -, v, hv, hnode⟩ := hmem e he
        exact hstorable _ hv _ hnode
  have hcanonical := (tree_nodeFrom hv h).1
  induction hv generalizing depth n with
  | null =>
    simp only [nodeFrom] at h
    split_ifs at h with hdepth
    cases h
    exact hempty (not_lt.mp hdepth)
  | leaf value =>
    simp only [nodeFrom] at h
    split_ifs at h with hdepth hvalid
    cases h
    exact .leaf (not_lt.mp hdepth) hvalid
  | dictionary keys plain proper ih =>
    simp only [nodeFrom] at h
    split_ifs at h with hdepth
    obtain ⟨cs, hcs, rfl⟩ := Option.map_eq_some_iff.mp h
    exact hchildren (not_lt.mp hdepth) hcanonical plain
      (fun e he n hn => ih e he hn (tree_nodeFrom (proper e he) hn).1) hcs
  | @array aval short proper ih =>
    simp only [nodeFrom] at h
    split_ifs at h with hdepth
    obtain ⟨cs, hcs, rfl⟩ := Option.map_eq_some_iff.mp h
    rw [arrayFrom_eq] at hcs
    refine hchildren (not_lt.mp hdepth) hcanonical (fun e he => ?_) (fun e he n hn => ?_) hcs
    · obtain ⟨x, hx, rfl⟩ := List.mem_map.mp he
      have hlt := List.snd_lt_of_mem_zipIdx hx
      exact plain_ofIndex (by omega)
    · obtain ⟨x, hx, rfl⟩ := List.mem_map.mp he
      have hmem := List.fst_mem_of_mem_zipIdx hx
      exact ih x.1 hmem hn (tree_nodeFrom (proper x.1 hmem) hn).1

/-- Fields, a list with a gap in it and an empty list. -/
def sampleRecord : Value Nat := .dictionary [(⟨"uid"⟩, .leaf 1),
  (⟨"alterations"⟩, .array [.leaf 2, .null, .leaf 3]), (⟨"dresses"⟩, .array [])]

def sampleNode : FNode Key Nat := (nodeFrom (fun _ => true) 0 sampleRecord).getD .emptyNode

/-- A list with few elements among many gaps comes back as a dictionary. -/
example : ((nodeFrom (fun _ => true) 0 (.array [.leaf 2, .null, .null, .null, .leaf 3])).map
    (FNode.val Char.isDigit)) = some (.dictionary [(.ofIndex 0, .leaf 2), (.ofIndex 4, .leaf 3)]) :=
  rfl

end RoundTrip

end Pincushion.Snapshot
