import Pincushion.RecordFormat
import Pincushion.FirebaseHelpers

/-! The writes of the application as the nodes they become. Whatever is written, decoding the
value of a node gives what decoding the leaves of the record gives. -/
namespace Pincushion.FirebaseHelpers
open KeyTree SwiftNumber Structs Snapshot

/-- The value that is set. -/
def Write.box : Write → Data
  | .specialist _ s => s.box
  | .bride _ b => b.box
  | .measurement _ m => m.box
  | .dress _ d => d.box
  | .contract _ c => c.box
  | .alteration _ a => a.box
  | .list _ uids => boxStrings uids

def Write.keys (w : Write) : List Key := w.path.map Key.mk

/-- The lists of uids in what is set. -/
def Write.lists : Write → List (List String)
  | .specialist _ s => [s.brides, s.contracts]
  | .bride _ b => [b.measurements, b.dresses]
  | .measurement .. | .dress .. | .alteration .. => []
  | .contract _ c => [c.alterations]
  | .list _ uids => [uids]

/-- An array has an integer number of elements. -/
def Write.Short (w : Write) : Prop := ∀ l ∈ w.lists, l.length < 2 ^ 63

instance (w : Write) : Decidable w.Short := inferInstanceAs (Decidable (∀ l ∈ w.lists, _))

theorem Write.tree_box (w : Write) : w.box.tree = expand w.value := by
  cases w with
  | specialist uid s => exact s.tree_box
  | bride uid b => exact b.tree_box
  | measurement uid m => exact m.tree_box
  | dress uid d => exact d.tree_box
  | contract uid c => exact c.tree_box
  | alteration uid a => exact a.tree_box
  | list target uids => exact tree_boxStrings uids

/-- Leaves lie in the fields of records only. -/
def Flat (db : Node) : Prop :=
  ∀ q a, db q = some a → ∃ c k f, q = [c, k, f] ∧ Letters f ∧ a.Short

theorem flat_empty : Flat KeyTree.empty := fun q a h => by cases h

/-- A field has one leaf at most. -/
def Field (n : Node) : Prop := ∀ q a, n q = some a → q = [] ∧ a.Short

theorem field_leaf {a : Leaf} (ha : a.Short) : Field (leaf a) := by
  intro q b h
  cases q with
  | nil =>
    cases h
    exact ⟨rfl, ha⟩
  | cons k q => cases h

@[simp] theorem field_encodeString (s : String) : Field (encodeString s) :=
  field_leaf (a := .string s) trivial

@[simp] theorem field_number (x : SwiftFloat) : Field (leaf (.number x)) :=
  field_leaf (a := .number x) trivial

@[simp] theorem field_encodeFloat (q : ℚ) : Field (encodeFloat q) := field_number _

@[simp] theorem field_encodeInt (i : SwiftInt) : Field (encodeInt i) := field_number _

theorem field_encodeStrings {l : List String} (h : l.length < 2 ^ 63) : Field (encodeStrings l) := by
  cases l with
  | nil => exact fun q a hq => by cases hq
  | cons head tail => exact field_leaf (a := .strings head tail) (Nat.lt_of_succ_lt h)

theorem fields_keyed {fields : List (String × Node)}
    (h : ∀ f ∈ fields, Letters f.1 ∧ Field f.2) : Fields (keyed fields) := by
  intro q a hq
  cases q with
  | nil => cases hq
  | cons k q =>
    have hlookup : ((fields.lookup k).getD KeyTree.empty) q = some a := by
      rw [← sub_keyed]
      exact hq
    cases hget : fields.lookup k with
    | none =>
      rw [hget] at hlookup
      cases hlookup
    | some n =>
      rw [hget] at hlookup
      obtain ⟨l₁, l₂, hfields, -⟩ := List.lookup_eq_some_iff.mp hget
      obtain ⟨hletters, hfield⟩ := h (k, n) (by simp [hfields])
      obtain ⟨rfl, ha⟩ := hfield q a hlookup
      exact ⟨k, rfl, hletters, ha⟩

/-- A write puts leaves in the fields of one record. -/
theorem Write.leaf_path {w : Write} {r : List String} {a : Leaf} (hw : w.Short)
    (h : w.value r = some a) : ∃ c k f, w.path ++ r = [c, k, f] ∧ Letters f ∧ a.Short := by
  have hrecord : ∀ {t : Node} (c k : String), Fields t → t r = some a →
      ∃ c' k' f, [c, k] ++ r = [c', k', f] ∧ Letters f ∧ a.Short := by
    intro t c k ht hr
    obtain ⟨f, rfl, hf⟩ := ht r a hr
    exact ⟨c, k, f, rfl, hf⟩
  cases w with
  | specialist uid s =>
    simp only [Short, lists, List.forall_mem_cons] at hw
    refine hrecord _ uid (fields_keyed ?_) h
    simp [Letters, field_encodeStrings hw.1, field_encodeStrings hw.2.1]
  | bride uid b =>
    simp only [Short, lists, List.forall_mem_cons] at hw
    refine hrecord _ uid (fields_keyed ?_) h
    simp [Letters, field_encodeStrings hw.1, field_encodeStrings hw.2.1]
  | measurement uid m =>
    refine hrecord _ uid (fields_keyed ?_) h
    simp [Letters]
  | dress uid d =>
    refine hrecord _ uid (fields_keyed ?_) h
    simp [Letters]
  | contract uid c =>
    simp only [Short, lists, List.forall_mem_cons] at hw
    refine hrecord _ uid (fields_keyed ?_) h
    simp [Letters, field_encodeStrings hw.1]
  | alteration uid a =>
    refine hrecord _ uid (fields_keyed ?_) h
    simp [Letters]
  | list target uids =>
    simp only [Short, lists, List.forall_mem_cons] at hw
    obtain ⟨rfl, ha⟩ := field_encodeStrings hw.1 r a h
    cases target with
    | alterations c => exact ⟨"contracts", c, "alterations", rfl, by decide, ha⟩
    | measurements b => exact ⟨"brides", b, "measurements", rfl, by decide, ha⟩
    | brides s => exact ⟨"specialists", s, "brides", rfl, by decide, ha⟩

theorem flat_apply {db : Node} {w : Write} (h : Flat db) (hw : w.Short) : Flat (w.apply db) := by
  intro q a hq
  rw [Write.apply, Tree.setValue] at hq
  split_ifs at hq with hpath habove
  · obtain ⟨r, rfl⟩ := hpath
    rw [List.drop_left] at hq
    exact w.leaf_path hw hq
  · exact h q a hq

theorem flat_foldl {db : Node} {ws : List Write} (h : Flat db) (hws : ∀ w ∈ ws, w.Short) :
    Flat (ws.foldl (fun db w => w.apply db) db) := by
  induction ws generalizing db with
  | nil => exact h
  | cons w ws ih =>
    exact ih (flat_apply h (hws w (List.mem_cons_self ..))) fun w' hw' =>
      hws w' (List.mem_cons_of_mem w hw')

theorem Write.length_path (w : Write) : w.path.length ≤ 3 := by
  cases w with
  | list target uids => cases target <;> exact Nat.le_refl 3
  | _ => exact Nat.le_succ 2

/-- No leaf lies above what is written. -/
theorem Flat.clearAbove {db : Node} (h : Flat db) (w : Write) : db.ClearAbove w.path := by
  intro q hq hne
  cases hleaf : db q with
  | none => rfl
  | some a =>
    obtain ⟨c, k, f, rfl, -⟩ := h q a hleaf
    exact absurd (hq.eq_of_length (Nat.le_antisymm hq.length_le w.length_path)) hne

/-- Below a record there are its fields. -/
theorem Flat.fields {db : Node} (h : Flat db) (c k : String) : Fields (db.sub [c, k]) := by
  intro q a hq
  obtain ⟨c', k', f, hpath, hf⟩ := h _ a hq
  cases hpath
  exact ⟨f, rfl, hf⟩

/-- The nodes of the database have the leaves that the records have. -/
structure Stored (n : FNode Key Atom) (db : Node) : Prop where
  canonical : n.Canonical
  tree : n.tree = expand db

theorem stored_empty : Stored .emptyNode KeyTree.empty :=
  ⟨FNode.canonical_emptyNode, FNode.tree_emptyNode.trans expand_empty.symm⟩

section Proper
variable {decimalDigit : Char → Bool}

@[simp] theorem proper_boxString (s : String) : (boxString s).Proper decimalDigit := .leaf _

@[simp] theorem proper_boxFloat (x : SwiftFloat) : (boxFloat x).Proper decimalDigit := .leaf _

@[simp] theorem proper_boxDate (date : Date) : (boxDate date).Proper decimalDigit := .leaf _

@[simp] theorem proper_boxInt (i : SwiftInt) : (boxInt i).Proper decimalDigit := .leaf _

theorem proper_boxStrings {l : List String} (h : l.length < 2 ^ 63) :
    (boxStrings l).Proper decimalDigit := by
  refine .array ?_ fun v hv => ?_
  · rw [List.length_map]
    omega
  · obtain ⟨s, -, rfl⟩ := List.mem_map.mp hv
    exact proper_boxString s

theorem proper_dictionary (hdigit : AsciiDigits decimalDigit) {dval : List (Key × Data)}
    (hkeys : (dval.map Prod.fst).Nodup)
    (h : ∀ e ∈ dval, Letters e.1.name ∧ e.2.Proper decimalDigit) :
    (Value.dictionary dval).Proper decimalDigit := by
  refine .dictionary hkeys (fun e he i hi => ?_) fun e he => (h e he).2
  rw [keyAsInt_letters hdigit (h e he).1] at hi
  cases hi

theorem Write.proper_box (hdigit : AsciiDigits decimalDigit) {w : Write} (hw : w.Short) :
    w.box.Proper decimalDigit := by
  cases w with
  | specialist uid s =>
    simp only [Short, lists, List.forall_mem_cons] at hw
    refine proper_dictionary hdigit (by simp) ?_
    simp [Letters, proper_boxStrings hw.1, proper_boxStrings hw.2.1]
  | bride uid b =>
    simp only [Short, lists, List.forall_mem_cons] at hw
    refine proper_dictionary hdigit (by simp) ?_
    simp [Letters, proper_boxStrings hw.1, proper_boxStrings hw.2.1]
  | measurement uid m => exact proper_dictionary hdigit (by simp) (by simp [Letters])
  | dress uid d => exact proper_dictionary hdigit (by simp) (by simp [Letters])
  | contract uid c =>
    simp only [Short, lists, List.forall_mem_cons] at hw
    refine proper_dictionary hdigit (by simp) ?_
    simp [Letters, proper_boxStrings hw.1]
  | alteration uid a => exact proper_dictionary hdigit (by simp) (by simp [Letters])
  | list target uids =>
    simp only [Short, lists, List.forall_mem_cons] at hw
    exact proper_boxStrings hw.1

end Proper

section Records
variable {isValidLeafValue : Atom → Bool} {decimalDigit : Char → Bool} {n v : FNode Key Atom}
  {db : Node} {w : Write}

/-- What a write does to the leaves of the nodes is what it does to the records. -/
theorem Write.patch_expand (hdigit : AsciiDigits decimalDigit) (hflat : Flat db) (hw : w.Short)
    (hnode : nodeFrom isValidLeafValue 0 w.box = some v) :
    (expand db).patch (FNode.toPatch w.keys v) = expand (w.apply db) := by
  have htree := (tree_nodeFrom (w.proper_box hdigit hw) hnode).2
  have hclear := hflat.clearAbove w
  rw [patch_eq_setValue (Or.inr (clearAbove_expand hclear)), Write.apply, expand_setValue hclear,
    ← w.tree_box, ← htree]
  rfl

theorem Stored.updateChild (hdigit : AsciiDigits decimalDigit) (h : Stored n db) (hflat : Flat db)
    (hw : w.Short) (hnode : nodeFrom isValidLeafValue 0 w.box = some v) :
    Stored (n.updateChild w.keys v) (w.apply db) := by
  have hcanonical := (tree_nodeFrom (w.proper_box hdigit hw) hnode).1
  refine ⟨h.canonical.updateChild _ hcanonical, ?_⟩
  rw [FNode.tree_updateChild, h.tree, w.patch_expand hdigit hflat hw hnode]

/-- Decoding the value gives what decoding the leaves gives, whichever record is asked for. -/
structure Decodes (v : Data) (t : Node) : Prop where
  specialist : Specialist.unbox v = Specialist.decode t
  bride : Bride.unbox v = Bride.decode t
  measurement : Measurement.unbox v = Measurement.decode t
  dress : Dress.unbox v = Dress.decode t
  contract : Contract.unbox v = Contract.decode t
  alteration : AlterationStruct.unbox v = AlterationStruct.decode t

theorem Flat.expand_sub (h : Flat db) (c k : String) :
    (expand db).sub [⟨c⟩, ⟨k⟩] = expand (db.sub [c, k]) := by
  refine Structs.expand_sub (p := [c, k]) fun q hq hne => ?_
  cases hleaf : db q with
  | none => rfl
  | some a =>
    obtain ⟨c', k', f, rfl, -⟩ := h q a hleaf
    exact absurd hq.length_le (by simp)

/-- What is stored is read as the records that are there. -/
theorem Stored.decodes (hdigit : AsciiDigits decimalDigit) {t : Node} (h : Stored n t)
    (ht : Fields t) : Decodes (n.val decimalDigit) t := by
  have hreads := ht.reads_val hdigit h.canonical h.tree
  exact ⟨hreads.specialist, hreads.bride, hreads.measurement, hreads.dress, hreads.contract,
    hreads.alterationStruct⟩

end Records

end Pincushion.FirebaseHelpers
