import Pincushion.AlterationScreens
import Pincushion.Literals
import Pincushion.Runs

/-! The texts that the edits of a number field leave, and the save of the Edit
screen, which forces what they are read as. -/
namespace Pincushion.FieldTexts
open SwiftNumber Structs FirebaseHelpers AlterationScreens Literals Runs

/-- The characters that the delegate lists. -/
def listed : List Char := "0123456789.".toList

theorem shouldChangeCharactersIn_iff {string : String} :
    shouldChangeCharactersIn string = true ↔ ∃ c ∈ string.toList, c ∈ listed :=
  List.any_eq_true.trans (exists_congr fun _ => and_congr_right fun _ => decide_eq_true_iff)

/-- All three texts have the form of their number. -/
structure Readable (f : CostFields) : Prop where
  price : FloatText f.actualPriceField
  quantity : IntText f.quantityField
  additional : FloatText f.additionalCostField

theorem parsed_isSome_iff {f : CostFields} : f.parsed.isSome ↔ Readable f := by
  have hprice : _ ↔ FloatText f.actualPriceField := floatOfText_isSome_iff
  have hquantity : _ ↔ IntText f.quantityField := ofText_isSome_iff
  have hadditional : _ ↔ FloatText f.additionalCostField := floatOfText_isSome_iff
  constructor
  · intro h
    obtain ⟨x, hx⟩ := Option.isSome_iff_exists.mp h
    simp only [CostFields.parsed, Option.bind_eq_bind, Option.bind_eq_some_iff] at hx
    obtain ⟨price, hp, quantity, hq, additional, ha, -⟩ := hx
    exact ⟨hprice.mp (Option.isSome_of_mem hp), hquantity.mp (Option.isSome_of_mem hq),
      hadditional.mp (Option.isSome_of_mem ha)⟩
  · intro h
    obtain ⟨price, hp⟩ := Option.isSome_iff_exists.mp (hprice.mpr h.price)
    obtain ⟨quantity, hq⟩ := Option.isSome_iff_exists.mp (hquantity.mpr h.quantity)
    obtain ⟨additional, ha⟩ := Option.isSome_iff_exists.mp (hadditional.mpr h.additional)
    simp [CostFields.parsed, hp, hq, ha]

theorem readings_of_parsed {f : CostFields} {x : ℚ × SwiftInt × ℚ} (h : f.parsed = some x) :
    f.readings = x := by
  simp only [CostFields.parsed, Option.bind_eq_bind, Option.bind_eq_some_iff] at h
  obtain ⟨price, hprice, quantity, hquantity, additional, hadditional, hx⟩ := h
  cases hx
  simp only [CostFields.readings, hprice, hquantity, hadditional, Option.getD_some]

/-- The texts that the screens open with can be read. -/
theorem readable_populated (a : AlterationStruct) : Readable (.populated a) where
  price := by
    rw [← floatOfText_isSome_iff]
    simp only [CostFields.populated, floatOfText_formatWhole, Option.isSome_some]
  quantity := by
    rw [← ofText_isSome_iff]
    simp only [CostFields.populated, SwiftInt.ofText_description, Option.isSome_some]
  additional := by
    rw [← floatOfText_isSome_iff]
    simp only [CostFields.populated, floatOfText_formatWhole, Option.isSome_some]

/-- The forced parses trap on the texts that the tolerant ones stand in for. -/
theorem getUpdatedFieldValues_isSome_iff {vc : EditAlterationVC} :
    vc.getUpdatedFieldValues.isSome ↔ Readable vc.fields := by
  rw [← parsed_isSome_iff]
  simp only [EditAlterationVC.getUpdatedFieldValues, EditAlterationVC.calculateCost,
    CostFields.parsed, Option.bind_eq_bind]
  cases floatOfText vc.fields.actualPriceField with
  | none => rfl
  | some price =>
    cases SwiftInt.ofText vc.fields.quantityField with
    | none => rfl
    | some quantity =>
      cases floatOfText vc.fields.additionalCostField with
      | none => rfl
      | some additional => rfl

def addEdit : AddAlterationVC.Event → Option FieldEdit
  | .edit e => some e
  | _ => none

def editEdit : EditAlterationVC.Event → Option FieldEdit
  | .edit e => some e
  | _ => none

/-- Nothing but the edits of its number fields changes the texts of a screen. -/
theorem add_fields_step {vc vc' : AddAlterationVC} {e : AddAlterationVC.Event}
    (h : vc.step e = some vc') : vc'.fields = (addEdit e).elim vc.fields vc.fields.edit := by
  unfold AddAlterationVC.step at h
  split at h <;> cases h <;> rfl

theorem edit_fields_step {vc vc' : EditAlterationVC} {e : EditAlterationVC.Event}
    (h : vc.step e = some vc') : vc'.fields = (editEdit e).elim vc.fields vc.fields.edit := by
  unfold EditAlterationVC.step at h
  split at h <;> cases h <;> rfl

/-- The texts that the edits of a session leave. -/
def textsAfter (a : AlterationStruct) (es : List EditAlterationVC.Event) : CostFields :=
  (es.filterMap editEdit).foldl CostFields.edit (.populated a)

theorem fields_run {vc vc' : EditAlterationVC} {es : List EditAlterationVC.Event}
    (hrun : run EditAlterationVC.step vc es = some vc') :
    vc'.fields = (es.filterMap editEdit).foldl CostFields.edit vc.fields := by
  induction es generalizing vc with
  | nil => rw [run_nil_eq.mp hrun, List.filterMap_nil, List.foldl_nil]
  | cons e es ih =>
    obtain ⟨m, he, hes⟩ := run_cons_eq.mp hrun
    rw [ih hes, edit_fields_step he, List.filterMap_cons]
    cases editEdit e <;> rfl

/-- A text of a session: as it was populated, or cleared, or with a character that
the delegate lists. -/
def Typed (populated text : String) : Prop :=
  text = populated ∨ text = "" ∨ ∃ c ∈ text.toList, c ∈ listed

theorem mem_replaceCharacters {text string : String} {location length : Nat} {c : Char} :
    c ∈ (replaceCharacters text location length string).toList ↔
      c ∈ text.toList.take location ∨ c ∈ string.toList ∨
        c ∈ text.toList.drop (location + length) := by
  simp [replaceCharacters]

theorem text_setText (f : CostFields) (text : String) (field field' : CostField) :
    (f.setText text field).text field' = if field' = field then text else f.text field' := by
  cases field <;> cases field' <;> rfl

theorem typed_edit {f : CostFields} {populated : CostField → String}
    (h : ∀ field, Typed (populated field) (f.text field)) (e : FieldEdit) (field : CostField) :
    Typed (populated field) ((f.edit e).text field) := by
  cases e with
  | clear cleared =>
    simp only [CostFields.edit, text_setText]
    split
    · exact Or.inr (Or.inl rfl)
    · exact h field
  | change changed location length string =>
    simp only [CostFields.edit]
    split
    · rename_i haccepted
      rw [text_setText]
      split
      · obtain ⟨c, hc, hlisted⟩ := shouldChangeCharactersIn_iff.mp haccepted
        exact Or.inr (Or.inr ⟨c, mem_replaceCharacters.mpr (Or.inr (Or.inl hc)), hlisted⟩)
      · exact h field
    · exact h field

theorem typed_edits {f : CostFields} {populated : CostField → String}
    (h : ∀ field, Typed (populated field) (f.text field)) (es : List FieldEdit)
    (field : CostField) : Typed (populated field) ((es.foldl CostFields.edit f).text field) := by
  induction es generalizing f with
  | nil => exact h field
  | cons e es ih => exact ih (typed_edit h e)

theorem mem_sign {cs : List Char} {c : Char} (hc : c ∈ cs) (hminus : c ≠ '-') (hplus : c ≠ '+') :
    c ∈ (sign cs).2 := by
  rcases sign_cases cs with ⟨ds, rfl, hsign⟩ | ⟨ds, rfl, hsign⟩ | ⟨-, -, hsign⟩
  · rw [hsign]
    exact (List.mem_cons.mp hc).resolve_left hminus
  · rw [hsign]
    exact (List.mem_cons.mp hc).resolve_left hplus
  · rwa [hsign]

/-- A text with a listed character is no word for an infinity or for no number. -/
theorem not_word_of_listed {cs : List Char} (h : ∃ c ∈ cs, c ∈ listed) :
    (sign cs).2.map Char.toLower ∉ words := by
  obtain ⟨c, hc, hlisted⟩ := h
  have hsigns : ∀ d ∈ listed, d ≠ '-' ∧ d ≠ '+' := of_all rfl
  have hlower : ∀ d ∈ listed, ∀ w ∈ words, d.toLower ∉ w := of_all rfl
  intro hword
  have hmem := mem_sign hc (hsigns c hlisted).1 (hsigns c hlisted).2
  exact hlower c hlisted _ hword (List.mem_map_of_mem hmem)

theorem exists_digit_formatWhole (q : ℚ) : ∃ c ∈ (formatWhole q).toList, c ∈ listed := by
  have hne := Nat.toDigits_ne_nil (n := (roundHalfEven |q|).natAbs) (b := 10)
  obtain ⟨c, hc⟩ := List.exists_mem_of_ne_nil _ hne
  have hdigit := mem_decimalDigits_iff.mpr (isDigit_toDigits _ c hc)
  have hall : ∀ d ∈ decimalDigits, d ∈ listed := of_all rfl
  refine ⟨c, ?_, hall c hdigit⟩
  rw [formatWhole, String.toList_ofList]
  exact List.mem_append_right _ hc

/-- In a session no price text is read as an infinity or as no number: it is read
as a finite number or not at all. -/
theorem ofText_of_typed {q : ℚ} {text : String} (h : Typed (formatWhole q) text) :
    SwiftFloat.ofText text = (floatOfText text).map .finite := by
  have hword : (sign text.toList).2.map Char.toLower ∉ words := by
    rcases h with rfl | rfl | h
    · exact not_word_of_listed (exists_digit_formatWhole q)
    · decide
    · exact not_word_of_listed h
  simp only [floatOfText, ofText_of_not_word hword]
  cases magnitude (sign text.toList).2 <;> rfl

theorem ofText_run {a : AlterationStruct} {es : List EditAlterationVC.Event}
    {vc : EditAlterationVC} (hrun : run EditAlterationVC.step (.viewDidLoad a) es = some vc) :
    SwiftFloat.ofText vc.fields.actualPriceField =
        (floatOfText vc.fields.actualPriceField).map .finite ∧
      SwiftFloat.ofText vc.fields.additionalCostField =
        (floatOfText vc.fields.additionalCostField).map .finite := by
  have htyped := typed_edits (f := .populated a) (fun field => Or.inl rfl)
    (es.filterMap editEdit)
  rw [fields_run hrun]
  exact ⟨ofText_of_typed (htyped .actualPrice), ofText_of_typed (htyped .additionalCost)⟩

/-- A stored hem of 20. -/
def storedHem : AlterationStruct where
  name := "Hem"
  minCost := 20
  maxCost := 20
  actualCost := 20
  totalCost := 20
  costDetails := "per layer"
  costUnit := "hem"
  units := 1
  secondaryCost := 0
  secondaryCostDetails := ""
  uid := "a"
  contractUID := "c"
  status := 0

def retyped : List EditAlterationVC.Event := [
  .edit (.change .actualPrice 0 2 "35"), .updateTotalAction, .addToContractAction]

/-- A second point is accepted too. -/
def twoPoints : List EditAlterationVC.Event := [
  .edit (.change .actualPrice 2 0 "."), .edit (.change .actualPrice 3 0 "."),
  .updateTotalAction, .addToContractAction]

end Pincushion.FieldTexts
