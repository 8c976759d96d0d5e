import Pincushion.AppRecords
import Pincushion.FieldTexts
import Pincushion.OnScreen

/-! The delegate of the price fields beside the list it is made from. It accepts a
replacement with some listed character, so a mixed string comes in whole, and a
deletion, which has none, is refused. -/
namespace Pincushion.FieldFilter
open SwiftNumber Structs FirebaseHelpers AlterationScreens Literals Runs FieldTexts
open Network App AppRecords Integrity OnScreen

def AllListed (f : CostFields) : Prop := ∀ field, ∀ c ∈ (f.text field).toList, c ∈ listed

def Digits (f : CostFields) : Prop := ∀ field, ∀ c ∈ (f.text field).toList, c ∈ decimalDigits

theorem Digits.allListed {f : CostFields} (h : Digits f) : AllListed f := by
  have hall : ∀ d ∈ decimalDigits, d ∈ listed := of_all rfl
  exact fun field c hc => hall c (h field c hc)

/-- A deletion replaces by the empty string. -/
def DeletionAccepted : FieldEdit → Prop
  | .change _ _ _ string => string = "" → shouldChangeCharactersIn string = true
  | .clear _ => True

/-- The replacement is no deletion, and all or none of its characters are listed. -/
def Unmixed : FieldEdit → Prop
  | .change _ _ _ string =>
    string ≠ "" ∧ ((∀ c ∈ string.toList, c ∈ listed) ∨ ∀ c ∈ string.toList, c ∉ listed)
  | .clear _ => True

/-- What is accepted has listed characters only. -/
def KeepsListed : FieldEdit → Prop
  | .change _ _ _ string =>
    shouldChangeCharactersIn string = true → ∀ c ∈ string.toList, c ∈ listed
  | .clear _ => True

theorem allListed_edit_iff {f : CostFields} (h : AllListed f) (e : FieldEdit) :
    AllListed (f.edit e) ↔ KeepsListed e := by
  cases e with
  | clear cleared =>
    refine iff_of_true (fun field c hc => ?_) trivial
    simp only [CostFields.edit, text_setText] at hc
    split at hc
    · cases hc
    · exact h field c hc
  | change changed location length string =>
    simp only [CostFields.edit, KeepsListed]
    split
    · rename_i haccepted
      simp only [haccepted, forall_const]
      constructor
      · intro hall c hc
        refine hall changed c ?_
        rw [text_setText, if_pos rfl, mem_replaceCharacters]
        exact Or.inr (Or.inl hc)
      · intro hstring field c hc
        rw [text_setText] at hc
        split at hc
        · rcases mem_replaceCharacters.mp hc with hc | hc | hc
          · exact h changed c (List.mem_of_mem_take hc)
          · exact hstring c hc
          · exact h changed c (List.mem_of_mem_drop hc)
        · exact h field c hc
    · rename_i hrefused
      exact iff_of_true h (fun haccepted => absurd haccepted hrefused)

/-- The filter does with an edit what its list says exactly when the edit is unmixed. -/
theorem unmixed_iff {e : FieldEdit} : KeepsListed e ∧ DeletionAccepted e ↔ Unmixed e := by
  cases e with
  | clear cleared => exact iff_of_true ⟨trivial, trivial⟩ trivial
  | change changed location length string =>
    simp only [KeepsListed, DeletionAccepted, Unmixed, shouldChangeCharactersIn_iff]
    constructor
    · rintro ⟨hkeeps, hdeletion⟩
      refine ⟨fun hempty => ?_, ?_⟩
      · obtain ⟨c, hc, -⟩ := hdeletion hempty
        rw [hempty] at hc
        cases hc
      · by_cases hsome : ∃ c ∈ string.toList, c ∈ listed
        · exact Or.inl (hkeeps hsome)
        · exact Or.inr fun c hc hlisted => hsome ⟨c, hc, hlisted⟩
    · rintro ⟨hne, hall | hnone⟩
      · exact ⟨fun _ => hall, fun hempty => absurd hempty hne⟩
      · refine ⟨?_, fun hempty => absurd hempty hne⟩
        rintro ⟨c, hc, hlisted⟩
        exact absurd hlisted (hnone c hc)

/-- What the filter is to do in a session: every text has listed characters only, and
every deletion goes through. -/
structure Filters {σ ε : Type*} (step : σ → ε → Option σ) (fields : σ → CostFields)
    (edit : ε → Option FieldEdit) (s : σ) (es : List ε) : Prop where
  listed : ∀ past m, past <+: es → run step s past = some m → AllListed (fields m)
  deletion : ∀ e ∈ es.filterMap edit, DeletionAccepted e

theorem filters_iff {σ ε : Type*} {step : σ → ε → Option σ} {fields : σ → CostFields}
    {edit : ε → Option FieldEdit}
    (hfields : ∀ s e s', step s e = some s' →
      fields s' = (edit e).elim (fields s) (fields s).edit)
    {s s' : σ} {es : List ε} (h : AllListed (fields s)) (hrun : run step s es = some s') :
    Filters step fields edit s es ↔ ∀ e ∈ es.filterMap edit, Unmixed e := by
  have hstep : ∀ s e s', AllListed (fields s) → step s e = some s' →
      (AllListed (fields s') ↔ ∀ fe ∈ edit e, KeepsListed fe) := by
    intro s e s' hs he
    rw [hfields s e s' he]
    cases edit e with
    | none => exact iff_of_true hs (by simp)
    | some fe => simpa using allListed_edit_iff hs fe
  have hlisted : (∀ past m, past <+: es → run step s past = some m → AllListed (fields m)) ↔
      ∀ e ∈ es.filterMap edit, KeepsListed e := by
    rw [forall_prefix_iff_along (C := fun _ e => ∀ fe ∈ edit e, KeepsListed fe) hstep h hrun,
      along_iff_forall hrun]
    simp only [List.mem_filterMap, forall_exists_index, and_imp]
    exact ⟨fun hall fe e he hfe => hall e he fe hfe, fun hall e he fe hfe => hall fe e he hfe⟩
  constructor
  · intro hfilters e he
    exact unmixed_iff.mp ⟨hlisted.mp hfilters.listed e he, hfilters.deletion e he⟩
  · intro hunmixed
    exact ⟨hlisted.mpr fun e he => (unmixed_iff.mpr (hunmixed e he)).1,
      fun e he => (unmixed_iff.mpr (hunmixed e he)).2⟩

/-- No cost is a discount. -/
def Charged (a : AlterationStruct) : Prop :=
  0 ≤ a.actualCost ∧ 0 ≤ a.units.val ∧ 0 ≤ a.secondaryCost

theorem AllListed.no_minus {f : CostFields} (h : AllListed f) (field : CostField) :
    '-' ∉ (f.text field).toList := fun hminus => absurd (h field _ hminus) (by decide)

/-- Listed characters denote no negative number, and neither is a stand-in. -/
theorem charged_calculated {f : CostFields} (h : AllListed f) (a : AlterationStruct) :
    Charged (calculated f a) := by
  refine ⟨?_, ?_, ?_⟩
  · change 0 ≤ (floatOfText f.actualPriceField).getD (157 / 50)
    cases hq : floatOfText f.actualPriceField with
    | none => norm_num
    | some q => exact floatOfText_nonneg (h.no_minus .actualPrice) hq
  · change 0 ≤ ((SwiftInt.ofText f.quantityField).getD _).val
    cases hi : SwiftInt.ofText f.quantityField with
    | none => decide
    | some i => exact ofText_nonneg (h.no_minus .quantity) hi
  · change 0 ≤ (floatOfText f.additionalCostField).getD (157 / 50)
    cases hq : floatOfText f.additionalCostField with
    | none => norm_num
    | some q => exact floatOfText_nonneg (h.no_minus .additionalCost) hq

theorem digits_formatWhole {q : ℚ} (h : 0 ≤ q) :
    ∀ c ∈ (formatWhole q).toList, c ∈ decimalDigits := by
  intro c hc
  rw [formatWhole, String.toList_ofList, minus, decide_eq_false (not_lt.mpr h)] at hc
  exact mem_decimalDigits_iff.mpr (isDigit_toDigits _ c hc)

theorem digits_description {i : SwiftInt} (h : 0 ≤ i.val) :
    ∀ c ∈ i.description.toList, c ∈ decimalDigits := by
  intro c hc
  rw [SwiftInt.description, String.toList_ofList, minus, decide_eq_false (not_lt.mpr h)] at hc
  exact mem_decimalDigits_iff.mpr (isDigit_toDigits _ c hc)

/-- What is no discount populates the fields with digits. -/
theorem Charged.digits {a : AlterationStruct} (h : Charged a) : Digits (.populated a) := by
  intro field
  cases field with
  | actualPrice => exact digits_formatWhole h.1
  | quantity => exact digits_description h.2.1
  | additionalCost => exact digits_formatWhole h.2.2

/-- What the Add screen would store is no discount. -/
structure AddCharged (vc : AddAlterationVC) : Prop where
  fields : AllListed vc.fields
  calculated : vc.costWasCalculated = true → Charged vc.myAlterationStruct
  confirm : vc.presented = some .confirm → vc.costWasCalculated = true

theorem addCharged_viewDidLoad {object : AlterationType}
    (h : Digits (.populated (.init object "" "" 0))) : AddCharged (.viewDidLoad object) where
  fields := h.allListed
  calculated := fun hcalculated => by cases hcalculated
  confirm := fun hconfirm => by cases hconfirm

/-- Edits that the list allows keep the texts of a screen listed. -/
theorem allListed_of_edit {f : CostFields} {e : Option FieldEdit} (h : AllListed f)
    (he : ∀ fe ∈ e, Unmixed fe) : AllListed (e.elim f f.edit) := by
  cases e with
  | none => exact h
  | some fe => exact (allListed_edit_iff h fe).mpr (unmixed_iff.mpr (he fe rfl)).1

theorem addCharged_step {vc vc' : AddAlterationVC} {e : AddAlterationVC.Event} (h : AddCharged vc)
    (he : ∀ fe ∈ addEdit e, Unmixed fe) (hstep : vc.step e = some vc') : AddCharged vc' := by
  refine ⟨?_, ?_, AddAlterationVC.step_confirm h.confirm hstep⟩
  · rw [add_fields_step hstep]
    exact allListed_of_edit h.fields he
  · rcases AddAlterationVC.step_cases hstep with ⟨hflag, hstruct⟩ | ⟨rfl, rfl⟩
    · rw [hflag, hstruct]
      exact h.calculated
    · exact fun _ => charged_calculated h.fields _

variable {D : Type*}

/-- The screens open on digits, and what is typed or pasted is all of one kind. -/
def EditsUnmixed : App.Event D → Prop
  | .act _ (.openAdd object) => Digits (.populated (.init object "" "" 0))
  | .act _ (.add e) => ∀ fe ∈ addEdit e, Unmixed fe
  | .act _ (.edit e) => ∀ fe ∈ editEdit e, Unmixed fe
  | _ => True

structure AllCharged (s : World D) : Prop where
  record : ∀ u r, s.net.RecordValue u r → Charged r
  loaded : ∀ d, ∀ r ∈ (s.device d).loaded, Charged r
  add : ∀ d vc, (s.device d).add = some vc → AddCharged vc
  edit : ∀ d vc, (s.device d).edit = some vc → AllListed vc.fields

theorem allCharged_start {s : World D} (h : Starts s) : AllCharged s := by
  obtain ⟨hrecord, hscreens⟩ := starts_empty h
  constructor
  · exact fun u r hr => absurd hr (hrecord u r)
  · intro d
    simp [(hscreens d).2.2]
  · intro d
    simp [(hscreens d).1]
  · intro d
    simp [(hscreens d).2.1]

theorem charged_stored {s : World D} {e : App.Event D} {r : AlterationStruct} (h : AllCharged s)
    (hr : Stores s e r) : Charged r := by
  cases hr with
  | added d key vc hadd hpresented =>
    have hvc := h.add d vc hadd
    exact hvc.calculated (hvc.confirm hpresented)
  | edited d vc r hedit hpresented hw =>
    rw [(Write.alteration.inj (EditAlterationVC.confirmHandler_record hw)).2]
    exact charged_calculated (h.edit d vc hedit) vc.myAlterationStruct

variable [DecidableEq D] {s s' : World D} {e : App.Event D}

theorem allCharged_step (h : AllCharged s) (he : EditsUnmixed e) (hstep : Steps s e s') :
    AllCharged s' := by
  constructor
  · intro u r hr
    cases recordValue_step hstep hr with
    | inl hr =>
      exact h.record u r hr
    | inr hr =>
      exact charged_stored h hr
  · intro d r hr
    rcases loaded_step hstep hr with hr | ⟨u, hr⟩
    · exact h.loaded d r hr
    · exact h.record u r hr
  · intro d vc hvc
    rcases add_step hstep hvc with hvc | ⟨object, rfl, rfl⟩ | ⟨a, vc', rfl, hadd, hact⟩
    · exact h.add d vc hvc
    · exact addCharged_viewDidLoad he
    · exact addCharged_step (h.add d vc' hadd) he hact
  · intro d vc hvc
    rcases edit_step hstep hvc with hvc | ⟨row, r, rfl, hr, rfl⟩ | ⟨a, vc', rfl, hedit, hact⟩
    · exact h.edit d vc hvc
    · exact (h.loaded d r hr).digits.allListed
    · rw [edit_fields_step hact]
      exact allListed_of_edit (h.edit d vc' hedit) he

theorem allCharged_run {s₀ : World D} {es : List (App.Event D)} (hs : Starts s₀)
    (hes : ∀ e ∈ es, EditsUnmixed e) (hrun : run step s₀ es = some s) : AllCharged s :=
  run_invariant_along (C := fun _ e => EditsUnmixed e) AllCharged
    (fun _ _ _ h he hstep => allCharged_step h he (steps_of_step hstep)) (allCharged_start hs)
    (along_of_forall fun _ => hes) hrun

/-- In a session on digits the filter does what its list says, for typing, pasting and
deleting, exactly when no edit is a deletion or mixes listed characters with others;
a run of such edits stores no discount. -/
theorem filters_iff_unmixed :
    (∀ object es vc, Digits (.populated (.init object "" "" 0)) →
      run AddAlterationVC.step (.viewDidLoad object) es = some vc →
      (Filters AddAlterationVC.step (·.fields) addEdit (.viewDidLoad object) es ↔
        ∀ e ∈ es.filterMap addEdit, Unmixed e)) ∧
    (∀ a es vc, Digits (.populated a) →
      run EditAlterationVC.step (.viewDidLoad a) es = some vc →
      (Filters EditAlterationVC.step (·.fields) editEdit (.viewDidLoad a) es ↔
        ∀ e ∈ es.filterMap editEdit, Unmixed e)) ∧
    ∀ (s₀ s : World D) (es : List (App.Event D)), Starts s₀ → (∀ e ∈ es, EditsUnmixed e) →
      run step s₀ es = some s →
      ∀ u r, alterationAt s.net.server u = some r → Charged r := by
  refine ⟨fun object es vc hdigits hrun => ?_, fun a es vc hdigits hrun => ?_, ?_⟩
  · have h : AllListed (AddAlterationVC.viewDidLoad object).fields := hdigits.allListed
    refine filters_iff ?_ h hrun
    exact fun _ _ _ => add_fields_step
  · have h : AllListed (EditAlterationVC.viewDidLoad a).fields := hdigits.allListed
    refine filters_iff ?_ h hrun
    exact fun _ _ _ => edit_fields_step
  · intro s₀ s es hs hes hrun u r hr
    exact (allCharged_run hs hes hrun).record u r (Or.inl hr)

theorem unmixed_thirtyFive (location length : Nat) :
    Unmixed (.change .actualPrice location length "35") := by
  refine ⟨by decide, Or.inl ?_⟩
  exact of_all rfl

theorem digits_hem : Digits (.populated (.init hem "" "" 0)) :=
  Charged.digits ⟨by decide, by decide, by decide⟩

def addRetyped : List AddAlterationVC.Event := [
  .edit (.change .actualPrice 0 2 "35"), .updateTotalAction]

theorem filters_hem :
    Filters AddAlterationVC.step (·.fields) addEdit (.viewDidLoad hem) addRetyped ∧
    Filters EditAlterationVC.step (·.fields) editEdit (.viewDidLoad storedHem) retyped ∧
    ∃ s r, run step justOpened (hemAddedAt "35") = some s ∧
      alterationAt s.net.server "a" = some r ∧ Charged r := by
  have hstored : ((run step justOpened (hemAddedAt "35")).bind fun s =>
      alterationAt s.net.server "a").isSome = true := by
    decide +kernel
  obtain ⟨r, hbind⟩ := Option.isSome_iff_exists.mp hstored
  obtain ⟨s, hs, hr⟩ := Option.bind_eq_some_iff.mp hbind
  have hadd : (run AddAlterationVC.step (.viewDidLoad hem) addRetyped).isSome = true := rfl
  obtain ⟨add, hadd⟩ := Option.isSome_iff_exists.mp hadd
  have hedit : (run EditAlterationVC.step (.viewDidLoad storedHem) retyped).isSome = true := rfl
  obtain ⟨edit, hedit⟩ := Option.isSome_iff_exists.mp hedit
  have hes : ∀ e ∈ hemAddedAt "35", EditsUnmixed e := by
    simp [hemAddedAt, annCreated, EditsUnmixed, addEdit, digits_hem, unmixed_thirtyFive]
  have hstoredHem : Digits (.populated storedHem) :=
    Charged.digits ⟨by decide, by decide, by decide⟩
  obtain ⟨hadds, hedits, hruns⟩ := filters_iff_unmixed (D := Unit)
  refine ⟨(hadds hem addRetyped add digits_hem hadd).mpr ?_,
    (hedits storedHem retyped edit hstoredHem hedit).mpr ?_,
    s, r, hs, hr, hruns justOpened s _ starts_justOpened hes hs "a" r hr⟩
  · simp [addRetyped, addEdit, unmixed_thirtyFive]
  · simp [retyped, editEdit, unmixed_thirtyFive]

/-- A pasted minus sign comes in with its digit and is stored; a deletion is refused. -/
theorem not_filters_minus : ∃ s r, run step justOpened (hemAddedAt "-5") = some s ∧
    alterationAt s.net.server "a" = some r ∧ r.actualCost = -5 ∧
    shouldChangeCharactersIn "-5" = true ∧ shouldChangeCharactersIn "" = false ∧
    ¬ Filters AddAlterationVC.step (·.fields) addEdit (.viewDidLoad hem)
      [.edit (.change .actualPrice 1 1 "")] := by
  have hstored : ((run step justOpened (hemAddedAt "-5")).bind fun s =>
      alterationAt s.net.server "a").map (·.actualCost) = some (-5) := by
    decide +kernel
  obtain ⟨r, hbind, hr⟩ := Option.map_eq_some_iff.mp hstored
  obtain ⟨s, hs, hat⟩ := Option.bind_eq_some_iff.mp hbind
  refine ⟨s, r, hs, hat, hr, by decide, by decide, fun h => ?_⟩
  have haccepted := h.deletion (.change .actualPrice 1 1 "") (by simp [addEdit]) rfl
  cases haccepted

end Pincushion.FieldFilter
