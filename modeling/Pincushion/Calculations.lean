import Pincushion.AppRecords
import Pincushion.FieldTexts
import Pincushion.Integrity

/-! Where the stored costs come from. A press of Calculate reads the three texts and
stands in for those it cannot read; what is stored later is what was read. -/
namespace Pincushion.Calculations
open SwiftNumber Structs FirebaseHelpers AlterationScreens Literals Runs FieldTexts
open Network App AppRecords Integrity

instance (f : CostFields) : Decidable (Readable f) := decidable_of_iff _ parsed_isSome_iff

def costs (a : AlterationStruct) : ℚ × SwiftInt × ℚ × ℚ :=
  (a.actualCost, a.units, a.secondaryCost, a.totalCost)

/-- What a press should do to the struct and to the permission to store it: the
texts' numbers go in where all of them are numbers, and else nothing changes. -/
def SetsOrLeaves (f : CostFields) (before after : Bool × AlterationStruct) : Prop :=
  (∀ price quantity additional, f.parsed = some (price, quantity, additional) →
    after.2.actualCost = price ∧ after.2.units = quantity ∧ after.2.secondaryCost = additional) ∧
  (f.parsed = none → costs after.2 = costs before.2 ∧ after.1 = before.1)

/-- The struct has the numbers of the texts already, and the stand-ins where a text
has none. -/
def Standing (f : CostFields) (a : AlterationStruct) : Prop :=
  f.readings = (a.actualCost, a.units, a.secondaryCost) ∧ a.totalCost = a.getTotalCost

/-- A press on texts of the form of their numbers, or one that repeats an earlier. -/
def Harmless (f : CostFields) (costWasCalculated : Bool) (a : AlterationStruct) : Prop :=
  Readable f ∨ costWasCalculated = true ∧ Standing f a

instance (f : CostFields) (a : AlterationStruct) : Decidable (Standing f a) :=
  inferInstanceAs (Decidable (_ ∧ _))

instance (f : CostFields) (b : Bool) (a : AlterationStruct) : Decidable (Harmless f b a) :=
  inferInstanceAs (Decidable (_ ∨ _))

theorem costs_calculated_iff {f : CostFields} {a : AlterationStruct} :
    costs (calculated f a) = costs a ↔ Standing f a := by
  simp only [costs, calculated, Standing, AlterationStruct.getTotalCost, Prod.ext_iff]
  constructor
  · rintro ⟨hprice, hquantity, hadditional, htotal⟩
    rw [hprice, hquantity, hadditional] at htotal
    exact ⟨⟨hprice, hquantity, hadditional⟩, htotal.symm⟩
  · rintro ⟨⟨hprice, hquantity, hadditional⟩, htotal⟩
    rw [hprice, hquantity, hadditional]
    exact ⟨rfl, rfl, rfl, htotal.symm⟩

theorem setsOrLeaves_iff {f : CostFields} {b : Bool} {a : AlterationStruct} :
    SetsOrLeaves f (b, a) (true, calculated f a) ↔ Harmless f b a := by
  rw [SetsOrLeaves, Harmless, ← parsed_isSome_iff, costs_calculated_iff]
  cases h : f.parsed with
  | none => simp [and_comm, eq_comm]
  | some x =>
    refine iff_of_true ⟨fun price quantity additional hx => ?_, by simp⟩ (Or.inl rfl)
    have hreadings := readings_of_parsed (h.trans hx)
    simp only [calculated, hreadings, and_self]

variable {D : Type*}

/-- The texts that a Calculate press or a confirmed save reads. -/
def readBy (s : World D) : App.Event D → Option CostFields
  | .act d (.add .updateTotalAction) => (s.device d).add.map (·.fields)
  | .act d (.edit .updateTotalAction) => (s.device d).edit.map (·.fields)
  | .act d .editConfirmed => (s.device d).edit.map (·.fields)
  | _ => none

/-- The screen on which Calculate is pressed, as the press finds it. -/
def pressed (s : World D) : App.Event D → Option (CostFields × Bool × AlterationStruct)
  | .act d (.add .updateTotalAction) => (s.device d).add.map fun vc =>
      (vc.fields, vc.costWasCalculated, vc.myAlterationStruct)
  | .act d (.edit .updateTotalAction) => (s.device d).edit.map fun vc =>
      (vc.fields, vc.costWasCalculated, vc.myAlterationStruct)
  | _ => none

def PressesHarmlessly (s : World D) (e : App.Event D) : Prop :=
  ∀ x ∈ pressed s e, Harmless x.1 x.2.1 x.2.2

instance (s : World D) (e : App.Event D) : Decidable (PressesHarmlessly s e) :=
  inferInstanceAs (Decidable (∀ x ∈ pressed s e, _))

/-- The costs are what some texts that were read denote. -/
def Denoted (l : List CostFields) (a : AlterationStruct) : Prop :=
  ∃ f ∈ l, f.parsed = some (a.actualCost, a.units, a.secondaryCost)

theorem Denoted.mono {l : List CostFields} {a : AlterationStruct} (h : Denoted l a)
    (more : List CostFields) : Denoted (l ++ more) a := by
  obtain ⟨f, hf, hparsed⟩ := h
  exact ⟨f, List.mem_append_left _ hf, hparsed⟩

/-- A press that is harmless leaves costs that were denoted. -/
theorem denoted_calculated {l : List CostFields} {f : CostFields} {b : Bool} {a : AlterationStruct}
    (h : b = true → Denoted l a) (hf : Harmless f b a) : Denoted (l ++ [f]) (calculated f a) := by
  rcases hf with hf | ⟨hb, hf⟩
  · obtain ⟨x, hx⟩ := Option.isSome_iff_exists.mp (parsed_isSome_iff.mpr hf)
    refine ⟨f, by simp, ?_⟩
    rw [hx, ← readings_of_parsed hx]
    rfl
  · have hcosts := costs_calculated_iff.mpr hf
    simp only [costs, Prod.mk.injEq] at hcosts
    obtain ⟨g, hg, hparsed⟩ := h hb
    refine ⟨g, List.mem_append_left _ hg, ?_⟩
    rw [hparsed, hcosts.1, hcosts.2.1, hcosts.2.2.1]

/-- What a confirmed save writes is read from the texts at that moment. -/
theorem denoted_saved {l : List CostFields} {vc : EditAlterationVC} {r : AlterationStruct}
    (h : vc.confirmHandler = some (.alteration r.uid r)) : Denoted (l ++ [vc.fields]) r := by
  have hreadable : Readable vc.fields := by
    rw [← getUpdatedFieldValues_isSome_iff, ← Option.isSome_map, ← EditAlterationVC.confirmHandler]
    exact Option.isSome_of_mem h
  obtain ⟨x, hx⟩ := Option.isSome_iff_exists.mp (parsed_isSome_iff.mpr hreadable)
  have hr := (Write.alteration.inj (EditAlterationVC.confirmHandler_record h)).2
  refine ⟨vc.fields, by simp, ?_⟩
  rw [hr, hx, ← readings_of_parsed hx]
  rfl

/-- The Add screen stores nothing before a calculation, and then what was denoted. -/
structure AddDenoted (l : List CostFields) (vc : AddAlterationVC) : Prop where
  calculated : vc.costWasCalculated = true → Denoted l vc.myAlterationStruct
  confirm : vc.presented = some .confirm → vc.costWasCalculated = true

theorem AddDenoted.mono {l : List CostFields} {vc : AddAlterationVC} (h : AddDenoted l vc)
    (more : List CostFields) : AddDenoted (l ++ more) vc :=
  ⟨fun hcalculated => (h.calculated hcalculated).mono more, h.confirm⟩

theorem addDenoted_viewDidLoad (l : List CostFields) (object : AlterationType) :
    AddDenoted l (.viewDidLoad object) := by
  constructor
  · intro h
    cases h
  · intro h
    cases h

theorem addDenoted_step {l : List CostFields} {vc vc' : AddAlterationVC} {e : AddAlterationVC.Event}
    (h : AddDenoted l vc) (hstep : vc.step e = some vc')
    (hpress : e = .updateTotalAction → vc.fields ∈ l ∧
      Harmless vc.fields vc.costWasCalculated vc.myAlterationStruct) : AddDenoted l vc' := by
  refine ⟨?_, AddAlterationVC.step_confirm h.confirm hstep⟩
  rcases AddAlterationVC.step_cases hstep with ⟨hflag, hstruct⟩ | ⟨rfl, rfl⟩
  · rw [hflag, hstruct]
    exact h.calculated
  · obtain ⟨hmem, hharmless⟩ := hpress rfl
    intro _
    obtain ⟨f, hf, hparsed⟩ := denoted_calculated h.calculated hharmless
    cases List.mem_append.mp hf with
    | inl hf =>
      exact ⟨f, hf, hparsed⟩
    | inr hf =>
      exact ⟨f, List.mem_singleton.mp hf ▸ hmem, hparsed⟩

/-- Everything that is stored, or would be by a confirmed Add, was denoted. -/
structure Sourced (l : List CostFields) (s : World D) : Prop where
  record : ∀ u r, s.net.RecordValue u r → Denoted l r
  add : ∀ d vc, (s.device d).add = some vc → AddDenoted l vc

theorem sourced_start {s : World D} (h : Starts s) : Sourced [] s := by
  obtain ⟨hrecord, hscreen⟩ := starts_empty h
  constructor
  · intro u r hr
    exact absurd hr (hrecord u r)
  · intro d vc hvc
    rw [(hscreen d).1] at hvc
    cases hvc

theorem denoted_stored {l : List CostFields} {s : World D} {e : App.Event D} {r : AlterationStruct}
    (h : Sourced l s) (hr : Stores s e r) : Denoted (l ++ (readBy s e).toList) r := by
  cases hr with
  | added d key vc hadd hpresented =>
    have hvc := h.add d vc hadd
    obtain ⟨f, hf, hparsed⟩ := hvc.calculated (hvc.confirm hpresented)
    exact ⟨f, List.mem_append_left _ hf, hparsed⟩
  | edited d vc r hedit hpresented hw =>
    have hread : readBy s (.act d .editConfirmed) = some vc.fields := by
      simp only [readBy, hedit, Option.map_some]
    rw [hread]
    exact denoted_saved hw

variable [DecidableEq D] {l : List CostFields} {s s' : World D} {e : App.Event D}

theorem sourced_step (h : Sourced l s) (hharmless : PressesHarmlessly s e)
    (hstep : Steps s e s') : Sourced (l ++ (readBy s e).toList) s' := by
  constructor
  · intro u r hr
    cases recordValue_step hstep hr with
    | inl hr =>
      exact (h.record u r hr).mono _
    | inr hr =>
      exact denoted_stored h hr
  · intro d vc hvc
    rcases add_step hstep hvc with hvc | ⟨object, rfl, rfl⟩ | ⟨a, vc', rfl, hadd, hact⟩
    · exact (h.add d vc hvc).mono _
    · exact addDenoted_viewDidLoad _ object
    · refine addDenoted_step ((h.add d vc' hadd).mono _) hact ?_
      rintro rfl
      have hread : readBy s (.act d (.add .updateTotalAction)) = some vc'.fields := by
        simp only [readBy, hadd, Option.map_some]
      have hpressed : pressed s (.act d (.add .updateTotalAction)) =
          some (vc'.fields, vc'.costWasCalculated, vc'.myAlterationStruct) := by
        simp only [pressed, hadd, Option.map_some]
      rw [hread]
      exact ⟨by simp, hharmless _ hpressed⟩

/-- The texts that were read in a run, by Calculate or by a save. -/
def read (s : World D) (es : List (App.Event D)) : List CostFields :=
  accumulate step (fun s e l => l ++ (readBy s e).toList) [] s es

theorem sourced_run {s₀ : World D} {es : List (App.Event D)} (hs : Starts s₀)
    (hharmless : Along step PressesHarmlessly s₀ es) (hrun : run step s₀ es = some s) :
    Sourced (read s₀ es) s := by
  refine run_invariant_alongWith (C := fun _ => PressesHarmlessly) Sourced ?_ (sourced_start hs) ?_
    hrun
  · exact fun l s e s' h hC hstep => sourced_step h hC (steps_of_step hstep)
  · exact (along_iff_alongWith (fun _ _ => True) (fun _ _ _ _ _ _ _ => trivial)
      (fun _ _ _ _ _ _ => Iff.rfl) trivial hrun).mp hharmless

/-- A cleared quantity is calculated as 314, and so it is stored. -/
def clearedQuantity : List (App.Event Unit) := annCreated ++ [
  .act () (.openAdd hem), .act () (.add (.edit (.clear .quantity))),
  .act () (.add .updateTotalAction), .act () (.add .addToContractAction),
  .act () (.addConfirmed "a"), .deliver ()]

end Pincushion.Calculations
