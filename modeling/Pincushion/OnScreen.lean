import Pincushion.Totals

/-! What the Add and Edit screens store beside what they show. The Add screen
stores the costs of its last calculation; the Edit screen reads its fields again,
and shows whole numbers when it opens. -/
namespace Pincushion.OnScreen
open KeyTree SwiftNumber Structs FirebaseHelpers AlterationScreens Runs App Integrity Totals

/-- What the texts of the Add screen were read as when Calculate was last pressed. -/
def lastCalculated (vc : AddAlterationVC) (es : List AddAlterationVC.Event) :
    Option (ℚ × SwiftInt × ℚ) :=
  accumulate AddAlterationVC.step
    (fun vc e last => match e with
      | .updateTotalAction => some vc.fields.readings
      | _ => last) none vc es

/-- The struct holds the costs of the last calculation, once there is one. -/
def Holds (last : Option (ℚ × SwiftInt × ℚ)) (vc : AddAlterationVC) : Prop :=
  vc.costWasCalculated = true → last = some (vc.myAlterationStruct.actualCost,
    vc.myAlterationStruct.units, vc.myAlterationStruct.secondaryCost)

theorem holds_run {object : AlterationType} {vc : AddAlterationVC}
    {es : List AddAlterationVC.Event}
    (hrun : run AddAlterationVC.step (.viewDidLoad object) es = some vc) :
    Holds (lastCalculated (.viewDidLoad object) es) vc := by
  refine run_invariant_accumulate Holds ?_ ?_ hrun
  · intro last vc e vc' h hstep
    unfold AddAlterationVC.step at hstep
    split at hstep
    · cases hstep
      exact h
    · cases hstep
      exact fun _ => rfl
    · cases hstep
      exact h
    · cases hstep
      exact h
    · cases hstep
  · intro h
    cases h

theorem addOk_run {object : AlterationType} {vc : AddAlterationVC}
    {es : List AddAlterationVC.Event}
    (hrun : run AddAlterationVC.step (.viewDidLoad object) es = some vc) : AddOk vc :=
  run_invariant AddOk (fun _ _ _ => addOk_step) (addOk_viewDidLoad object) hrun

/-- The record holds these costs and their total. -/
def HoldsCosts (r : AlterationStruct) (price : ℚ) (quantity : SwiftInt) (additional : ℚ) : Prop :=
  r.actualCost = price ∧ r.units = quantity ∧ r.secondaryCost = additional ∧
    r.totalCost = price * quantity.val + additional

/-- A confirmed Add stores the numbers on the screen when these are what the texts
were read as at the last calculation, and otherwise not. -/
theorem added_costs_iff {object : AlterationType} {vc : AddAlterationVC}
    {es : List AddAlterationVC.Event}
    (hrun : run AddAlterationVC.step (.viewDidLoad object) es = some vc)
    (hconfirm : vc.presented = some .confirm) {price : ℚ} {quantity : SwiftInt} {additional : ℚ}
    (hparsed : vc.fields.parsed = some (price, quantity, additional))
    (newAlterationKey contractUID : String) :
    ∃ r, AddAlterationVC.makeAlteration newAlterationKey contractUID vc.myAlterationStruct =
        (newAlterationKey, .alteration newAlterationKey r) ∧
      (HoldsCosts r price quantity additional ↔
        lastCalculated (.viewDidLoad object) es = some (price, quantity, additional)) := by
  have hok := addOk_run hrun
  have hcalculated := hok.confirm hconfirm
  have htotal : vc.myAlterationStruct.totalCost = vc.myAlterationStruct.getTotalCost :=
    hok.calculated hcalculated
  refine ⟨_, rfl, ?_⟩
  rw [holds_run hrun hcalculated]
  simp only [HoldsCosts, Option.some.injEq, Prod.mk.injEq, htotal, AlterationStruct.getTotalCost]
  constructor
  · intro h
    exact ⟨h.1, h.2.1, h.2.2.1⟩
  · intro h
    obtain ⟨rfl, rfl, rfl⟩ := h
    exact ⟨rfl, rfl, rfl, rfl⟩

/-- The hem of 20 is calculated, and only then its price typed over. -/
def typedOver : List AddAlterationVC.Event := [
  .updateTotalAction, .edit (.clear .actualPrice), .edit (.change .actualPrice 0 0 "35"),
  .addToContractAction]

theorem added_costs_hem : ∃ vc, run AddAlterationVC.step (.viewDidLoad hem)
      [.edit (.change .actualPrice 0 2 "35"), .updateTotalAction, .addToContractAction] = some vc ∧
    ∃ r, AddAlterationVC.makeAlteration "a" "c" vc.myAlterationStruct = ("a", .alteration "a" r) ∧
      HoldsCosts r 35 1 0 := by
  have hlast : lastCalculated (.viewDidLoad hem)
      [.edit (.change .actualPrice 0 2 "35"), .updateTotalAction, .addToContractAction] =
        some (35, 1, 0) := by
    decide +kernel
  have hshown : (run AddAlterationVC.step (.viewDidLoad hem)
      [.edit (.change .actualPrice 0 2 "35"), .updateTotalAction, .addToContractAction]).map
        (fun vc => (vc.presented, vc.fields.parsed)) =
      some (some .confirm, some (35, 1, 0)) := by
    decide +kernel
  obtain ⟨vc, hrun, hvc⟩ := Option.map_eq_some_iff.mp hshown
  obtain ⟨hconfirm, hparsed⟩ := Prod.mk.inj hvc
  obtain ⟨r, hr, hiff⟩ := added_costs_iff hrun hconfirm hparsed "a" "c"
  exact ⟨vc, hrun, r, hr, hiff.mpr hlast⟩

/-- The screen shows 35 and the record holds 20. -/
theorem not_added_costs_hem : ∃ vc,
    run AddAlterationVC.step (.viewDidLoad hem) typedOver = some vc ∧
    vc.presented = some .confirm ∧ vc.fields.parsed = some (35, 1, 0) ∧
    ∃ r, AddAlterationVC.makeAlteration "a" "c" vc.myAlterationStruct = ("a", .alteration "a" r) ∧
      r.actualCost = 20 ∧ ¬ HoldsCosts r 35 1 0 := by
  have hshown : (run AddAlterationVC.step (.viewDidLoad hem) typedOver).map
      (fun vc => (vc.presented, vc.fields.parsed, vc.myAlterationStruct.actualCost)) =
      some (some .confirm, some (35, 1, 0), 20) := by
    decide +kernel
  obtain ⟨vc, hrun, hvc⟩ := Option.map_eq_some_iff.mp hshown
  simp only [Prod.mk.injEq] at hvc
  obtain ⟨hconfirm, hparsed, hcost⟩ := hvc
  refine ⟨vc, hrun, hconfirm, hparsed, _, rfl, hcost, fun h => ?_⟩
  have hprice : (20 : ℚ) = 35 := hcost.symm.trans h.1
  norm_num at hprice

/-- Open a stored alteration, calculate, and confirm the update. -/
def saveUntouched (r : AlterationStruct) : Option Write :=
  (run EditAlterationVC.step (.viewDidLoad r) [.updateTotalAction, .addToContractAction]).bind
    EditAlterationVC.confirmHandler

/-- The costs come back as the whole numbers that the screen showed. -/
theorem saveUntouched_eq (r : AlterationStruct) : saveUntouched r = some (.alteration r.uid { r with
    actualCost := wholeShown r.actualCost
    secondaryCost := wholeShown r.secondaryCost
    totalCost := wholeShown r.actualCost * r.units.val + wholeShown r.secondaryCost }) := by
  have hactual := floatOfText_formatWhole r.actualCost
  have hunits := SwiftInt.ofText_description r.units
  have hsecondary := floatOfText_formatWhole r.secondaryCost
  simp [saveUntouched, run, EditAlterationVC.step, EditAlterationVC.viewDidLoad,
    EditAlterationVC.updateTotalAction, EditAlterationVC.addToContractAction,
    EditAlterationVC.confirmHandler, EditAlterationVC.getUpdatedFieldValues,
    EditAlterationVC.calculateCost, calculated, CostFields.readings, CostFields.populated,
    AlterationStruct.getTotalCost, updateAlterationFBDB, hactual, hunits, hsecondary]

variable {D : Type*} [DecidableEq D] {s : World D}

/-- Saving a stored alteration untouched writes it back as it was when its two
prices are whole numbers, and changes it otherwise. -/
theorem saveUntouched_iff (h : Reachable step Starts s) {u : String} {r : AlterationStruct}
    (hr : alterationAt s.net.server u = some r) :
    saveUntouched r = some (.alteration u r) ↔ r.actualCost.den = 1 ∧ r.secondaryCost.den = 1 := by
  have htotal := (stored_total_eq h).1 u r hr
  obtain ⟨owner, hintact⟩ := intact_of_reachable h
  obtain ⟨rfl, -⟩ := hintact.owned.record u r (Or.inl hr)
  rw [saveUntouched_eq, ← wholeShown_eq_iff, ← wholeShown_eq_iff]
  constructor
  · intro heq
    have hsame := (Write.alteration.inj (Option.some.inj heq)).2
    exact ⟨congrArg (·.actualCost) hsame, congrArg (·.secondaryCost) hsame⟩
  · intro hwhole
    rw [hwhole.1, hwhole.2, ← htotal]

/-- The run that adds the hem at whatever price is typed. -/
def hemAddedAt (price : String) : List (App.Event Unit) := annCreated ++ [
  .act () (.openAdd hem), .act () (.add (.edit (.change .actualPrice 0 2 price))),
  .act () (.add .updateTotalAction), .act () (.add .addToContractAction),
  .act () (.addConfirmed "a"), .deliver ()]

theorem saveUntouched_whole : ∃ s r, run step justOpened (hemAddedAt "35") = some s ∧
    alterationAt s.net.server "a" = some r ∧ saveUntouched r = some (.alteration "a" r) := by
  have hstored : ((run step justOpened (hemAddedAt "35")).bind fun s =>
      alterationAt s.net.server "a").map (fun r => (r.actualCost, r.secondaryCost)) =
        some (35, 0) := by
    decide +kernel
  obtain ⟨r, hbind, hcosts⟩ := Option.map_eq_some_iff.mp hstored
  obtain ⟨s, hs, hr⟩ := Option.bind_eq_some_iff.mp hbind
  have hreach : Reachable step Starts s := ⟨justOpened, _, starts_justOpened, hs⟩
  obtain ⟨hactual, hsecondary⟩ := Prod.mk.inj hcosts
  exact ⟨s, r, hs, hr, (saveUntouched_iff hreach hr).mpr
    ⟨by rw [hactual]; rfl, by rw [hsecondary]; rfl⟩⟩

/-- A hem of 12.5 comes back as one of 12. -/
theorem not_saveUntouched_fraction : ∃ s r, run step justOpened (hemAddedAt "12.5") = some s ∧
    alterationAt s.net.server "a" = some r ∧ r.actualCost = 25 / 2 ∧
    saveUntouched r ≠ some (.alteration "a" r) := by
  have hstored : ((run step justOpened (hemAddedAt "12.5")).bind fun s =>
      alterationAt s.net.server "a").map (fun r =>
        (r.actualCost, decide (saveUntouched r = some (.alteration "a" r)))) =
          some (25 / 2, false) := by
    decide +kernel
  obtain ⟨r, hbind, hcosts⟩ := Option.map_eq_some_iff.mp hstored
  obtain ⟨s, hs, hr⟩ := Option.bind_eq_some_iff.mp hbind
  obtain ⟨hactual, hsaved⟩ := Prod.mk.inj hcosts
  exact ⟨s, r, hs, hr, hactual, of_decide_eq_false hsaved⟩

end Pincushion.OnScreen
