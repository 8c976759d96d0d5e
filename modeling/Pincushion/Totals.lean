import Pincushion.AppRecords
import Pincushion.Integrity
import Pincushion.ReviewContract

/-! The total that is stored with an alteration is the one its costs give. -/
namespace Pincushion.Totals
open KeyTree SwiftNumber Structs Singletons FirebaseHelpers AlterationScreens CreateContract
open Network Runs App AppRecords Integrity
open ReviewContract (cellForRowAt postAlteration getAlterationsTotalFloat
  getAlterationsTotalFloat_eq_sum)
variable {D : Type*}

def Consistent (a : AlterationStruct) : Prop := a.totalCost = a.getTotalCost

/-- What the Add screen would store is consistent from the first calculation on,
and it offers to store nothing before. -/
structure AddOk (vc : AddAlterationVC) : Prop where
  calculated : vc.costWasCalculated = true → Consistent vc.myAlterationStruct
  confirm : vc.presented = some .confirm → vc.costWasCalculated = true

theorem addOk_viewDidLoad (object : AlterationType) : AddOk (.viewDidLoad object) := by
  constructor
  · intro h
    cases h
  · intro h
    cases h

theorem addOk_step {vc vc' : AddAlterationVC} {e : AddAlterationVC.Event} (h : AddOk vc)
    (hstep : vc.step e = some vc') : AddOk vc' := by
  refine ⟨?_, AddAlterationVC.step_confirm h.confirm hstep⟩
  rcases AddAlterationVC.step_cases hstep with ⟨hflag, hstruct⟩ | ⟨rfl, rfl⟩
  · rw [hflag, hstruct]
    exact h.calculated
  · exact fun _ => rfl

structure DeviceOk (v : Device) : Prop where
  loaded : ∀ r ∈ v.loaded, Consistent r
  add : ∀ vc, v.add = some vc → AddOk vc

structure TotalsOk (s : World D) : Prop where
  record : ∀ u r, s.net.RecordValue u r → Consistent r
  device : ∀ d, DeviceOk (s.device d)

theorem totalsOk_start {s : World D} (h : Starts s) : TotalsOk s := by
  obtain ⟨hrecord, hscreens⟩ := starts_empty h
  constructor
  · intro u r hr
    exact absurd hr (hrecord u r)
  · intro d
    obtain ⟨hadd, -, hloaded⟩ := hscreens d
    exact ⟨by simp [hloaded], by simp [hadd]⟩

theorem consistent_stored {s : World D} {e : App.Event D} {r : AlterationStruct} (h : TotalsOk s)
    (hr : Stores s e r) : Consistent r := by
  cases hr with
  | added d key vc hadd hpresented =>
    have hok := (h.device d).add vc hadd
    exact hok.calculated (hok.confirm hpresented)
  | edited d vc r hedit hpresented hw =>
    obtain ⟨r', hr', -, -, htotal⟩ := EditAlterationVC.confirmHandler_eq hw
    rw [(Write.alteration.inj hr').2]
    exact htotal

variable [DecidableEq D] {s s' : World D} {e : App.Event D}

theorem totalsOk_step (h : TotalsOk s) (hstep : Steps s e s') : TotalsOk s' := by
  constructor
  · intro u r hr
    cases recordValue_step hstep hr with
    | inl hr =>
      exact h.record u r hr
    | inr hr =>
      exact consistent_stored h hr
  · intro d
    constructor
    · intro r hr
      rcases loaded_step hstep hr with hr | ⟨u, hr⟩
      · exact (h.device d).loaded r hr
      · exact h.record u r hr
    · intro vc hvc
      rcases add_step hstep hvc with hvc | ⟨object, -, rfl⟩ | ⟨a, vc', -, hadd, hact⟩
      · exact (h.device d).add vc hvc
      · exact addOk_viewDidLoad object
      · exact addOk_step ((h.device d).add vc' hadd) hact

theorem totalsOk_of_reachable (h : Reachable step Starts s) : TotalsOk s :=
  reachable_of_steps TotalsOk (fun _ => totalsOk_start) (fun _ _ _ => totalsOk_step) h

/-- Every stored total is the recomputed one, so what the lines print, whether in
the table or in the PDF, adds up to the subtotal computed beside them. -/
theorem stored_total_eq (h : Reachable step Starts s) :
    (∀ u r, alterationAt s.net.server u = some r →
      r.totalCost = r.actualCost * r.units.val + r.secondaryCost) ∧
    ∀ alterations : List AlterationStruct, (∀ a ∈ alterations, ∃ d, a ∈ (s.device d).loaded) →
      (∀ a ∈ alterations,
        (cellForRowAt a).subtotalLabel = "$" ++ floatDescription a.getTotalCost ++ "0" ∧
        (postAlteration a).1 =
          a.name ++ " -- Subtotal: $" ++ floatDescription a.getTotalCost ++ "0") ∧
      (alterations.map (·.totalCost)).sum = getAlterationsTotalFloat alterations := by
  have hok := totalsOk_of_reachable h
  constructor
  · intro u r hr
    exact hok.record u r (Or.inl hr)
  · intro alterations hloaded
    have htotal : ∀ a ∈ alterations, a.totalCost = a.getTotalCost := by
      intro a ha
      obtain ⟨d, hd⟩ := hloaded a ha
      exact (hok.device d).loaded a hd
    constructor
    · intro a ha
      simp only [cellForRowAt, postAlteration, htotal a ha, and_self]
    · rw [getAlterationsTotalFloat_eq_sum, List.map_congr_left htotal]

theorem hem_total_eq : ∃ s, run step justOpened (hemAdded ++ [.act () (.load "a" 0)]) = some s ∧
    ((s.device ()).loaded.map (·.totalCost)).sum =
      getAlterationsTotalFloat (s.device ()).loaded := by
  have hrun : (run step justOpened (hemAdded ++ [.act () (.load "a" 0)])).isSome = true := by
    decide +kernel
  obtain ⟨s, hs⟩ := Option.isSome_iff_exists.mp hrun
  have hreach : Reachable step Starts s := ⟨justOpened, _, starts_justOpened, hs⟩
  exact ⟨s, hs, ((stored_total_eq hreach).2 (s.device ()).loaded fun a ha => ⟨(), ha⟩).2⟩

end Pincushion.Totals
