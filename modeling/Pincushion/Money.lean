import Pincushion.FixedPoint
import Pincushion.OnScreen

/-! Amounts of money in print. The end of the PDF rounds its three amounts to
cents, each by itself; all other places put a zero behind the description. -/
namespace Pincushion.Money
open SwiftNumber Structs AlterationScreens FixedPoint FirebaseHelpers Runs App Integrity OnScreen
open ReviewContract hiding step Event

/-- The amounts at the end of `createContractPDF`. -/
structure Footer where
  sub : String
  tax : String
  total : String
deriving DecidableEq

def footer (pdf : ContractPDF) : Footer where
  sub := formatFixed 2 pdf.totalCost
  tax := formatFixed 2 (pdf.totalCost * (89 / 1000))
  total := formatFixed 2 (pdf.totalCost * (89 / 1000) + pdf.totalCost)

/-- As they are read, the subtotal and the tax make up the total. -/
def Footer.AddsUp (f : Footer) : Prop :=
  ∃ sub tax, floatOfText f.sub = some sub ∧ floatOfText f.tax = some tax ∧
    floatOfText f.total = some (sub + tax)

theorem addsUp_iff_rounded (pdf : ContractPDF) : (footer pdf).AddsUp ↔
    roundHalfEven (pdf.totalCost * 100) + roundHalfEven (pdf.totalCost * (89 / 10)) =
      roundHalfEven (pdf.totalCost * 100 + pdf.totalCost * (89 / 10)) := by
  have htax : pdf.totalCost * (89 / 1000) * 10 ^ 2 = pdf.totalCost * (89 / 10) := by ring
  have htotal : (pdf.totalCost * (89 / 1000) + pdf.totalCost) * 10 ^ 2 =
      pdf.totalCost * 100 + pdf.totalCost * (89 / 10) := by ring
  have hsub : pdf.totalCost * 10 ^ 2 = pdf.totalCost * 100 := by norm_num
  have hread : ∀ q, floatOfText (formatFixed 2 q) =
      some ((roundHalfEven (q * 10 ^ 2) : ℚ) / 10 ^ 2) := floatOfText_formatFixed (by decide)
  simp only [Footer.AddsUp, footer, hread, htax, htotal, hsub, Option.some.injEq,
    exists_and_left, exists_eq_left', ← add_div]
  rw [div_left_inj' (by norm_num), eq_comm]
  exact_mod_cast Iff.rfl

/-- The printed amounts of the reviewed alterations add up exactly where the rounding
errors of the subtotal and of the tax, in cents, cancel to at most half a cent. -/
theorem reviewed_addsUp_iff (s : ReviewContract.State) (now : Date) :
    (footer (reviewAndSignAction s now)).AddsUp ↔
      OffsetsCancel ((s.vc.alterationStructArray.map (·.getTotalCost)).sum * 100)
        ((s.vc.alterationStructArray.map (·.getTotalCost)).sum * (89 / 10)) := by
  rw [addsUp_iff_rounded, roundHalfEven_add_iff, ← getAlterationsTotalFloat_eq_sum]
  rfl

/-- The hem at that price is in the list of its contract too. -/
def hemListedAt (price : String) : List (App.Event Unit) :=
  hemAddedAt price ++ [.take 0 0, .callback 0, .deliver ()]

/-- The review of the contract on the device that made it. -/
def reviewed (s : World Unit) : Option ReviewContract.State :=
  run ReviewContract.step ⟨s.net.server, (s.device ()).statics, ⟨[], [], 0⟩, []⟩
    [.viewWillAppear, .take 0, .deliver 0, .take 0, .deliver 0]

/-- A hem of 12.335 is printed as 12.34 and 1.10, together 13.43. -/
theorem not_addsUp_hem : ∃ s v, run step justOpened (hemListedAt "12.335") = some s ∧
    reviewed s = some v ∧ ∀ now, footer (reviewAndSignAction v now) = ⟨"12.34", "1.10", "13.43"⟩ ∧
      ¬ (footer (reviewAndSignAction v now)).AddsUp := by
  have hrun : ((run step justOpened (hemListedAt "12.335")).bind reviewed).map
      (fun v => footer (reviewAndSignAction v 0)) = some ⟨"12.34", "1.10", "13.43"⟩ := by
    decide +kernel
  obtain ⟨v, hbind, hfooter⟩ := Option.map_eq_some_iff.mp hrun
  obtain ⟨s, hs, hv⟩ := Option.bind_eq_some_iff.mp hbind
  refine ⟨s, v, hs, hv, fun now => ?_⟩
  have hnow : footer (reviewAndSignAction v now) = ⟨"12.34", "1.10", "13.43"⟩ := hfooter
  refine ⟨hnow, ?_⟩
  rw [hnow]
  rintro ⟨sub, tax, hsub, htax, htotal⟩
  have hread : floatOfText "12.34" = some (617 / 50) ∧ floatOfText "1.10" = some (11 / 10) ∧
      floatOfText "13.43" = some (1343 / 100) := by
    decide +kernel
  obtain rfl := Option.some.inj (hread.1.symm.trans hsub)
  obtain rfl := Option.some.inj (hread.2.1.symm.trans htax)
  have hsum := Option.some.inj (hread.2.2.symm.trans htotal)
  norm_num at hsum

/-- Whole cents add up: their tax lies half-way between two cents only where their
number is even. -/
theorem addsUp_of_cents {pdf : ContractPDF} (h : (pdf.totalCost * 100).den = 1) :
    (footer pdf).AddsUp := by
  rw [addsUp_iff_rounded]
  obtain ⟨c, hc⟩ : ∃ c : ℤ, pdf.totalCost * 100 = c :=
    ⟨_, ((Rat.den_eq_one_iff _).mp h).symm⟩
  have htax : pdf.totalCost * (89 / 10) = c * (89 / 1000) := by
    rw [← hc]
    ring
  rw [htax, hc, roundHalfEven_intCast, eq_comm, roundHalfEven_eq_iff]
  have hdist : (c : ℚ) + c * (89 / 1000) - ((c + roundHalfEven (c * (89 / 1000)) : ℤ) : ℚ) =
      c * (89 / 1000) - roundHalfEven (c * (89 / 1000)) := by
    push_cast
    ring
  rw [Nearest, hdist]
  cases nearest_roundHalfEven ((c : ℚ) * (89 / 1000)) with
  | inl hnear => exact Or.inl hnear
  | inr htie =>
    refine Or.inr ⟨htie.1, ?_⟩
    have hhalf : c * 89 - roundHalfEven (c * (89 / 1000)) * 1000 = 500 ∨
        c * 89 - roundHalfEven (c * (89 / 1000)) * 1000 = -500 := by
      cases (abs_eq (by norm_num)).mp htie.1 with
      | inl hup =>
        left
        have hq : (c : ℚ) * 89 - roundHalfEven (c * (89 / 1000)) * 1000 = 500 := by linarith
        exact_mod_cast hq
      | inr hdown =>
        right
        have hq : (c : ℚ) * 89 - roundHalfEven (c * (89 / 1000)) * 1000 = -500 := by linarith
        exact_mod_cast hq
    have heven : Even c := by
      rw [Int.even_iff]
      omega
    exact heven.add htie.2

/-- The title that a row's making gives to the total. -/
def totalCostTitle (alterationStructArray : List AlterationStruct) : String :=
  "Subtotal: " ++ getAlterationsTotal alterationStructArray ++ "0"

theorem secondaryCostString_eq {a : AlterationStruct} (h : a.secondaryCost ≠ 0) :
    secondaryCostString a = " $" ++ floatDescription a.secondaryCost ++ "0" ++
      if a.secondaryCostDetails ≠ "" then " (" ++ a.secondaryCostDetails ++ ")" else "" := by
  have hopen : ("0 (" : String) = "0" ++ " (" := rfl
  simp only [secondaryCostString, if_pos h, hopen]
  split <;> simp only [String.append_assoc, String.append_empty]

/-- The places where a zero is put behind the description of an amount. -/
inductive Printout where
  | reviewRow (a : AlterationStruct)
  | reviewSubtotal (alterations : List AlterationStruct)
  | addTotal (vc : AddAlterationVC)
  | editTotal (vc : EditAlterationVC)
  | pdfLine (a : AlterationStruct)
  | unitPrice (a : AlterationStruct) (hnote : a.costDetails ≠ "")
  | additionalCost (a : AlterationStruct) (hcost : a.secondaryCost ≠ 0)

namespace Printout

/-- The text that the app shows or prints there. -/
def text : Printout → String
  | .reviewRow a => (cellForRowAt a).subtotalLabel
  | .reviewSubtotal alterations => totalCostTitle alterations
  | .addTotal vc => vc.updateTotalAction.totalCostLabel
  | .editTotal vc => vc.updateTotalAction.totalCostLabel
  | .pdfLine a => (postAlteration a).1
  | .unitPrice a _ => actualCostString a
  | .additionalCost a _ => secondaryCostString a

/-- The amount it is about. -/
def amount : Printout → ℚ
  | .reviewRow a | .pdfLine a => a.totalCost
  | .reviewSubtotal alterations => (alterations.map (·.getTotalCost)).sum
  | .addTotal vc => vc.updateTotalAction.myAlterationStruct.totalCost
  | .editTotal vc => vc.updateTotalAction.myAlterationStruct.totalCost
  | .unitPrice a _ => a.actualCost
  | .additionalCost a _ => a.secondaryCost

/-- The words around the amount, for any way to print it. -/
def around : Printout → String → String
  | .reviewRow _, shown => "$" ++ shown
  | .reviewSubtotal _, shown => "Subtotal: $" ++ shown
  | .addTotal _, shown | .editTotal _, shown => shown
  | .pdfLine a, shown => a.name ++ " -- Subtotal: $" ++ shown
  | .unitPrice a _, shown => "$" ++ shown ++ " " ++ a.costDetails ++
      if a.units.val > 1 then " (x" ++ a.units.description ++ ")" else ""
  | .additionalCost a _, shown => " $" ++ shown ++
      if a.secondaryCostDetails ≠ "" then " (" ++ a.secondaryCostDetails ++ ")" else ""

theorem text_eq (p : Printout) : p.text = p.around (floatDescription p.amount ++ "0") := by
  have hblank : ("0 " : String) = "0" ++ " " := rfl
  have htitle : ("Subtotal: $" : String) = "Subtotal: " ++ "$" := rfl
  cases p with
  | reviewRow a => simp [text, around, amount, cellForRowAt, String.append_assoc]
  | reviewSubtotal alterations =>
    simp only [text, around, amount, totalCostTitle, getAlterationsTotal,
      getAlterationsTotalFloat_eq_sum, htitle, String.append_assoc]
  | addTotal vc => rfl
  | editTotal vc => rfl
  | pdfLine a => simp [text, around, amount, postAlteration, String.append_assoc]
  | unitPrice a hnote =>
    simp only [text, around, amount, actualCostString, if_pos hnote, hblank]
    split <;> simp only [String.append_assoc, String.append_empty]
  | additionalCost a hcost =>
    simp only [text, around, amount, secondaryCostString_eq hcost, String.append_assoc]

theorem around_injective (p : Printout) {x y : String} (h : p.around x = p.around y) : x = y := by
  cases p <;> simpa [around, String.append_assoc] using h

end Printout

/-- Wherever a zero is put behind a description, the text shows the amount as the end
of the PDF does exactly where that is a whole number of ten cents. -/
theorem text_two_decimals_iff (p : Printout) (hcents : (p.amount * 100).den = 1) :
    p.text = p.around (formatFixed 2 p.amount) ↔ (p.amount * 10).den = 1 := by
  rw [p.text_eq, ← description_zero_eq_iff hcents]
  constructor
  · exact p.around_injective
  · exact congrArg p.around

def belt : AlterationStruct := { (default : AlterationStruct) with
  actualCost := 25 / 2, units := 1, totalCost := 25 / 2 }

theorem belt_two_decimals : ((Printout.reviewRow belt).amount * 100).den = 1 ∧
    ((Printout.reviewRow belt).text = (Printout.reviewRow belt).around (formatFixed 2 (25 / 2)) ↔
      ((25 / 2 : ℚ) * 10).den = 1) :=
  ⟨by decide +kernel, text_two_decimals_iff (.reviewRow belt) (by decide +kernel)⟩

/-- A hem of 12.34 is a row of $12.340 above a PDF that ends with 12.34. -/
theorem not_two_decimals_hem : ∃ s v a, run step justOpened (hemListedAt "12.34") = some s ∧
    reviewed s = some v ∧ v.vc.alterationStructArray = [a] ∧ a.totalCost = 617 / 50 ∧
    (Printout.reviewRow a).text = "$12.340" ∧ (footer (reviewAndSignAction v 0)).sub = "12.34" ∧
    (Printout.reviewRow a).text ≠ (Printout.reviewRow a).around (formatFixed 2 a.totalCost) := by
  have hrun : ((run step justOpened (hemListedAt "12.34")).bind reviewed).map
      (fun v => v.vc.alterationStructArray.map fun a => (a.totalCost, (Printout.reviewRow a).text,
        (footer (reviewAndSignAction v 0)).sub,
        decide ((Printout.reviewRow a).text =
          (Printout.reviewRow a).around (formatFixed 2 a.totalCost)))) =
      some [(617 / 50, "$12.340", "12.34", false)] := by
    decide +kernel
  obtain ⟨v, hbind, hrows⟩ := Option.map_eq_some_iff.mp hrun
  obtain ⟨s, hs, hv⟩ := Option.bind_eq_some_iff.mp hbind
  obtain ⟨a, harray, hrow⟩ := List.map_eq_singleton_iff.mp hrows
  simp only [Prod.mk.injEq, decide_eq_false_iff_not] at hrow
  exact ⟨s, v, a, hs, hv, harray, hrow⟩

end Pincushion.Money
