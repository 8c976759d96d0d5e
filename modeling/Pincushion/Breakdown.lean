import Pincushion.Money

/-! The description beside the subtotal of an alteration, in the review and in the
PDF, and the amounts that it shows. -/
namespace Pincushion.Breakdown
open SwiftNumber Structs AlterationScreens FirebaseHelpers Runs App Integrity Money
open ReviewContract hiding step Event

/-- The amounts of a description: a unit price, a quantity only behind one, and a
secondary cost. -/
structure Amounts where
  unitPrice : Option (ℚ × Option SwiftInt)
  secondary : Option ℚ
deriving DecidableEq

namespace Amounts

def unitText (b : Amounts) (costDetails : String) : String :=
  match b.unitPrice with
  | none => ""
  | some (price, none) => "$" ++ floatDescription price ++ "0 " ++ costDetails
  | some (price, some quantity) =>
      "$" ++ floatDescription price ++ "0 " ++ costDetails ++ " (x" ++ quantity.description ++ ")"

/-- The description with these amounts and notes. -/
def text (b : Amounts) (costDetails secondaryCostDetails : String) : String :=
  match b.secondary with
  | none => b.unitText costDetails
  | some cost => b.unitText costDetails ++ " + " ++ (" $" ++ floatDescription cost ++ "0" ++
      if secondaryCostDetails ≠ "" then " (" ++ secondaryCostDetails ++ ")" else "")

/-- What the shown amounts come to: no price and no cost count nothing, and no
quantity counts one. -/
def total (b : Amounts) : ℚ :=
  (match b.unitPrice with
    | none => 0
    | some (price, quantity) => price * (quantity.elim 1 fun n => (n.val : ℚ))) +
  b.secondary.getD 0

end Amounts

/-- A cost note shows the unit price, more than one unit their number. -/
def amounts (a : AlterationStruct) : Amounts where
  unitPrice := if a.costDetails ≠ "" then
      some (a.actualCost, if a.units.val > 1 then some a.units else none)
    else none
  secondary := if a.secondaryCost ≠ 0 then some a.secondaryCost else none

variable {a : AlterationStruct}

theorem actualCostString_eq : actualCostString a = (amounts a).unitText a.costDetails := by
  by_cases hnote : a.costDetails = ""
  · simp [actualCostString, amounts, Amounts.unitText, hnote]
  · by_cases hmany : a.units.val > 1
    · simp [actualCostString, amounts, Amounts.unitText, hnote, hmany]
    · simp [actualCostString, amounts, Amounts.unitText, hnote, hmany]

theorem actualCostString_eq_empty_iff : actualCostString a = "" ↔ a.costDetails = "" := by
  constructor
  · intro h
    by_contra hnote
    rw [actualCostString, if_pos hnote] at h
    split at h <;> simp at h
  · intro hnote
    simp [actualCostString, hnote]

theorem secondaryCostString_eq_empty_iff : secondaryCostString a = "" ↔ a.secondaryCost = 0 := by
  constructor
  · intro h
    by_contra hcost
    rw [secondaryCostString_eq hcost] at h
    simp at h
  · intro hcost
    simp [secondaryCostString, hcost]

/-- The description is made of these amounts. -/
theorem resultString_eq :
    resultString a = (amounts a).text a.costDetails a.secondaryCostDetails := by
  by_cases hcost : a.secondaryCost = 0
  · have hnone : (amounts a).secondary = none := by simp [amounts, hcost]
    rw [resultString, if_neg (not_not.mpr (secondaryCostString_eq_empty_iff.mpr hcost)),
      actualCostString_eq, Amounts.text, hnone]
  · have hsome : (amounts a).secondary = some a.secondaryCost := by simp [amounts, hcost]
    rw [resultString, if_pos (mt secondaryCostString_eq_empty_iff.mp hcost), actualCostString_eq,
      secondaryCostString_eq hcost, Amounts.text, hsome]

/-- There is a description where there is a cost note or a secondary cost. -/
theorem resultString_ne_iff :
    resultString a ≠ "" ↔ a.costDetails ≠ "" ∨ a.secondaryCost ≠ 0 := by
  by_cases hcost : a.secondaryCost = 0
  · simp only [resultString, secondaryCostString_eq_empty_iff.mpr hcost, hcost, ne_eq,
      not_true_eq_false, if_false, or_false, actualCostString_eq_empty_iff]
  · refine iff_of_true ?_ (Or.inr hcost)
    rw [resultString, if_pos (mt secondaryCostString_eq_empty_iff.mp hcost)]
    simp

theorem amounts_total (h : 0 ≤ a.units.val) : (amounts a).total = a.getTotalCost ↔
    (a.costDetails ≠ "" → a.units.val = 0 → a.actualCost = 0) ∧
      (a.costDetails = "" → a.actualCost * a.units.val = 0) := by
  have hsecondary : (amounts a).secondary.getD 0 = a.secondaryCost := by
    by_cases hcost : a.secondaryCost = 0 <;> simp [amounts, hcost]
  simp only [Amounts.total, hsecondary, AlterationStruct.getTotalCost, add_left_inj]
  by_cases hnote : a.costDetails = ""
  · simp [amounts, hnote, eq_comm]
  · by_cases hmany : a.units.val > 1
    · have hunits : a.units.val ≠ 0 := by omega
      simp [amounts, hnote, hmany, hunits]
    · have hunits : a.units.val = 0 ∨ a.units.val = 1 := by omega
      cases hunits with
      | inl hzero => simp [amounts, hnote, hzero]
      | inr hone => simp [amounts, hnote, hone]

/-- The description on the row and on the PDF's line shows these amounts; where there
is one it accounts for the subtotal unless a price of no units is shown, or a
secondary cost alone beside a price that counts. -/
theorem description_explains_iff (htotal : a.totalCost = a.getTotalCost) (h : 0 ≤ a.units.val) :
    (cellForRowAt a).totalCostDescriptionLabel =
        (amounts a).text a.costDetails a.secondaryCostDetails ∧
      (postAlteration a).2 = (amounts a).text a.costDetails a.secondaryCostDetails ∧
      ((resultString a ≠ "" → (amounts a).total = a.totalCost) ↔
        (a.costDetails ≠ "" → a.units.val = 0 → a.actualCost = 0) ∧
          (a.costDetails = "" → a.secondaryCost ≠ 0 → a.actualCost * a.units.val = 0)) := by
  refine ⟨resultString_eq, resultString_eq, ?_⟩
  rw [resultString_ne_iff, htotal, amounts_total h]
  by_cases hnote : a.costDetails = ""
  · simp [hnote]
  · simp [hnote]

/-- Three layers at 20 and lace for 5. -/
def layers : AlterationStruct := { (default : AlterationStruct) with
  costDetails := "per layer", actualCost := 20, units := ⟨3, by decide, by decide⟩
  secondaryCost := 5, secondaryCostDetails := "lace", totalCost := 65 }

theorem layers_explained :
    (cellForRowAt layers).totalCostDescriptionLabel = (amounts layers).text "per layer" "lace" ∧
      (postAlteration layers).2 = (amounts layers).text "per layer" "lace" ∧
      ((resultString layers ≠ "" → (amounts layers).total = 65) ↔
        (layers.costDetails ≠ "" → layers.units.val = 0 → layers.actualCost = 0) ∧
          (layers.costDetails = "" → layers.secondaryCost ≠ 0 →
            layers.actualCost * layers.units.val = 0)) :=
  description_explains_iff (a := layers) (by decide +kernel) (by decide)

/-- The hem of 20, which has no cost note, is added with an additional cost of 5. -/
def hemAndFive : List (App.Event Unit) := annCreated ++ [
  .act () (.openAdd hem), .act () (.add (.edit (.change .additionalCost 0 1 "5"))),
  .act () (.add .updateTotalAction), .act () (.add .addToContractAction),
  .act () (.addConfirmed "a"), .deliver ()]

/-- Its subtotal of $25.00 stands beside a description with $5.00 alone. -/
theorem not_explained_hem : ∃ s a, run step justOpened hemAndFive = some s ∧
    alterationAt s.net.server "a" = some a ∧ a.totalCost = a.getTotalCost ∧
    (cellForRowAt a).subtotalLabel = "$25.00" ∧
    (cellForRowAt a).totalCostDescriptionLabel = " +  $5.00" ∧
    ¬ (resultString a ≠ "" → (amounts a).total = a.totalCost) := by
  have hstored : ((run step justOpened hemAndFive).bind fun s =>
      alterationAt s.net.server "a").map (fun a => (decide (a.totalCost = a.getTotalCost),
        (cellForRowAt a).subtotalLabel, (cellForRowAt a).totalCostDescriptionLabel,
        (amounts a).total, a.totalCost)) = some (true, "$25.00", " +  $5.00", 5, 25) := by
    decide +kernel
  obtain ⟨a, hbind, ha⟩ := Option.map_eq_some_iff.mp hstored
  obtain ⟨s, hs, hr⟩ := Option.bind_eq_some_iff.mp hbind
  simp only [Prod.mk.injEq, decide_eq_true_eq] at ha
  obtain ⟨htotal, hsubtotal, hdescription, hshown, hcost⟩ := ha
  refine ⟨s, a, hs, hr, htotal, hsubtotal, hdescription, fun h => ?_⟩
  have hne : resultString a ≠ "" := by
    have heq : resultString a = " +  $5.00" := hdescription
    rw [heq]
    decide
  have hfive := h hne
  rw [hshown, hcost] at hfive
  norm_num at hfive

end Pincushion.Breakdown
