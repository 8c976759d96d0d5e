import Pincushion.FirebaseHelpers
import Pincushion.Singletons

/-! The screens that add and edit an alteration: what their fields hold, what
their buttons do, and the confirm handlers of their dialogs. -/
namespace Pincushion.AlterationScreens
open SwiftNumber Structs Singletons FirebaseHelpers

structure CostFields where
  actualPriceField : String
  quantityField : String
  additionalCostField : String
deriving DecidableEq

inductive CostField where
  | actualPrice
  | quantity
  | additionalCost
deriving DecidableEq

def CostFields.text (f : CostFields) : CostField → String
  | .actualPrice => f.actualPriceField
  | .quantity => f.quantityField
  | .additionalCost => f.additionalCostField

def CostFields.setText (f : CostFields) (text : String) : CostField → CostFields
  | .actualPrice => { f with actualPriceField := text }
  | .quantity => { f with quantityField := text }
  | .additionalCost => { f with additionalCostField := text }

/-- Some character of the replacement is a digit or a point. -/
def shouldChangeCharactersIn (string : String) : Bool :=
  string.toList.any fun c => c ∈ "0123456789.".toList

def replaceCharacters (text : String) (location length : Nat) (string : String) : String :=
  String.ofList (text.toList.take location ++ string.toList ++ text.toList.drop (location + length))

/-- What a user does to a number field; its clear button asks no delegate. -/
inductive FieldEdit where
  | change (field : CostField) (location length : Nat) (string : String)
  | clear (field : CostField)

def CostFields.edit (f : CostFields) : FieldEdit → CostFields
  | .change field location length string =>
    if shouldChangeCharactersIn string then
      f.setText (replaceCharacters (f.text field) location length string) field
    else f
  | .clear field => f.setText "" field

/-- What the three texts are read as, with the stand-ins for what does not parse. -/
def CostFields.readings (f : CostFields) : ℚ × SwiftInt × ℚ :=
  ((floatOfText f.actualPriceField).getD (157 / 50),
    (SwiftInt.ofText f.quantityField).getD ⟨314, by decide, by decide⟩,
    (floatOfText f.additionalCostField).getD (157 / 50))

/-- The numbers of the three texts, where all of them parse. -/
def CostFields.parsed (f : CostFields) : Option (ℚ × SwiftInt × ℚ) := do
  let price ← floatOfText f.actualPriceField
  let quantity ← SwiftInt.ofText f.quantityField
  let additional ← floatOfText f.additionalCostField
  return (price, quantity, additional)

def CostFields.populated (a : AlterationStruct) : CostFields where
  actualPriceField := formatWhole a.actualCost
  quantityField := a.units.description
  additionalCostField := formatWhole a.secondaryCost

/-- The costs that the fields give, with the total recomputed from them. -/
def calculated (f : CostFields) (a : AlterationStruct) : AlterationStruct :=
  let costs := { a with
    actualCost := f.readings.1
    units := f.readings.2.1
    secondaryCost := f.readings.2.2 }
  { costs with totalCost := costs.getTotalCost }

/-- A screen presents one dialog at a time. -/
inductive Alert where
  | calculateFirst
  | confirm
deriving DecidableEq

structure AddAlterationVC where
  object : AlterationType
  alterationUID : String
  costWasCalculated : Bool
  myAlterationStruct : AlterationStruct
  fields : CostFields
  totalCostLabel : String
  presented : Option Alert
deriving DecidableEq

namespace AddAlterationVC

def viewDidLoad (object : AlterationType) : AddAlterationVC :=
  let myAlterationStruct := AlterationStruct.init object "" "" 0
  { object
    alterationUID := "3.14"
    costWasCalculated := false
    myAlterationStruct
    fields := .populated myAlterationStruct
    totalCostLabel := formatWhole myAlterationStruct.totalCost
    presented := none }

def updateTotalAction (vc : AddAlterationVC) : AddAlterationVC :=
  let myAlterationStruct := calculated vc.fields vc.myAlterationStruct
  { vc with
    costWasCalculated := true
    myAlterationStruct
    totalCostLabel := floatDescription myAlterationStruct.totalCost ++ "0" }

def addToContractAction (vc : AddAlterationVC) : AddAlterationVC :=
  { vc with presented := some (if vc.costWasCalculated then .confirm else .calculateFirst) }

inductive Event where
  | edit (e : FieldEdit)
  | updateTotalAction
  | addToContractAction
  | dismiss

/-- A dialog is modal: while one is presented, only its buttons act. -/
def step (vc : AddAlterationVC) (e : Event) : Option AddAlterationVC :=
  match vc.presented, e with
  | none, .edit e => some { vc with fields := vc.fields.edit e }
  | none, .updateTotalAction => some vc.updateTotalAction
  | none, .addToContractAction => some vc.addToContractAction
  | some _, .dismiss => some { vc with presented := none }
  | _, _ => none

/-- Only a press of Calculate changes the struct or the permission to store it. -/
theorem step_cases {vc vc' : AddAlterationVC} {e : Event} (h : vc.step e = some vc') :
    (vc'.costWasCalculated = vc.costWasCalculated ∧
      vc'.myAlterationStruct = vc.myAlterationStruct) ∨
      (e = .updateTotalAction ∧ vc' = vc.updateTotalAction) := by
  unfold step at h
  split at h <;> cases h
  · exact Or.inl ⟨rfl, rfl⟩
  · exact Or.inr ⟨rfl, rfl⟩
  · exact Or.inl ⟨rfl, rfl⟩
  · exact Or.inl ⟨rfl, rfl⟩

/-- To store the alteration is offered only after a calculation. -/
theorem step_confirm {vc vc' : AddAlterationVC} {e : Event}
    (hconfirm : vc.presented = some .confirm → vc.costWasCalculated = true)
    (h : vc.step e = some vc') (hoffered : vc'.presented = some .confirm) :
    vc'.costWasCalculated = true := by
  unfold step at h
  split at h <;> cases h
  · exact hconfirm hoffered
  · rfl
  · simp only [addToContractAction] at hoffered ⊢
    split at hoffered
    · assumption
    · cases hoffered
  · cases hoffered

def makeAlteration (newAlterationKey contractUID : String) (alterationStruct : AlterationStruct) :
    String × Write :=
  addAlterationToFBDB newAlterationKey contractUID alterationStruct

/-- The contract's list in memory after the confirm handler: the placeholder or
earlier uid of the screen goes in before the new key. -/
def appendToCurrent (vc : AddAlterationVC) (newAlterationKey : String) (g : Statics) : Statics :=
  { g with contract := { g.contract with
    alterations := g.contract.alterations ++ [vc.alterationUID] ++ [newAlterationKey] } }

end AddAlterationVC

structure EditAlterationVC where
  myAlterationStruct : AlterationStruct
  alterationUID : String
  costWasCalculated : Bool
  fields : CostFields
  detailsLabel : String
  totalCostLabel : String
  presented : Option Alert
deriving DecidableEq

namespace EditAlterationVC

def viewDidLoad (myAlterationStruct : AlterationStruct) : EditAlterationVC where
  myAlterationStruct := myAlterationStruct
  alterationUID := "3.14"
  costWasCalculated := false
  fields := .populated myAlterationStruct
  detailsLabel := myAlterationStruct.costDetails
  totalCostLabel := formatWhole myAlterationStruct.totalCost
  presented := none

def calculateCost (vc : EditAlterationVC) : EditAlterationVC :=
  let myAlterationStruct := calculated vc.fields vc.myAlterationStruct
  { vc with
    myAlterationStruct
    totalCostLabel := floatDescription myAlterationStruct.totalCost ++ "0" }

def updateTotalAction (vc : EditAlterationVC) : EditAlterationVC :=
  { vc with costWasCalculated := true }.calculateCost

def addToContractAction (vc : EditAlterationVC) : EditAlterationVC :=
  { vc with presented := some (if vc.costWasCalculated then .confirm else .calculateFirst) }

/-- The three parses are forced, so a text that does not parse traps. -/
def getUpdatedFieldValues (vc : EditAlterationVC) : Option EditAlterationVC := do
  let vc := vc.calculateCost
  let actualCost ← floatOfText vc.fields.actualPriceField
  let units ← SwiftInt.ofText vc.fields.quantityField
  let secondaryCost ← floatOfText vc.fields.additionalCostField
  return { vc with myAlterationStruct := { vc.myAlterationStruct with
    actualCost := actualCost
    costDetails := vc.detailsLabel
    units := units
    secondaryCost := secondaryCost } }

/-- The confirm handler: the record as the fields give it is written back. -/
def confirmHandler (vc : EditAlterationVC) : Option Write :=
  vc.getUpdatedFieldValues.map fun vc => updateAlterationFBDB vc.myAlterationStruct

/-- The details field has no delegate. -/
inductive Event where
  | edit (e : FieldEdit)
  | editDetails (location length : Nat) (string : String)
  | clearDetails
  | updateTotalAction
  | addToContractAction
  | dismiss

def step (vc : EditAlterationVC) (e : Event) : Option EditAlterationVC :=
  match vc.presented, e with
  | none, .edit e => some { vc with fields := vc.fields.edit e }
  | none, .editDetails location length string =>
      some { vc with detailsLabel := replaceCharacters vc.detailsLabel location length string }
  | none, .clearDetails => some { vc with detailsLabel := "" }
  | none, .updateTotalAction => some vc.updateTotalAction
  | none, .addToContractAction => some vc.addToContractAction
  | some _, .dismiss => some { vc with presented := none }
  | _, _ => none

/-- Nothing on the screen changes whose record it is. -/
theorem step_uid {vc vc' : EditAlterationVC} {e : Event} (h : vc.step e = some vc') :
    vc'.myAlterationStruct.uid = vc.myAlterationStruct.uid ∧
      vc'.myAlterationStruct.contractUID = vc.myAlterationStruct.contractUID := by
  unfold step at h
  split at h <;> cases h <;> exact ⟨rfl, rfl⟩

/-- The confirm handler writes what the texts are read as. -/
theorem confirmHandler_record {vc : EditAlterationVC} {w : Write} (h : vc.confirmHandler = some w) :
    w = updateAlterationFBDB
      { calculated vc.fields vc.myAlterationStruct with costDetails := vc.detailsLabel } := by
  obtain ⟨vc', hvc', rfl⟩ := Option.map_eq_some_iff.mp h
  simp only [getUpdatedFieldValues, Option.bind_eq_bind, Option.bind_eq_some_iff] at hvc'
  obtain ⟨actualCost, hactual, units, hunits, secondaryCost, hsecondary, hvc'⟩ := hvc'
  cases hvc'
  simp only [calculateCost] at hactual hunits hsecondary
  simp [calculateCost, calculated, CostFields.readings, hactual, hunits, hsecondary]

/-- The record that the confirm handler writes. -/
theorem confirmHandler_eq {vc : EditAlterationVC} {w : Write} (h : vc.confirmHandler = some w) :
    ∃ r, w = .alteration r.uid r ∧ r.uid = vc.myAlterationStruct.uid ∧
      r.contractUID = vc.myAlterationStruct.contractUID ∧ r.totalCost = r.getTotalCost :=
  ⟨_, confirmHandler_record h, rfl, rfl, rfl⟩

end EditAlterationVC

end Pincushion.AlterationScreens
