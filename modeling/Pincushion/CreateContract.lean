import Pincushion.FirebaseHelpers
import Pincushion.Singletons

/-! The screen that creates a contract. The delegate of its three number fields
only narrows what can be typed, so the fields take any text here. -/
namespace Pincushion.CreateContract
open SwiftNumber Structs Singletons FirebaseHelpers

inductive Alert where
  | enterMeasurements
  | eraseCurrent
  | ready
deriving DecidableEq

structure CreateContractVC where
  bustField : String
  waistField : String
  hipField : String
  brideNameField : String
  datePicker : Date
  currentUserUID : String
  currentUserDisplayName : String
  selectedDate : Date
  purchaseDate : Date
  contractUID : String
  dressUID : String
  theDateNeeded : Date
  presented : Option Alert
deriving DecidableEq

namespace CreateContractVC

/-- The screen as it is made, at the time `now`. -/
def new (pickerDate now : Date) : CreateContractVC where
  bustField := ""
  waistField := ""
  hipField := ""
  brideNameField := ""
  datePicker := pickerDate
  currentUserUID := ""
  currentUserDisplayName := ""
  selectedDate := now
  purchaseDate := now
  contractUID := ""
  dressUID := ""
  theDateNeeded := now
  presented := none

def getMeasurements (vc : CreateContractVC) : SwiftFloat × SwiftFloat × SwiftFloat :=
  match SwiftFloat.ofText vc.bustField, SwiftFloat.ofText vc.waistField,
      SwiftFloat.ofText vc.hipField with
  | some bust, some waist, some hip => (bust, waist, hip)
  | _, _, _ => (.finite 0, .finite 0, .finite 0)

/-- A screen that presents a dialog presents no second one. -/
def present (vc : CreateContractVC) (alert : Alert) : CreateContractVC :=
  { vc with presented := vc.presented.or (some alert) }

/-- The check of the measurements does not return, so a second dialog is tried. -/
def createContractAction (vc : CreateContractVC) (g : Statics) : CreateContractVC :=
  let vc := if vc.getMeasurements = (.finite 0, .finite 0, .finite 0)
    then vc.present .enterMeasurements else vc
  if g.contract.uid ≠ "" then vc.present .eraseCurrent else vc.present .ready

def makeDress (vc : CreateContractVC) (g : Statics) (newDressKey : String) : String × Write :=
  addDressToFBDB newDressKey 1 g.brideUID vc.purchaseDate

def makeContract (vc : CreateContractVC) (g : Statics) (newContractKey dressUID : String) :
    String × Write :=
  addContractToFBDB newContractKey dressUID g.brideUID vc.currentUserUID vc.selectedDate

def updateContractSingleton (vc : CreateContractVC) (g : Statics) : Statics :=
  { g with contract := { g.contract with
    eventDate := vc.selectedDate
    brideUID := g.brideUID
    specialistUID := vc.currentUserUID
    dressUID := vc.dressUID
    uid := vc.contractUID } }

/-- The keys that one creation gets, in the order it asks for them. -/
structure Keys where
  dress : String
  contract : String
  bride : String
  measurement : String
deriving DecidableEq

def Keys.toList (k : Keys) : List String := [k.dress, k.contract, k.bride, k.measurement]

/-- The screen after the confirm handler of the creation. -/
def created (vc : CreateContractVC) (k : Keys) : CreateContractVC :=
  { vc with dressUID := k.dress, contractUID := k.contract, presented := none }

/-- The singletons after it. -/
def createdStatics (vc : CreateContractVC) (g : Statics) (k : Keys) : Statics :=
  let g := (vc.created k).updateContractSingleton { g with contract := g.originalValues }
  { g with fullName := vc.brideNameField, measurement := vc.getMeasurements }

/-- What it writes, in this order. -/
def createdWrites (vc : CreateContractVC) (g : Statics) (k : Keys) (now : Date) : List Write :=
  let g' := vc.createdStatics g k
  [(vc.makeDress g k.dress).2,
    (vc.makeContract g k.contract k.dress).2,
    (addBrideToFBDB k.bride vc.currentUserUID g'.fullName g'.fullName "test@dot.com" ["-1"]).2,
    (addMeasurementToFBDB k.measurement k.bride now g'.measurement.1 g'.measurement.2.1
      g'.measurement.2.2).2]

inductive Event where
  | typeBust (text : String)
  | typeWaist (text : String)
  | typeHip (text : String)
  | typeBrideName (text : String)
  | datePickerAction (date : Date)
  | viewWillAppear
  | createContractAction
  | startNew
  | dismiss

def step (vc : CreateContractVC) (g : Statics) (e : Event) : Option CreateContractVC :=
  match vc.presented, e with
  | none, .typeBust text => some { vc with bustField := text }
  | none, .typeWaist text => some { vc with waistField := text }
  | none, .typeHip text => some { vc with hipField := text }
  | none, .typeBrideName text => some { vc with brideNameField := text }
  | none, .datePickerAction date =>
      some { vc with datePicker := date, selectedDate := date, theDateNeeded := date }
  | none, .viewWillAppear => some { vc with theDateNeeded := vc.datePicker }
  | none, .createContractAction => some (vc.createContractAction g)
  | some .eraseCurrent, .startNew => some { vc with presented := some .ready }
  | some _, .dismiss => some { vc with presented := none }
  | _, _ => none

/-- The callback of the auth listener for a user that is signed in. -/
def authState (vc : CreateContractVC) (g : Statics) (uid : String) (displayName : Option String) :
    CreateContractVC × Statics :=
  let name := displayName.getD "Specialist: "
  ({ vc with currentUserUID := uid, currentUserDisplayName := name },
    { g with displayName := name, specialistUID := uid })

/-- The confirm handler of the sign-out dialog. -/
def signOutConfirmed (vc : CreateContractVC) (g : Statics) : CreateContractVC × Statics :=
  ({ vc with brideNameField := "", bustField := "", waistField := "", hipField := "" },
    { g with
      contract := g.originalValues
      measurement := (.finite 0, .finite 0, .finite 0)
      specialistUID := ""
      displayName := ""
      brideUID := ""
      fullName := "" })

/-- The date that a move of the picker sets. -/
def Event.pickedDate : Event → Option Date
  | .datePickerAction date => some date
  | _ => none

/-- The user moves the date, and nothing else that a creation stores beside the texts. -/
theorem step_kept {vc vc' : CreateContractVC} {g : Statics} {e : Event}
    (h : vc.step g e = some vc') :
    vc'.currentUserUID = vc.currentUserUID ∧ vc'.purchaseDate = vc.purchaseDate ∧
      vc'.selectedDate = e.pickedDate.getD vc.selectedDate := by
  unfold step at h
  split at h <;> cases h
  case h_7 =>
    simp only [createContractAction, present]
    split <;> split <;> exact ⟨rfl, rfl, rfl⟩
  all_goals exact ⟨rfl, rfl, rfl⟩

/-- A creation touches no alteration, and its one list is that of the new contract. -/
theorem createdWrites_cases {vc : CreateContractVC} {g : Statics} {k : Keys} {now : Date}
    {w : Write} (h : w ∈ vc.createdWrites g k now) :
    (∀ u, w.recordFor u = none) ∧ ∀ c l, w.listFor c = some l → l = ["-1"] ∧ c = k.contract := by
  simp only [createdWrites, List.mem_cons, List.not_mem_nil, or_false] at h
  obtain rfl | rfl | rfl | rfl := h
  · exact ⟨fun _ => rfl, fun _ _ hl => by cases hl⟩
  · refine ⟨fun _ => rfl, fun c l hl => ?_⟩
    simp only [makeContract, addContractToFBDB, Write.listFor] at hl
    split at hl
    · rename_i hc
      exact ⟨(Option.some.inj hl).symm, hc.symm⟩
    · cases hl
  · exact ⟨fun _ => rfl, fun _ _ hl => by cases hl⟩
  · exact ⟨fun _ => rfl, fun _ _ hl => by cases hl⟩

end CreateContractVC

end Pincushion.CreateContract
