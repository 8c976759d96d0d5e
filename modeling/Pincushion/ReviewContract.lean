import Pincushion.FirebaseHelpers
import Pincushion.Runs
import Pincushion.Singletons
import Mathlib.Algebra.BigOperators.Group.List.Basic

/-! The review screen and the reads it has in flight. Every appearance reads the
contract's list of uids; the list's arrival empties the table and issues one read
for each uid, and each of those appends its record. Reads take their value at
any moment and arrive in any order, while writes go on. -/
namespace Pincushion.ReviewContract
open KeyTree SwiftNumber Structs Singletons FirebaseHelpers Runs

structure ReviewContractVC where
  alterationsUIDArray : List String
  alterationStructArray : List AlterationStruct
  /-- What `reloadData` last found. -/
  rowCount : Nat
deriving DecidableEq

inductive Request where
  | alterations (contractUID : String)
  | alteration (uid : String)
deriving DecidableEq

def Request.path : Request → List String
  | .alterations c => ["contracts", c, "alterations"]
  | .alteration u => ["alterations", u]

structure Message where
  request : Request
  value : Option Node

structure State where
  db : Node
  statics : Statics
  vc : ReviewContractVC
  inFlight : List Message

inductive Event where
  | viewWillAppear
  | take (i : Nat)
  | deliver (i : Nat)
  | write (w : Write)

def issue (request : Request) : Message := ⟨request, none⟩

/-- The read that every appearance issues, unless there is no contract. -/
def getAlterationUIDs (g : Statics) : List Message :=
  if g.contract.uid ≠ "" then [issue (.alterations g.contract.uid)] else []

/-- The uids whose records are read: all but the sentinel. -/
def listed (uids : List String) : List String := uids.filter (· ≠ "-1")

def getAlterationStructs (alterationsUIDArray : List String) : List Message :=
  (listed alterationsUIDArray).map fun uid => issue (.alteration uid)

/-- The callbacks of both kinds of reads: what the screen becomes and the reads
they issue. -/
def ReviewContractVC.receive (vc : ReviewContractVC) (request : Request) (value : Node) :
    ReviewContractVC × List Message :=
  match request with
  | .alterations _ => match asStrings value with
    | some uids => ({ vc with alterationsUIDArray := uids, alterationStructArray := [] },
        getAlterationStructs uids)
    | none => (vc, [])
  | .alteration _ => match AlterationStruct.decode value with
    | some model => ({ vc with
        alterationStructArray := vc.alterationStructArray ++ [model]
        rowCount := vc.alterationStructArray.length + 1 }, [])
    | none => (vc, [])

def step (s : State) : Event → Option State
  | .viewWillAppear => some { s with inFlight := s.inFlight ++ getAlterationUIDs s.statics }
  | .take i => match s.inFlight[i]? with
    | some ⟨request, none⟩ =>
        some { s with inFlight := s.inFlight.set i ⟨request, some (s.db.sub request.path)⟩ }
    | _ => none
  | .deliver i => match s.inFlight[i]? with
    | some ⟨request, some value⟩ =>
        some { s with
          vc := (s.vc.receive request value).1
          inFlight := s.inFlight.eraseIdx i ++ (s.vc.receive request value).2 }
    | _ => none
  | .write w => some { s with db := w.apply s.db }

def getAlterationsTotalFloat (alterationStructArray : List AlterationStruct) : ℚ :=
  alterationStructArray.foldl (fun total calledItem => total + calledItem.getTotalCost) 0

def getAlterationsTotal (alterationStructArray : List AlterationStruct) : String :=
  "$" ++ floatDescription (getAlterationsTotalFloat alterationStructArray)

def actualCostString (a : AlterationStruct) : String :=
  if a.costDetails ≠ "" then
    if a.units.val > 1 then
      "$" ++ floatDescription a.actualCost ++ "0 " ++ a.costDetails ++ " (x" ++
        a.units.description ++ ")"
    else "$" ++ floatDescription a.actualCost ++ "0 " ++ a.costDetails
  else ""

def secondaryCostString (a : AlterationStruct) : String :=
  if a.secondaryCost ≠ 0 then
    if a.secondaryCostDetails ≠ "" then
      " $" ++ floatDescription a.secondaryCost ++ "0 (" ++ a.secondaryCostDetails ++ ")"
    else " $" ++ floatDescription a.secondaryCost ++ "0"
  else ""

def resultString (a : AlterationStruct) : String :=
  if secondaryCostString a ≠ "" then actualCostString a ++ " + " ++ secondaryCostString a
  else actualCostString a

structure AlterationCell where
  nameLabel : String
  subtotalLabel : String
  totalCostDescriptionLabel : String
deriving DecidableEq

/-- A row of the table, made from the struct at its index. -/
def cellForRowAt (alteration : AlterationStruct) : AlterationCell where
  nameLabel := alteration.name
  subtotalLabel := "$" ++ floatDescription alteration.totalCost ++ "0"
  totalCostDescriptionLabel := resultString alteration

/-- The two texts that the PDF adds for an alteration. -/
def postAlteration (theAlteration : AlterationStruct) : String × String :=
  (theAlteration.name ++ " -- Subtotal: $" ++ floatDescription theAlteration.totalCost ++ "0",
    resultString theAlteration)

/-- The arguments of `createContractPDF`. -/
structure ContractPDF where
  text : String
  AltArray : List AlterationStruct
  totalCost : ℚ
  brideName : String
  specialist : String
  eventDate : Date
  buyDate : Date
  bust : String
  waist : String
  hip : String
deriving DecidableEq

/-- The purchase date is that of a screen made on the spot, so it is `now`. -/
def reviewAndSignAction (s : State) (now : Date) : ContractPDF where
  text := "SpecialistUID: " ++ s.statics.contract.specialistUID
  AltArray := s.vc.alterationStructArray
  totalCost := getAlterationsTotalFloat s.vc.alterationStructArray
  brideName := s.statics.fullName
  specialist := getSpecialist s.statics
  eventDate := getEventDate s.statics
  buyDate := now
  bust := getBust s.statics
  waist := getWaist s.statics
  hip := getHip s.statics

theorem take_eq {s s' : State} {i : Nat} :
    step s (.take i) = some s' ↔ ∃ request, s.inFlight[i]? = some ⟨request, none⟩ ∧
      s' = { s with inFlight := s.inFlight.set i ⟨request, some (s.db.sub request.path)⟩ } := by
  simp only [step]
  split
  · rename_i request hi
    simp [hi, eq_comm]
  · rename_i hidle
    simp only [reduceCtorEq, false_iff, not_exists, not_and]
    exact fun request hi => absurd hi (hidle request)

theorem deliver_eq {s s' : State} {i : Nat} :
    step s (.deliver i) = some s' ↔ ∃ request value, s.inFlight[i]? = some ⟨request, some value⟩ ∧
      s' = { s with
        vc := (s.vc.receive request value).1
        inFlight := s.inFlight.eraseIdx i ++ (s.vc.receive request value).2 } := by
  simp only [step]
  split
  · rename_i request value hi
    simp [hi, eq_comm]
  · rename_i hidle
    simp only [reduceCtorEq, false_iff, not_exists, not_and]
    exact fun request value hi => absurd hi (hidle request value)

theorem mem_getAlterationUIDs {g : Statics} {m : Message} (hm : m ∈ getAlterationUIDs g) :
    g.contract.uid ≠ "" ∧ m = issue (.alterations g.contract.uid) := by
  unfold getAlterationUIDs at hm
  split at hm
  · exact ⟨‹_›, List.mem_singleton.mp hm⟩
  · cases hm

theorem mem_getAlterationStructs {uids : List String} {m : Message}
    (hm : m ∈ getAlterationStructs uids) : ∃ u ∈ listed uids, m = issue (.alteration u) := by
  obtain ⟨u, hu, rfl⟩ := List.mem_map.mp hm
  exact ⟨u, hu, rfl⟩

/-- Only a list that arrives asks for more, and for what it lists. -/
theorem mem_receive {vc : ReviewContractVC} {request : Request} {value : Node} {m : Message}
    (hm : m ∈ (vc.receive request value).2) :
    ∃ c uids, request = .alterations c ∧ asStrings value = some uids ∧
      ∃ u ∈ listed uids, m = issue (.alteration u) := by
  cases request with
  | alterations c =>
    simp only [ReviewContractVC.receive] at hm
    cases hvalue : asStrings value with
    | some uids =>
      rw [hvalue] at hm
      exact ⟨c, uids, rfl, rfl, mem_getAlterationStructs hm⟩
    | none =>
      rw [hvalue] at hm
      cases hm
  | alteration u =>
    simp only [ReviewContractVC.receive] at hm
    split at hm <;> cases hm

theorem getAlterationsTotalFloat_eq_sum (alterations : List AlterationStruct) :
    getAlterationsTotalFloat alterations = (alterations.map (·.getTotalCost)).sum := by
  have hfold : ∀ (l : List AlterationStruct) (acc : ℚ),
      l.foldl (fun total a => total + a.getTotalCost) acc =
        acc + (l.map (·.getTotalCost)).sum := by
    intro l
    induction l with
    | nil => simp
    | cons a l ih =>
      intro acc
      rw [List.foldl_cons, ih, List.map_cons, List.sum_cons, add_assoc]
  rw [getAlterationsTotalFloat, hfold, zero_add]

/-- The array is made of the contract's stored records: one for each listed uid,
equal to the record stored under it. -/
def Shows (s : State) (alterations : List AlterationStruct) : Prop :=
  ∃ uids, listAt s.db (.alterations s.statics.contract.uid) = some uids ∧
    (alterations.map some).Perm ((listed uids).map (alterationAt s.db))

/-- What the contract's stored alterations cost together. -/
def storedTotal (s : State) : ℚ :=
  let uids := (listAt s.db (.alterations s.statics.contract.uid)).getD []
  (((listed uids).filterMap (alterationAt s.db)).map (·.getTotalCost)).sum

theorem Shows.total {s : State} {alterations : List AlterationStruct} (h : Shows s alterations) :
    getAlterationsTotalFloat alterations = storedTotal s := by
  obtain ⟨uids, hl, hperm⟩ := h
  have hrecords := hperm.filterMap id
  simp only [List.filterMap_map, Function.id_comp] at hrecords
  rw [getAlterationsTotalFloat_eq_sum, storedTotal, hl, Option.getD_some]
  simpa using (hrecords.map (·.getTotalCost)).sum_eq

def Request.recordUID : Request → Option String
  | .alterations _ => none
  | .alteration uid => some uid

/-- The uids of the record reads in flight. -/
def recordReads (inFlight : List Message) : List String :=
  (inFlight.map (·.request)).filterMap Request.recordUID

/-- The list of uids whose arrival the event is, where it can be read as one. -/
def deliveredList (s : State) : Event → Option (List String)
  | .deliver i => match s.inFlight[i]? with
    | some ⟨.alterations _, some value⟩ => asStrings value
    | _ => none
  | _ => none

/-- How many record reads were in flight when the last list of a run arrived. -/
def overtaken (n : Nat) (s : State) (es : List Event) : Nat :=
  accumulate step
    (fun s e n => if (deliveredList s e).isSome then (recordReads s.inFlight).length else n) n s es

end Pincushion.ReviewContract
