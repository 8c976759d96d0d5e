import Pincushion.App

/-! The screens that add a specialist, a bride or a measurement, beside the
screens for contracts and on the same database. An event of such a screen comes
with what the screen holds at that moment, which the user may have typed at will. -/
namespace Pincushion.RecordScreens
open SwiftNumber Structs FirebaseHelpers Network App
variable {D : Type*}

/-- The names and the e-mail can be edited until the welcome of a new account. -/
structure CreateAccountVC where
  firstNameField : String
  lastNameField : String
  emailField : String

/-- The handler of the welcome. -/
def CreateAccountVC.welcomed (vc : CreateAccountVC) (uid : String) : Write :=
  addSpecialistToFBDB uid vc.firstNameField vc.lastNameField vc.emailField ["-1"]

/-- A record to write and then the list that its uid is to join. -/
structure Addition where
  write : Write
  append : ListAppend

structure AddBrideVC where
  currentUserUID : String
  firstNameField : String
  lastNameField : String
  emailField : String

/-- It runs when the dialog has come up, whichever button is pressed later. -/
def AddBrideVC.addBrideAction (vc : AddBrideVC) (newBrideKey : String) : Addition :=
  let (bride, write) := addBrideToFBDB newBrideKey vc.currentUserUID vc.firstNameField
    vc.lastNameField vc.emailField ["-1"]
  ⟨write, getBridesForSpecialist vc.currentUserUID [bride]⟩

structure AddMeasurementVC where
  /-- The uid in `selectedBride`. -/
  selectedBride : String
  bustField : String
  waistField : String
  hipField : String
  bustPlaceholder : Option String
  waistPlaceholder : Option String
  hipPlaceholder : Option String

/-- `none` where the code unwraps a missing number. -/
def size (text : String) (placeholder : Option String) : Option SwiftFloat :=
  match placeholder with
  | some placeholder => (SwiftFloat.ofText text).or (SwiftFloat.ofText placeholder)
  | none => none

def AddMeasurementVC.add (vc : AddMeasurementVC) (newMeasurementKey : String) (now : Date) :
    Option Addition := do
  let bust ← size vc.bustField vc.bustPlaceholder
  let waist ← size vc.waistField vc.waistPlaceholder
  let hip ← size vc.hipField vc.hipPlaceholder
  let (measurement, write) := addMeasurementToFBDB newMeasurementKey vc.selectedBride now
    bust waist hip
  return ⟨write, updateMesurementsFor vc.selectedBride measurement⟩

/-- The key of the record with the list. -/
def parent : ListTarget → String
  | .alterations c => c
  | .measurements b => b
  | .brides s => s

inductive Event (D : Type*) where
  | app (e : App.Event D)
  | createAccount (d : D) (vc : CreateAccountVC) (uid : String)
  | addBride (d : D) (vc : AddBrideVC) (newBrideKey : String)
  | addMeasurement (d : D) (vc : AddMeasurementVC) (newMeasurementKey : String) (now : Date)

variable [DecidableEq D]

def trap (s : World D) (d : D) : World D := s.set s.net d { s.device d with running := false }

/-- An account gets a uid that is new to everyone. -/
def createAccount (s : World D) (d : D) (vc : CreateAccountVC) (uid : String) : Option (World D) :=
  let v := s.device d
  if v.running ∧ s.net.Fresh [uid] then
    some (s.set ((s.net.allocate [uid]).setValues d [vc.welcomed uid]) d
      { v with statics := { v.statics with specialistUID := uid } })
  else none

/-- The record is written and the read of its parent issued. An empty uid of the
parent traps in between, as it makes an invalid path. -/
def addRecord (s : World D) (d : D) (key : String) (a : Addition) : World D :=
  let net := (s.net.allocate [key]).setValues d [a.write]
  if parent a.append.target = "" then s.set net d { s.device d with running := false }
  else s.set (net.observe d a.append) d (s.device d)

def addBride (s : World D) (d : D) (vc : AddBrideVC) (newBrideKey : String) : Option (World D) :=
  if (s.device d).running ∧ s.net.Fresh [newBrideKey] then
    some (addRecord s d newBrideKey (vc.addBrideAction newBrideKey))
  else none

def addMeasurement (s : World D) (d : D) (vc : AddMeasurementVC) (newMeasurementKey : String)
    (now : Date) : Option (World D) :=
  if (s.device d).running ∧ s.net.Fresh [newMeasurementKey] then
    match vc.add newMeasurementKey now with
    | some a => some (addRecord s d newMeasurementKey a)
    | none => some (trap s d)
  else none

def step (s : World D) : Event D → Option (World D)
  | .app e => App.step s e
  | .createAccount d vc uid => createAccount s d vc uid
  | .addBride d vc newBrideKey => addBride s d vc newBrideKey
  | .addMeasurement d vc newMeasurementKey now => addMeasurement s d vc newMeasurementKey now

/-- All that a step can do. -/
inductive Steps (s : World D) : Event D → World D → Prop where
  | app (e : App.Event D) (s' : World D) (h : App.Steps s e s') : Steps s (.app e) s'
  | welcomed (d : D) (vc : CreateAccountVC) (uid : String) (v : Device)
      (hfresh : s.net.Fresh [uid]) :
      Steps s (.createAccount d vc uid)
        (s.set ((s.net.allocate [uid]).setValues d [vc.welcomed uid]) d v)
  | bride (d : D) (vc : AddBrideVC) (key : String) (hfresh : s.net.Fresh [key]) :
      Steps s (.addBride d vc key) (addRecord s d key (vc.addBrideAction key))
  | measurement (d : D) (vc : AddMeasurementVC) (key : String) (now : Date) (r : Measurement)
      (hfresh : s.net.Fresh [key]) (hbride : r.bride = vc.selectedBride) :
      Steps s (.addMeasurement d vc key now)
        (addRecord s d key ⟨.measurement key r, updateMesurementsFor vc.selectedBride key⟩)
  | trap (d : D) (vc : AddMeasurementVC) (key : String) (now : Date) :
      Steps s (.addMeasurement d vc key now) (trap s d)

theorem AddMeasurementVC.add_eq {vc : AddMeasurementVC} {key : String} {now : Date} {a : Addition}
    (h : vc.add key now = some a) : ∃ r : Measurement, r.bride = vc.selectedBride ∧
      a = ⟨.measurement key r, updateMesurementsFor vc.selectedBride key⟩ := by
  simp only [AddMeasurementVC.add, Option.bind_eq_bind, Option.bind_eq_some_iff, Option.pure_def,
    Option.some.injEq] at h
  obtain ⟨bust, -, waist, -, hip, -, rfl⟩ := h
  exact ⟨_, rfl, rfl⟩

theorem steps_of_step {s s' : World D} {e : Event D} (h : step s e = some s') : Steps s e s' := by
  cases e with
  | app e => exact .app e s' (App.steps_of_step h)
  | createAccount d vc uid =>
    simp only [step, createAccount] at h
    split at h
    · rename_i hready
      rw [← Option.some.inj h]
      exact .welcomed d vc uid _ hready.2
    · cases h
  | addBride d vc key =>
    simp only [step, addBride] at h
    split at h
    · rename_i hready
      rw [← Option.some.inj h]
      exact .bride d vc key hready.2
    · cases h
  | addMeasurement d vc key now =>
    simp only [step, addMeasurement] at h
    split at h
    · rename_i hready
      split at h
      · rename_i a ha
        obtain ⟨r, hr, rfl⟩ := AddMeasurementVC.add_eq ha
        rw [← Option.some.inj h]
        exact .measurement d vc key now r hready.2 hr
      · rw [← Option.some.inj h]
        exact .trap d vc key now
    · cases h

end Pincushion.RecordScreens
