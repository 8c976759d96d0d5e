import Pincushion.AlterationScreens
import Pincushion.CreateContract
import Pincushion.Network
import Pincushion.Runs

/-! Any number of devices that create contracts and add and edit alterations on
one database. The screens may be opened and left at any moment, so every order
that the app's navigation allows is among the runs. -/
namespace Pincushion.App
open KeyTree Structs Singletons FirebaseHelpers AlterationScreens CreateContract Network Runs
variable {D : Type*}

structure Device where
  running : Bool
  statics : Statics
  create : CreateContractVC
  add : Option AddAlterationVC
  edit : Option EditAlterationVC
  /-- Every record that a review screen of the device has loaded. -/
  loaded : List AlterationStruct

structure World (D : Type*) where
  net : Net D
  device : D → Device

/-- What the user or the system does on one device. -/
inductive Action where
  | create (e : CreateContractVC.Event)
  | createConfirmed (keys : CreateContractVC.Keys) (now : Date)
  | authState (uid : String) (displayName : Option String)
  | signOutConfirmed
  | openAdd (object : AlterationType)
  | add (e : AddAlterationVC.Event)
  | addConfirmed (newAlterationKey : String)
  | load (uid : String) (k : Nat)
  | openEdit (row : Nat)
  | edit (e : EditAlterationVC.Event)
  | editConfirmed
  | back

inductive Event (D : Type*) where
  | act (d : D) (a : Action)
  | take (i k : Nat)
  | callback (i : Nat)
  | deliver (d : D)

/-- The screens of a device; `none` where the action is not open to it. -/
def Device.act (v : Device) : Action → Option Device
  | .create e => (v.create.step v.statics e).map fun vc => { v with create := vc }
  | .authState uid displayName =>
      let (vc, g) := v.create.authState v.statics uid displayName
      some { v with create := vc, statics := g }
  | .signOutConfirmed =>
      let (vc, g) := v.create.signOutConfirmed v.statics
      some { v with create := vc, statics := g }
  | .openAdd object => some { v with add := some (.viewDidLoad object) }
  | .add e => match v.add with
    | some vc => (vc.step e).map fun vc => { v with add := some vc }
    | none => none
  | .openEdit row => match v.loaded[row]? with
    | some a => some { v with edit := some (.viewDidLoad a) }
    | none => none
  | .edit e => match v.edit with
    | some vc => (vc.step e).map fun vc => { v with edit := some vc }
    | none => none
  | .back => some { v with add := none, edit := none }
  | _ => none

variable [DecidableEq D]

def World.set (s : World D) (net : Net D) (d : D) (v : Device) : World D :=
  ⟨net, Function.update s.device d v⟩

/-- Four records are written and the singletons set. -/
def createConfirmed (s : World D) (d : D) (keys : CreateContractVC.Keys) (now : Date) :
    Option (World D) :=
  let v := s.device d
  if v.create.presented = some .ready ∧ s.net.Fresh keys.toList then
    some (s.set
      ((s.net.allocate keys.toList).setValues d (v.create.createdWrites v.statics keys now)) d
      { v with
        create := v.create.created keys
        statics := v.create.createdStatics v.statics keys })
  else none

/-- The record is written and the read of the contract issued. With no contract
the path of that read has an empty key: the app traps after the write. -/
def addConfirmed (s : World D) (d : D) (newAlterationKey : String) : Option (World D) :=
  let v := s.device d
  match v.add with
  | some vc =>
    if vc.presented = some .confirm ∧ s.net.Fresh [newAlterationKey] then
      let contractUID := v.statics.contract.uid
      let (uid, w) := AddAlterationVC.makeAlteration newAlterationKey contractUID
        vc.myAlterationStruct
      let net := (s.net.allocate [newAlterationKey]).setValues d [w]
      let v := { v with
        add := none
        statics := vc.appendToCurrent newAlterationKey v.statics }
      if contractUID = "" then some (s.set net d { v with running := false })
      else some (s.set (net.observe d (updateAlterationsForContract contractUID uid)) d v)
    else none
  | none => none

/-- A text that does not parse traps before anything is written. -/
def editConfirmed (s : World D) (d : D) : Option (World D) :=
  let v := s.device d
  match v.edit with
  | some vc =>
    if vc.presented = some .confirm then
      match vc.confirmHandler with
      | some w => some (s.set (s.net.setValues d [w]) d { v with edit := none })
      | none => some (s.set s.net d { v with running := false })
    else none
  | none => none

/-- A record read of the review screen delivers what the device sees. -/
def load (s : World D) (d : D) (uid : String) (k : Nat) : Option (World D) :=
  match alterationAt (s.net.view d k) uid with
  | some a => some (s.set s.net d { s.device d with loaded := (s.device d).loaded ++ [a] })
  | none => none

def act (s : World D) (d : D) (a : Action) : Option (World D) :=
  if (s.device d).running then
    match a with
    | .createConfirmed keys now => createConfirmed s d keys now
    | .addConfirmed newAlterationKey => addConfirmed s d newAlterationKey
    | .editConfirmed => editConfirmed s d
    | .load uid k => load s d uid k
    | a => ((s.device d).act a).map (s.set s.net d)
  else none

/-- A callback runs where its app still runs. -/
def callbackRuns (s : World D) (i : Nat) : Bool :=
  match s.net.reads[i]? with
  | some r => (s.device r.device).running
  | none => false

def step (s : World D) : Event D → Option (World D)
  | .act d a => act s d a
  | .take i k => (s.net.take i k).map fun net => { s with net }
  | .callback i =>
    if callbackRuns s i then (s.net.callback i).map fun net => { s with net } else none
  | .deliver d => (s.net.deliver d).map fun net => { s with net }

/-- Nothing is stored and every device shows a screen that was just made. -/
def Starts (s : World D) : Prop :=
  s.net = .initial ∧ ∀ d, ∃ pickerDate now currentDate originalDate,
    s.device d = ⟨true, Statics.initial currentDate originalDate, .new pickerDate now,
      none, none, []⟩

/-- All that the screens of a device can do by themselves. -/
inductive Acts (v : Device) : Action → Device → Prop where
  | create (e : CreateContractVC.Event) (vc : CreateContractVC)
      (hstep : v.create.step v.statics e = some vc) : Acts v (.create e) { v with create := vc }
  | authState (uid : String) (displayName : Option String) :
      Acts v (.authState uid displayName) { v with
        create := (v.create.authState v.statics uid displayName).1
        statics := (v.create.authState v.statics uid displayName).2 }
  | signOutConfirmed : Acts v .signOutConfirmed { v with
      create := (v.create.signOutConfirmed v.statics).1
      statics := (v.create.signOutConfirmed v.statics).2 }
  | openAdd (object : AlterationType) :
      Acts v (.openAdd object) { v with add := some (.viewDidLoad object) }
  | add (e : AddAlterationVC.Event) (vc vc' : AddAlterationVC) (hadd : v.add = some vc)
      (hstep : vc.step e = some vc') : Acts v (.add e) { v with add := some vc' }
  | openEdit (row : Nat) (r : AlterationStruct) (hloaded : v.loaded[row]? = some r) :
      Acts v (.openEdit row) { v with edit := some (.viewDidLoad r) }
  | edit (e : EditAlterationVC.Event) (vc vc' : EditAlterationVC) (hedit : v.edit = some vc)
      (hstep : vc.step e = some vc') : Acts v (.edit e) { v with edit := some vc' }
  | back : Acts v .back { v with add := none, edit := none }

theorem acts_of_act {v v' : Device} {a : Action} (h : v.act a = some v') : Acts v a v' := by
  cases a with
  | create e =>
    obtain ⟨vc, hstep, rfl⟩ := Option.map_eq_some_iff.mp h
    exact .create e vc hstep
  | add e =>
    simp only [Device.act] at h
    split at h
    · rename_i vc hadd
      obtain ⟨vc', hstep, rfl⟩ := Option.map_eq_some_iff.mp h
      exact .add e vc vc' hadd hstep
    · cases h
  | openEdit row =>
    simp only [Device.act] at h
    split at h
    · rename_i r hloaded
      cases h
      exact .openEdit row r hloaded
    · cases h
  | edit e =>
    simp only [Device.act] at h
    split at h
    · rename_i vc hedit
      obtain ⟨vc', hstep, rfl⟩ := Option.map_eq_some_iff.mp h
      exact .edit e vc vc' hedit hstep
    · cases h
  | authState uid displayName =>
    cases h
    exact .authState uid displayName
  | signOutConfirmed =>
    cases h
    exact .signOutConfirmed
  | openAdd object =>
    cases h
    exact .openAdd object
  | back =>
    cases h
    exact .back
  | _ => cases h

/-- All that a step can do, with what made it possible. -/
inductive Steps (s : World D) : Event D → World D → Prop where
  | screens (d : D) (a : Action) (v : Device) (hact : (s.device d).act a = some v) :
      Steps s (.act d a) (s.set s.net d v)
  | load (d : D) (u : String) (k : Nat) (r : AlterationStruct)
      (hload : alterationAt (s.net.view d k) u = some r) :
      Steps s (.act d (.load u k))
        (s.set s.net d { s.device d with loaded := (s.device d).loaded ++ [r] })
  | created (d : D) (keys : CreateContractVC.Keys) (now : Date)
      (hpresented : (s.device d).create.presented = some .ready)
      (hfresh : s.net.Fresh keys.toList) :
      Steps s (.act d (.createConfirmed keys now)) (s.set
        ((s.net.allocate keys.toList).setValues d
          ((s.device d).create.createdWrites (s.device d).statics keys now)) d
        { s.device d with
          create := (s.device d).create.created keys
          statics := (s.device d).create.createdStatics (s.device d).statics keys })
  | addTrap (d : D) (key : String) (vc : AddAlterationVC) (hadd : (s.device d).add = some vc)
      (hpresented : vc.presented = some .confirm) (hfresh : s.net.Fresh [key])
      (hempty : (s.device d).statics.contract.uid = "") :
      Steps s (.act d (.addConfirmed key)) (s.set
        ((s.net.allocate [key]).setValues d
          [(AddAlterationVC.makeAlteration key "" vc.myAlterationStruct).2]) d
        { s.device d with
          add := none
          statics := vc.appendToCurrent key (s.device d).statics
          running := false })
  | added (d : D) (key : String) (vc : AddAlterationVC) (hadd : (s.device d).add = some vc)
      (hpresented : vc.presented = some .confirm) (hfresh : s.net.Fresh [key])
      (hcontract : (s.device d).statics.contract.uid ≠ "") :
      Steps s (.act d (.addConfirmed key)) (s.set
        (((s.net.allocate [key]).setValues d
          [(AddAlterationVC.makeAlteration key (s.device d).statics.contract.uid
            vc.myAlterationStruct).2]).observe d
          (updateAlterationsForContract (s.device d).statics.contract.uid key)) d
        { s.device d with
          add := none
          statics := vc.appendToCurrent key (s.device d).statics })
  | edited (d : D) (vc : EditAlterationVC) (w : Write) (hedit : (s.device d).edit = some vc)
      (hpresented : vc.presented = some .confirm) (hw : vc.confirmHandler = some w) :
      Steps s (.act d .editConfirmed)
        (s.set (s.net.setValues d [w]) d { s.device d with edit := none })
  | editTrap (d : D) :
      Steps s (.act d .editConfirmed) (s.set s.net d { s.device d with running := false })
  | take (i k : Nat) (net : Net D) (h : s.net.take i k = some net) :
      Steps s (.take i k) { s with net }
  | callback (i : Nat) (net : Net D) (h : s.net.callback i = some net) :
      Steps s (.callback i) { s with net }
  | deliver (d : D) (net : Net D) (h : s.net.deliver d = some net) :
      Steps s (.deliver d) { s with net }

theorem steps_act {s s' : World D} {d : D} {a : Action} (h : act s d a = some s') :
    Steps s (.act d a) s' := by
  unfold act at h
  split at h
  · cases a with
    | createConfirmed keys now =>
      simp only [createConfirmed] at h
      split at h
      · rename_i hready
        rw [← Option.some.inj h]
        exact .created d keys now hready.1 hready.2
      · cases h
    | addConfirmed key =>
      simp only [addConfirmed] at h
      split at h
      · rename_i vc hadd
        split at h
        · rename_i hready
          split at h
          · rename_i hempty
            rw [← Option.some.inj h]
            simp only [hempty]
            exact .addTrap d key vc hadd hready.1 hready.2 hempty
          · rename_i hcontract
            rw [← Option.some.inj h]
            exact .added d key vc hadd hready.1 hready.2 hcontract
        · cases h
      · cases h
    | editConfirmed =>
      simp only [editConfirmed] at h
      split at h
      · rename_i vc hedit
        split at h
        · rename_i hready
          split at h
          · rename_i w hw
            rw [← Option.some.inj h]
            exact .edited d vc w hedit hready hw
          · rw [← Option.some.inj h]
            exact .editTrap d
        · cases h
      · cases h
    | load u k =>
      simp only [load] at h
      split at h
      · rename_i r hr
        rw [← Option.some.inj h]
        exact .load d u k r hr
      · cases h
    | _ =>
      obtain ⟨v, hv, rfl⟩ := Option.map_eq_some_iff.mp h
      exact .screens d _ v hv
  · cases h

theorem steps_of_step {s s' : World D} {e : Event D} (h : step s e = some s') :
    Steps s e s' := by
  cases e with
  | act d a => exact steps_act h
  | take i k =>
    obtain ⟨net, hnet, rfl⟩ := Option.map_eq_some_iff.mp h
    exact .take i k net hnet
  | callback i =>
    simp only [step] at h
    split at h
    · obtain ⟨net, hnet, rfl⟩ := Option.map_eq_some_iff.mp h
      exact .callback i net hnet
    · cases h
  | deliver d =>
    obtain ⟨net, hnet, rfl⟩ := Option.map_eq_some_iff.mp h
    exact .deliver d net hnet

/-- What every kind of step keeps holds of every state that is reached. -/
theorem reachable_of_steps (P : World D → Prop) (hstart : ∀ s, Starts s → P s)
    (hstep : ∀ s e s', P s → Steps s e s' → P s') {s : World D} (h : Reachable step Starts s) :
    P s :=
  reachable_invariant P hstart (fun s e s' hs h => hstep s e s' hs (steps_of_step h)) h

/-- What holds of every device still does when the one that acted has it too. -/
theorem forall_device_set {P : Device → Prop} {s : World D} {n : Net D} {d : D} {v : Device}
    (h : ∀ d, P (s.device d)) (hv : P v) : ∀ d', P ((s.set n d v).device d') := by
  intro d'
  simp only [World.set]
  by_cases hd : d' = d
  · subst hd
    rwa [Function.update_self]
  · rw [Function.update_of_ne hd]
    exact h d'

end Pincushion.App
