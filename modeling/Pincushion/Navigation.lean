import Pincushion.AlterationScreens
import Pincushion.CreateContract
import Pincushion.ReviewContract
import Pincushion.Runs
import Mathlib.Logic.Function.Basic

/-! One device with its screens in the order the app shows them, its sign-in, and
the store as its own writes leave it. Alerts and the login screen are modal. A
callback runs at any time after it was asked for, and an auth listener while it is
registered; it is called when the uid is not the one of its last call. -/
namespace Pincushion.Navigation
open KeyTree SwiftNumber Structs Singletons FirebaseHelpers AlterationScreens CreateContract
open ReviewContract (Message Request getAlterationUIDs ReviewContractVC ContractPDF)

structure User where
  uid : String
  displayName : Option String
deriving DecidableEq

structure Listener where
  /-- Added by `signOutAction` rather than `viewWillAppear`. -/
  signingOut : Bool
  /-- The uid of its last call, if it was called. -/
  previousUserID : Option (Option String)
deriving DecidableEq

def Listener.new (signingOut : Bool) : Listener := ⟨signingOut, none⟩

/-- A review screen with its reads; `alert` asks to create a contract first. -/
structure Review where
  alert : Bool
  vc : ReviewContractVC
  inFlight : List Message

def Review.new : Review := ⟨false, ⟨[], [], 0⟩, []⟩

def Review.viewWillAppear (r : Review) (g : Statics) : Review :=
  { r with alert := g.contract.uid = "", inFlight := r.inFlight ++ getAlterationUIDs g }

/-- What is on top of the screen that creates contracts. -/
inductive Screen where
  | create
  | seeAlterations (alert : Bool)
  | addAlteration (vc : AddAlterationVC)
  | review (r : Review)
  | editAlteration (r : Review) (vc : EditAlterationVC)

structure PendingAppend where
  append : ListAppend
  value : Option Node

structure Phone where
  running : Bool
  db : Node
  keys : List String
  /-- The reads under way to extend the list of a contract, by the new uid. -/
  appends : String → Option PendingAppend
  user : Option User
  /-- `SpecialistNavVC.currentUserUID` -/
  rootUID : String
  /-- The login screen is up, with its listener. -/
  login : Option Listener
  /-- The listener of the screen that creates contracts. -/
  listener : Option Listener
  signOutDialog : Bool
  statics : Statics
  create : CreateContractVC
  screen : Screen

inductive Event where
  | create (e : CreateContractVC.Event)
  | createConfirmed (keys : CreateContractVC.Keys) (now : Date)
  | signOutAction (throws : Bool)
  | signOutAnswer (confirm : Bool)
  | listenerCall
  | viewDidAppear
  | signIn (u : User)
  | loginCall
  | loginDismissed
  | selectAlterations
  | reviewContract
  | okay
  | back
  | openAdd (object : AlterationType)
  | add (e : AddAlterationVC.Event)
  | addConfirmed (newAlterationKey : String)
  | reappear
  | take (i : Nat)
  | deliver (i : Nat)
  | tap (row : Nat)
  | edit (e : EditAlterationVC.Event)
  | editConfirmed
  | reviewAndSign (now : Date)
  | appendTake (u : String)
  | appendCallback (u : String)
  | remote (w : Write)

namespace Phone

def userUID (p : Phone) : Option String := p.user.map (·.uid)

def Fresh (p : Phone) (newKeys : List String) : Prop :=
  newKeys.Nodup ∧ ∀ k ∈ newKeys, k ≠ "" ∧ k ∉ p.keys

instance (p : Phone) (newKeys : List String) : Decidable (p.Fresh newKeys) :=
  inferInstanceAs (Decidable (_ ∧ _))

def write (p : Phone) (ws : List Write) : Phone :=
  { p with db := ws.foldl (fun db w => w.apply db) p.db }

/-- The user acts on some screen: the login screen and the dialog of signing out
are not in front, and the navigation is not about to bring the login screen up. -/
def front (p : Phone) : Bool := p.login.isNone && !p.signOutDialog && p.rootUID ≠ ""

theorem front_eq {p : Phone} (h : p.front = true) :
    p.login = none ∧ p.signOutDialog = false ∧ p.rootUID ≠ "" := by
  simpa [front, and_assoc] using h

/-- The screen that creates contracts comes back, and its picker is read. -/
def appear (p : Phone) : Phone :=
  { p with
    screen := .create
    listener := some (.new false)
    create := { p.create with theDateNeeded := p.create.datePicker } }

def toSeeAlterations (p : Phone) : Phone :=
  { p with listener := none, screen := .seeAlterations (p.statics.contract.uid = "") }

def createConfirmed (p : Phone) (keys : CreateContractVC.Keys) (now : Date) : Phone :=
  { p.write (p.create.createdWrites p.statics keys now) with
    keys := p.keys ++ keys.toList
    create := p.create.created keys
    statics := p.create.createdStatics p.statics keys }.toSeeAlterations

/-- Firebase forgets the user before anything is asked. -/
def signOutAction (p : Phone) : Phone :=
  { p with user := none, listener := some (.new true) }

/-- The fields go blank and the login screen comes up. -/
def signOutConfirmed (p : Phone) : Phone :=
  let (vc, g) := p.create.signOutConfirmed p.statics
  { p with
    signOutDialog := false
    create := vc
    statics := g
    login := some (.new false)
    listener := none }

/-- Both listeners copy the user; the one of signing out asks when there is none,
unless another alert is up. -/
def listenerCall (p : Phone) (l : Listener) : Phone :=
  let p := { p with listener := some { l with previousUserID := some p.userUID } }
  match p.user with
  | some u =>
    let (vc, g) := p.create.authState p.statics u.uid u.displayName
    { p with create := vc, statics := g }
  | none =>
    if l.signingOut ∧ p.create.presented = none then { p with signOutDialog := true } else p

def loginCall (p : Phone) (l : Listener) : Phone := match p.user with
  | some u => { p with
      rootUID := u.uid
      statics := { p.statics with specialistUID := u.uid }
      login := none }.appear
  | none => { p with login := some { l with previousUserID := some none } }

def toReview (p : Phone) (r : Review) : Phone :=
  { p with screen := .review (r.viewWillAppear p.statics) }

/-- The new record and the list in memory, before the append's read is asked for. -/
def added (p : Phone) (vc : AddAlterationVC) (newAlterationKey : String) : Phone :=
  let contractUID := p.statics.contract.uid
  let w := (AddAlterationVC.makeAlteration newAlterationKey contractUID vc.myAlterationStruct).2
  { p.write [w] with
    keys := p.keys ++ [newAlterationKey]
    statics := vc.appendToCurrent newAlterationKey p.statics }.toSeeAlterations

/-- With no contract the path of the append's read has an empty key and traps. -/
def addConfirmed (p : Phone) (vc : AddAlterationVC) (newAlterationKey : String) : Phone :=
  let contractUID := p.statics.contract.uid
  if contractUID = "" then { p.added vc newAlterationKey with running := false }
  else { p.added vc newAlterationKey with
    appends := Function.update p.appends newAlterationKey
      (some ⟨updateAlterationsForContract contractUID newAlterationKey, none⟩) }

/-- The reads of a review screen go on under the screen that edits. -/
def reviewStep (p : Phone) (e : ReviewContract.Event) : Option Phone :=
  match p.screen with
  | .review r => (ReviewContract.step ⟨p.db, p.statics, r.vc, r.inFlight⟩ e).map fun s =>
      { p with screen := .review { r with vc := s.vc, inFlight := s.inFlight } }
  | .editAlteration r vc => (ReviewContract.step ⟨p.db, p.statics, r.vc, r.inFlight⟩ e).map fun s =>
      { p with screen := .editAlteration { r with vc := s.vc, inFlight := s.inFlight } vc }
  | _ => none

/-- A row that the table still shows and the array has lost traps. -/
def tap (p : Phone) (r : Review) (row : Nat) : Option Phone :=
  if row < r.vc.rowCount then
    match r.vc.alterationStructArray[row]? with
    | some a => some { p with screen := .editAlteration r (.viewDidLoad a) }
    | none => some { p with running := false }
  else none

/-- A text that does not parse traps before anything is written. -/
def editConfirmed (p : Phone) (r : Review) (vc : EditAlterationVC) : Phone :=
  match vc.confirmHandler with
  | some w => (p.write [w]).toReview r
  | none => { p with running := false }

def back (p : Phone) : Option Phone := match p.screen with
  | .seeAlterations false => some p.appear
  | .addAlteration vc => if vc.presented = none then some p.toSeeAlterations else none
  | .review r => if r.alert then none else some p.appear
  | .editAlteration r vc => if vc.presented = none then some (p.toReview r) else none
  | _ => none

def okay (p : Phone) : Option Phone := match p.screen with
  | .seeAlterations true => some p.appear
  | .review r => if r.alert then some p.appear else none
  | _ => none

end Phone

/-- A write of another device, which runs the same app. -/
def FromApp : Write → Prop
  | .alteration u r => u ≠ "" ∧ r.uid = u
  | .contract _ r => ∀ u ∈ r.alterations, u ≠ ""
  | .list _ l => ∀ u ∈ l, u ≠ ""
  | _ => True

instance : DecidablePred FromApp
  | .alteration u r => inferInstanceAs (Decidable (u ≠ "" ∧ r.uid = u))
  | .contract _ r => inferInstanceAs (Decidable (∀ u ∈ r.alterations, u ≠ ""))
  | .list _ l => inferInstanceAs (Decidable (∀ u ∈ l, u ≠ ""))
  | .specialist _ _ | .bride _ _ | .measurement _ _ | .dress _ _ => isTrue trivial

/-- What the user does on a screen. -/
def act (p : Phone) : Event → Option Phone
  | .create .viewWillAppear => none
  | .create e => match p.screen with
    | .create => (p.create.step p.statics e).map fun vc => { p with create := vc }
    | _ => none
  | .createConfirmed keys now => match p.screen with
    | .create =>
      if p.create.presented = some .ready ∧ p.Fresh keys.toList then
        some (p.createConfirmed keys now)
      else none
    | _ => none
  | .signOutAction throws => match p.screen with
    | .create =>
      if p.create.presented = none then some (if throws then p else p.signOutAction) else none
    | _ => none
  | .selectAlterations => match p.screen with
    | .create => if p.create.presented = none then some p.toSeeAlterations else none
    | _ => none
  | .reviewContract => match p.screen with
    | .create =>
      if p.create.presented = none then some ({ p with listener := none }.toReview .new) else none
    | _ => none
  | .okay => p.okay
  | .back => p.back
  | .openAdd object => match p.screen with
    | .seeAlterations false => some { p with screen := .addAlteration (.viewDidLoad object) }
    | _ => none
  | .add e => match p.screen with
    | .addAlteration vc => (vc.step e).map fun vc => { p with screen := .addAlteration vc }
    | _ => none
  | .addConfirmed newAlterationKey => match p.screen with
    | .addAlteration vc =>
      if vc.presented = some .confirm ∧ p.Fresh [newAlterationKey] then
        some (p.addConfirmed vc newAlterationKey)
      else none
    | _ => none
  | .reappear => match p.screen with
    | .review r => if r.alert then none else some (p.toReview r)
    | _ => none
  | .tap row => match p.screen with
    | .review r => if r.alert then none else p.tap r row
    | _ => none
  | .edit e => match p.screen with
    | .editAlteration r vc => (vc.step e).map fun vc => { p with screen := .editAlteration r vc }
    | _ => none
  | .editConfirmed => match p.screen with
    | .editAlteration r vc =>
      if vc.presented = some .confirm then some (p.editConfirmed r vc) else none
    | _ => none
  | .reviewAndSign _ => match p.screen with
    | .review r => if r.alert then none else some p
    | _ => none
  | _ => none

/-- The calls of the auth listeners, the answers to what they show, and the login
screen. A sign-in may also be that of an account that was just created. -/
def auth (p : Phone) : Event → Option Phone
  | .signOutAnswer confirm =>
    if p.signOutDialog then
      some (if confirm then p.signOutConfirmed else { p with signOutDialog := false })
    else none
  | .listenerCall => match p.listener with
    | some l =>
      if l.previousUserID = some p.userUID then none else some (p.listenerCall l)
    | none => none
  | .viewDidAppear =>
    if p.rootUID = "" ∧ p.login = none then
      some { p with login := some (.new false), listener := none }
    else none
  | .signIn u => if p.login.isSome ∧ u.uid ≠ "" then some { p with user := some u } else none
  | .loginCall => match p.login with
    | some l =>
      if l.previousUserID = some p.userUID then none else some (p.loginCall l)
    | none => none
  | .loginDismissed =>
    if p.login.isSome ∧ p.user.isSome then some { p with login := none }.appear else none
  | _ => none

/-- An append that is not under way has nothing to take and nothing to write. -/
def database (p : Phone) : Event → Option Phone
  | .take i => p.reviewStep (.take i)
  | .deliver i => p.reviewStep (.deliver i)
  | .appendTake u => match p.appends u with
    | some ⟨a, none⟩ => some { p with
        appends := Function.update p.appends u (some ⟨a, some (p.db.sub a.target.node)⟩) }
    | _ => some p
  | .appendCallback u => match p.appends u with
    | some ⟨a, some value⟩ =>
        some ({ p with appends := Function.update p.appends u none }.write
          (a.callback value).toList)
    | _ => some p
  | .remote w =>
    if FromApp w then some { p.write [w] with keys := p.keys ++ w.node.tail } else none
  | _ => none

def step (p : Phone) (e : Event) : Option Phone :=
  if p.running then
    match e with
    | .signOutAnswer _ | .listenerCall | .viewDidAppear | .signIn _ | .loginCall
    | .loginDismissed => auth p e
    | .take _ | .deliver _ | .appendTake _ | .appendCallback _ | .remote _ => database p e
    | e => if p.front then act p e else none
  else none

def Review.state (r : Review) (p : Phone) : ReviewContract.State :=
  ⟨p.db, p.statics, r.vc, r.inFlight⟩

def Review.set (r : Review) (s : ReviewContract.State) : Review :=
  { r with vc := s.vc, inFlight := s.inFlight }

/-- All that a step can do, with what makes it possible. -/
inductive Steps (p : Phone) : Event → Phone → Prop where
  | create (e : CreateContractVC.Event) (vc : CreateContractVC) (hfront : p.front = true)
      (hscreen : p.screen = .create) (hvisible : e ≠ .viewWillAppear)
      (hstep : p.create.step p.statics e = some vc) : Steps p (.create e) { p with create := vc }
  | created (keys : CreateContractVC.Keys) (now : Date) (hfront : p.front = true)
      (hscreen : p.screen = .create) (hpresented : p.create.presented = some .ready)
      (hfresh : p.Fresh keys.toList) :
      Steps p (.createConfirmed keys now) (p.createConfirmed keys now)
  | signOutThrows (hfront : p.front = true) (hscreen : p.screen = .create)
      (hpresented : p.create.presented = none) : Steps p (.signOutAction true) p
  | signOut (hfront : p.front = true) (hscreen : p.screen = .create)
      (hpresented : p.create.presented = none) : Steps p (.signOutAction false) p.signOutAction
  | signedOut (hdialog : p.signOutDialog = true) : Steps p (.signOutAnswer true) p.signOutConfirmed
  | signOutCancelled (hdialog : p.signOutDialog = true) :
      Steps p (.signOutAnswer false) { p with signOutDialog := false }
  | heard (l : Listener) (u : User) (hlistener : p.listener = some l)
      (hchanged : l.previousUserID ≠ some p.userUID) (huser : p.user = some u) :
      Steps p .listenerCall { p with
        listener := some { l with previousUserID := some p.userUID }
        create := (p.create.authState p.statics u.uid u.displayName).1
        statics := (p.create.authState p.statics u.uid u.displayName).2 }
  | asked (l : Listener) (hlistener : p.listener = some l)
      (hchanged : l.previousUserID ≠ some p.userUID) (huser : p.user = none)
      (hsigningOut : l.signingOut = true) (hpresented : p.create.presented = none) :
      Steps p .listenerCall { p with
        listener := some { l with previousUserID := some p.userUID }
        signOutDialog := true }
  | unheard (l : Listener) (hlistener : p.listener = some l)
      (hchanged : l.previousUserID ≠ some p.userUID) (huser : p.user = none)
      (hquiet : ¬ (l.signingOut = true ∧ p.create.presented = none)) :
      Steps p .listenerCall { p with listener := some { l with previousUserID := some p.userUID } }
  | viewDidAppear (hroot : p.rootUID = "") (hlogin : p.login = none) :
      Steps p .viewDidAppear { p with login := some (.new false), listener := none }
  | signIn (u : User) (hlogin : p.login.isSome = true) (huid : u.uid ≠ "") :
      Steps p (.signIn u) { p with user := some u }
  | loggedIn (l : Listener) (u : User) (hlogin : p.login = some l)
      (hchanged : l.previousUserID ≠ some p.userUID) (huser : p.user = some u) :
      Steps p .loginCall { p with
        rootUID := u.uid
        statics := { p.statics with specialistUID := u.uid }
        login := none }.appear
  | loginUnheard (l : Listener) (hlogin : p.login = some l)
      (hchanged : l.previousUserID ≠ some p.userUID) (huser : p.user = none) :
      Steps p .loginCall { p with login := some { l with previousUserID := some none } }
  | loginDismissed (hlogin : p.login.isSome = true) (huser : p.user.isSome = true) :
      Steps p .loginDismissed { p with login := none }.appear
  | selectAlterations (hfront : p.front = true) (hscreen : p.screen = .create)
      (hpresented : p.create.presented = none) : Steps p .selectAlterations p.toSeeAlterations
  | reviewContract (hfront : p.front = true) (hscreen : p.screen = .create)
      (hpresented : p.create.presented = none) :
      Steps p .reviewContract ({ p with listener := none }.toReview .new)
  | okay (hfront : p.front = true) (hscreen : p.screen = .seeAlterations true ∨
      ∃ r, p.screen = .review r ∧ r.alert = true) : Steps p .okay p.appear
  | leave (hfront : p.front = true) (hscreen : p.screen = .seeAlterations false ∨
      ∃ r, p.screen = .review r ∧ r.alert = false) : Steps p .back p.appear
  | leaveAdd (vc : AddAlterationVC) (hfront : p.front = true)
      (hscreen : p.screen = .addAlteration vc) (hpresented : vc.presented = none) :
      Steps p .back p.toSeeAlterations
  | leaveEdit (r : Review) (vc : EditAlterationVC) (hfront : p.front = true)
      (hscreen : p.screen = .editAlteration r vc) (hpresented : vc.presented = none) :
      Steps p .back (p.toReview r)
  | openAdd (object : AlterationType) (hfront : p.front = true)
      (hscreen : p.screen = .seeAlterations false) :
      Steps p (.openAdd object) { p with screen := .addAlteration (.viewDidLoad object) }
  | add (e : AddAlterationVC.Event) (vc vc' : AddAlterationVC) (hfront : p.front = true)
      (hscreen : p.screen = .addAlteration vc) (hstep : vc.step e = some vc') :
      Steps p (.add e) { p with screen := .addAlteration vc' }
  | added (key : String) (vc : AddAlterationVC) (hfront : p.front = true)
      (hscreen : p.screen = .addAlteration vc) (hpresented : vc.presented = some .confirm)
      (hfresh : p.Fresh [key]) (hcontract : p.statics.contract.uid ≠ "") :
      Steps p (.addConfirmed key) { p.added vc key with
        appends := Function.update p.appends key
          (some ⟨updateAlterationsForContract p.statics.contract.uid key, none⟩) }
  | addTrap (key : String) (vc : AddAlterationVC) (hfront : p.front = true)
      (hscreen : p.screen = .addAlteration vc) (hpresented : vc.presented = some .confirm)
      (hfresh : p.Fresh [key]) (hcontract : p.statics.contract.uid = "") :
      Steps p (.addConfirmed key) { p.added vc key with running := false }
  | reappear (r : Review) (hfront : p.front = true) (hscreen : p.screen = .review r)
      (halert : r.alert = false) : Steps p .reappear (p.toReview r)
  | take (i : Nat) (r : Review) (s : ReviewContract.State) (hscreen : p.screen = .review r)
      (hstep : ReviewContract.step (r.state p) (.take i) = some s) :
      Steps p (.take i) { p with screen := .review (r.set s) }
  | takeUnder (i : Nat) (r : Review) (vc : EditAlterationVC) (s : ReviewContract.State)
      (hscreen : p.screen = .editAlteration r vc)
      (hstep : ReviewContract.step (r.state p) (.take i) = some s) :
      Steps p (.take i) { p with screen := .editAlteration (r.set s) vc }
  | deliver (i : Nat) (r : Review) (s : ReviewContract.State) (hscreen : p.screen = .review r)
      (hstep : ReviewContract.step (r.state p) (.deliver i) = some s) :
      Steps p (.deliver i) { p with screen := .review (r.set s) }
  | deliverUnder (i : Nat) (r : Review) (vc : EditAlterationVC) (s : ReviewContract.State)
      (hscreen : p.screen = .editAlteration r vc)
      (hstep : ReviewContract.step (r.state p) (.deliver i) = some s) :
      Steps p (.deliver i) { p with screen := .editAlteration (r.set s) vc }
  | tap (row : Nat) (r : Review) (a : AlterationStruct) (hfront : p.front = true)
      (hscreen : p.screen = .review r) (halert : r.alert = false) (hshown : row < r.vc.rowCount)
      (hrow : r.vc.alterationStructArray[row]? = some a) :
      Steps p (.tap row) { p with screen := .editAlteration r (.viewDidLoad a) }
  | tapTrap (row : Nat) (r : Review) (hfront : p.front = true) (hscreen : p.screen = .review r)
      (halert : r.alert = false) (hshown : row < r.vc.rowCount)
      (hrow : r.vc.alterationStructArray[row]? = none) :
      Steps p (.tap row) { p with running := false }
  | edit (e : EditAlterationVC.Event) (r : Review) (vc vc' : EditAlterationVC)
      (hfront : p.front = true) (hscreen : p.screen = .editAlteration r vc)
      (hstep : vc.step e = some vc') : Steps p (.edit e) { p with screen := .editAlteration r vc' }
  | edited (r : Review) (vc : EditAlterationVC) (w : Write) (hfront : p.front = true)
      (hscreen : p.screen = .editAlteration r vc) (hpresented : vc.presented = some .confirm)
      (hw : vc.confirmHandler = some w) : Steps p .editConfirmed ((p.write [w]).toReview r)
  | editTrap (r : Review) (vc : EditAlterationVC) (hfront : p.front = true)
      (hscreen : p.screen = .editAlteration r vc) (hpresented : vc.presented = some .confirm)
      (hw : vc.confirmHandler = none) : Steps p .editConfirmed { p with running := false }
  | reviewAndSign (now : Date) (r : Review) (hfront : p.front = true)
      (hscreen : p.screen = .review r) (halert : r.alert = false) :
      Steps p (.reviewAndSign now) p
  | appendTake (u : String) (a : ListAppend) (happend : p.appends u = some ⟨a, none⟩) :
      Steps p (.appendTake u) { p with
        appends := Function.update p.appends u (some ⟨a, some (p.db.sub a.target.node)⟩) }
  | takeIdle (u : String) (hidle : ∀ a, p.appends u ≠ some ⟨a, none⟩) : Steps p (.appendTake u) p
  | appendCallback (u : String) (a : ListAppend) (value : Node)
      (happend : p.appends u = some ⟨a, some value⟩) :
      Steps p (.appendCallback u) ({ p with appends := Function.update p.appends u none }.write
        (a.callback value).toList)
  | callbackIdle (u : String) (hidle : ∀ a value, p.appends u ≠ some ⟨a, some value⟩) :
      Steps p (.appendCallback u) p
  | remote (w : Write) (hw : FromApp w) :
      Steps p (.remote w) { p.write [w] with keys := p.keys ++ w.node.tail }

section Inversion
variable {p p' : Phone} {e : Event}

theorem steps_of_okay (hfront : p.front = true) (h : p.okay = some p') : Steps p .okay p' := by
  simp only [Phone.okay] at h
  split at h
  · rename_i hscreen
    cases h
    exact .okay hfront (Or.inl hscreen)
  · rename_i r hscreen
    split at h
    · rename_i halert
      cases h
      exact .okay hfront (Or.inr ⟨r, hscreen, halert⟩)
    · cases h
  · cases h

theorem steps_of_back (hfront : p.front = true) (h : p.back = some p') : Steps p .back p' := by
  simp only [Phone.back] at h
  split at h
  · rename_i hscreen
    cases h
    exact .leave hfront (Or.inl hscreen)
  · rename_i vc hscreen
    split at h
    · rename_i hpresented
      cases h
      exact .leaveAdd vc hfront hscreen hpresented
    · cases h
  · rename_i r hscreen
    split at h
    · cases h
    · rename_i halert
      cases h
      exact .leave hfront (Or.inr ⟨r, hscreen, by simpa using halert⟩)
  · rename_i r vc hscreen
    split at h
    · rename_i hpresented
      cases h
      exact .leaveEdit r vc hfront hscreen hpresented
    · cases h
  · cases h

theorem steps_of_addConfirmed {vc : AddAlterationVC} {key : String} (hfront : p.front = true)
    (hscreen : p.screen = .addAlteration vc) (hpresented : vc.presented = some .confirm)
    (hfresh : p.Fresh [key]) : Steps p (.addConfirmed key) (p.addConfirmed vc key) := by
  by_cases hcontract : p.statics.contract.uid = ""
  · rw [Phone.addConfirmed, if_pos hcontract]
    exact .addTrap key vc hfront hscreen hpresented hfresh hcontract
  · rw [Phone.addConfirmed, if_neg hcontract]
    exact .added key vc hfront hscreen hpresented hfresh hcontract

theorem steps_of_tap {r : Review} {row : Nat} (hfront : p.front = true)
    (hscreen : p.screen = .review r) (halert : r.alert = false) (h : p.tap r row = some p') :
    Steps p (.tap row) p' := by
  simp only [Phone.tap] at h
  split at h
  · rename_i hshown
    split at h
    · rename_i a hrow
      cases h
      exact .tap row r a hfront hscreen halert hshown hrow
    · rename_i hrow
      cases h
      exact .tapTrap row r hfront hscreen halert hshown hrow
  · cases h

theorem steps_of_editConfirmed {r : Review} {vc : EditAlterationVC} (hfront : p.front = true)
    (hscreen : p.screen = .editAlteration r vc) (hpresented : vc.presented = some .confirm) :
    Steps p .editConfirmed (p.editConfirmed r vc) := by
  simp only [Phone.editConfirmed]
  split
  · rename_i w hw
    exact .edited r vc w hfront hscreen hpresented hw
  · rename_i hw
    exact .editTrap r vc hfront hscreen hpresented hw

theorem steps_of_act (hfront : p.front = true) (h : act p e = some p') :
    Steps p e p' := by
  cases e with
  | create e =>
    have hvisible : e ≠ .viewWillAppear := by
      rintro rfl
      cases h
    have hact : act p (.create e) = match p.screen with
        | .create => (p.create.step p.statics e).map fun vc => { p with create := vc }
        | _ => none := by
      cases e <;> first | rfl | exact absurd rfl hvisible
    rw [hact] at h
    split at h
    · rename_i hscreen
      obtain ⟨vc, hstep, rfl⟩ := Option.map_eq_some_iff.mp h
      exact .create e vc hfront hscreen hvisible hstep
    · cases h
  | createConfirmed keys now =>
    simp only [act] at h
    split at h
    · rename_i hscreen
      split at h
      · rename_i hready
        cases h
        exact .created keys now hfront hscreen hready.1 hready.2
      · cases h
    · cases h
  | signOutAction throws =>
    simp only [act] at h
    split at h
    · rename_i hscreen
      split at h
      · rename_i hpresented
        cases throws with
        | true =>
          cases h
          exact .signOutThrows hfront hscreen hpresented
        | false =>
          cases h
          exact .signOut hfront hscreen hpresented
      · cases h
    · cases h
  | selectAlterations =>
    simp only [act] at h
    split at h
    · rename_i hscreen
      split at h
      · rename_i hpresented
        cases h
        exact .selectAlterations hfront hscreen hpresented
      · cases h
    · cases h
  | reviewContract =>
    simp only [act] at h
    split at h
    · rename_i hscreen
      split at h
      · rename_i hpresented
        cases h
        exact .reviewContract hfront hscreen hpresented
      · cases h
    · cases h
  | okay => exact steps_of_okay hfront h
  | back => exact steps_of_back hfront h
  | openAdd object =>
    simp only [act] at h
    split at h
    · rename_i hscreen
      cases h
      exact .openAdd object hfront hscreen
    · cases h
  | add e =>
    simp only [act] at h
    split at h
    · rename_i vc hscreen
      obtain ⟨vc', hstep, rfl⟩ := Option.map_eq_some_iff.mp h
      exact .add e vc vc' hfront hscreen hstep
    · cases h
  | addConfirmed key =>
    simp only [act] at h
    split at h
    · rename_i vc hscreen
      split at h
      · rename_i hready
        cases h
        exact steps_of_addConfirmed hfront hscreen hready.1 hready.2
      · cases h
    · cases h
  | reappear =>
    simp only [act] at h
    split at h
    · rename_i r hscreen
      split at h
      · cases h
      · rename_i halert
        cases h
        exact .reappear r hfront hscreen (by simpa using halert)
    · cases h
  | tap row =>
    simp only [act] at h
    split at h
    · rename_i r hscreen
      split at h
      · cases h
      · rename_i halert
        exact steps_of_tap hfront hscreen (by simpa using halert) h
    · cases h
  | edit e =>
    simp only [act] at h
    split at h
    · rename_i r vc hscreen
      obtain ⟨vc', hstep, rfl⟩ := Option.map_eq_some_iff.mp h
      exact .edit e r vc vc' hfront hscreen hstep
    · cases h
  | editConfirmed =>
    simp only [act] at h
    split at h
    · rename_i r vc hscreen
      split at h
      · rename_i hpresented
        cases h
        exact steps_of_editConfirmed hfront hscreen hpresented
      · cases h
    · cases h
  | reviewAndSign now =>
    simp only [act] at h
    split at h
    · rename_i r hscreen
      split at h
      · cases h
      · rename_i halert
        cases h
        exact .reviewAndSign now r hfront hscreen (by simpa using halert)
    · cases h
  | _ => cases h

theorem steps_of_auth (h : auth p e = some p') : Steps p e p' := by
  cases e with
  | signOutAnswer confirm =>
    simp only [auth] at h
    split at h
    · rename_i hdialog
      cases confirm with
      | true =>
        cases h
        exact .signedOut hdialog
      | false =>
        cases h
        exact .signOutCancelled hdialog
    · cases h
  | listenerCall =>
    simp only [auth] at h
    split at h
    · rename_i l hlistener
      split at h
      · cases h
      · rename_i hchanged
        cases h
        simp only [Phone.listenerCall]
        split
        · rename_i u huser
          exact .heard l u hlistener hchanged huser
        · rename_i huser
          split
          · rename_i hasks
            exact .asked l hlistener hchanged huser hasks.1 hasks.2
          · rename_i hquiet
            exact .unheard l hlistener hchanged huser hquiet
    · cases h
  | viewDidAppear =>
    simp only [auth] at h
    split at h
    · rename_i hready
      cases h
      exact .viewDidAppear hready.1 hready.2
    · cases h
  | signIn u =>
    simp only [auth] at h
    split at h
    · rename_i hready
      cases h
      exact .signIn u hready.1 hready.2
    · cases h
  | loginCall =>
    simp only [auth] at h
    split at h
    · rename_i l hlogin
      split at h
      · cases h
      · rename_i hchanged
        cases h
        simp only [Phone.loginCall]
        split
        · rename_i u huser
          exact .loggedIn l u hlogin hchanged huser
        · rename_i huser
          exact .loginUnheard l hlogin hchanged huser
    · cases h
  | loginDismissed =>
    simp only [auth] at h
    split at h
    · rename_i hready
      cases h
      exact .loginDismissed hready.1 hready.2
    · cases h
  | _ => cases h

theorem reviewStep_eq {e : ReviewContract.Event} (h : p.reviewStep e = some p') :
    ∃ r s, ReviewContract.step (r.state p) e = some s ∧
      (p.screen = .review r ∧ p' = { p with screen := .review (r.set s) } ∨
        ∃ vc, p.screen = .editAlteration r vc ∧
          p' = { p with screen := .editAlteration (r.set s) vc }) := by
  simp only [Phone.reviewStep] at h
  split at h
  · rename_i r hscreen
    obtain ⟨s, hstep, rfl⟩ := Option.map_eq_some_iff.mp h
    exact ⟨r, s, hstep, Or.inl ⟨hscreen, rfl⟩⟩
  · rename_i r vc hscreen
    obtain ⟨s, hstep, rfl⟩ := Option.map_eq_some_iff.mp h
    exact ⟨r, s, hstep, Or.inr ⟨vc, hscreen, rfl⟩⟩
  · cases h

theorem steps_of_database (h : database p e = some p') :
    Steps p e p' := by
  cases e with
  | take i =>
    obtain ⟨r, s, hstep, ⟨hscreen, rfl⟩ | ⟨vc, hscreen, rfl⟩⟩ := reviewStep_eq h
    · exact .take i r s hscreen hstep
    · exact .takeUnder i r vc s hscreen hstep
  | deliver i =>
    obtain ⟨r, s, hstep, ⟨hscreen, rfl⟩ | ⟨vc, hscreen, rfl⟩⟩ := reviewStep_eq h
    · exact .deliver i r s hscreen hstep
    · exact .deliverUnder i r vc s hscreen hstep
  | appendTake u =>
    simp only [database] at h
    split at h
    · rename_i a happend
      cases h
      exact .appendTake u a happend
    · rename_i hidle
      cases h
      exact .takeIdle u hidle
  | appendCallback u =>
    simp only [database] at h
    split at h
    · rename_i a value happend
      cases h
      exact .appendCallback u a value happend
    · rename_i hidle
      cases h
      exact .callbackIdle u hidle
  | remote w =>
    simp only [database] at h
    split at h
    · rename_i hw
      cases h
      exact .remote w hw
    · cases h
  | _ => cases h

theorem running_of_step (h : step p e = some p') :
    p.running = true := by
  simp only [step] at h
  split at h
  · rename_i hrunning
    exact hrunning
  · cases h

theorem steps_of_step (h : step p e = some p') : Steps p e p' := by
  have hrunning := running_of_step h
  simp only [step, hrunning, if_true] at h
  split at h
  · exact steps_of_auth h
  · exact steps_of_auth h
  · exact steps_of_auth h
  · exact steps_of_auth h
  · exact steps_of_auth h
  · exact steps_of_auth h
  · exact steps_of_database h
  · exact steps_of_database h
  · exact steps_of_database h
  · exact steps_of_database h
  · exact steps_of_database h
  · split at h
    · rename_i hfront
      exact steps_of_act hfront h
    · cases h

/-- What is possible is what the step does. -/
theorem step_of_steps (hrunning : p.running = true) (h : Steps p e p') : step p e = some p' := by
  cases h with
  | create e vc hfront hscreen hvisible hstep =>
    have hact : act p (.create e) = some { p with create := vc } := by
      cases e <;> first | exact absurd rfl hvisible | simp only [act, hscreen, hstep, Option.map_some]
    simp only [step, hrunning, hfront, if_true, hact]
  | created keys now hfront hscreen hpresented hfresh =>
    simp only [step, act, hrunning, hfront, hscreen, hpresented, hfresh, and_self, if_true]
  | signOutThrows hfront hscreen hpresented =>
    simp only [step, act, hrunning, hfront, hscreen, hpresented, if_true]
  | signOut hfront hscreen hpresented =>
    simp [step, act, hrunning, hfront, hscreen, hpresented]
  | signedOut hdialog => simp [step, auth, hrunning, hdialog]
  | signOutCancelled hdialog => simp [step, auth, hrunning, hdialog]
  | heard l u hlistener hchanged huser =>
    simp only [step, auth, hrunning, hlistener, hchanged, Phone.listenerCall, huser, if_true,
      if_false]
  | asked l hlistener hchanged huser hsigningOut hpresented =>
    simp [step, auth, hrunning, hlistener, hchanged, Phone.listenerCall, huser, hsigningOut,
      hpresented]
  | unheard l hlistener hchanged huser hquiet =>
    simp [step, auth, hrunning, hlistener, hchanged, Phone.listenerCall, huser, hquiet]
  | viewDidAppear hroot hlogin => simp [step, auth, hrunning, hroot, hlogin]
  | signIn u hlogin huid => simp [step, auth, hrunning, hlogin, huid]
  | loggedIn l u hlogin hchanged huser =>
    simp [step, auth, hrunning, hlogin, hchanged, Phone.loginCall, huser]
  | loginUnheard l hlogin hchanged huser =>
    simp [step, auth, hrunning, hlogin, hchanged, Phone.loginCall, huser]
  | loginDismissed hlogin huser => simp [step, auth, hrunning, hlogin, huser]
  | selectAlterations hfront hscreen hpresented | reviewContract hfront hscreen hpresented =>
    simp [step, act, hrunning, hfront, hscreen, hpresented]
  | okay hfront hscreen =>
    obtain hscreen | ⟨r, hscreen, halert⟩ := hscreen
    · simp [step, act, hrunning, hfront, Phone.okay, hscreen]
    · simp [step, act, hrunning, hfront, Phone.okay, hscreen, halert]
  | leave hfront hscreen =>
    obtain hscreen | ⟨r, hscreen, halert⟩ := hscreen
    · simp [step, act, hrunning, hfront, Phone.back, hscreen]
    · simp [step, act, hrunning, hfront, Phone.back, hscreen, halert]
  | leaveAdd vc hfront hscreen hpresented | leaveEdit r vc hfront hscreen hpresented =>
    simp [step, act, hrunning, hfront, Phone.back, hscreen, hpresented]
  | openAdd object hfront hscreen => simp [step, act, hrunning, hfront, hscreen]
  | add e vc vc' hfront hscreen hstep | edit e r vc vc' hfront hscreen hstep =>
    simp [step, act, hrunning, hfront, hscreen, hstep]
  | added key vc hfront hscreen hpresented hfresh hcontract
  | addTrap key vc hfront hscreen hpresented hfresh hcontract =>
    simp [step, act, hrunning, hfront, hscreen, hpresented, hfresh, Phone.addConfirmed, hcontract]
  | reappear r hfront hscreen halert | reviewAndSign now r hfront hscreen halert =>
    simp [step, act, hrunning, hfront, hscreen, halert]
  | take i r s hscreen hread | takeUnder i r vc s hscreen hread
  | deliver i r s hscreen hread | deliverUnder i r vc s hscreen hread =>
    simp only [Review.state] at hread
    simp [step, database, hrunning, Phone.reviewStep, hscreen, hread, Review.set]
  | tap row r a hfront hscreen halert hshown hrow | tapTrap row r hfront hscreen halert hshown hrow =>
    simp [step, act, hrunning, hfront, hscreen, halert, Phone.tap, hshown, hrow]
  | edited r vc w hfront hscreen hpresented hw | editTrap r vc hfront hscreen hpresented hw =>
    simp [step, act, hrunning, hfront, hscreen, hpresented, Phone.editConfirmed, hw]
  | appendTake u a happend => simp [step, database, hrunning, happend]
  | takeIdle u hidle =>
    match happend : p.appends u with
    | none | some ⟨a, some value⟩ => simp [step, database, hrunning, happend]
    | some ⟨a, none⟩ => exact absurd happend (hidle a)
  | appendCallback u a value happend => simp [step, database, hrunning, happend]
  | callbackIdle u hidle =>
    match happend : p.appends u with
    | none | some ⟨a, none⟩ => simp [step, database, hrunning, happend]
    | some ⟨a, some value⟩ => exact absurd happend (hidle a value)
  | remote w hw => simp [step, database, hrunning, hw]

theorem fresh_of_created {keys : CreateContractVC.Keys} {t : Date}
    (h : Steps p (.createConfirmed keys t) p') : p.Fresh keys.toList := by
  cases h with
  | created _ _ _ _ _ hfresh => exact hfresh

theorem fresh_of_added {key : String} (h : Steps p (.addConfirmed key) p') : p.Fresh [key] := by
  cases h with
  | added _ _ _ _ _ hfresh | addTrap _ _ _ _ _ hfresh => exact hfresh

end Inversion

def Event.creates : Event → Bool
  | .createConfirmed _ _ => true
  | _ => false

/-- Another device has written. -/
def Event.foreign : Event → Bool
  | .remote _ => true
  | _ => false

def Event.movesPicker : Event → Bool
  | .create (.datePickerAction _) => true
  | _ => false

/-- What the device writes in a step. -/
def issued (p : Phone) : Event → List Write
  | .createConfirmed keys now => p.create.createdWrites p.statics keys now
  | .addConfirmed newAlterationKey => match p.screen with
    | .addAlteration vc =>
      let contractUID := p.statics.contract.uid
      [(AddAlterationVC.makeAlteration newAlterationKey contractUID vc.myAlterationStruct).2]
    | _ => []
  | .editConfirmed => match p.screen with
    | .editAlteration _ vc => vc.confirmHandler.toList
    | _ => []
  | .appendCallback u => match p.appends u with
    | some ⟨a, some value⟩ => (a.callback value).toList
    | _ => []
  | _ => []

/-- Where each write of a step comes from. -/
inductive Issues (p : Phone) : Event → Write → Prop where
  | created (keys : CreateContractVC.Keys) (now : Date) (w : Write)
      (hw : w ∈ p.create.createdWrites p.statics keys now) : Issues p (.createConfirmed keys now) w
  | added (key : String) (vc : AddAlterationVC) (hscreen : p.screen = .addAlteration vc) :
      Issues p (.addConfirmed key)
        (AddAlterationVC.makeAlteration key p.statics.contract.uid vc.myAlterationStruct).2
  | edited (r : Review) (vc : EditAlterationVC) (w : Write) (hscreen : p.screen = .editAlteration r vc)
      (hw : vc.confirmHandler = some w) : Issues p .editConfirmed w
  | appended (u : String) (a : ListAppend) (value : Node) (w : Write)
      (happend : p.appends u = some ⟨a, some value⟩) (hw : a.callback value = some w) :
      Issues p (.appendCallback u) w

theorem issues_of_mem {p : Phone} {e : Event} {w : Write} (h : w ∈ issued p e) : Issues p e w := by
  cases e with
  | createConfirmed keys now => exact .created keys now w h
  | addConfirmed key =>
    simp only [issued] at h
    split at h
    · rename_i vc hscreen
      obtain rfl := List.mem_singleton.mp h
      exact .added key vc hscreen
    · cases h
  | editConfirmed =>
    simp only [issued] at h
    split at h
    · rename_i r vc hscreen
      exact .edited r vc w hscreen (Option.mem_toList.mp h)
    · cases h
  | appendCallback u =>
    simp only [issued] at h
    split at h
    · rename_i a value happend
      exact .appended u a value w happend (Option.mem_toList.mp h)
    · cases h
  | _ => cases h

theorem issued_idle {p : Phone} {u : String}
    (hidle : ∀ a value, p.appends u ≠ some ⟨a, some value⟩) :
    issued p (.appendCallback u) = [] := by
  match happend : p.appends u with
  | none | some ⟨a, none⟩ => simp [issued, happend]
  | some ⟨a, some value⟩ => exact absurd happend (hidle a value)

theorem db_of_steps {p p' : Phone} {e : Event} (h : Steps p e p') (he : e.foreign = false) :
    p'.db = (issued p e).foldl (fun db w => w.apply db) p.db := by
  cases h with
  | added key vc hfront hscreen => simp [issued, hscreen, Phone.added, Phone.toSeeAlterations, Phone.write]
  | addTrap key vc hfront hscreen =>
    simp [issued, hscreen, Phone.added, Phone.toSeeAlterations, Phone.write]
  | edited r vc w hfront hscreen hpresented hw =>
    simp [issued, hscreen, hw, Phone.toReview, Phone.write]
  | editTrap r vc hfront hscreen hpresented hw => simp [issued, hscreen, hw]
  | appendCallback u a value happend => simp [issued, happend, Phone.write]
  | callbackIdle u hidle => simp [issued_idle hidle]
  | remote w => cases he
  | _ => rfl

theorem forall_update {α : Type*} {f : String → Option α} {u : String} {v : Option α}
    {P : String → α → Prop} (h : ∀ u a, f u = some a → P u a) (hv : ∀ a, v = some a → P u a) :
    ∀ u' a, Function.update f u v u' = some a → P u' a := by
  intro u' a ha
  by_cases hu : u' = u
  · subst hu
    rw [Function.update_self] at ha
    exact hv a ha
  · rw [Function.update_of_ne hu] at ha
    exact h u' a ha

/-- The app was just opened, at the time `now`. -/
def Phone.opened (pickerDate now currentDate originalDate : Date) (db : Node)
    (keys : List String) (user : Option User) : Phone where
  running := true
  db := db
  keys := keys
  appends := fun _ => none
  user := user
  rootUID := ""
  login := none
  listener := some (.new false)
  signOutDialog := false
  statics := Statics.initial currentDate originalDate
  create := .new pickerDate now
  screen := .create

/-- The app was just opened on any store, with anybody or nobody signed in. -/
def Launched (pickerDate now currentDate originalDate : Date) (p : Phone) : Prop :=
  ∃ db keys user, (∀ u, user = some u → u.uid ≠ "") ∧
    p = .opened pickerDate now currentDate originalDate db keys user

/-- Sue is signed in on a new database; the picker opens on another day. -/
def suesPhone : Phone := .opened 10 0 0 0 KeyTree.empty [] (some ⟨"s", some "Sue"⟩)

/-- The app finds out who is signed in. -/
def sueGreeted : List Event := [.viewDidAppear, .loginCall, .listenerCall]

/-- Ann's contract is asked for. -/
def annAsked : List Event := [
  .create (.typeBust "36"), .create (.typeWaist "26"), .create (.typeHip "38"),
  .create (.typeBrideName "Ann"), .create .createContractAction]

def annCreated : Event := .createConfirmed ⟨"d", "c", "b", "m"⟩ 0

/-- Her contract is created, and an alteration is added to it and loaded for review. -/
def addedAndLoaded (object : AlterationType) : List Event := sueGreeted ++ annAsked ++ [annCreated,
  .openAdd object, .add .updateTotalAction, .add .addToContractAction, .addConfirmed "a",
  .appendTake "a", .appendCallback "a", .back, .reviewContract, .take 0, .deliver 0, .take 0,
  .deliver 0]

theorem launched_suesPhone : Launched 10 0 0 0 suesPhone :=
  ⟨_, _, _, fun _ hu => by cases hu; decide, rfl⟩

end Pincushion.Navigation
