import Pincushion.Cleared
import Pincushion.OwnRecords

/-! Two histories of a phone that end with a confirmed sign-out, and one session after
them. Two values on the screen that creates contracts outlive the sign-out, the date
and the copy of the uid, and each creation stores them. -/
namespace Pincushion.Isolation
open KeyTree SwiftNumber Structs Singletons FirebaseHelpers AlterationScreens CreateContract
open ReviewContract (Message Request ReviewContractVC ContractPDF)
open Network Runs Navigation ReviewReads OwnRecords Cleared

/-- The phone after each of the histories, and what the session owns on both. -/
structure Pair where
  first : Phone
  second : Phone
  own : List (List String)

/-- Both take the same step, which is one of the session and not another device's. -/
def Pair.step (s : Pair) (e : Event) : Option Pair :=
  if e.foreign then none
  else do
    let first ← Navigation.step s.first e
    let second ← Navigation.step s.second e
    return ⟨first, second, made e ++ s.own⟩

/-- What the session writes; an append that an earlier one left is not its own. -/
def written (own : List (List String)) (p : Phone) : Event → List Write
  | .appendCallback u => if OwnAlteration own u then issued p (.appendCallback u) else []
  | e => issued p e

def printed (p : Phone) (e : Event) : Option ContractPDF := match e, p.screen with
  | .reviewAndSign now, .review r => some (ReviewContract.reviewAndSignAction (r.state p) now)
  | _, _ => none

/-- The session writes the same records after both histories, and prints the same. -/
def SameOutput (s : Pair) (e : Event) : Prop :=
  written s.own s.first e = written s.own s.second e ∧ printed s.first e = printed s.second e

instance (s : Pair) (e : Event) : Decidable (SameOutput s e) := inferInstanceAs (Decidable (_ ∧ _))

/-- Whether the date and the uid are the same after both histories. -/
structure Entered where
  date : Bool
  uid : Bool

/-- A move of the picker makes the date the same, and a call for a user the uid. -/
def entered (s : Pair) (e : Event) (m : Entered) : Entered where
  date := e.movesPicker || m.date
  uid := e matches .listenerCall && s.first.user.isSome || m.uid

/-- What they are when the session starts. -/
def leftEntered (p q : Phone) : Entered where
  date := p.create.selectedDate = q.create.selectedDate
  uid := p.create.currentUserUID = q.create.currentUserUID

/-- Every creation comes after a move of the picker and after the screen has heard who is
signed in, where the histories have left different values. -/
def EntersOwn (m : Entered) (_ : Pair) (e : Event) : Prop :=
  e.creates = true → m.date = true ∧ m.uid = true

instance (m : Entered) (s : Pair) (e : Event) : Decidable (EntersOwn m s e) :=
  inferInstanceAs (Decidable (_ → _))

/-- The same to the session: what it owns and what the screens show, but for the date
and the copy of the uid. -/
structure Alike (m : Entered) (own : List (List String)) (p q : Phone) : Prop where
  running : q.running = p.running
  db : ∀ c k, [c, k] ∈ own → q.db.sub [c, k] = p.db.sub [c, k]
  appends : ∀ u, OwnAlteration own u → q.appends u = p.appends u
  user : q.user = p.user
  signedIn : ∀ u, p.user = some u → u.uid ≠ ""
  rootUID : p.rootUID ≠ "" ∧ q.rootUID ≠ ""
  login : q.login = p.login
  listener : q.listener = p.listener
  signOutDialog : q.signOutDialog = p.signOutDialog
  statics : q.statics = p.statics
  screen : q.screen = p.screen
  form : SameForm p.create q.create
  date : m.date = true ↔ p.create.selectedDate = q.create.selectedDate
  uid : m.uid = true ↔ p.create.currentUserUID = q.create.currentUserUID

variable {p p' q q' : Phone} {e : Event} {own : List (List String)} {m : Entered}
variable {v w : CreateContractVC} {g : Statics} {keys : CreateContractVC.Keys} {t : Date}
variable {r : Review} {i : Nat}

/-- A step has one outcome. -/
theorem determined {m : Phone} (hq : Navigation.step q e = some q') (h : Steps q e m) : q' = m :=
  Option.some.inj (hq.symm.trans (step_of_steps (running_of_step hq) h))

theorem Alike.front (h : Alike m own p q) (hfront : p.front = true) : q.front = true := by
  obtain ⟨hlogin, hdialog, hroot⟩ := Phone.front_eq hfront
  simp [Phone.front, h.login, hlogin, h.signOutDialog, hdialog, h.rootUID.2]

theorem Alike.userUID (h : Alike m own p q) : q.userUID = p.userUID := by
  simp only [Phone.userUID, h.user]

/-- Equal writes keep the own records equal, and a record written whole becomes equal. -/
theorem db_alike (h : Alike m own p q) (hp : Steps p e p') (hq : Navigation.step q e = some q')
    (he : e.foreign = false) (hout : issued p e = issued q e)
    (hmade : ∀ c k, [c, k] ∈ made e → ∃ w ∈ issued p e, w.path = [c, k]) :
    ∀ c k, [c, k] ∈ made e ++ own → q'.db.sub [c, k] = p'.db.sub [c, k] := by
  intro c k hown
  rw [db_of_steps hp he, db_of_steps (steps_of_step hq) he, ← hout]
  cases List.mem_append.mp hown with
  | inl hnew =>
    obtain ⟨w, hw, hpath⟩ := hmade c k hnew
    exact sub_foldl_of_mem hw hpath
  | inr hown => exact sub_foldl_congr _ (h.db c k hown)

/-- What the creation stores is on the screen, but for the date and the uid. -/
theorem createdWrites_iff (h : SameForm v w) :
    v.createdWrites g keys t = w.createdWrites g keys t ↔
      v.selectedDate = w.selectedDate ∧ v.currentUserUID = w.currentUserUID := by
  constructor
  · intro hws
    have hcontract : (v.makeContract g keys.contract keys.dress).2 =
        (w.makeContract g keys.contract keys.dress).2 :=
      (List.cons.inj (List.cons.inj hws).2).1
    simp only [CreateContractVC.makeContract, addContractToFBDB, Write.contract.injEq,
      Contract.mk.injEq] at hcontract
    exact ⟨hcontract.2.2.2.2.2.1, hcontract.2.2.2.2.1⟩
  · rintro ⟨hdate, huid⟩
    simp only [CreateContractVC.createdWrites, CreateContractVC.createdStatics,
      CreateContractVC.makeDress, CreateContractVC.makeContract, h.getMeasurements,
      h.brideNameField, h.purchaseDate, hdate, huid]

/-- The reads of own records find the same in both stores. -/
theorem take_alike (h : Alike m own p q) (hr : ReviewOwned own r) {s : ReviewContract.State}
    (hstep : ReviewContract.step (r.state p) (.take i) = some s) :
    ∃ s', ReviewContract.step (r.state q) (.take i) = some s' ∧ r.set s' = r.set s := by
  obtain ⟨request, hi, rfl⟩ := ReviewContract.take_eq.mp hstep
  have hsub : q.db.sub request.path = p.db.sub request.path := by
    have hown := hr.inFlight _ (List.mem_of_getElem? hi)
    cases request with
    | alterations c => exact congrArg (·.sub ["alterations"]) (h.db _ _ hown.1)
    | alteration u => exact h.db _ _ hown.1
  refine ⟨_, ReviewContract.take_eq.mpr ⟨request, hi, rfl⟩, ?_⟩
  simp only [Review.set, Review.state, hsub]

theorem deliver_alike {s : ReviewContract.State}
    (hstep : ReviewContract.step (r.state p) (.deliver i) = some s) :
    ∃ s', ReviewContract.step (r.state q) (.deliver i) = some s' ∧ r.set s' = r.set s := by
  obtain ⟨request, value, hi, rfl⟩ := ReviewContract.deliver_eq.mp hstep
  exact ⟨_, ReviewContract.deliver_eq.mpr ⟨request, value, hi, rfl⟩, rfl⟩

theorem alike_untouched (h : Alike m own p q) (hp : Untouched own p p')
    (hq : Untouched own q q') : Alike m own p' q' := by
  rw [hp.rest, hq.rest]
  exact { h with
    db := fun c k hown => (hq.db c k hown).trans ((h.db c k hown).trans (hp.db c k hown).symm)
    appends := fun u hu =>
      (hq.appends u hu).trans ((h.appends u hu).trans (hp.appends u hu).symm) }

theorem alike_created (h : Alike m own p q) (hp : Steps p (.createConfirmed keys t) p')
    (hq : Navigation.step q (.createConfirmed keys t) = some q')
    (hout : issued p (.createConfirmed keys t) = issued q (.createConfirmed keys t)) :
    Alike m (made (.createConfirmed keys t) ++ own) p' q' := by
  have hmade : ∀ c k, [c, k] ∈ made (.createConfirmed keys t) →
      ∃ w ∈ issued p (.createConfirmed keys t), w.path = [c, k] := by
    intro c k hnew
    refine ⟨_, List.mem_cons_of_mem _ (List.mem_cons_self ..), ?_⟩
    exact (List.mem_singleton.mp hnew).symm
  have hdb := db_alike h hp hq rfl hout hmade
  have hcreated : SameForm (p.create.created keys) (q.create.created keys) :=
    { h.form with presented := rfl }
  simp only [issued, h.statics] at hout
  obtain ⟨hdate, huid⟩ := (createdWrites_iff h.form).mp hout
  cases hp with
  | created keys t hfront hscreen hpresented hfresh =>
    obtain rfl := determined hq (.created keys t (h.front hfront) (h.screen.trans hscreen)
      (h.form.presented.trans hpresented) (fresh_of_created (steps_of_step hq)))
    have hstatics : q.create.createdStatics q.statics keys =
        p.create.createdStatics p.statics keys := by
      simp only [CreateContractVC.createdStatics, CreateContractVC.updateContractSingleton,
        CreateContractVC.created, h.statics, hdate, huid, h.form.brideNameField,
        h.form.getMeasurements]
    exact { h with
      db := hdb
      appends := fun u hu => h.appends u (ownAlteration_created.mp hu)
      listener := rfl
      statics := hstatics
      screen := by simp only [Phone.createConfirmed, Phone.toSeeAlterations, hstatics]
      form := hcreated }

/-- The new alteration and the list in memory are the same. -/
theorem alike_record {key : String} (h : Alike m own p q) (vc : AddAlterationVC)
    (hp : p.appends key = none) (hq : q.appends key = none) :
    Alike m (made (.addConfirmed key) ++ own) (p.added vc key) (q.added vc key) := by
  have hstatics : vc.appendToCurrent key q.statics = vc.appendToCurrent key p.statics := by
    rw [h.statics]
  refine { h with
    db := fun c k hown => ?_
    appends := fun u hu => ?_
    listener := rfl
    statics := hstatics
    screen := congrArg (fun g : Statics => Screen.seeAlterations (g.contract.uid = "")) hstatics }
  · simp only [Phone.added, Phone.toSeeAlterations, Phone.write, h.statics]
    cases List.mem_append.mp hown with
    | inl hnew => exact sub_foldl_of_mem (List.mem_singleton_self _) (List.mem_singleton.mp hnew).symm
    | inr hown => exact sub_foldl_congr _ (h.db c k hown)
  · by_cases hu' : u = key
    · subst hu'
      exact hq.trans hp.symm
    · exact h.appends u ((ownAlteration_added hu').mp hu)

theorem alike_added {key : String} (h : Alike m own p q) (hknown₁ : Known p) (hknown₂ : Known q)
    (hp : Steps p (.addConfirmed key) p') (hq : Navigation.step q (.addConfirmed key) = some q') :
    Alike m (made (.addConfirmed key) ++ own) p' q' := by
  have hfresh₁ := fresh_of_added hp
  have hfresh₂ := fresh_of_added (steps_of_step hq)
  have hnone₁ := hknown₁.unasked (hfresh₁.2 key (List.mem_singleton_self key)).2
  have hnone₂ := hknown₂.unasked (hfresh₂.2 key (List.mem_singleton_self key)).2
  cases hp with
  | added key vc hfront hscreen hpresented hfresh hcontract =>
    obtain rfl := determined hq (.added key vc (h.front hfront) (h.screen.trans hscreen)
      hpresented hfresh₂ (h.statics ▸ hcontract))
    have hrecord := alike_record h vc hnone₁ hnone₂
    refine { hrecord with appends := fun u hu => ?_ }
    by_cases hu' : u = key
    · subst hu'
      simp only [Function.update_self, h.statics]
    · simp only [Function.update_of_ne hu']
      exact hrecord.appends u hu
  | addTrap key vc hfront hscreen hpresented hfresh hcontract =>
    obtain rfl := determined hq (.addTrap key vc (h.front hfront) (h.screen.trans hscreen)
      hpresented hfresh₂ (h.statics ▸ hcontract))
    exact { alike_record h vc hnone₁ hnone₂ with running := rfl }

/-- The appends that the session has asked for find, and write, the same. -/
theorem alike_append {u : String} (h : Alike m own p q) (hown : Owned own p) (hknown : Known p)
    (hu : OwnAlteration own u) (happend : e = .appendTake u ∨ e = .appendCallback u)
    (hp : Steps p e p') (hq : Navigation.step q e = some q') : Alike m own p' q' := by
  have hsame := h.appends u hu
  have hupdate : ∀ v : Option PendingAppend, ∀ u', OwnAlteration own u' →
      Function.update q.appends u v u' = Function.update p.appends u v u' := by
    intro v u' hu'
    simp only [Function.update_apply, h.appends u' hu']
  have hissued : issued p (.appendCallback u) = issued q (.appendCallback u) := by
    simp only [issued, hsame]
  obtain rfl | rfl := happend
  · cases hp with
    | appendTake u b hb =>
      obtain rfl := determined hq (.appendTake u b (hsame.trans hb))
      obtain ⟨c, rfl, -, -⟩ := hknown.appends u _ hb
      have hvalue := h.db _ _ (((hown.appends u _ hb).contract c rfl).mpr hu)
      refine { h with appends := ?_ }
      simp only [updateAlterationsForContract, ListTarget.node, hvalue]
      exact hupdate _
    | takeIdle u hidle =>
      obtain rfl := determined hq (.takeIdle u (hsame ▸ hidle))
      exact h
  · have hdb := db_alike h hp hq rfl hissued fun _ _ hnew => (by cases hnew)
    cases hp with
    | appendCallback u b value hb =>
      obtain rfl := determined hq (.appendCallback u b value (hsame.trans hb))
      exact { h with db := hdb, appends := hupdate none }
    | callbackIdle u hidle =>
      obtain rfl := determined hq (.callbackIdle u (hsame ▸ hidle))
      exact h

theorem alike_create {ev : CreateContractVC.Event} (h : Alike m own p q)
    (hp : Steps p (.create ev) p') (hq : Navigation.step q (.create ev) = some q') :
    Alike (entered ⟨p, q, own⟩ (.create ev) m) own p' q' := by
  cases hp with
  | create ev vc hfront hscreen hvisible hstep =>
    obtain ⟨w, hw, hform⟩ := h.form.step hstep
    obtain rfl := determined hq (.create ev w (h.front hfront) (h.screen.trans hscreen) hvisible
      (h.statics ▸ hw))
    obtain ⟨huid, -, hdate⟩ := CreateContractVC.step_kept hstep
    obtain ⟨huid', -, hdate'⟩ := CreateContractVC.step_kept hw
    have hmoves : (Event.create ev).movesPicker = ev.pickedDate.isSome := by cases ev <;> rfl
    refine { h with form := hform, date := ?_, uid := ?_ }
    · simp only [entered, hmoves, hdate, hdate']
      cases ev.pickedDate with
      | none => simpa using h.date
      | some date => simp
    · simp only [huid, huid']
      exact h.uid

/-- The calls of the listeners tell the screen the same. -/
theorem alike_auth (h : Alike m own p q)
    (hauth : e = .listenerCall ∨ e = .loginCall ∨ ∃ confirm, e = .signOutAnswer confirm)
    (hp : Steps p e p') (hq : Navigation.step q e = some q') :
    Alike (entered ⟨p, q, own⟩ e m) own p' q' := by
  have hform := h.form
  cases hp with
  | heard l u hlistener hchanged huser =>
    obtain rfl := determined hq (.heard l u (h.listener.trans hlistener) (h.userUID ▸ hchanged)
      (h.user.trans huser))
    exact { h with
      listener := by simp only [h.userUID]
      statics := by simp only [CreateContractVC.authState, h.statics]
      form := { hform with bustField := hform.bustField }
      uid := by simp [entered, huser, CreateContractVC.authState] }
  | asked l hlistener hchanged huser hsigningOut hpresented =>
    obtain rfl := determined hq (.asked l (h.listener.trans hlistener) (h.userUID ▸ hchanged)
      (h.user.trans huser) hsigningOut (hform.presented.trans hpresented))
    exact { h with
      listener := by simp only [h.userUID]
      signOutDialog := rfl
      uid := by simpa [entered, huser] using h.uid }
  | unheard l hlistener hchanged huser hquiet =>
    obtain rfl := determined hq (.unheard l (h.listener.trans hlistener) (h.userUID ▸ hchanged)
      (h.user.trans huser) (hform.presented ▸ hquiet))
    exact { h with
      listener := by simp only [h.userUID]
      uid := by simpa [entered, huser] using h.uid }
  | loggedIn l u hlogin hchanged huser =>
    obtain rfl := determined hq (.loggedIn l u (h.login.trans hlogin) (h.userUID ▸ hchanged)
      (h.user.trans huser))
    have huid := h.signedIn u huser
    exact { h with
      rootUID := ⟨huid, huid⟩
      login := rfl
      listener := rfl
      statics := by simp only [Phone.appear, h.statics]
      screen := rfl
      form := { hform with bustField := hform.bustField } }
  | loginUnheard l hlogin hchanged huser =>
    obtain rfl := determined hq (.loginUnheard l (h.login.trans hlogin) (h.userUID ▸ hchanged)
      (h.user.trans huser))
    exact { h with login := rfl }
  | signedOut hdialog =>
    obtain rfl := determined hq (.signedOut (h.signOutDialog.trans hdialog))
    exact { h with
      signOutDialog := rfl
      login := rfl
      listener := rfl
      statics := by simp only [Phone.signOutConfirmed, CreateContractVC.signOutConfirmed, h.statics]
      form := ⟨rfl, rfl, rfl, rfl, hform.purchaseDate, hform.presented⟩ }
  | signOutCancelled hdialog =>
    obtain rfl := determined hq (.signOutCancelled (h.signOutDialog.trans hdialog))
    exact { h with signOutDialog := rfl }
  | _ => simp at hauth

/-- Both phones appear on the screen that creates contracts. -/
theorem alike_appear (h : Alike m own p q) : Alike m own p.appear q.appear :=
  { h with
    listener := rfl
    screen := rfl
    form := { h.form with bustField := h.form.bustField } }

theorem alike_toSeeAlterations (h : Alike m own p q) :
    Alike m own p.toSeeAlterations q.toSeeAlterations :=
  { h with
    listener := rfl
    screen := by simp only [Phone.toSeeAlterations, h.statics] }

theorem alike_toReview (h : Alike m own p q) (r : Review) :
    Alike m own (p.toReview r) (q.toReview r) :=
  { h with screen := by simp only [Phone.toReview, h.statics] }

theorem alike_screen (h : Alike m own p q) (screen : Screen) :
    Alike m own { p with screen := screen } { q with screen := screen } :=
  { h with screen := rfl }

theorem alike_stop (h : Alike m own p q) :
    Alike m own { p with running := false } { q with running := false } :=
  { h with running := rfl }

theorem alike_edited {r : Review} {vc : EditAlterationVC} {record : Write} (h : Alike m own p q)
    (hp : Steps p .editConfirmed ((p.write [record]).toReview r))
    (hq : Navigation.step q .editConfirmed = some ((q.write [record]).toReview r))
    (hscreen : p.screen = .editAlteration r vc) :
    Alike m own ((p.write [record]).toReview r) ((q.write [record]).toReview r) := by
  have hissued : issued p .editConfirmed = issued q .editConfirmed := by
    simp only [issued, hscreen, h.screen]
  have hdb := db_alike h hp hq rfl hissued fun _ _ hnew => (by cases hnew)
  exact { alike_toReview h r with db := hdb }

theorem alike_pending {u : String} (h : Alike m own p q) (hown₁ : Owned own p)
    (hown₂ : Owned own q) (hknown₁ : Known p) (hknown₂ : Known q)
    (happend : e = .appendTake u ∨ e = .appendCallback u) (hp : Steps p e p')
    (hq : Navigation.step q e = some q') : Alike m own p' q' := by
  by_cases hu : OwnAlteration own u
  · exact alike_append h hown₁ hknown₁ hu happend hp hq
  · exact alike_untouched h (untouched_of_append hown₁ hknown₁ hu happend hp)
      (untouched_of_append hown₂ hknown₂ hu happend (steps_of_step hq))

/-- What the two phones have in common stays so as long as they write the same. -/
theorem alike_step (h : Alike m own p q) (hown₁ : Owned own p) (hown₂ : Owned own q)
    (hknown₁ : Known p) (hknown₂ : Known q) (he : e.foreign = false) (hp : Steps p e p')
    (hq : Navigation.step q e = some q') (hout : written own p e = written own q e) :
    Alike (entered ⟨p, q, own⟩ e m) (made e ++ own) p' q' := by
  have hsteps := hp
  cases hp with
  | create => exact alike_create h hsteps hq
  | created => exact alike_created h hsteps hq hout
  | signOutThrows hfront hscreen hpresented =>
    obtain rfl := determined hq (.signOutThrows (h.front hfront) (h.screen.trans hscreen)
      (h.form.presented.trans hpresented))
    exact h
  | signOut hfront hscreen hpresented =>
    obtain rfl := determined hq (.signOut (h.front hfront) (h.screen.trans hscreen)
      (h.form.presented.trans hpresented))
    exact { h with user := rfl, signedIn := nofun, listener := rfl }
  | signedOut | signOutCancelled | heard | asked | unheard | loggedIn | loginUnheard =>
    exact alike_auth h (by simp) hsteps hq
  | viewDidAppear hroot => exact absurd hroot h.rootUID.1
  | signIn u hlogin huid =>
    obtain rfl := determined hq (.signIn u (h.login ▸ hlogin) huid)
    exact { h with user := rfl, signedIn := fun v hv => by cases hv; exact huid }
  | loginDismissed hlogin huser =>
    obtain rfl := determined hq (.loginDismissed (h.login ▸ hlogin) (h.user ▸ huser))
    exact alike_appear (p := { p with login := none }) (q := { q with login := none })
      { h with login := rfl }
  | selectAlterations hfront hscreen hpresented =>
    obtain rfl := determined hq (.selectAlterations (h.front hfront) (h.screen.trans hscreen)
      (h.form.presented.trans hpresented))
    exact alike_toSeeAlterations h
  | reviewContract hfront hscreen hpresented =>
    obtain rfl := determined hq (.reviewContract (h.front hfront) (h.screen.trans hscreen)
      (h.form.presented.trans hpresented))
    exact alike_toReview (p := { p with listener := none }) (q := { q with listener := none })
      { h with listener := rfl } .new
  | okay hfront hscreen =>
    obtain rfl := determined hq (.okay (h.front hfront) (h.screen ▸ hscreen))
    exact alike_appear h
  | leave hfront hscreen =>
    obtain rfl := determined hq (.leave (h.front hfront) (h.screen ▸ hscreen))
    exact alike_appear h
  | leaveAdd vc hfront hscreen hpresented =>
    obtain rfl := determined hq (.leaveAdd vc (h.front hfront) (h.screen.trans hscreen) hpresented)
    exact alike_toSeeAlterations h
  | leaveEdit r vc hfront hscreen hpresented =>
    obtain rfl := determined hq
      (.leaveEdit r vc (h.front hfront) (h.screen.trans hscreen) hpresented)
    exact alike_toReview h r
  | openAdd object hfront hscreen =>
    obtain rfl := determined hq (.openAdd object (h.front hfront) (h.screen.trans hscreen))
    exact alike_screen h _
  | add e vc vc' hfront hscreen hstep =>
    obtain rfl := determined hq (.add e vc vc' (h.front hfront) (h.screen.trans hscreen) hstep)
    exact alike_screen h _
  | added | addTrap => exact alike_added h hknown₁ hknown₂ hsteps hq
  | reappear r hfront hscreen halert =>
    obtain rfl := determined hq (.reappear r (h.front hfront) (h.screen.trans hscreen) halert)
    exact alike_toReview h r
  | take i r s hscreen htake =>
    have hr := hown₁.screen
    rw [hscreen] at hr
    obtain ⟨s', htake', hset⟩ := take_alike h hr htake
    obtain rfl := determined hq (.take i r s' (h.screen.trans hscreen) htake')
    rw [hset]
    exact alike_screen h _
  | takeUnder i r vc s hscreen htake =>
    have hr := hown₁.screen
    rw [hscreen] at hr
    obtain ⟨s', htake', hset⟩ := take_alike h hr htake
    obtain rfl := determined hq (.takeUnder i r vc s' (h.screen.trans hscreen) htake')
    rw [hset]
    exact alike_screen h _
  | deliver i r s hscreen hdeliver =>
    obtain ⟨s', hdeliver', hset⟩ := deliver_alike hdeliver
    obtain rfl := determined hq (.deliver i r s' (h.screen.trans hscreen) hdeliver')
    rw [hset]
    exact alike_screen h _
  | deliverUnder i r vc s hscreen hdeliver =>
    obtain ⟨s', hdeliver', hset⟩ := deliver_alike hdeliver
    obtain rfl := determined hq (.deliverUnder i r vc s' (h.screen.trans hscreen) hdeliver')
    rw [hset]
    exact alike_screen h _
  | tap row r a hfront hscreen halert hshown hrow =>
    obtain rfl := determined hq
      (.tap row r a (h.front hfront) (h.screen.trans hscreen) halert hshown hrow)
    exact alike_screen h _
  | tapTrap row r hfront hscreen halert hshown hrow =>
    obtain rfl := determined hq
      (.tapTrap row r (h.front hfront) (h.screen.trans hscreen) halert hshown hrow)
    exact alike_stop h
  | edit e r vc vc' hfront hscreen hstep =>
    obtain rfl := determined hq (.edit e r vc vc' (h.front hfront) (h.screen.trans hscreen) hstep)
    exact alike_screen h _
  | edited r vc w hfront hscreen hpresented hw =>
    have hq' := Steps.edited r vc w (h.front hfront) (h.screen.trans hscreen) hpresented hw
    obtain rfl := determined hq hq'
    exact alike_edited h hsteps hq hscreen
  | editTrap r vc hfront hscreen hpresented hw =>
    obtain rfl := determined hq
      (.editTrap r vc (h.front hfront) (h.screen.trans hscreen) hpresented hw)
    exact alike_stop h
  | reviewAndSign now r hfront hscreen halert =>
    obtain rfl := determined hq
      (.reviewAndSign now r (h.front hfront) (h.screen.trans hscreen) halert)
    exact h
  | appendTake u | takeIdle u | appendCallback u | callbackIdle u =>
    exact alike_pending (u := u) h hown₁ hown₂ hknown₁ hknown₂ (by simp) hsteps hq
  | remote w => cases he

/-- What holds of both phones, and between them. -/
structure Kept (m : Entered) (s : Pair) : Prop where
  alike : Alike m s.own s.first s.second
  owned : Owned s.own s.first ∧ Owned s.own s.second
  known : Known s.first ∧ Known s.second

theorem Pair.step_eq {s s' : Pair} (h : s.step e = some s') : e.foreign = false ∧
    ∃ p q, Navigation.step s.first e = some p ∧ Navigation.step s.second e = some q ∧
      s' = ⟨p, q, made e ++ s.own⟩ := by
  simp only [Pair.step] at h
  split at h
  · cases h
  · rename_i hdevice
    simp only [Option.bind_eq_bind, Option.bind_eq_some_iff, Option.pure_def] at h
    obtain ⟨p, hp, q, hq, hs⟩ := h
    exact ⟨by simpa using hdevice, p, q, hp, hq, (Option.some.inj hs).symm⟩

theorem kept_step {s s' : Pair} (h : Kept m s) (hout : SameOutput s e)
    (hstep : s.step e = some s') : Kept (entered s e m) s' := by
  obtain ⟨he, p, q, hp, hq, rfl⟩ := Pair.step_eq hstep
  have hp' := steps_of_step hp
  have hq' := steps_of_step hq
  exact ⟨alike_step h.alike h.owned.1 h.owned.2 h.known.1 h.known.2 he hp' hq hout.1,
    ⟨owned_step h.owned.1 h.known.1 he hp', owned_step h.owned.2 h.known.2 he hq'⟩,
    known_step h.known.1 hp', known_step h.known.2 hq'⟩

theorem written_alike (h : Alike m own p q) (he : e.creates = false) :
    written own p e = written own q e := by
  cases e with
  | createConfirmed keys t => cases he
  | addConfirmed key | editConfirmed => simp only [written, issued, h.screen, h.statics]
  | appendCallback u =>
    simp only [written]
    split
    · rename_i hu
      simp only [issued, h.appends u hu]
    · rfl
  | _ => rfl

theorem printed_alike (h : Alike m own p q) : printed p e = printed q e := by
  unfold printed
  rw [h.screen]
  split
  · unfold Review.state ReviewContract.reviewAndSignAction
    rw [h.statics]
  · rfl

/-- Only a creation can tell the two histories apart. -/
theorem sameOutput_iff {s : Pair} (h : Alike m s.own s.first s.second) :
    SameOutput s e ↔ EntersOwn m s e := by
  cases he : e.creates with
  | false =>
    exact iff_of_true ⟨written_alike h he, printed_alike h⟩ fun hcreates => by simp [he] at hcreates
  | true =>
    cases e with
    | createConfirmed keys t =>
      have hwritten : written s.own s.first (.createConfirmed keys t) =
          written s.own s.second (.createConfirmed keys t) ↔
            s.first.create.selectedDate = s.second.create.selectedDate ∧
              s.first.create.currentUserUID = s.second.create.currentUserUID := by
        simp only [written, issued, h.statics]
        exact createdWrites_iff h.form
      rw [SameOutput, and_iff_left (printed_alike h), hwritten, ← h.date, ← h.uid]
      exact ⟨fun hentered _ => hentered, fun hentered => hentered rfl⟩
    | _ => cases he

theorem kept_start {now originalDate : Date} (hp : SignedOut now originalDate p)
    (hq : SignedOut now originalDate q) (hknown₁ : Known p) (hknown₂ : Known q) :
    Kept (leftEntered p q) ⟨p, q, []⟩ where
  alike := {
    running := hq.running.trans hp.running.symm
    db := fun c k hown => by cases hown
    appends := fun u hu => by cases hu
    user := hq.user.trans hp.user.symm
    signedIn := fun u hu => by rw [hp.user] at hu; cases hu
    rootUID := ⟨hp.rootUID, hq.rootUID⟩
    login := hq.login.trans hp.login.symm
    listener := hq.listener.trans hp.listener.symm
    signOutDialog := hq.signOutDialog.trans hp.signOutDialog.symm
    statics := hq.statics.trans hp.statics.symm
    screen := hq.screen.trans hp.screen.symm
    form := ⟨hq.form.bustField.trans hp.form.bustField.symm,
      hq.form.waistField.trans hp.form.waistField.symm,
      hq.form.hipField.trans hp.form.hipField.symm,
      hq.form.brideNameField.trans hp.form.brideNameField.symm,
      hq.form.purchaseDate.trans hp.form.purchaseDate.symm,
      hq.form.presented.trans hp.form.presented.symm⟩
    date := by simp [leftEntered]
    uid := by simp [leftEntered] }
  owned := ⟨owned_start (by rw [hp.statics]; rfl) hp.screen,
    owned_start (by rw [hq.statics]; rfl) hq.screen⟩
  known := ⟨hknown₁, hknown₂⟩

theorem known_of_run {es : List Event} {pickerDate now currentDate originalDate : Date}
    (h : Launched pickerDate now currentDate originalDate p)
    (hrun : run Navigation.step p es = some p') : Known p' :=
  run_invariant _ (fun _ _ _ h hstep => known_step h (steps_of_step hstep)) (known_launched h) hrun

/-- A session after a confirmed sign-out writes and prints the same whatever came before,
if each of its creations comes after a move of the picker and a call of the listener, and
only then, unless the date or the uid was left the same. -/
theorem isolated_iff {pickerDate now currentDate originalDate : Date} {p₁ p₂ q₁ q₂ : Phone}
    {es₁ es₂ fs : List Event} {s : Pair}
    (h₁ : Launched pickerDate now currentDate originalDate p₁)
    (h₂ : Launched pickerDate now currentDate originalDate p₂)
    (hrun₁ : run Navigation.step p₁ (es₁ ++ [.signOutAnswer true]) = some q₁)
    (hrun₂ : run Navigation.step p₂ (es₂ ++ [.signOutAnswer true]) = some q₂)
    (hrun : run Pair.step ⟨q₁, q₂, []⟩ fs = some s) :
    Along Pair.step SameOutput ⟨q₁, q₂, []⟩ fs ↔
      AlongWith Pair.step entered EntersOwn (leftEntered q₁ q₂) ⟨q₁, q₂, []⟩ fs :=
  along_iff_alongWith Kept (fun _ _ e _ h hout hstep => kept_step (e := e) h hout hstep)
    (fun _ _ e _ h _ => sameOutput_iff (e := e) h.alike)
    (kept_start (signedOut_of_run h₁ hrun₁) (signedOut_of_run h₂ hrun₂)
      (known_of_run h₁ hrun₁) (known_of_run h₂ hrun₂)) hrun

/-- Sue moves the picker, makes Ann's contract and an alteration whose append is still
under way when she signs out. -/
def sueWorked : List Event := sueGreeted ++ [.create (.datePickerAction 30)] ++ annAsked ++ [
  annCreated, .openAdd Integrity.hem, .add .updateTotalAction, .add .addToContractAction,
  .addConfirmed "a", .back, .signOutAction false, .listenerCall]

/-- She signs out at once. -/
def sueLeft : List Event := sueGreeted ++ [.signOutAction false, .listenerCall]

def bethGreeted : List Event := [.signIn ⟨"h", some "Beth"⟩, .loginCall, .listenerCall]

def bethCreated : Event := .createConfirmed ⟨"d2", "c2", "b2", "m2"⟩ 5

/-- Beth moves the picker, makes a contract with an alteration and prints it, while the
append of Sue's alteration comes to an end. -/
def bethPrinted : List Event := bethGreeted ++ [.create (.datePickerAction 40)] ++ annAsked ++ [
  .appendTake "a", .appendCallback "a", bethCreated, .openAdd Integrity.hem,
  .add .updateTotalAction, .add .addToContractAction, .addConfirmed "a2", .appendTake "a2",
  .appendCallback "a2", .back, .reviewContract, .take 0, .deliver 0, .take 0, .deliver 0,
  .reviewAndSign 6]

theorem isolated_bethPrinted : ∃ q₁ q₂ s,
    run Navigation.step suesPhone (sueWorked ++ [.signOutAnswer true]) = some q₁ ∧
    run Navigation.step suesPhone (sueLeft ++ [.signOutAnswer true]) = some q₂ ∧
    run Pair.step ⟨q₁, q₂, []⟩ bethPrinted = some s ∧
    Along Pair.step SameOutput ⟨q₁, q₂, []⟩ bethPrinted := by
  have hdone : ∃ q₁ ∈ run Navigation.step suesPhone (sueWorked ++ [.signOutAnswer true]),
      ∃ q₂ ∈ run Navigation.step suesPhone (sueLeft ++ [.signOutAnswer true]),
        (run Pair.step ⟨q₁, q₂, []⟩ bethPrinted).isSome = true ∧
        AlongWith Pair.step entered EntersOwn (leftEntered q₁ q₂) ⟨q₁, q₂, []⟩ bethPrinted := by
    decide +kernel
  obtain ⟨q₁, hq₁, q₂, hq₂, hsome, hentered⟩ := hdone
  obtain ⟨s, hs⟩ := Option.isSome_iff_exists.mp hsome
  exact ⟨q₁, q₂, s, hq₁, hq₂, hs,
    (isolated_iff launched_suesPhone launched_suesPhone hq₁ hq₂ hs).mpr hentered⟩

/-- Beth leaves the picker alone, and Sue's date is in her contract. -/
theorem not_isolated_bethCreated : ∃ q₁ q₂ s,
    run Navigation.step suesPhone (sueWorked ++ [.signOutAnswer true]) = some q₁ ∧
    run Navigation.step suesPhone (sueLeft ++ [.signOutAnswer true]) = some q₂ ∧
    run Pair.step ⟨q₁, q₂, []⟩ (bethGreeted ++ annAsked ++ [bethCreated]) = some s ∧
    (contractAt s.first.db "c2").map (·.eventDate) = some 30 ∧
    (contractAt s.second.db "c2").map (·.eventDate) = some 0 ∧
    ¬ Along Pair.step SameOutput ⟨q₁, q₂, []⟩ (bethGreeted ++ annAsked ++ [bethCreated]) := by
  have hdone : ∃ q₁ ∈ run Navigation.step suesPhone (sueWorked ++ [.signOutAnswer true]),
      ∃ q₂ ∈ run Navigation.step suesPhone (sueLeft ++ [.signOutAnswer true]),
      ∃ s ∈ run Pair.step ⟨q₁, q₂, []⟩ (bethGreeted ++ annAsked ++ [bethCreated]),
        (contractAt s.first.db "c2").map (·.eventDate) = some 30 ∧
        (contractAt s.second.db "c2").map (·.eventDate) = some 0 ∧
        ¬ Along Pair.step SameOutput ⟨q₁, q₂, []⟩ (bethGreeted ++ annAsked ++ [bethCreated]) := by
    decide +kernel
  obtain ⟨q₁, hq₁, q₂, hq₂, s, hs, hfirst, hsecond, hdiffer⟩ := hdone
  exact ⟨q₁, q₂, s, hq₁, hq₂, hs, hfirst, hsecond, hdiffer⟩

end Pincushion.Isolation
