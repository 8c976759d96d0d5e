import Pincushion.Navigation

/-! What a cancelled sign-out leaves. The dialog is shown by a listener, and the
listener hears of the sign-out only after it. -/
namespace Pincushion.SigningOut
open Structs Runs Navigation

/-- The auth listeners that are registered. -/
def listeners (p : Phone) : Nat := p.listener.toList.length + p.login.toList.length

structure SameSession (p p' : Phone) : Prop where
  user : p'.user = p.user
  rootUID : p'.rootUID = p.rootUID
  statics : p'.statics = p.statics
  create : p'.create = p.create
  listeners : listeners p' = listeners p

/-- The store and its callbacks go on at any time. -/
def ofStore : Event → Bool
  | .take _ | .deliver _ | .appendTake _ | .appendCallback _ | .remote _ => true
  | _ => false

/-- A run whose events on the device are `es`, with the store's own between them. -/
def Does (p : Phone) (es : List Event) (p' : Phone) : Prop :=
  ∃ es', es'.filter (!ofStore ·) = es ∧ run step p es' = some p'

/-- Neither a cancelled sign-out nor one that throws leaves a trace, and until the
dialog is answered nobody is signed out. -/
structure CancelKeeps (p : Phone) : Prop where
  cancelled : ∀ p', Does p [.signOutAction false, .listenerCall, .signOutAnswer false] p' →
    SameSession p p'
  thrown : ∀ p', Does p [.signOutAction true] p' → SameSession p p'
  unanswered : ∀ p', Does p [.signOutAction false, .listenerCall] p' → p'.user = p.user

/-- While the screen that creates contracts is in front, it listens. -/
def Listens (p : Phone) : Prop :=
  p.screen = .create → p.login = none → p.rootUID ≠ "" → p.listener.isSome = true

/-- What is left of `p` once the user of `p` is signed out. -/
structure Left (p p' : Phone) : Prop where
  user : p'.user = none
  rootUID : p'.rootUID = p.rootUID
  statics : p'.statics = p.statics
  create : p'.create = p.create
  login : p'.login = p.login
  listener : p'.listener.isSome = true

/-- Equal but for the store, the screen on top and the dialog of signing out. -/
structure Alike (p p' : Phone) : Prop where
  user : p'.user = p.user
  rootUID : p'.rootUID = p.rootUID
  statics : p'.statics = p.statics
  create : p'.create = p.create
  login : p'.login = p.login
  listener : p'.listener = p.listener

variable {p p' m : Phone} {e : Event} {es : List Event}

theorem listens_step (h : Listens p) (hstep : Steps p e p') : Listens p' := by
  cases hstep with
  | created | selectAlterations | reviewContract | leaveAdd | leaveEdit | openAdd | add | added
  | addTrap | reappear | take | takeUnder | deliver | deliverUnder | tap | edit | edited => exact nofun
  | signOut | heard | asked | unheard | loggedIn | loginDismissed | okay | leave =>
    exact fun _ _ _ => rfl
  | signedOut | viewDidAppear | loginUnheard => exact fun _ hlogin => nomatch hlogin
  | _ => exact h

theorem does_nil (h : Does p [] p') : ∃ es, (∀ e ∈ es, ofStore e = true) ∧ run step p es = some p' := by
  obtain ⟨es, hes, hrun⟩ := h
  exact ⟨es, by simpa using hes, hrun⟩

theorem does_cons (h : Does p (e :: es) p') :
    ∃ m m', Does p [] m ∧ step m e = some m' ∧ Does m' es p' := by
  obtain ⟨es', hes', hrun⟩ := h
  obtain ⟨before, after, rfl, hbefore, he, hafter⟩ := List.filter_eq_cons_iff.mp hes'
  obtain ⟨m, hm, hrest⟩ := run_append_eq.mp hrun
  obtain ⟨m', hm', hlast⟩ := run_cons_eq.mp hrest
  exact ⟨m, m', ⟨before, List.filter_eq_nil_iff.mpr hbefore, hm⟩, hm', after, hafter, hlast⟩

theorem Alike.trans (h : Alike p m) (hm : Alike m p') : Alike p p' :=
  ⟨hm.user.trans h.user, hm.rootUID.trans h.rootUID, hm.statics.trans h.statics,
    hm.create.trans h.create, hm.login.trans h.login, hm.listener.trans h.listener⟩

/-- The store's own events are not of the session. -/
theorem alike_of_store (h : Does p [] p') : Alike p p' := by
  obtain ⟨es, hes, hrun⟩ := does_nil h
  refine run_invariant_along (C := fun _ e => ofStore e = true) (Alike p) (fun m e m' hm he hstep => ?_)
    ⟨rfl, rfl, rfl, rfl, rfl, rfl⟩ (along_of_forall fun _ e he => hes e he) hrun
  cases steps_of_step hstep with
  | take | takeUnder | deliver | deliverUnder | appendTake | appendCallback | remote =>
    exact ⟨hm.user, hm.rootUID, hm.statics, hm.create, hm.login, hm.listener⟩
  | takeIdle | callbackIdle => exact hm
  | _ => cases he

theorem Alike.sameSession (h : Alike p p') : SameSession p p' :=
  ⟨h.user, h.rootUID, h.statics, h.create, by simp only [listeners, h.listener, h.login]⟩

theorem Left.alike (h : Left p m) (hm : Alike m p') : Left p p' :=
  ⟨hm.user.trans h.user, hm.rootUID.trans h.rootUID, hm.statics.trans h.statics,
    hm.create.trans h.create, hm.login.trans h.login, hm.listener ▸ h.listener⟩

theorem left_press (h : Alike p m) (hstep : step m (.signOutAction false) = some p') :
    Left p p' := by
  cases steps_of_step hstep with
  | signOut => exact ⟨rfl, h.rootUID, h.statics, h.create, h.login, rfl⟩

/-- The call finds nobody, and at most asks. -/
theorem left_call (h : Left p m) (hstep : step m .listenerCall = some p') : Left p p' := by
  cases steps_of_step hstep with
  | heard l u hlistener hchanged huser =>
    rw [h.user] at huser
    cases huser
  | asked | unheard => exact ⟨h.user, h.rootUID, h.statics, h.create, h.login, rfl⟩

theorem left_cancel (h : Left p m) (hstep : step m (.signOutAnswer false) = some p') :
    Left p p' := by
  cases steps_of_step hstep with
  | signOutCancelled => exact ⟨h.user, h.rootUID, h.statics, h.create, h.login, h.listener⟩

theorem left_asked (h : Does p [.signOutAction false, .listenerCall] p') : Left p p' := by
  obtain ⟨m₁, m₂, hbefore, hpress, h⟩ := does_cons h
  obtain ⟨m₃, m₄, hbetween, hcall, hafter⟩ := does_cons h
  have hleft := (left_press (alike_of_store hbefore) hpress).alike (alike_of_store hbetween)
  exact (left_call hleft hcall).alike (alike_of_store hafter)

theorem left_cancelled
    (h : Does p [.signOutAction false, .listenerCall, .signOutAnswer false] p') : Left p p' := by
  obtain ⟨m₁, m₂, hbefore, hpress, h⟩ := does_cons h
  obtain ⟨m₃, m₄, hbetween, hcall, h⟩ := does_cons h
  obtain ⟨m₅, m₆, hup, hcancel, hafter⟩ := does_cons h
  have hpressed := (left_press (alike_of_store hbefore) hpress).alike (alike_of_store hbetween)
  have hasked := (left_call hpressed hcall).alike (alike_of_store hup)
  exact (left_cancel hasked hcancel).alike (alike_of_store hafter)

/-- A sign-out that throws does nothing. -/
theorem sameSession_thrown (h : Does p [.signOutAction true] p') : SameSession p p' := by
  obtain ⟨m, m', hbefore, hpress, hafter⟩ := does_cons h
  cases steps_of_step hpress with
  | signOutThrows => exact ((alike_of_store hbefore).trans (alike_of_store hafter)).sameSession

/-- Nobody is signed out of a screen that nobody is signed in to. -/
theorem Left.sameSession (h : Left p p') (huser : p.user = none) (hlogin : p.login = none)
    (hlistener : p.listener.isSome = true) : SameSession p p' := by
  refine ⟨h.user.trans huser.symm, h.rootUID, h.statics, h.create, ?_⟩
  obtain ⟨l, hl⟩ := Option.isSome_iff_exists.mp hlistener
  obtain ⟨l', hl'⟩ := Option.isSome_iff_exists.mp h.listener
  simp [listeners, hl, hl', h.login, hlogin]

def cancelled : List Event := [.signOutAction false, .listenerCall, .signOutAnswer false]

/-- The press, the call it leads to and the Cancel can always follow one another. -/
theorem does_cancel (hstep : step p (.signOutAction false) = some p') :
    ∃ m, Does p [.signOutAction false, .listenerCall, .signOutAnswer false] m := by
  have hrunning := running_of_step hstep
  cases steps_of_step hstep with
  | signOut hfront hscreen hpresented =>
    have hcall : step p.signOutAction .listenerCall =
        some (p.signOutAction.listenerCall (.new true)) := by
      simp [step, auth, Phone.signOutAction, hrunning, Listener.new, Phone.userUID]
    have hdialog : (p.signOutAction.listenerCall (.new true)).signOutDialog = true := by
      simp [Phone.listenerCall, Phone.signOutAction, Listener.new, hpresented]
    have hrunning' : (p.signOutAction.listenerCall (.new true)).running = true := by
      simp [Phone.listenerCall, Phone.signOutAction, Listener.new, hpresented, hrunning]
    have hcancel : step (p.signOutAction.listenerCall (.new true)) (.signOutAnswer false) =
        some { p.signOutAction.listenerCall (.new true) with signOutDialog := false } := by
      simp [step, auth, hrunning', hdialog]
    have hrun : run step p cancelled =
        some { p.signOutAction.listenerCall (.new true) with signOutDialog := false } := by
      simp only [cancelled, run, hstep, hcall, hcancel]
    exact ⟨_, cancelled, rfl, hrun⟩

theorem listens_of_reachable {pickerDate now currentDate originalDate : Date}
    (h : Reachable step (Launched pickerDate now currentDate originalDate) p) : Listens p := by
  refine reachable_invariant Listens (fun p hp => ?_)
    (fun _ _ _ h hstep => listens_step h (steps_of_step hstep)) h
  obtain ⟨db, keys, user, huser, rfl⟩ := hp
  exact fun _ _ _ => rfl

/-- Cancelling changes nothing where nobody is signed in, and nowhere else. -/
theorem cancelKeeps_iff {pickerDate now currentDate originalDate : Date}
    (h : Reachable step (Launched pickerDate now currentDate originalDate) p)
    (hpress : step p (.signOutAction false) = some p') : CancelKeeps p ↔ p.user = none := by
  constructor
  · intro hkeeps
    obtain ⟨m, hm⟩ := does_cancel hpress
    exact (hkeeps.cancelled m hm).user.symm.trans (left_cancelled hm).user
  · intro huser
    cases steps_of_step hpress with
    | signOut hfront hscreen hpresented =>
      obtain ⟨hlogin, -, hroot⟩ := Phone.front_eq hfront
      have hlistener := listens_of_reachable h hscreen hlogin hroot
      exact ⟨fun m hm => (left_cancelled hm).sameSession huser hlogin hlistener,
        fun m hm => sameSession_thrown hm, fun m hm => (left_asked hm).user.trans huser.symm⟩

/-- Once Sue has been signed out by a cancelled press, another changes nothing. -/
theorem cancelKeeps_again : ∃ p p', run step suesPhone (sueGreeted ++ cancelled) = some p ∧
    step p (.signOutAction false) = some p' ∧ CancelKeeps p := by
  have hdone : ∃ p ∈ run step suesPhone (sueGreeted ++ cancelled), p.user = none ∧
      (step p (.signOutAction false)).isSome = true := by
    decide +kernel
  obtain ⟨p, hp, huser, hpress⟩ := hdone
  obtain ⟨p', hp'⟩ := Option.isSome_iff_exists.mp hpress
  have hreach : Reachable step (Launched 10 0 0 0) p :=
    ⟨suesPhone, sueGreeted ++ cancelled, launched_suesPhone, hp⟩
  exact ⟨p, p', hp, hp', (cancelKeeps_iff hreach hp').mpr huser⟩

/-- Sue is signed in, presses Sign Out and cancels: nobody is signed in. -/
theorem not_cancelKeeps_sue : ∃ p p', run step suesPhone sueGreeted = some p ∧
    p.userUID = some "s" ∧ run step p cancelled = some p' ∧ p'.user = none ∧
    ¬ CancelKeeps p := by
  have hdone : ∃ p ∈ run step suesPhone sueGreeted, p.userUID = some "s" ∧
      ∃ p' ∈ run step p cancelled, p'.user = none := by
    decide +kernel
  obtain ⟨p, hp, huser, p', hp', hnobody⟩ := hdone
  refine ⟨p, p', hp, huser, hp', hnobody, fun hkeeps => ?_⟩
  have hsame := (hkeeps.cancelled p' ⟨cancelled, rfl, hp'⟩).user
  rw [Phone.userUID, ← hsame, hnobody] at huser
  cases huser

end Pincushion.SigningOut
