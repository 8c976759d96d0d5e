import Pincushion.Navigation

/-! What a confirmed sign-out leaves. It is asked of the screen that creates contracts
while nobody is signed in; what it does not clear are the date, the copy of the uid and
the keys of the last creation. -/
namespace Pincushion.Cleared
open SwiftNumber Structs Singletons CreateContract Runs Navigation

/-- What the listeners and the dialog of signing out say of the rest, and what no step
ever sets. -/
structure Attended (now originalDate : Date) (p : Phone) : Prop where
  listening : ∀ l, p.listener = some l → p.screen = .create ∧ p.login = none ∧
    (l.signingOut = true → p.rootUID ≠ "")
  asking : p.signOutDialog = true → p.screen = .create ∧ p.login = none ∧ p.rootUID ≠ "" ∧
    p.user = none ∧ p.create.presented = none
  user : ∀ u, p.user = some u → u.uid ≠ ""
  original : p.statics.originalValues = emptyContract originalDate
  purchase : p.create.purchaseDate = now

/-- The screen has its texts and its dialog from `v`, and was made when `v` was. -/
structure SameForm (v w : CreateContractVC) : Prop where
  bustField : w.bustField = v.bustField
  waistField : w.waistField = v.waistField
  hipField : w.hipField = v.hipField
  brideNameField : w.brideNameField = v.brideNameField
  purchaseDate : w.purchaseDate = v.purchaseDate
  presented : w.presented = v.presented

/-- The phone after a confirmed sign-out, as far as it is the same each time. -/
structure SignedOut (now originalDate : Date) (p : Phone) : Prop where
  running : p.running = true
  user : p.user = none
  rootUID : p.rootUID ≠ ""
  login : p.login = some (.new false)
  listener : p.listener = none
  signOutDialog : p.signOutDialog = false
  statics : p.statics = .initial originalDate originalDate
  screen : p.screen = .create
  form : SameForm (.new now now) p.create

variable {p p' : Phone} {e : Event} {now originalDate : Date} {v v' w : CreateContractVC}
variable {g : Statics}

theorem SameForm.getMeasurements (h : SameForm v w) : w.getMeasurements = v.getMeasurements := by
  simp only [CreateContractVC.getMeasurements, h.bustField, h.waistField, h.hipField]

theorem SameForm.present (h : SameForm v w) (alert : Alert) :
    SameForm (v.present alert) (w.present alert) :=
  { h with presented := by simp only [CreateContractVC.present, h.presented] }

theorem SameForm.createContractAction (h : SameForm v w) :
    SameForm (v.createContractAction g) (w.createContractAction g) := by
  unfold CreateContractVC.createContractAction
  rw [h.getMeasurements]
  by_cases hzero : v.getMeasurements = (.finite 0, .finite 0, .finite 0)
  · simp only [if_pos hzero]
    split
    · exact (h.present _).present _
    · exact (h.present _).present _
  · simp only [if_neg hzero]
    split
    · exact h.present _
    · exact h.present _

theorem SameForm.step {ev : CreateContractVC.Event} (h : SameForm v w)
    (hstep : v.step g ev = some v') : ∃ w', w.step g ev = some w' ∧ SameForm v' w' := by
  have hw := h.presented
  unfold CreateContractVC.step at hstep
  split at hstep <;> cases hstep <;> rename_i halert <;>
    simp only [CreateContractVC.step, hw, halert, Option.some.injEq, exists_eq_left']
  case h_1 => exact { h with bustField := rfl, presented := rfl }
  case h_2 => exact { h with waistField := rfl, presented := rfl }
  case h_3 => exact { h with hipField := rfl, presented := rfl }
  case h_4 => exact { h with brideNameField := rfl, presented := rfl }
  case h_5 => exact { h with presented := rfl }
  case h_6 => exact { h with presented := rfl }
  case h_7 => exact h.createContractAction
  case h_8 => exact { h with presented := rfl }
  case h_9 => exact { h with presented := rfl }

theorem attended_launched {pickerDate currentDate : Date}
    (h : Launched pickerDate now currentDate originalDate p) : Attended now originalDate p := by
  obtain ⟨db, keys, user, huser, rfl⟩ := h
  refine ⟨fun l hl => ?_, nofun, huser, rfl, rfl⟩
  cases hl
  exact ⟨rfl, rfl, nofun⟩

/-- Elsewhere than on the screen that creates contracts nobody listens. -/
theorem Attended.elsewhere (h : Attended now originalDate p) (hscreen : p.screen ≠ .create) :
    p.listener = none ∧ p.signOutDialog = false := by
  constructor
  · cases hlistener : p.listener with
    | none => rfl
    | some l => exact absurd (h.listening l hlistener).1 hscreen
  · cases hdialog : p.signOutDialog with
    | false => rfl
    | true => exact absurd (h.asking hdialog).1 hscreen

theorem Attended.unasked (h : Attended now originalDate p) (hlogin : p.login.isSome = true) :
    p.signOutDialog = false := by
  cases hdialog : p.signOutDialog with
  | false => rfl
  | true => simp [(h.asking hdialog).2.1] at hlogin

section
variable (h : Attended now originalDate p) (hdialog : p'.signOutDialog = false)
variable (huser : p'.user = p.user)
variable (horiginal : p'.statics.originalValues = p.statics.originalValues)
variable (hpurchase : p'.create.purchaseDate = p.create.purchaseDate)
include h hdialog huser horiginal hpurchase

theorem attended_alone (hlistener : p'.listener = none) : Attended now originalDate p' where
  listening l hl := by simp [hlistener] at hl
  asking hasked := by simp [hdialog] at hasked
  user := by rw [huser]; exact h.user
  original := horiginal.trans h.original
  purchase := hpurchase.trans h.purchase

theorem attended_appear (hlogin : p'.login = none) : Attended now originalDate p'.appear where
  listening l hl := by
    cases hl
    exact ⟨rfl, hlogin, nofun⟩
  asking hasked := by simp [Phone.appear, hdialog] at hasked
  user := by rw [Phone.appear, huser]; exact h.user
  original := horiginal.trans h.original
  purchase := hpurchase.trans h.purchase

end

theorem attended_step (h : Attended now originalDate p) (hstep : Steps p e p') :
    Attended now originalDate p' := by
  cases hstep with
  | create e vc hfront hscreen hvisible hstep =>
    have hdialog := (Phone.front_eq hfront).2.1
    exact ⟨h.listening, fun hasked => by simp [hdialog] at hasked, h.user, h.original,
      (CreateContractVC.step_kept hstep).2.1.trans h.purchase⟩
  | signOut hfront hscreen hpresented =>
    obtain ⟨hlogin, hdialog, hroot⟩ := Phone.front_eq hfront
    refine ⟨fun l hl => ⟨hscreen, hlogin, fun _ => hroot⟩, fun hasked => ?_, nofun, h.original,
      h.purchase⟩
    simp [Phone.signOutAction, hdialog] at hasked
  | signedOut => exact attended_alone h rfl rfl rfl rfl rfl
  | signOutCancelled => exact ⟨h.listening, nofun, h.user, h.original, h.purchase⟩
  | heard l u hlistener hchanged huser =>
    refine ⟨fun l' hl' => ?_, fun hasked => ?_, h.user, h.original, h.purchase⟩
    · cases hl'
      exact h.listening l hlistener
    · have hnone := (h.asking hasked).2.2.2.1
      rw [huser] at hnone
      cases hnone
  | asked l hlistener hchanged huser hsigningOut hpresented =>
    obtain ⟨hscreen, hlogin, hroot⟩ := h.listening l hlistener
    refine ⟨fun l' hl' => ?_, fun _ => ⟨hscreen, hlogin, hroot hsigningOut, huser, hpresented⟩,
      h.user, h.original, h.purchase⟩
    cases hl'
    exact ⟨hscreen, hlogin, hroot⟩
  | unheard l hlistener =>
    refine ⟨fun l' hl' => ?_, h.asking, h.user, h.original, h.purchase⟩
    cases hl'
    exact h.listening l hlistener
  | viewDidAppear hroot =>
    refine ⟨nofun, fun hasked => ?_, h.user, h.original, h.purchase⟩
    exact absurd hroot (h.asking hasked).2.2.1
  | signIn u hlogin huid =>
    refine ⟨fun l hl => ?_, fun hasked => ?_, fun u' hu' => ?_, h.original, h.purchase⟩
    · simp [(h.listening l hl).2.1] at hlogin
    · have hasked : p.signOutDialog = true := hasked
      simp [h.unasked hlogin] at hasked
    · cases hu'
      exact huid
  | loggedIn l u hlogin =>
    exact attended_appear h (h.unasked (by simp [hlogin])) rfl rfl rfl rfl
  | loginUnheard l hlogin =>
    refine ⟨fun l' hl' => ?_, fun hasked => ?_, h.user, h.original, h.purchase⟩
    · simp [(h.listening l' hl').2.1] at hlogin
    · simp [(h.asking hasked).2.1] at hlogin
  | loginDismissed hlogin => exact attended_appear h (h.unasked hlogin) rfl rfl rfl rfl
  | okay hfront | leave hfront =>
    obtain ⟨hlogin, hdialog, hroot⟩ := Phone.front_eq hfront
    exact attended_appear h hdialog rfl rfl rfl hlogin
  | created keys t hfront | selectAlterations hfront | reviewContract hfront | leaveAdd vc hfront
  | added key vc hfront | addTrap key vc hfront =>
    exact attended_alone h (Phone.front_eq hfront).2.1 rfl rfl rfl rfl
  | openAdd object hfront hscreen | add e vc vc' hfront hscreen | leaveEdit r vc hfront hscreen
  | reappear r hfront hscreen | tap row r a hfront hscreen | tapTrap row r hfront hscreen
  | edit e r vc vc' hfront hscreen | edited r vc w hfront hscreen | editTrap r vc hfront hscreen
  | take i r s hscreen | takeUnder i r vc s hscreen | deliver i r s hscreen
  | deliverUnder i r vc s hscreen =>
    obtain ⟨hlistener, hdialog⟩ := h.elsewhere (by simp [hscreen])
    exact attended_alone h hdialog rfl rfl rfl hlistener
  | _ => exact ⟨h.listening, h.asking, h.user, h.original, h.purchase⟩

theorem signedOut_of_run {pickerDate currentDate : Date} {es : List Event}
    (h : Launched pickerDate now currentDate originalDate p)
    (hrun : run step p (es ++ [.signOutAnswer true]) = some p') :
    SignedOut now originalDate p' := by
  obtain ⟨m, hm, hlast⟩ := run_append_eq.mp hrun
  obtain ⟨m', hm', hnil⟩ := run_cons_eq.mp hlast
  obtain rfl := run_nil_eq.mp hnil
  have hattended : Attended now originalDate m :=
    run_invariant _ (fun _ _ _ h hstep => attended_step h (steps_of_step hstep))
      (attended_launched h) hm
  have hrunning := running_of_step hm'
  cases steps_of_step hm' with
  | signedOut hdialog =>
    obtain ⟨hscreen, -, hroot, huser, hpresented⟩ := hattended.asking hdialog
    refine ⟨hrunning, huser, hroot, rfl, rfl, rfl, ?_, hscreen,
      ⟨rfl, rfl, rfl, rfl, hattended.purchase, hpresented⟩⟩
    simp only [Phone.signOutConfirmed, CreateContractVC.signOutConfirmed, hattended.original]
    rfl

end Pincushion.Cleared
