import Pincushion.Navigation

/-! Whose uid the contracts and brides carry. The screen keeps a copy of the uid,
which the calls of its listeners set and nothing clears. -/
namespace Pincushion.SignedIn
open KeyTree Structs FirebaseHelpers CreateContract Runs Navigation

/-- The specialist that a contract or a bride names. -/
def specialistOf : Write → Option String
  | .contract _ k => some k.specialistUID
  | .bride _ b => some b.specialist
  | _ => none

/-- Who is signed in is the specialist of all that the step writes. -/
def WritesAsSignedIn (p : Phone) (e : Event) : Prop :=
  ∀ w ∈ issued p e, ∀ uid, specialistOf w = some uid → p.userUID = some uid

/-- The last user that a listener of the screen was called with. -/
def heard (p : Phone) (e : Event) (last : Option String) : Option String := match e with
  | .listenerCall => p.userUID.or last
  | _ => last

/-- Nothing is created while nobody is signed in, or before the screen has heard of
the user who is. -/
def CreatesAsHeard (last : Option String) (p : Phone) (e : Event) : Prop :=
  e.creates = true → p.userUID ≠ none ∧ last = p.userUID

instance (last : Option String) (p : Phone) (e : Event) : Decidable (CreatesAsHeard last p e) :=
  inferInstanceAs (Decidable (_ → _))

/-- The copy is of the last user heard of, and no user has the empty uid. -/
structure Copied (last : Option String) (p : Phone) : Prop where
  copy : p.create.currentUserUID = last.getD ""
  user : ∀ u, p.user = some u → u.uid ≠ ""

variable {p p' : Phone} {e : Event} {last : Option String}

theorem copied_launched {pickerDate now currentDate originalDate : Date}
    (h : Launched pickerDate now currentDate originalDate p) : Copied none p := by
  obtain ⟨db, keys, user, huser, rfl⟩ := h
  exact ⟨rfl, huser⟩

theorem copied_step (h : Copied last p) (hstep : Steps p e p') : Copied (heard p e last) p' := by
  cases hstep with
  | create e vc hfront hscreen hvisible hstep =>
    exact ⟨(CreateContractVC.step_kept hstep).1.trans h.copy, h.user⟩
  | signOut => exact ⟨h.copy, nofun⟩
  | heard l u hlistener hchanged huser =>
    refine ⟨?_, h.user⟩
    simp [heard, Phone.userUID, huser, CreateContractVC.authState]
  | asked l hlistener hchanged huser | unheard l hlistener hchanged huser =>
    refine ⟨?_, h.user⟩
    simpa [heard, Phone.userUID, huser] using h.copy
  | signIn u hlogin huid =>
    refine ⟨h.copy, fun v hv => ?_⟩
    cases hv
    exact huid
  | _ => exact ⟨h.copy, h.user⟩

/-- Only a creation writes contracts or brides. -/
theorem specialistOf_issued (he : e.creates = false) {w : Write} (hw : w ∈ issued p e) :
    specialistOf w = none := by
  cases issues_of_mem hw with
  | created => cases he
  | added => rfl
  | edited r vc w hscreen hw =>
    obtain ⟨r, rfl, -⟩ := AlterationScreens.EditAlterationVC.confirmHandler_eq hw
    rfl
  | appended u a value w happend hw =>
    obtain ⟨server, -, rfl⟩ := ListAppend.callback_eq hw
    rfl

theorem specialistOf_created {keys : CreateContractVC.Keys} {t : Date} :
    WritesAsSignedIn p (.createConfirmed keys t) ↔ p.userUID = some p.create.currentUserUID := by
  constructor
  · intro h
    refine h _ (List.mem_cons_of_mem _ (List.mem_cons_self ..)) _ rfl
  · intro h w hw uid huid
    simp only [issued, CreateContractVC.createdWrites, List.mem_cons, List.not_mem_nil,
      or_false] at hw
    obtain rfl | rfl | rfl | rfl := hw
    · cases huid
    · exact h.trans huid
    · exact h.trans huid
    · cases huid

theorem writesAsSignedIn_iff (h : Copied last p) :
    WritesAsSignedIn p e ↔ CreatesAsHeard last p e := by
  cases he : e.creates with
  | false =>
    refine ⟨fun _ hcreates => by simp [he] at hcreates, fun _ w hw uid huid => ?_⟩
    rw [specialistOf_issued he hw] at huid
    cases huid
  | true =>
    cases e with
    | createConfirmed keys t =>
      rw [specialistOf_created, h.copy, CreatesAsHeard, forall_prop_of_true he]
      cases huser : p.user with
      | none => simp [Phone.userUID, huser]
      | some u =>
        have huid := h.user u huser
        cases last with
        | none => simpa [Phone.userUID, huser] using huid
        | some uid => simp [Phone.userUID, huser, eq_comm]
    | _ => cases he

/-- The records carry the uid of who is signed in, in the runs in which nothing is
created before the screen has heard of that user or after a sign-out, and in no other. -/
theorem written_as_signed_in_iff {pickerDate now currentDate originalDate : Date}
    {es : List Event} (h : Launched pickerDate now currentDate originalDate p)
    (hrun : run step p es = some p') :
    Along step WritesAsSignedIn p es ↔ AlongWith step heard CreatesAsHeard none p es :=
  along_iff_alongWith Copied (fun _ _ e _ h _ hstep => copied_step (e := e) h (steps_of_step hstep))
    (fun _ _ e _ h _ => writesAsSignedIn_iff (e := e) h) (copied_launched h) hrun

theorem written_as_sue : ∃ p', run step suesPhone (sueGreeted ++ annAsked ++ [annCreated]) = some p' ∧
    Along step WritesAsSignedIn suesPhone (sueGreeted ++ annAsked ++ [annCreated]) := by
  have hdone : (run step suesPhone (sueGreeted ++ annAsked ++ [annCreated])).isSome = true := by
    decide +kernel
  obtain ⟨p', hp'⟩ := Option.isSome_iff_exists.mp hdone
  have hheard : AlongWith step heard CreatesAsHeard none suesPhone
      (sueGreeted ++ annAsked ++ [annCreated]) := by
    decide +kernel
  exact ⟨p', hp', (written_as_signed_in_iff launched_suesPhone hp').mpr hheard⟩

/-- Sue cancels signing out, and creates a contract. -/
def sueCancelled : List Event :=
  sueGreeted ++ [.signOutAction false, .listenerCall, .signOutAnswer false] ++ annAsked

/-- It is stored as hers when nobody is signed in. -/
theorem not_written_as_sue : ∃ p, run step suesPhone sueCancelled = some p ∧ p.user = none ∧
    (∃ p', step p annCreated = some p' ∧
      (contractAt p'.db "c").map (·.specialistUID) = some "s") ∧
    ¬ Along step WritesAsSignedIn suesPhone (sueCancelled ++ [annCreated]) := by
  have hdone : ∃ p ∈ run step suesPhone sueCancelled, p.user = none ∧
      ∃ p' ∈ step p annCreated, (contractAt p'.db "c").map (·.specialistUID) = some "s" := by
    decide +kernel
  obtain ⟨p, hp, huser, p', hp', hstored⟩ := hdone
  refine ⟨p, hp, huser, ⟨p', hp', hstored⟩, fun halong => ?_⟩
  have hwrites := specialistOf_created.mp ((along_append hp).mp halong).2.1
  rw [Phone.userUID, huser] at hwrites
  cases hwrites

end Pincushion.SignedIn
