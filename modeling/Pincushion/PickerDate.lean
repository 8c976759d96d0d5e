import Pincushion.Header
import Pincushion.Navigation

/-! Whether a creation stores what its screen shows. The texts are read when the
answer comes; the date is a copy that only a move of the picker sets. -/
namespace Pincushion.PickerDate
open KeyTree SwiftNumber Structs Singletons FirebaseHelpers CreateContract Runs Header Navigation

/-- The three sizes, where all of their texts parse. -/
def sizes (vc : CreateContractVC) : Option (SwiftFloat × SwiftFloat × SwiftFloat) := do
  let bust ← SwiftFloat.ofText vc.bustField
  let waist ← SwiftFloat.ofText vc.waistField
  let hip ← SwiftFloat.ofText vc.hipField
  return (bust, waist, hip)

/-- What the screen showed is in the records of its creation and in the singletons. -/
structure StoresScreen (vc : CreateContractVC) (keys : CreateContractVC.Keys) (p' : Phone) :
    Prop where
  contract : ∃ k, contractAt p'.db keys.contract = some k ∧ k.eventDate = vc.datePicker
  bride : ∃ b, brideAt p'.db keys.bride = some b ∧ b.firstName = vc.brideNameField ∧
    b.lastName = vc.brideNameField
  measurement : ∃ m : Measurement, p'.db.sub ["measurements", keys.measurement] = m.encode ∧
    sizes vc = some (m.bust, m.waist, m.hip)
  contractSingleton : p'.statics.contract.eventDate = vc.datePicker
  brideSingleton : p'.statics.fullName = vc.brideNameField
  measurementSingleton : sizes vc = some p'.statics.measurement

def CreatesWhatIsShown (p : Phone) (e : Event) : Prop :=
  ∀ keys t p', e = .createConfirmed keys t → step p e = some p' → StoresScreen p.create keys p'

/-- Whether the picker was ever moved. -/
def pickerMoved (_ : Phone) (e : Event) (moved : Bool) : Bool := e.movesPicker || moved

/-- A creation comes after a move of the picker, unless the picker opened at the
time the screen was made. -/
def MovedOrNow (pickerDate now : Date) (moved : Bool) (_ : Phone) (e : Event) : Prop :=
  e.creates = true → moved = true ∨ pickerDate = now

instance (pickerDate now : Date) (moved : Bool) (p : Phone) (e : Event) :
    Decidable (MovedOrNow pickerDate now moved p e) :=
  inferInstanceAs (Decidable (_ → _))

/-- The copies of the date, and what the dialog of the creation has checked. -/
structure Copies (pickerDate now : Date) (moved : Bool) (vc : CreateContractVC) (dialog : Bool) :
    Prop where
  date : vc.selectedDate = if moved then vc.datePicker else now
  picker : moved = false → vc.datePicker = pickerDate
  asked : vc.presented = some .ready ∨ vc.presented = some .eraseCurrent →
    sizes vc = some vc.getMeasurements
  quiet : dialog = true → vc.presented = none

variable {p p' : Phone} {e : Event} {vc vc' : CreateContractVC} {g : Statics}
variable {pickerDate now : Date} {moved : Bool}

theorem sizes_of_getMeasurements (h : vc.getMeasurements ≠ (.finite 0, .finite 0, .finite 0)) :
    sizes vc = some vc.getMeasurements := by
  unfold CreateContractVC.getMeasurements at h ⊢
  split at h
  · rename_i hbust hwaist hhip
    simp [sizes, hbust, hwaist, hhip]
  · exact absurd rfl h

/-- The press changes nothing but what is presented. -/
theorem createContractAction_eq (hnone : vc.presented = none) :
    ∃ alert, vc.createContractAction g = { vc with presented := some alert } ∧
      (alert ≠ .enterMeasurements → sizes vc = some vc.getMeasurements) := by
  by_cases hsizes : vc.getMeasurements = (.finite 0, .finite 0, .finite 0)
  · refine ⟨.enterMeasurements, ?_, fun halert => absurd rfl halert⟩
    simp [CreateContractVC.createContractAction, CreateContractVC.present, hsizes, hnone]
  · by_cases hcurrent : g.contract.uid = ""
    · refine ⟨.ready, ?_, fun _ => sizes_of_getMeasurements hsizes⟩
      simp [CreateContractVC.createContractAction, CreateContractVC.present, hsizes, hnone,
        hcurrent]
    · refine ⟨.eraseCurrent, ?_, fun _ => sizes_of_getMeasurements hsizes⟩
      simp [CreateContractVC.createContractAction, CreateContractVC.present, hsizes, hnone,
        hcurrent]

theorem copies_unasked {dialog dialog' : Bool} (h : Copies pickerDate now moved vc dialog)
    (hdate : vc'.selectedDate = vc.selectedDate) (hpicker : vc'.datePicker = vc.datePicker)
    (hnone : vc'.presented = none) : Copies pickerDate now moved vc' dialog' where
  date := by rw [hdate, hpicker, h.date]
  picker hmoved := hpicker.trans (h.picker hmoved)
  asked halert := by simp [hnone] at halert
  quiet _ := hnone

theorem copies_create {ev : CreateContractVC.Event} (h : Copies pickerDate now moved vc false)
    (hstep : vc.step g ev = some vc') :
    Copies pickerDate now ((Event.create ev).movesPicker || moved) vc' false := by
  unfold CreateContractVC.step at hstep
  split at hstep <;> cases hstep
  case h_5 date hnone =>
    exact ⟨rfl, nofun, fun halert => by simp [hnone] at halert, fun _ => hnone⟩
  case h_7 hnone =>
    obtain ⟨alert, heq, hsizes⟩ := createContractAction_eq (g := g) hnone
    rw [heq]
    exact ⟨h.date, h.picker, fun halert => hsizes (by rintro rfl; simp at halert), nofun⟩
  case h_8 herase =>
    exact ⟨h.date, h.picker, fun _ => h.asked (Or.inr herase), nofun⟩
  case h_9 =>
    exact copies_unasked h rfl rfl rfl
  -- The fields and the appearance leave the date alone, and nothing is presented.
  all_goals
    exact copies_unasked h rfl rfl ‹_›

theorem copies_step (h : Copies pickerDate now moved p.create p.signOutDialog)
    (hstep : Steps p e p') :
    Copies pickerDate now (pickerMoved p e moved) p'.create p'.signOutDialog := by
  simp only [pickerMoved]
  cases hstep with
  | create e vc hfront hscreen hvisible hstep =>
    rw [(Phone.front_eq hfront).2.1] at h ⊢
    exact copies_create h hstep
  | created keys t =>
    exact copies_unasked h rfl rfl rfl
  | signedOut hdialog =>
    exact copies_unasked h rfl rfl (h.quiet hdialog)
  | signOutCancelled =>
    exact ⟨h.date, h.picker, h.asked, nofun⟩
  | asked l hlistener hchanged huser hsigningOut hpresented =>
    exact ⟨h.date, h.picker, h.asked, fun _ => hpresented⟩
  | _ =>
    exact ⟨h.date, h.picker, h.asked, h.quiet⟩

theorem copies_launched {currentDate originalDate : Date}
    (h : Launched pickerDate now currentDate originalDate p) :
    Copies pickerDate now false p.create p.signOutDialog := by
  obtain ⟨db, keys, user, huser, rfl⟩ := h
  exact ⟨rfl, fun _ => rfl, fun halert => by cases halert <;> contradiction, fun _ => rfl⟩

/-- What a creation stores, whatever the picker shows. -/
theorem storesScreen_iff {keys : CreateContractVC.Keys} {t : Date}
    (h : Copies pickerDate now moved p.create p.signOutDialog)
    (hready : p.create.presented = some .ready) :
    StoresScreen p.create keys (p.createConfirmed keys t) ↔
      p.create.selectedDate = p.create.datePicker := by
  have hdb : (p.createConfirmed keys t).db = afterCreation p.create p.statics keys t p.db := rfl
  have hsizes := h.asked (Or.inl hready)
  refine ⟨fun hstores => hstores.contractSingleton, fun hdate => ?_⟩
  refine ⟨⟨_, hdb ▸ contractAt_created .., hdate⟩, ⟨_, hdb ▸ brideAt_created .., rfl, rfl⟩,
    ⟨_, hdb ▸ measurement_created .., hsizes⟩, hdate, rfl, hsizes⟩

theorem createsWhatIsShown_iff (h : Copies pickerDate now moved p.create p.signOutDialog)
    (hstep : step p e = some p') :
    CreatesWhatIsShown p e ↔ MovedOrNow pickerDate now moved p e := by
  cases he : e.creates with
  | false =>
    refine ⟨fun _ hcreates => by simp [he] at hcreates, fun _ keys t m hcreates => ?_⟩
    rw [hcreates] at he
    cases he
  | true =>
    cases steps_of_step hstep with
    | created keys t hfront hscreen hpresented hfresh =>
      have hstores : StoresScreen p.create keys (p.createConfirmed keys t) ↔
          p.create.selectedDate = p.create.datePicker := storesScreen_iff h hpresented
      have hshown : CreatesWhatIsShown p (.createConfirmed keys t) ↔
          StoresScreen p.create keys (p.createConfirmed keys t) := by
        refine ⟨fun hall => hall keys t _ rfl hstep, fun hall keys' t' m he' hm => ?_⟩
        cases he'
        rw [hstep] at hm
        cases hm
        exact hall
      rw [hshown, hstores, h.date]
      simp only [MovedOrNow, Event.creates, forall_const]
      cases moved with
      | true => simp
      | false => simpa [h.picker rfl] using eq_comm
    | _ => cases he

/-- Creations store what is on the screen in the runs in which each comes after a
move of the picker, and in no other, unless the picker opened at the present time. -/
theorem stored_screen_iff {currentDate originalDate : Date} {es : List Event}
    (h : Launched pickerDate now currentDate originalDate p) (hrun : run step p es = some p') :
    Along step CreatesWhatIsShown p es ↔
      AlongWith step pickerMoved (MovedOrNow pickerDate now) false p es :=
  along_iff_alongWith (fun moved p => Copies pickerDate now moved p.create p.signOutDialog)
    (fun _ _ _ _ h _ hstep => copies_step h (steps_of_step hstep))
    (fun _ _ _ _ h hstep => createsWhatIsShown_iff h hstep) (copies_launched h) hrun

/-- The picker is moved to the event's day before the texts are typed. -/
def pickedFirst : List Event :=
  sueGreeted ++ [.create (.datePickerAction 30)] ++ annAsked ++ [annCreated]

theorem stored_screen_pickedFirst : ∃ p', run step suesPhone pickedFirst = some p' ∧
    Along step CreatesWhatIsShown suesPhone pickedFirst := by
  have hdone : (run step suesPhone pickedFirst).isSome = true := by
    decide +kernel
  obtain ⟨p', hp'⟩ := Option.isSome_iff_exists.mp hdone
  have hmoved : AlongWith step pickerMoved (MovedOrNow 10 0) false suesPhone pickedFirst := by
    decide +kernel
  exact ⟨p', hp', (stored_screen_iff launched_suesPhone hp').mpr hmoved⟩

/-- The picker shows the event's day, 10, and is left alone; day 0 is stored. -/
theorem not_stored_screen_untouched : ∃ p, run step suesPhone (sueGreeted ++ annAsked) = some p ∧
    p.create.datePicker = 10 ∧
    (∃ p', step p annCreated = some p' ∧
      (contractAt p'.db "c").map (·.eventDate) = some 0) ∧
    ¬ Along step CreatesWhatIsShown suesPhone (sueGreeted ++ annAsked ++ [annCreated]) := by
  have hdone : ∃ p ∈ run step suesPhone (sueGreeted ++ annAsked), p.create.datePicker = 10 ∧
      ∃ p' ∈ step p annCreated, (contractAt p'.db "c").map (·.eventDate) = some 0 := by
    decide +kernel
  obtain ⟨p, hp, hpicker, p', hp', hdate⟩ := hdone
  refine ⟨p, hp, hpicker, ⟨p', hp', hdate⟩, fun halong => ?_⟩
  have hshown := ((along_append hp).mp halong).2.1 _ _ p' rfl hp'
  obtain ⟨k, hk, hkdate⟩ := hshown.contract
  rw [hk, Option.map_some, hkdate, hpicker] at hdate
  exact absurd hdate (by decide)

end Pincushion.PickerDate
