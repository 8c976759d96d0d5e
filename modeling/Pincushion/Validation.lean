import Pincushion.AppRecords

/-! What a tap on Create leads to. Its check presents an alert and goes on, and the
dialog it then presents finds the alert in its place; the bride's name is not checked. -/
namespace Pincushion.Validation
open SwiftNumber Structs Singletons FirebaseHelpers CreateContract Runs Network App AppRecords

/-- The three texts are numbers, and not all of them zero. -/
def Measured (vc : CreateContractVC) : Prop :=
  ∃ bust waist hip, SwiftFloat.ofText vc.bustField = some bust ∧
    SwiftFloat.ofText vc.waistField = some waist ∧ SwiftFloat.ofText vc.hipField = some hip ∧
    (bust, waist, hip) ≠ (.finite 0, .finite 0, .finite 0)

/-- The dialogs that follow a tap, with what they have set and written so far. -/
structure Dialogs where
  vc : CreateContractVC
  statics : Statics
  writes : List Write

def Dialogs.tapped (vc : CreateContractVC) (g : Statics) : Dialogs :=
  ⟨vc.createContractAction g, g, []⟩

inductive Answer where
  | startNew
  | create (keys : CreateContractVC.Keys) (now : Date)
  | dismiss

/-- A dialog is modal, so the answers to it are all that can follow. -/
def answer (t : Dialogs) : Answer → Option Dialogs
  | .startNew => (t.vc.step t.statics .startNew).map fun vc => { t with vc }
  | .dismiss => (t.vc.step t.statics .dismiss).map fun vc => { t with vc }
  | .create keys now =>
    if t.vc.presented = some .ready then
      some ⟨t.vc.created keys, t.vc.createdStatics t.statics keys,
        t.writes ++ t.vc.createdWrites t.statics keys now⟩
    else none

/-- A dialog is up that has a way to the creation. -/
def LeadsToCreation (vc : CreateContractVC) : Prop :=
  vc.presented = some .ready ∨ vc.presented = some .eraseCurrent

/-- The tap asks whether to create for valid texts only; for others it shows the alert,
and nothing is set or written whatever is answered. -/
structure Validated (vc : CreateContractVC) (g : Statics) : Prop where
  leads : LeadsToCreation (vc.createContractAction g) → Measured vc ∧ vc.brideNameField ≠ ""
  stops : ¬ (Measured vc ∧ vc.brideNameField ≠ "") →
    vc.createContractAction g = { vc with presented := some .enterMeasurements } ∧
    ∀ answers t, run answer (.tapped vc g) answers = some t → t.statics = g ∧ t.writes = []

variable {vc : CreateContractVC} {g : Statics}

theorem measured_iff :
    Measured vc ↔ vc.getMeasurements ≠ (.finite 0, .finite 0, .finite 0) := by
  unfold Measured CreateContractVC.getMeasurements
  cases SwiftFloat.ofText vc.bustField with
  | none => simp
  | some bust =>
    cases SwiftFloat.ofText vc.waistField with
    | none => simp
    | some waist =>
      cases SwiftFloat.ofText vc.hipField with
      | none => simp
      | some hip => simp

/-- The alert of the check keeps any other dialog from being presented. -/
theorem createContractAction_of_not_measured (h : ¬ Measured vc) (hidle : vc.presented = none) :
    vc.createContractAction g = { vc with presented := some .enterMeasurements } := by
  have hzero : vc.getMeasurements = (.finite 0, .finite 0, .finite 0) := by
    by_contra hne
    exact h (measured_iff.mpr hne)
  simp [CreateContractVC.createContractAction, hzero, CreateContractVC.present, hidle]

theorem leadsToCreation_iff (hidle : vc.presented = none) :
    LeadsToCreation (vc.createContractAction g) ↔ Measured vc := by
  by_cases h : Measured vc
  · have hne := measured_iff.mp h
    simp only [h, iff_true, LeadsToCreation, CreateContractVC.createContractAction, hne, if_false]
    split <;> simp [CreateContractVC.present, hidle]
  · rw [createContractAction_of_not_measured h hidle]
    simp [h, LeadsToCreation]

/-- No step but a tap on Create brings up a dialog that leads to the creation. -/
theorem not_leads_step {vc' : CreateContractVC} {e : CreateContractVC.Event}
    (h : ¬ LeadsToCreation vc) (he : e ≠ .createContractAction) (hstep : vc.step g e = some vc') :
    ¬ LeadsToCreation vc' := by
  rw [LeadsToCreation, not_or] at h ⊢
  unfold CreateContractVC.step at hstep
  split at hstep
  case h_7 => exact absurd rfl he
  case h_8 hpresented => exact absurd hpresented h.2
  case h_9 =>
    cases hstep
    exact ⟨nofun, nofun⟩
  case h_10 => cases hstep
  all_goals
    cases hstep
    exact h

/-- Where no dialog leads to the creation, none of the answers sets or writes anything. -/
theorem quiet_answer {t t' : Dialogs} {a : Answer} (h : ¬ LeadsToCreation t.vc)
    (hstep : answer t a = some t') :
    ¬ LeadsToCreation t'.vc ∧ t'.statics = t.statics ∧ t'.writes = t.writes := by
  cases a with
  | startNew =>
    obtain ⟨vc, hvc, rfl⟩ := Option.map_eq_some_iff.mp hstep
    exact ⟨not_leads_step h (by simp) hvc, rfl, rfl⟩
  | create keys now =>
    simp only [answer] at hstep
    split at hstep
    · rename_i hready
      exact absurd (Or.inl hready) h
    · cases hstep
  | dismiss =>
    obtain ⟨vc, hvc, rfl⟩ := Option.map_eq_some_iff.mp hstep
    exact ⟨not_leads_step h (by simp) hvc, rfl, rfl⟩

theorem quiet_answers {t t' : Dialogs} {answers : List Answer} (h : ¬ LeadsToCreation t.vc)
    (hrun : run answer t answers = some t') : t'.statics = t.statics ∧ t'.writes = t.writes := by
  induction answers generalizing t with
  | nil =>
    obtain rfl := run_nil_eq.mp hrun
    exact ⟨rfl, rfl⟩
  | cons a answers ih =>
    obtain ⟨m, ha, hrest⟩ := run_cons_eq.mp hrun
    obtain ⟨hm, hstatics, hwrites⟩ := quiet_answer h ha
    obtain ⟨hstatics', hwrites'⟩ := ih hm hrest
    exact ⟨hstatics'.trans hstatics, hwrites'.trans hwrites⟩

/-- A tap on Create is validated exactly when the bride has a name or the measurements
fail the check. -/
theorem validated_iff (hidle : vc.presented = none) :
    Validated vc g ↔ vc.brideNameField ≠ "" ∨ ¬ Measured vc := by
  constructor
  · intro h
    by_cases hmeasured : Measured vc
    · exact Or.inl (h.leads ((leadsToCreation_iff hidle).mpr hmeasured)).2
    · exact Or.inr hmeasured
  · intro h
    constructor
    · intro hleads
      have hmeasured := (leadsToCreation_iff hidle).mp hleads
      exact ⟨hmeasured, h.resolve_right (not_not.mpr hmeasured)⟩
    · intro hinvalid
      have hmeasured : ¬ Measured vc := fun hmeasured =>
        hinvalid ⟨hmeasured, h.resolve_right (not_not.mpr hmeasured)⟩
      refine ⟨createContractAction_of_not_measured hmeasured hidle, fun answers t hrun => ?_⟩
      have hquiet : ¬ LeadsToCreation (Dialogs.tapped vc g).vc := by
        rwa [Dialogs.tapped, leadsToCreation_iff hidle]
      exact quiet_answers hquiet hrun

section
variable {D : Type*} [DecidableEq D] {s s' : World D} {e : App.Event D} {d : D}

theorem not_leads_app (h : ¬ LeadsToCreation (s.device d).create) (hstep : Steps s e s')
    (he : e ≠ .act d (.create .createContractAction)) :
    ¬ LeadsToCreation (s'.device d).create ∧
      ∀ keys now, e ≠ .act d (.createConfirmed keys now) := by
  constructor
  · cases create_step hstep d with
    | inl hsame => rwa [hsame]
    | inr hacts =>
      obtain ⟨a, rfl, hacts⟩ := hacts
      revert hacts
      generalize (s'.device d).create = vc
      intro hacts
      cases hacts with
      | screen e vc hstep => exact not_leads_step h (fun hne => he (hne ▸ rfl)) hstep
      | authState uid displayName => exact h
      | signOutConfirmed => exact h
      | created keys now hpresented => exact absurd (Or.inl hpresented) h
  · rintro keys now rfl
    exact h (Or.inl (created_presented hstep))

/-- After a tap that fails the check nothing is created before the next tap, whatever
else happens on this device, on others and on the network. -/
theorem no_creation_before_tap {es : List (App.Event D)}
    (h : ¬ LeadsToCreation (s.device d).create)
    (hes : .act d (.create .createContractAction) ∉ es) (hrun : run step s es = some s')
    (keys : CreateContractVC.Keys) (now : Date) : .act d (.createConfirmed keys now) ∉ es := by
  induction es generalizing s with
  | nil => exact List.not_mem_nil
  | cons e es ih =>
    obtain ⟨m, he, hrest⟩ := run_cons_eq.mp hrun
    rw [List.mem_cons, not_or] at hes ⊢
    obtain ⟨hm, hcreated⟩ := not_leads_app h (steps_of_step he) (Ne.symm hes.1)
    exact ⟨Ne.symm (hcreated keys now), ih hm hes.2 hrest⟩

end

/-- The screen after the measurements were typed. -/
def typed (bust waist hip brideName : String) : CreateContractVC :=
  { CreateContractVC.new 0 0 with
    bustField := bust
    waistField := waist
    hipField := hip
    brideNameField := brideName }

theorem validated_ann : Validated (typed "36" "26" "38" "Ann") (.initial 0 0) :=
  (validated_iff rfl).mpr (Or.inl (by decide))

/-- A bride without a name gets her contract. -/
theorem not_validated_nameless : ¬ Validated (typed "36" "26" "38" "") (.initial 0 0) ∧
    ∃ t, run answer (.tapped (typed "36" "26" "38" "") (.initial 0 0))
        [.create ⟨"d", "c", "b", "m"⟩ 0] = some t ∧
      t.statics.fullName = "" ∧ t.statics.contract.uid = "c" ∧ t.writes.length = 4 := by
  constructor
  · intro h
    have hleads : LeadsToCreation ((typed "36" "26" "38" "").createContractAction (.initial 0 0)) :=
      Or.inl (by decide +kernel)
    exact absurd rfl (h.leads hleads).2
  · refine ⟨_, rfl, rfl, rfl, rfl⟩

end Pincushion.Validation
