import Pincushion.App
import Pincushion.NetworkValues

/-! Where the records, the screens and the loaded rows of a world come from: each
is there already, or the step that brings it is one of a few. -/
namespace Pincushion.AppRecords
open Structs FirebaseHelpers AlterationScreens CreateContract Network App
variable {D : Type*}

/-- The record that a step puts on its way to the server. -/
inductive Stores (s : World D) : Event D → AlterationStruct → Prop where
  | added (d : D) (key : String) (vc : AddAlterationVC) (hadd : (s.device d).add = some vc)
      (hpresented : vc.presented = some .confirm) :
      Stores s (.act d (.addConfirmed key)) { vc.myAlterationStruct with
        contractUID := (s.device d).statics.contract.uid
        uid := key }
  | edited (d : D) (vc : EditAlterationVC) (r : AlterationStruct)
      (hedit : (s.device d).edit = some vc) (hpresented : vc.presented = some .confirm)
      (hw : vc.confirmHandler = some (.alteration r.uid r)) : Stores s (.act d .editConfirmed) r

/-- A write that a step puts on its way to the server. -/
inductive Queues (s : World D) : Event D → Write → Prop where
  | created (d : D) (keys : CreateContractVC.Keys) (now : Date) (w : Write)
      (hw : w ∈ (s.device d).create.createdWrites (s.device d).statics keys now) :
      Queues s (.act d (.createConfirmed keys now)) w
  | stored (e : Event D) (r : AlterationStruct) (hr : Stores s e r) :
      Queues s e (.alteration r.uid r)
  | appended (i : Nat) (t : ListTarget) (l : List String) : Queues s (.callback i) (.list t l)

/-- What a device does to its screen that creates contracts. -/
inductive CreateActs (v : Device) : Action → CreateContractVC → Prop where
  | screen (e : CreateContractVC.Event) (vc : CreateContractVC)
      (hstep : v.create.step v.statics e = some vc) : CreateActs v (.create e) vc
  | authState (uid : String) (displayName : Option String) :
      CreateActs v (.authState uid displayName) (v.create.authState v.statics uid displayName).1
  | signOutConfirmed : CreateActs v .signOutConfirmed (v.create.signOutConfirmed v.statics).1
  | created (keys : CreateContractVC.Keys) (now : Date)
      (hpresented : v.create.presented = some .ready) :
      CreateActs v (.createConfirmed keys now) (v.create.created keys)

theorem recordFor_alteration {u v : String} {a r : AlterationStruct}
    (h : (Write.alteration v a).recordFor u = some r) : r = a := by
  simp only [Write.recordFor] at h
  split at h
  · exact (Option.some.inj h).symm
  · cases h

/-- Nothing is stored or loaded and no screen is open at the start. -/
theorem starts_empty {s : World D} (h : Starts s) : (∀ u r, ¬ s.net.RecordValue u r) ∧
    ∀ d, (s.device d).add = none ∧ (s.device d).edit = none ∧ (s.device d).loaded = [] := by
  obtain ⟨hnet, hdevice⟩ := h
  constructor
  · intro u r hr
    exact absurd (hnet ▸ hr) (by rintro (hr | ⟨d, w, hw, -⟩) <;> contradiction)
  · intro d
    obtain ⟨pickerDate, now, currentDate, originalDate, hd⟩ := hdevice d
    rw [hd]
    exact ⟨rfl, rfl, rfl⟩

variable [DecidableEq D] {s s' : World D} {e : Event D} {d : D} {u : String}
  {r : AlterationStruct}

/-- What holds of a device holds of the one that acted, or held before. -/
theorem device_set_cases {P : Device → Prop} {net : Net D} {d' : D} {v : Device}
    (h : P ((s.set net d' v).device d)) : (d = d' ∧ P v) ∨ P (s.device d) := by
  by_cases hd : d = d'
  · subst hd
    simp only [World.set, Function.update_self] at h
    exact Or.inl ⟨rfl, h⟩
  · simp only [World.set, Function.update_of_ne hd] at h
    exact Or.inr h

/-- The queues hold what they held and what the step puts there. -/
theorem queued_step {w : Write} (h : Steps s e s') (hw : w ∈ s'.net.outbox d) :
    w ∈ s.net.outbox d ∨ Queues s e w := by
  cases h with
  | created d' keys now hpresented hfresh =>
    cases Net.mem_outbox_setValues hw with
    | inl hold => exact Or.inl hold
    | inr hnew => exact Or.inr (.created d' keys now w hnew)
  | addTrap d' key vc hadd hpresented hfresh hempty =>
    cases Net.mem_outbox_setValues hw with
    | inl hold => exact Or.inl hold
    | inr hnew =>
      obtain rfl := List.mem_singleton.mp hnew
      have hstored := Stores.added (s := s) d' key vc hadd hpresented
      rw [hempty] at hstored
      exact Or.inr (.stored _ _ hstored)
  | added d' key vc hadd hpresented hfresh hcontract =>
    have hw : w ∈ ((s.net.allocate [key]).setValues d' [(AddAlterationVC.makeAlteration key
        (s.device d').statics.contract.uid vc.myAlterationStruct).2]).outbox d := hw
    cases Net.mem_outbox_setValues hw with
    | inl hold => exact Or.inl hold
    | inr hnew =>
      obtain rfl := List.mem_singleton.mp hnew
      exact Or.inr (.stored _ _ (.added d' key vc hadd hpresented))
  | edited d' vc w' hedit hpresented hw' =>
    obtain ⟨r, rfl, huid, -⟩ := EditAlterationVC.confirmHandler_eq hw'
    cases Net.mem_outbox_setValues hw with
    | inl hold => exact Or.inl hold
    | inr hnew =>
      obtain rfl := List.mem_singleton.mp hnew
      exact Or.inr (.stored _ _ (.edited d' vc r hedit hpresented hw'))
  | take i k net hnet =>
    obtain ⟨d', a, -, rfl⟩ := Net.take_eq hnet
    exact Or.inl hw
  | callback i net hnet =>
    obtain ⟨d', a, value, -, rfl⟩ := Net.callback_eq hnet
    cases Net.mem_outbox_setValues hw with
    | inl hold => exact Or.inl hold
    | inr hnew =>
      obtain ⟨seen, -, rfl⟩ := ListAppend.callback_eq (Option.mem_toList.mp hnew)
      exact Or.inr (.appended i _ _)
  | deliver d' net hnet =>
    obtain ⟨w', ws, hd, rfl⟩ := Net.deliver_eq hnet
    exact Or.inl (Net.mem_outbox_deliver hd hw)
  | _ => exact Or.inl hw

/-- The server stays as it is, or takes a write that was on its way. -/
theorem server_step (h : Steps s e s') : s'.net.server = s.net.server ∨
    ∃ d, ∃ w ∈ s.net.outbox d, s'.net.server = w.apply s.net.server := by
  cases h with
  | take i k net hnet =>
    obtain ⟨d, a, -, rfl⟩ := Net.take_eq hnet
    exact Or.inl rfl
  | callback i net hnet =>
    obtain ⟨d, a, value, -, rfl⟩ := Net.callback_eq hnet
    exact Or.inl rfl
  | deliver d net hnet =>
    obtain ⟨w, ws, hd, rfl⟩ := Net.deliver_eq hnet
    exact Or.inr ⟨d, w, by simp [hd], rfl⟩
  | _ => exact Or.inl rfl

theorem recordValue_step (h : Steps s e s') (hr : s'.net.RecordValue u r) :
    s.net.RecordValue u r ∨ Stores s e r := by
  cases hr with
  | inl hserver =>
    left
    cases server_step h with
    | inl hsame => exact Or.inl (hsame ▸ hserver)
    | inr htaken =>
      obtain ⟨d, w, hw, htaken⟩ := htaken
      rw [htaken] at hserver
      cases alterationAt_apply_cases hserver with
      | inl hold => exact Or.inl hold
      | inr hnew => exact Or.inr ⟨d, w, hw, hnew⟩
  | inr hqueued =>
    obtain ⟨d, w, hw, hwr⟩ := hqueued
    cases queued_step h hw with
    | inl hold => exact Or.inl (Or.inr ⟨d, w, hold, hwr⟩)
    | inr hnew =>
      right
      cases hnew with
      | created d keys now w hw =>
        rw [(CreateContractVC.createdWrites_cases hw).1 u] at hwr
        cases hwr
      | stored e r' hr' => exact recordFor_alteration hwr ▸ hr'
      | appended i t l => cases hwr

/-- The Add screen of a device was there, was just opened, or has taken a step. -/
theorem add_step {vc : AddAlterationVC} (h : Steps s e s') (hvc : (s'.device d).add = some vc) :
    (s.device d).add = some vc ∨
      (∃ object, e = .act d (.openAdd object) ∧ vc = .viewDidLoad object) ∨
      ∃ a vc', e = .act d (.add a) ∧ (s.device d).add = some vc' ∧ vc'.step a = some vc := by
  cases h with
  | screens d' a v hact =>
    rcases device_set_cases (P := fun v => v.add = some vc) hvc with ⟨rfl, hv⟩ | hv
    · cases acts_of_act hact with
      | openAdd object =>
        cases hv
        exact Or.inr (Or.inl ⟨object, rfl, rfl⟩)
      | add a vc' vc'' hadd hstep =>
        cases hv
        exact Or.inr (Or.inr ⟨a, vc', rfl, hadd, hstep⟩)
      | back => cases hv
      | _ => exact Or.inl hv
    · exact Or.inl hv
  | take | callback | deliver => exact Or.inl hvc
  | addTrap | added =>
    rcases device_set_cases (P := fun v => v.add = some vc) hvc with ⟨rfl, hv⟩ | hv
    · cases hv
    · exact Or.inl hv
  | load | created | edited | editTrap =>
    rcases device_set_cases (P := fun v => v.add = some vc) hvc with ⟨rfl, hv⟩ | hv
    · exact Or.inl hv
    · exact Or.inl hv

/-- The Edit screen of a device was there, was just opened for a loaded row, or has
taken a step. -/
theorem edit_step {vc : EditAlterationVC} (h : Steps s e s')
    (hvc : (s'.device d).edit = some vc) :
    (s.device d).edit = some vc ∨
      (∃ row r, e = .act d (.openEdit row) ∧ r ∈ (s.device d).loaded ∧ vc = .viewDidLoad r) ∨
      ∃ a vc', e = .act d (.edit a) ∧ (s.device d).edit = some vc' ∧ vc'.step a = some vc := by
  cases h with
  | screens d' a v hact =>
    rcases device_set_cases (P := fun v => v.edit = some vc) hvc with ⟨rfl, hv⟩ | hv
    · cases acts_of_act hact with
      | openEdit row r hloaded =>
        cases hv
        exact Or.inr (Or.inl ⟨row, r, rfl, List.mem_of_getElem? hloaded, rfl⟩)
      | edit a vc' vc'' hedit hstep =>
        cases hv
        exact Or.inr (Or.inr ⟨a, vc', rfl, hedit, hstep⟩)
      | back => cases hv
      | _ => exact Or.inl hv
    · exact Or.inl hv
  | take | callback | deliver => exact Or.inl hvc
  | edited =>
    rcases device_set_cases (P := fun v => v.edit = some vc) hvc with ⟨rfl, hv⟩ | hv
    · cases hv
    · exact Or.inl hv
  | load | created | addTrap | added | editTrap =>
    rcases device_set_cases (P := fun v => v.edit = some vc) hvc with ⟨rfl, hv⟩ | hv
    · exact Or.inl hv
    · exact Or.inl hv

/-- A loaded row is a record that some value of the network has. -/
theorem loaded_step (h : Steps s e s') (hr : r ∈ (s'.device d).loaded) :
    r ∈ (s.device d).loaded ∨ ∃ u, s.net.RecordValue u r := by
  cases h with
  | screens d' a v hact =>
    rcases device_set_cases (P := fun v => r ∈ v.loaded) hr with ⟨rfl, hv⟩ | hv
    · cases acts_of_act hact <;> exact Or.inl hv
    · exact Or.inl hv
  | load d' u k r' hload =>
    rcases device_set_cases (P := fun v => r ∈ v.loaded) hr with ⟨rfl, hv⟩ | hv
    · cases List.mem_append.mp hv with
      | inl hv =>
        exact Or.inl hv
      | inr hv =>
        obtain rfl := List.mem_singleton.mp hv
        exact Or.inr ⟨u, Net.recordValue_view hload⟩
    · exact Or.inl hv
  | take | callback | deliver => exact Or.inl hr
  | created | addTrap | added | edited | editTrap =>
    rcases device_set_cases (P := fun v => r ∈ v.loaded) hr with ⟨rfl, hv⟩ | hv
    · exact Or.inl hv
    · exact Or.inl hv

/-- The screen that creates contracts stays as it is, unless its device acts on it. -/
theorem create_step (h : Steps s e s') (d : D) : (s'.device d).create = (s.device d).create ∨
    ∃ a, e = .act d a ∧ CreateActs (s.device d) a (s'.device d).create := by
  cases h with
  | screens d' a v hact =>
    by_cases hd : d = d'
    · subst hd
      simp only [World.set, Function.update_self]
      cases acts_of_act hact with
      | create e vc hstep => exact Or.inr ⟨_, rfl, .screen e vc hstep⟩
      | authState uid displayName => exact Or.inr ⟨_, rfl, .authState uid displayName⟩
      | signOutConfirmed => exact Or.inr ⟨_, rfl, .signOutConfirmed⟩
      | _ => exact Or.inl rfl
    · simp only [World.set, Function.update_of_ne hd, true_or]
  | created d' keys now hpresented hfresh =>
    by_cases hd : d = d'
    · subst hd
      simp only [World.set, Function.update_self]
      exact Or.inr ⟨_, rfl, .created keys now hpresented⟩
    · simp only [World.set, Function.update_of_ne hd, true_or]
  | take | callback | deliver => exact Or.inl rfl
  | load d' | addTrap d' | added d' | edited d' | editTrap d' =>
    by_cases hd : d = d'
    · subst hd
      simp only [World.set, Function.update_self, true_or]
    · simp only [World.set, Function.update_of_ne hd, true_or]

theorem created_presented {keys : CreateContractVC.Keys} {now : Date}
    (h : Steps s (.act d (.createConfirmed keys now)) s') :
    (s.device d).create.presented = some .ready := by
  cases h with
  | screens d a v hact => cases hact
  | created d keys now hpresented hfresh => exact hpresented

end Pincushion.AppRecords
