import Pincushion.Creation
import Pincushion.Header

/-! A new contract beside the one before it. The four records and the singletons
of a creation are made from what the screen holds; of what went before only the
singletons' original values enter, and these never change. -/
namespace Pincushion.Residue
open KeyTree SwiftNumber Structs Singletons FirebaseHelpers CreateContract
open Network Runs App Integrity Header
variable {D : Type*}

/-- What the screen shows of the new contract, and the dates and the uid it keeps. -/
structure Screen where
  bustField : String
  waistField : String
  hipField : String
  brideNameField : String
  selectedDate : Date
  purchaseDate : Date
  currentUserUID : String
deriving DecidableEq

def screen (vc : CreateContractVC) : Screen where
  bustField := vc.bustField
  waistField := vc.waistField
  hipField := vc.hipField
  brideNameField := vc.brideNameField
  selectedDate := vc.selectedDate
  purchaseDate := vc.purchaseDate
  currentUserUID := vc.currentUserUID

/-- `ContractSingleton.current`, `BrideSingleton` and `MeasurementSingleton.current` -/
def singletons (g : Statics) : Contract × (String × String) × (SwiftFloat × SwiftFloat × SwiftFloat) :=
  (g.contract, (g.brideUID, g.fullName), g.measurement)

/-- The records that a creation with these keys would write. -/
def newRecords (v : Device) (keys : CreateContractVC.Keys) (now : Date) : List Write :=
  v.create.createdWrites v.statics keys now

/-- The singletons that it would leave. -/
def newSingletons (v : Device) (keys : CreateContractVC.Keys) :
    Contract × (String × String) × (SwiftFloat × SwiftFloat × SwiftFloat) :=
  singletons (v.create.createdStatics v.statics keys)

/-- All that a creation takes from the singletons is as it was at the start. -/
structure Blank (g : Statics) : Prop where
  brideUID : g.brideUID = ""
  original : ∃ date, g.originalValues = emptyContract date

variable {v w : Device} {s s' : World D} {e : Event D} {d : D}

theorem getMeasurements_eq {vc vc' : CreateContractVC} (h : screen vc = screen vc') :
    vc.getMeasurements = vc'.getMeasurements := by
  simp only [screen, Screen.mk.injEq] at h
  simp only [CreateContractVC.getMeasurements, h]

theorem newSingletons_eq (hv : Blank v.statics) (hw : Blank w.statics)
    (h : screen v.create = screen w.create) (keys : CreateContractVC.Keys) :
    newSingletons v keys = newSingletons w keys := by
  obtain ⟨date, hdate⟩ := hv.original
  obtain ⟨date', hdate'⟩ := hw.original
  have hsizes := getMeasurements_eq h
  simp only [screen, Screen.mk.injEq] at h
  simp only [newSingletons, singletons, CreateContractVC.createdStatics,
    CreateContractVC.updateContractSingleton, CreateContractVC.created, hdate, hdate',
    emptyContract, hv.brideUID, hw.brideUID, h, hsizes]

theorem newRecords_eq (hv : Blank v.statics) (hw : Blank w.statics)
    (h : screen v.create = screen w.create) (keys : CreateContractVC.Keys) (now : Date) :
    newRecords v keys now = newRecords w keys now := by
  have hsizes := getMeasurements_eq h
  simp only [screen, Screen.mk.injEq] at h
  simp only [newRecords, CreateContractVC.createdWrites, CreateContractVC.createdStatics,
    CreateContractVC.makeDress, CreateContractVC.makeContract, hv.brideUID, hw.brideUID, h, hsizes]

theorem blank_act {a : Action} (h : Blank v.statics) (hact : v.act a = some w) :
    Blank w.statics := by
  cases acts_of_act hact with
  | signOutConfirmed => exact ⟨rfl, h.original⟩
  | authState => exact ⟨h.brideUID, h.original⟩
  | _ => exact h

variable [DecidableEq D]

theorem blank_set {net : Net D} (h : ∀ d, Blank (s.device d).statics) (hv : Blank v.statics) :
    ∀ d', Blank ((s.set net d v).device d').statics :=
  forall_device_set (P := fun v => Blank v.statics) h hv

theorem blank_of_reachable (h : Reachable step Starts s) : ∀ d, Blank (s.device d).statics := by
  refine reachable_of_steps (fun s => ∀ d, Blank (s.device d).statics) ?_ ?_ h
  · intro s hs d
    obtain ⟨pickerDate, now, currentDate, originalDate, hd⟩ := hs.2 d
    rw [hd]
    exact ⟨rfl, originalDate, rfl⟩
  · intro s e s' h hstep
    cases hstep with
    | screens d a v hact => exact blank_set h (blank_act (h d) hact)
    | created d | addTrap d | added d => exact blank_set h ⟨(h d).brideUID, (h d).original⟩
    | load d | edited d | editTrap d => exact blank_set h (h d)
    | take | callback | deliver => exact h

/-- No write is on its way to a record whose key nobody was given. -/
theorem queued_known (h : Reachable step Starts s) {w : Write} {c k : String}
    (hw : w ∈ s.net.outbox d) (hnode : w.node = [c, k]) : k ∈ s.net.keys := by
  obtain ⟨owner, hintact⟩ := intact_of_reachable h
  obtain ⟨s₀, es, hstart, hrun⟩ := h
  have hapart := apart_of_run hstart hrun
  cases hapart.queued d w hw with
  | inl halteration =>
    obtain ⟨u, r, rfl⟩ := halteration
    simp only [Write.node, List.cons.injEq, and_true] at hnode
    have hvalue : s.net.RecordValue u r := Or.inr ⟨d, _, hw, by simp [Write.recordFor]⟩
    exact hnode.2 ▸ (hintact.owned.record u r hvalue).2.2
  | inr hmade =>
    obtain ⟨c', k', hnode', hk⟩ := hmade
    rw [hnode'] at hnode
    simp only [List.cons.injEq, and_true] at hnode
    exact hnode.2 ▸ hapart.known d k' hk

theorem stored_known_step (hreach : Reachable step Starts s)
    (h : ∀ c k, s.net.server.sub [c, k] ≠ empty → k ∈ s.net.keys) (hstep : Steps s e s') :
    ∀ c k, s'.net.server.sub [c, k] ≠ empty → k ∈ s'.net.keys := by
  cases hstep with
  | screens | load | edited | editTrap => exact h
  | created | addTrap | added => exact fun c k hk => List.mem_append_left _ (h c k hk)
  | take i k net hnet =>
    obtain ⟨d, a, -, rfl⟩ := Net.take_eq hnet
    exact h
  | callback i net hnet =>
    obtain ⟨d, a, value, -, rfl⟩ := Net.callback_eq hnet
    exact h
  | deliver d net hnet =>
    obtain ⟨w, ws, hd, rfl⟩ := Net.deliver_eq hnet
    intro c k hk
    by_cases hnode : w.node = [c, k]
    · exact queued_known (d := d) hreach (by simp [hd]) hnode
    · exact h c k (sub_apply_ne w s.net.server hnode ▸ hk)

theorem stored_known (h : Reachable step Starts s) {c k : String}
    (hstored : s.net.server.sub [c, k] ≠ empty) : k ∈ s.net.keys := by
  have hstart : ∀ s : World D, Starts s → Reachable step Starts s ∧
      ∀ c k, s.net.server.sub [c, k] ≠ empty → k ∈ s.net.keys := by
    intro s hs
    refine ⟨⟨s, [], hs, rfl⟩, fun c k hk => ?_⟩
    rw [hs.1] at hk
    exact absurd rfl hk
  have hknown := reachable_invariant
    (fun s : World D => Reachable step Starts s ∧
      ∀ c k, s.net.server.sub [c, k] ≠ empty → k ∈ s.net.keys) hstart
    (fun s e s' hs hstep => ⟨reachable_step hs.1 hstep,
      stored_known_step hs.1 hs.2 (steps_of_step hstep)⟩) h
  exact hknown.2 c k hstored

/-- Nothing that a device sees has a key that nobody was given. -/
theorem settled_known (h : Reachable step Starts s) {c k : String}
    (hstored : (s.net.settled d).sub [c, k] ≠ empty) : k ∈ s.net.keys := by
  by_cases hqueued : ∃ w ∈ s.net.outbox d, w.node = [c, k]
  · obtain ⟨w, hw, hnode⟩ := hqueued
    exact queued_known h hw hnode
  · refine stored_known (c := c) h ?_
    rwa [Net.settled, sub_foldl_ne fun w hw hnode => hqueued ⟨w, hw, hnode⟩] at hstored

theorem created_of_step {keys : CreateContractVC.Keys} {now : Date}
    (hstep : step s (.act d (.createConfirmed keys now)) = some s') :
    s.net.Fresh keys.toList ∧ s' = s.set
      ((s.net.allocate keys.toList).setValues d (newRecords (s.device d) keys now)) d
      { s.device d with
        create := (s.device d).create.created keys
        statics := (s.device d).create.createdStatics (s.device d).statics keys } := by
  cases steps_of_step hstep with
  | screens d a v hact => cases hact
  | created d keys now hpresented hfresh => exact ⟨hfresh, rfl⟩

/-- Two devices whose screens agree create the same contract, whatever either has
held before: with the same keys they would write the same records and end with
the same singletons, and every record that a device could see stays as it is. -/
theorem creation_without_residue {s₁ s₂ : World D} {d₁ d₂ : D}
    (h₁ : Reachable step Starts s₁) (h₂ : Reachable step Starts s₂)
    (hscreen : screen (s₁.device d₁).create = screen (s₂.device d₂).create) :
    (∀ keys now, newRecords (s₁.device d₁) keys now = newRecords (s₂.device d₂) keys now ∧
      newSingletons (s₁.device d₁) keys = newSingletons (s₂.device d₂) keys) ∧
    ∀ keys now s', step s₁ (.act d₁ (.createConfirmed keys now)) = some s' →
      s'.net.outbox d₁ = s₁.net.outbox d₁ ++ newRecords (s₁.device d₁) keys now ∧
      singletons (s'.device d₁).statics = newSingletons (s₁.device d₁) keys ∧
      ∀ d c k, (s₁.net.settled d).sub [c, k] ≠ empty → ∀ d',
        (s'.net.settled d').sub [c, k] = (s₁.net.settled d').sub [c, k] := by
  have hv := blank_of_reachable h₁ d₁
  have hw := blank_of_reachable h₂ d₂
  refine ⟨fun keys now => ⟨newRecords_eq hv hw hscreen keys now,
    newSingletons_eq hv hw hscreen keys⟩, fun keys now s' hstep => ?_⟩
  obtain ⟨hfresh, rfl⟩ := created_of_step hstep
  refine ⟨?_, ?_, fun d c k hstored d' => ?_⟩
  · simp [World.set, Net.setValues, Net.allocate]
  · simp [World.set, newSingletons]
  · have hk : k ∉ keys.toList := fun hmem => (hfresh.2 k hmem).2 (settled_known h₁ hstored)
    by_cases hd : d' = d₁
    · subst hd
      simp only [World.set, Net.settled_setValues]
      refine sub_foldl_ne fun w hw hnode => ?_
      obtain ⟨c', k', hnode', hk'⟩ := node_of_createdWrites hw
      rw [hnode'] at hnode
      simp only [List.cons.injEq, and_true] at hnode
      exact hk (hnode.2 ▸ hk')
    · simp only [World.set, Net.settled_setValues_ne _ hd]
      rfl

/-- Beth's contract is about to be made on the device that made Ann's. -/
def bethAsked : List (Event Unit) := annCreated ++ [
  .act () (.create (.typeBust "40")), .act () (.create (.typeWaist "30")),
  .act () (.create (.typeHip "42")), .act () (.create (.typeBrideName "Beth")),
  .act () (.create .createContractAction), .act () (.create .startNew)]

/-- The same is asked of a device that has made no contract. -/
def bethFirst : List (Event Unit) := [
  .act () (.create (.typeBust "40")), .act () (.create (.typeWaist "30")),
  .act () (.create (.typeHip "42")), .act () (.create (.typeBrideName "Beth")),
  .act () (.create .createContractAction)]

theorem creation_without_residue_beth : ∃ s₁ s₂, run step justOpened bethAsked = some s₁ ∧
    run step justOpened bethFirst = some s₂ ∧
    (s₁.device ()).statics.contract.uid = "c" ∧ (s₂.device ()).statics.contract.uid = "" ∧
    ∀ keys now, newRecords (s₁.device ()) keys now = newRecords (s₂.device ()) keys now ∧
      newSingletons (s₁.device ()) keys = newSingletons (s₂.device ()) keys := by
  have hasked : ∃ s ∈ run step justOpened bethAsked,
      screen (s.device ()).create = ⟨"40", "30", "42", "Beth", 0, 0, ""⟩ ∧
      (s.device ()).statics.contract.uid = "c" := by
    decide +kernel
  have hfirst : ∃ s ∈ run step justOpened bethFirst,
      screen (s.device ()).create = ⟨"40", "30", "42", "Beth", 0, 0, ""⟩ ∧
      (s.device ()).statics.contract.uid = "" := by
    decide +kernel
  obtain ⟨s₁, hs₁, hscreen₁, huid₁⟩ := hasked
  obtain ⟨s₂, hs₂, hscreen₂, huid₂⟩ := hfirst
  exact ⟨s₁, s₂, hs₁, hs₂, huid₁, huid₂, (creation_without_residue
    ⟨justOpened, bethAsked, starts_justOpened, hs₁⟩
    ⟨justOpened, bethFirst, starts_justOpened, hs₂⟩ (hscreen₁.trans hscreen₂.symm)).1⟩

end Pincushion.Residue
