import Pincushion.ReviewLoads

/-! The table of the review screen beside the array that it shows. The table keeps
the row count of its last `reloadData`, asks for cells and takes taps below it, and
both index the array; the arrival of a list empties the array and reloads nothing. -/
namespace Pincushion.RowCount
open ReviewContract ReviewLoads Runs Structs

inductive Event where
  | load (e : ReviewContract.Event)
  | cellForRowAt (row : Nat)
  | prepare (row : Nat)

/-- The struct of a row that the table counts; an index past the array traps. -/
def access (s : State) (row : Nat) : Option State :=
  if row < s.vc.rowCount then s.vc.alterationStructArray[row]?.map fun _ => s else none

def step (s : State) : Event → Option State
  | .load e => ReviewContract.step s e
  | .cellForRowAt row => access s row
  | .prepare row => access s row

/-- No row that the table counts lies past the array. -/
def InBounds (s : State) : Prop :=
  ∀ row < s.vc.rowCount, ∃ alteration, s.vc.alterationStructArray[row]? = some alteration

theorem inBounds_iff_le {s : State} :
    InBounds s ↔ s.vc.rowCount ≤ s.vc.alterationStructArray.length := by
  constructor
  · intro h
    by_contra hlt
    obtain ⟨alteration, ha⟩ := h s.vc.alterationStructArray.length (by omega)
    simp at ha
  · intro h row hrow
    exact ⟨_, List.getElem?_eq_getElem (by omega)⟩

theorem access_eq {s s' : State} {row : Nat} (h : access s row = some s') : s' = s := by
  simp only [access] at h
  split at h
  · obtain ⟨alteration, -, rfl⟩ := Option.map_eq_some_iff.mp h
    rfl
  · cases h

/-- The list of uids whose arrival the event is. -/
def arriving (s : State) : Event → Option (List String)
  | .load e => deliveredList s e
  | _ => none

/-- A list arrives only while the table counts no row. -/
def WhileEmpty (s : State) (e : Event) : Prop :=
  (arriving s e).isSome = true → s.vc.rowCount = 0

instance (s : State) (e : Event) : Decidable (WhileEmpty s e) :=
  inferInstanceAs (Decidable (_ → _))

theorem inBounds_load_iff {s s' : State} {e : ReviewContract.Event} (h : InBounds s)
    (hstep : ReviewContract.step s e = some s') : InBounds s' ↔ WhileEmpty s (.load e) := by
  rw [inBounds_iff_le] at h ⊢
  obtain ⟨rfl, rfl⟩ | ⟨i, request, rfl, hi, rfl⟩ | ⟨i, request, value, rfl, hi, rfl⟩ |
    ⟨w, rfl, rfl⟩ := step_cases hstep
  · exact iff_of_true h (fun hl => by cases hl)
  · exact iff_of_true h (fun hl => by cases hl)
  · cases request with
    | alterations c =>
      simp only [WhileEmpty, arriving, deliveredList, hi, ReviewContractVC.receive]
      cases asStrings value with
      | none => exact iff_of_true h (fun hl => by cases hl)
      | some uids => simp
    | alteration u =>
      have harriving : ¬ (arriving s (.load (.deliver i))).isSome = true := by
        simp [arriving, deliveredList, hi]
      refine iff_of_true ?_ (fun hl => absurd hl harriving)
      simp only [ReviewContractVC.receive]
      cases AlterationStruct.decode value with
      | none => exact h
      | some model => simp
  · exact iff_of_true h (fun hl => by cases hl)

/-- A step leaves the table in bounds exactly when it is no arrival under counted rows. -/
theorem inBounds_step_iff {s s' : State} {e : Event} (h : InBounds s)
    (hstep : step s e = some s') : InBounds s' ↔ WhileEmpty s e := by
  cases e with
  | load e => exact inBounds_load_iff h hstep
  | cellForRowAt row => exact iff_of_true (access_eq hstep ▸ h) (fun hl => by cases hl)
  | prepare row => exact iff_of_true (access_eq hstep ▸ h) (fun hl => by cases hl)

/-- However loads, cell requests and taps follow each other, the rows that the table
counts are in the array at all times exactly when no list arrives while it counts any. -/
theorem inBounds_iff_while_empty {s s' : State} {es : List Event} (h : InBounds s)
    (hrun : run step s es = some s') :
    (∀ past m, past <+: es → run step s past = some m → InBounds m) ↔ Along step WhileEmpty s es :=
  forall_prefix_iff_along (fun _ _ _ => inBounds_step_iff) h hrun

/-- The list and the hem of the contract arrive, and the table asks for its row. -/
def loadedOnce : List Event := [
  .load .viewWillAppear, .load (.take 0), .load (.deliver 0), .load (.take 0), .load (.deliver 0),
  .cellForRowAt 0]

theorem inBounds_loadedOnce : ∃ m, run step oneHem loadedOnce = some m ∧ m.vc.rowCount = 1 ∧
    InBounds m := by
  have hstart : InBounds oneHem := fun row hrow => absurd hrow (Nat.not_lt_zero row)
  have halong : Along step WhileEmpty oneHem loadedOnce := by decide +kernel
  exact ⟨_, rfl, rfl, (inBounds_iff_while_empty hstart rfl).mpr halong loadedOnce _
    List.prefix_rfl rfl⟩

/-- The screen appears again: its list arrives, and the row it still counts is gone. -/
theorem not_inBounds_reappearing : ∃ m,
    run step oneHem (loadedOnce ++ [.prepare 0, .load .viewWillAppear, .load (.take 0),
        .load (.deliver 0)]) = some m ∧
      m.vc.rowCount = 1 ∧ m.vc.alterationStructArray = [] ∧ ¬ InBounds m ∧
      step m (.cellForRowAt 0) = none := by
  refine ⟨_, rfl, rfl, rfl, ?_, rfl⟩
  rw [inBounds_iff_le]
  decide

end Pincushion.RowCount
