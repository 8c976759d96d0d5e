import Pincushion.FieldTexts
import Pincushion.Totals

/-! One session of the Edit screen, from the opened row to the confirmed update, while
other devices and the network go on. The struct is rewritten by every calculation; what
is stored keeps all of the opened record but its costs and their note. -/
namespace Pincushion.EditSession
open SwiftNumber Structs FirebaseHelpers AlterationScreens Network Runs App FieldTexts Integrity

/-- Every calculation gives what it would give for the opened record. -/
def Recalculates (a : AlterationStruct) (vc : EditAlterationVC) : Prop :=
  ∀ f, calculated f vc.myAlterationStruct = calculated f a

theorem recalculates_run {a : AlterationStruct} {vc : EditAlterationVC}
    {es : List EditAlterationVC.Event}
    (hrun : run EditAlterationVC.step (.viewDidLoad a) es = some vc) : Recalculates a vc := by
  refine run_invariant (Recalculates a) ?_ (fun _ => rfl) hrun
  intro vc e vc' h hstep
  unfold EditAlterationVC.step at hstep
  split at hstep <;> cases hstep
  case h_4 => exact fun f => h f
  all_goals exact h

/-- The texts as they are when the update is confirmed make the record. -/
theorem confirmHandler_of_parsed {a : AlterationStruct} {vc : EditAlterationVC}
    (h : Recalculates a vc) {price : ℚ} {quantity : SwiftInt} {additional : ℚ}
    (hparsed : vc.fields.parsed = some (price, quantity, additional)) :
    vc.confirmHandler = some (.alteration a.uid { a with
      actualCost := price
      units := quantity
      secondaryCost := additional
      costDetails := vc.detailsLabel
      totalCost := price * quantity.val + additional }) := by
  have hreadable : Readable vc.fields := parsed_isSome_iff.mp (by rw [hparsed]; rfl)
  obtain ⟨vc', hvc'⟩ := Option.isSome_iff_exists.mp (getUpdatedFieldValues_isSome_iff.mpr hreadable)
  have hw : vc.confirmHandler = some (updateAlterationFBDB vc'.myAlterationStruct) := by
    rw [EditAlterationVC.confirmHandler, hvc', Option.map_some]
  rw [hw, EditAlterationVC.confirmHandler_record hw, h vc.fields]
  simp only [calculated, readings_of_parsed hparsed, updateAlterationFBDB,
    AlterationStruct.getTotalCost]

variable {D : Type*} [DecidableEq D] {s m : World D} {d : D} {e : App.Event D}
  {es : List (App.Event D)}

/-- The device does nothing in the event but what its Edit screen offers. -/
def Attends (d : D) : App.Event D → Prop
  | .act d' a => d' = d → ∃ e, a = .edit e
  | _ => True

/-- What it does on that screen. -/
def editIn (d : D) : App.Event D → Option EditAlterationVC.Event
  | .act d' (.edit e) => if d' = d then some e else none
  | _ => none

def edits (d : D) (es : List (App.Event D)) : List EditAlterationVC.Event :=
  es.filterMap (editIn d)

/-- No action of the device in this step writes or reads anything. -/
def Quiet (d : D) (s : World D) (e : App.Event D) : Prop :=
  (∃ a, e = .act d a) → ∀ m, App.step s e = some m → m.net = s.net

/-- Only the screen's own events change the device, and these only the screen. -/
theorem session_step {v : Device} {vc : EditAlterationVC}
    (hdevice : s.device d = { v with edit := some vc }) (he : Attends d e) (h : Steps s e m) :
    (∃ x vc', editIn d e = some x ∧ vc.step x = some vc' ∧
      m.device d = { v with edit := some vc' } ∧ m.net = s.net) ∨
    (editIn d e = none ∧ m.device d = s.device d ∧ ∀ a, e ≠ .act d a) := by
  have hother : ∀ {d' : D} {net : Net D} {v' : Device}, d' ≠ d →
      (s.set net d' v').device d = s.device d := by
    intro d' net v' hne
    exact Function.update_of_ne (Ne.symm hne) _ _
  cases h with
  | screens d' a v' hact =>
    by_cases hd : d' = d
    · subst hd
      obtain ⟨x, rfl⟩ := he rfl
      cases acts_of_act hact with
      | edit _ vc₁ vc' hedit hstep =>
        rw [hdevice] at hedit
        obtain rfl := Option.some.inj hedit
        refine Or.inl ⟨x, vc', by simp [editIn], hstep, ?_, rfl⟩
        simp [World.set, hdevice]
    · refine Or.inr ⟨?_, hother hd, ?_⟩
      · cases a <;> simp [editIn, hd]
      · intro a' heq
        cases heq
        exact hd rfl
  | take | callback | deliver => exact Or.inr ⟨rfl, rfl, fun a heq => by cases heq⟩
  | load d' | created d' | addTrap d' | added d' | edited d' | editTrap d' =>
    have hd : d' ≠ d := by
      intro hd
      obtain ⟨x, hx⟩ := he hd
      cases hx
    refine Or.inr ⟨rfl, hother hd, ?_⟩
    intro a heq
    cases heq
    exact hd rfl

theorem session_run {v : Device} {vc : EditAlterationVC}
    (hdevice : s.device d = { v with edit := some vc }) (hes : ∀ e ∈ es, Attends d e)
    (hrun : run App.step s es = some m) : Along App.step (Quiet d) s es ∧
      ∃ vc', run EditAlterationVC.step vc (edits d es) = some vc' ∧
        m.device d = { v with edit := some vc' } := by
  induction es generalizing s vc with
  | nil =>
    obtain rfl := run_nil_eq.mp hrun
    exact ⟨trivial, vc, rfl, hdevice⟩
  | cons e es ih =>
    obtain ⟨n, he, htail⟩ := run_cons_eq.mp hrun
    have hrest : ∀ e ∈ es, Attends d e := fun e' he' => hes e' (List.mem_cons_of_mem e he')
    rw [along_cons he]
    cases session_step hdevice (hes e (List.mem_cons_self ..)) (steps_of_step he) with
    | inl hscreen =>
      obtain ⟨x, vc₁, hx, hstep, hdevice₁, hnet⟩ := hscreen
      obtain ⟨hquiet, vc', hvc', hm⟩ := ih hdevice₁ hrest htail
      refine ⟨⟨?_, hquiet⟩, vc', ?_, hm⟩
      · intro _ n' hn'
        obtain rfl := Option.some.inj (he.symm.trans hn')
        exact hnet
      · rw [edits, List.filterMap_cons_some hx]
        exact run_cons_eq.mpr ⟨vc₁, hstep, hvc'⟩
    | inr helse =>
      obtain ⟨hnone, hsame, hnot⟩ := helse
      obtain ⟨hquiet, vc', hvc', hm⟩ := ih (hsame.trans hdevice) hrest htail
      refine ⟨⟨?_, hquiet⟩, vc', ?_, hm⟩
      · rintro ⟨a, ha⟩
        exact absurd ha (hnot a)
      · rw [edits, List.filterMap_cons_none hnone]
        exact hvc'

theorem openEdit_eq {row : Nat} {a : AlterationStruct} (hrow : (s.device d).loaded[row]? = some a)
    (h : App.step s (.act d (.openEdit row)) = some m) : (s.device d).running = true ∧
      m = s.set s.net d { s.device d with edit := some (.viewDidLoad a) } := by
  simp only [App.step, act] at h
  split at h
  · rename_i hrunning
    simp only [Device.act, hrow, Option.map_some, Option.some.injEq] at h
    exact ⟨hrunning, h.symm⟩
  · cases h

/-- A session of the Edit screen that ends with a confirmed update writes once, the
opened record with the costs and the details that the texts show, under its uid; before
that it leaves the database alone, and the singletons throughout. -/
theorem session_writes_once {row : Nat} {a : AlterationStruct} {vc : EditAlterationVC}
    (hrow : (s.device d).loaded[row]? = some a) (hes : ∀ e ∈ es, Attends d e)
    (hrun : run App.step s (.act d (.openEdit row) :: es) = some m)
    (hvc : (m.device d).edit = some vc) (hconfirm : vc.presented = some .confirm)
    {price : ℚ} {quantity : SwiftInt} {additional : ℚ}
    (hparsed : vc.fields.parsed = some (price, quantity, additional)) :
    Along App.step (Quiet d) s (.act d (.openEdit row) :: es) ∧
    (m.device d).statics = (s.device d).statics ∧
    ∃ r, App.step m (.act d .editConfirmed) = some (m.set
        (m.net.setValues d [.alteration a.uid r]) d { s.device d with edit := none }) ∧
      (Write.alteration a.uid r).path = ["alterations", a.uid] ∧
      r = { a with
        actualCost := price
        units := quantity
        secondaryCost := additional
        costDetails := vc.detailsLabel
        totalCost := price * quantity.val + additional } := by
  obtain ⟨n, hopen, htail⟩ := run_cons_eq.mp hrun
  obtain ⟨hrunning, hn⟩ := openEdit_eq hrow hopen
  have hdevice : n.device d = { s.device d with edit := some (.viewDidLoad a) } := by
    simp [hn, World.set]
  obtain ⟨hquiet, vc', hscreen, hm⟩ := session_run hdevice hes htail
  obtain rfl : vc' = vc := by
    rw [hm] at hvc
    exact Option.some.inj hvc
  have hw := confirmHandler_of_parsed (recalculates_run hscreen) hparsed
  refine ⟨(along_cons hopen).mpr ⟨?_, hquiet⟩, by rw [hm], _, ?_, rfl, rfl⟩
  · intro _ n' hn'
    obtain rfl := Option.some.inj (hopen.symm.trans hn')
    rw [hn]
    rfl
  · simp only [App.step, act, hm, hrunning, if_true, editConfirmed, hconfirm, hw]

/-- The hem is opened, calculated twice with different texts, asked about and cancelled,
and at last updated to two at 35. -/
def hemEdited : List (App.Event Unit) := [
  .act () (.edit (.edit (.clear .quantity))), .act () (.edit .updateTotalAction),
  .act () (.edit (.edit (.change .quantity 0 0 "2"))),
  .act () (.edit (.edit (.change .actualPrice 0 2 "35"))), .act () (.edit .updateTotalAction),
  .act () (.edit .addToContractAction), .act () (.edit .dismiss),
  .act () (.edit (.editDetails 0 0 "per layer")), .act () (.edit .addToContractAction)]

theorem hem_written_once : ∃ s m r,
    run App.step justOpened (hemAdded ++ [.act () (.load "a" 0)]) = some s ∧
    run App.step s (.act () (.openEdit 0) :: hemEdited) = some m ∧
    Along App.step (Quiet ()) s (.act () (.openEdit 0) :: hemEdited) ∧
    App.step m (.act () .editConfirmed) = some (m.set
      (m.net.setValues () [.alteration "a" r]) () { s.device () with edit := none }) ∧
    (r.actualCost, r.units.val, r.costDetails, r.totalCost) = (35, 2, "per layer", 70) := by
  have hshown : ((run App.step justOpened (hemAdded ++ [.act () (.load "a" 0)])).bind fun s =>
      (run App.step s (.act () (.openEdit 0) :: hemEdited)).bind fun m =>
        (m.device ()).edit.bind fun vc => (s.device ()).loaded[0]?.map fun a =>
          (vc.presented, vc.fields.parsed, decide (a.uid = "a" ∧ vc.detailsLabel = "per layer"))) =
      some (some .confirm, some (35, ⟨2, by decide, by decide⟩, 0), true) := by
    decide +kernel
  obtain ⟨s, hs, hshown⟩ := Option.bind_eq_some_iff.mp hshown
  obtain ⟨m, hm, hshown⟩ := Option.bind_eq_some_iff.mp hshown
  obtain ⟨vc, hvc, hshown⟩ := Option.bind_eq_some_iff.mp hshown
  obtain ⟨a, ha, hshown⟩ := Option.map_eq_some_iff.mp hshown
  simp only [Prod.mk.injEq, decide_eq_true_eq] at hshown
  obtain ⟨hconfirm, hparsed, huid, hdetails⟩ := hshown
  have hes : ∀ e ∈ hemEdited, Attends () e := by simp [hemEdited, Attends]
  obtain ⟨hquiet, -, r, hstep, -, hr⟩ :=
    session_writes_once ha hes hm hvc hconfirm hparsed
  refine ⟨s, m, r, hs, hm, hquiet, huid ▸ hstep, ?_⟩
  rw [hr, hdetails]
  norm_num

end Pincushion.EditSession
