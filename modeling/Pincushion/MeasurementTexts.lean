import Pincushion.AppRecords
import Pincushion.FieldTexts
import Pincushion.Integrity

/-! The three measurement fields. Their delegate refuses every replacement with a
letter, a minus or a backquote, so no text in them is that of a negative number or of
an infinity. What a letter is, is the platform's to say. -/
namespace Pincushion.MeasurementTexts
open KeyTree SwiftNumber Structs FirebaseHelpers CreateContract Network Literals Runs
open App AppRecords Integrity
open AlterationScreens (replaceCharacters)
open FieldTexts (mem_replaceCharacters)

/-- `CharacterSet.letters` with two characters put in. -/
def charSet (letters : Char → Bool) (c : Char) : Bool := letters c || c ∈ "-`".toList

/-- No character of the replacement is in the set. -/
def shouldChangeCharactersIn (letters : Char → Bool) (string : String) : Bool :=
  !string.toList.any (charSet letters)

/-- What a user does to one of the fields; its clear button asks no delegate. -/
inductive TextEdit where
  | change (location length : Nat) (string : String)
  | clear

def edited (letters : Char → Bool) (text : String) : TextEdit → String
  | .change location length string =>
    if shouldChangeCharactersIn letters string then
      replaceCharacters text location length string
    else text
  | .clear => ""

variable {letters : Char → Bool}

def Clean (letters : Char → Bool) (text : String) : Prop :=
  ∀ c ∈ text.toList, letters c = false ∧ c ∉ "-`".toList

theorem charSet_eq_false {c : Char} :
    charSet letters c = false ↔ letters c = false ∧ c ∉ "-`".toList := by
  simp [charSet]

theorem clean_empty : Clean letters "" := by
  intro c hc
  cases hc

theorem clean_edited {text : String} (h : Clean letters text) (e : TextEdit) :
    Clean letters (edited letters text e) := by
  cases e with
  | clear => exact clean_empty
  | change location length string =>
    simp only [edited]
    split
    · rename_i haccepted
      intro c hc
      simp only [shouldChangeCharactersIn, Bool.not_eq_true', List.any_eq_false] at haccepted
      cases mem_replaceCharacters.mp hc with
      | inl hbefore => exact h c (List.mem_of_mem_take hbefore)
      | inr hc =>
        cases hc with
        | inl hnew => exact charSet_eq_false.mp (by simpa using haccepted c hnew)
        | inr hafter => exact h c (List.mem_of_mem_drop hafter)
    · exact h

/-- An accepted string can be put over any text. -/
theorem edited_over {string : String} (h : shouldChangeCharactersIn letters string = true)
    (text : String) : ∃ e, string = edited letters text e :=
  ⟨.change 0 text.toList.length string, by simp [edited, h, replaceCharacters]⟩

/-- A finite number that is not negative. -/
def Nonneg (x : SwiftFloat) : Prop := ∃ q, x = .finite q ∧ 0 ≤ q

theorem nonneg_of_clean (hletters : ∀ c : Char, c.isAlpha = true → letters c = true)
    {text : String} {x : SwiftFloat} (h : Clean letters text)
    (hx : SwiftFloat.ofText text = some x) : Nonneg x := by
  refine finite_of_no_letter (fun c hc => ?_) (fun hc => (h _ hc).2 (by simp)) hx
  rw [Bool.eq_false_iff]
  intro halpha
  have hclean := (h c hc).1
  rw [hletters c halpha] at hclean
  cases hclean

/-- The texts of all three fields are clean. -/
structure CleanFields (letters : Char → Bool) (vc : CreateContractVC) : Prop where
  bust : Clean letters vc.bustField
  waist : Clean letters vc.waistField
  hip : Clean letters vc.hipField

/-- The triple of sizes is one of finite numbers that are not negative. -/
def Measures (x : SwiftFloat × SwiftFloat × SwiftFloat) : Prop :=
  Nonneg x.1 ∧ Nonneg x.2.1 ∧ Nonneg x.2.2

theorem measures_of_clean (hletters : ∀ c : Char, c.isAlpha = true → letters c = true)
    {vc : CreateContractVC} (h : CleanFields letters vc) : Measures vc.getMeasurements := by
  have hzero : Nonneg (.finite 0) := ⟨0, rfl, le_refl 0⟩
  unfold CreateContractVC.getMeasurements
  split
  · rename_i bust waist hip hbust hwaist hhip
    exact ⟨nonneg_of_clean hletters h.bust hbust, nonneg_of_clean hletters h.waist hwaist,
      nonneg_of_clean hletters h.hip hhip⟩
  · exact ⟨hzero, hzero, hzero⟩

/-- What is typed into a measurement field has passed the delegate. -/
def Delegated (letters : Char → Bool) (vc : CreateContractVC) : CreateContractVC.Event → Prop
  | .typeBust text => ∃ e, text = edited letters vc.bustField e
  | .typeWaist text => ∃ e, text = edited letters vc.waistField e
  | .typeHip text => ∃ e, text = edited letters vc.hipField e
  | _ => True

theorem cleanFields_step {vc vc' : CreateContractVC} {g : Singletons.Statics}
    {e : CreateContractVC.Event} (h : CleanFields letters vc) (he : Delegated letters vc e)
    (hstep : vc.step g e = some vc') : CleanFields letters vc' := by
  unfold CreateContractVC.step at hstep
  split at hstep <;> cases hstep
  case h_1 =>
    obtain ⟨e, rfl⟩ := he
    exact ⟨clean_edited h.bust e, h.waist, h.hip⟩
  case h_2 =>
    obtain ⟨e, rfl⟩ := he
    exact ⟨h.bust, clean_edited h.waist e, h.hip⟩
  case h_3 =>
    obtain ⟨e, rfl⟩ := he
    exact ⟨h.bust, h.waist, clean_edited h.hip e⟩
  case h_7 =>
    simp only [CreateContractVC.createContractAction, CreateContractVC.present]
    split <;> split <;> exact ⟨h.bust, h.waist, h.hip⟩
  all_goals exact ⟨h.bust, h.waist, h.hip⟩

theorem asFloat_number {x : SwiftFloat} {q : ℚ} :
    asFloat (leaf (.number x)) = some q ↔ x = .finite q := by
  cases x <;> simp [asFloat, leaf, Tree.value]

/-- A measurement that is read back is the one that was stored. -/
theorem measurement_of_decode {r m : Measurement} (h : Measurement.decode r.encode = some m) :
    r = m := by
  simp only [Measurement.decode, Measurement.encode, sub_keyed, List.lookup_cons,
    Option.bind_eq_bind, Option.bind_eq_some_iff] at h
  obtain ⟨bride, hbride, uid, huid, date, hdate, bust, hbust, waist, hwaist, hip, hhip, hm⟩ := h
  cases hm
  obtain rfl : r.bride = bride := Option.some.inj hbride
  obtain rfl : r.uid = uid := Option.some.inj huid
  obtain rfl : r.date = date := Option.some.inj hdate
  obtain ⟨bride, uid, date, bust', waist', hip'⟩ := r
  obtain rfl : bust' = .finite bust := asFloat_number.mp hbust
  obtain rfl : waist' = .finite waist := asFloat_number.mp hwaist
  obtain rfl : hip' = .finite hip := asFloat_number.mp hhip
  rfl

theorem measurementAt_apply_cases {db : Node} {w : Write} {u : String} {m : Measurement}
    (h : measurementAt (w.apply db) u = some m) :
    measurementAt db u = some m ∨ w = .measurement u m := by
  by_cases hnode : w.node = ["measurements", u]
  · cases w with
    | measurement v r =>
      obtain rfl : v = u := by simpa [Write.node] using hnode
      simp only [measurementAt, Write.apply, Write.path, Write.node, sub_setValue_self] at h
      rw [measurement_of_decode h]
      exact Or.inr rfl
    | list t uids => cases t <;> simp [Write.node, ListTarget.node] at hnode
    | _ => simp [Write.node] at hnode
  · left
    rwa [measurementAt, sub_apply_ne w db hnode] at h

variable {D : Type*}

/-- The measurement is stored under the uid, or on its way there. -/
def Sent (n : Net D) (u : String) (m : Measurement) : Prop :=
  measurementAt n.server u = some m ∨ ∃ d, Write.measurement u m ∈ n.outbox d

/-- What a device types into a measurement field has passed the delegate. -/
def Typed (letters : Char → Bool) (s : World D) : App.Event D → Prop
  | .act d (.create e) => Delegated letters (s.device d).create e
  | _ => True

/-- No text has a letter or a minus in it, and no measurement was sent that is not one
of finite sizes that are not negative. -/
structure Measured (letters : Char → Bool) (s : World D) : Prop where
  texts : ∀ d, CleanFields letters (s.device d).create
  sent : ∀ u m, Sent s.net u m → Measures (m.bust, m.waist, m.hip)

theorem measured_starts {s : World D} (h : Starts s) : Measured letters s where
  texts := by
    intro d
    obtain ⟨pickerDate, now, currentDate, originalDate, hd⟩ := h.2 d
    rw [hd]
    exact ⟨clean_empty, clean_empty, clean_empty⟩
  sent := by
    intro u m hm
    rw [h.1] at hm
    cases hm with
    | inl hserver => cases hserver
    | inr hqueued =>
      obtain ⟨d, hw⟩ := hqueued
      cases hw

variable [DecidableEq D] {u : String} {m : Measurement}

/-- A creation alone sends a measurement, the one that its texts give. -/
theorem sent_step {s s' : World D} {e : App.Event D} (h : Steps s e s')
    (hm : Sent s'.net u m) : Sent s.net u m ∨ ∃ d keys now,
      e = .act d (.createConfirmed keys now) ∧
        (m.bust, m.waist, m.hip) = (s.device d).create.getMeasurements := by
  cases hm with
  | inl hserver =>
    left
    cases server_step h with
    | inl hsame => exact Or.inl (hsame ▸ hserver)
    | inr htaken =>
      obtain ⟨d, w, hw, htaken⟩ := htaken
      rw [htaken] at hserver
      cases measurementAt_apply_cases hserver with
      | inl hold => exact Or.inl hold
      | inr hnew => exact Or.inr ⟨d, hnew ▸ hw⟩
  | inr hqueued =>
    obtain ⟨d, hw⟩ := hqueued
    cases queued_step h hw with
    | inl hold => exact Or.inl (Or.inr ⟨d, hold⟩)
    | inr hnew =>
      cases hnew with
      | created d keys now _ hw =>
        refine Or.inr ⟨d, keys, now, rfl, ?_⟩
        simp only [CreateContractVC.createdWrites, CreateContractVC.makeDress, addDressToFBDB,
          CreateContractVC.makeContract, addContractToFBDB, addBrideToFBDB, addMeasurementToFBDB,
          List.mem_cons, reduceCtorEq, List.not_mem_nil, or_false, false_or,
          Write.measurement.injEq] at hw
        rw [hw.2]
        rfl

theorem measured_step (hletters : ∀ c : Char, c.isAlpha = true → letters c = true)
    {s s' : World D} {e : App.Event D} (h : Measured letters s) (he : Typed letters s e)
    (hstep : App.step s e = some s') : Measured letters s' where
  texts := by
    intro d
    cases create_step (steps_of_step hstep) d with
    | inl hsame => rw [hsame]; exact h.texts d
    | inr hacts =>
      obtain ⟨a, rfl, hact⟩ := hacts
      generalize (s'.device d).create = vc at hact ⊢
      cases hact with
      | screen e vc hvc => exact cleanFields_step (h.texts d) he hvc
      | authState uid displayName => exact ⟨(h.texts d).bust, (h.texts d).waist, (h.texts d).hip⟩
      | signOutConfirmed => exact ⟨clean_empty, clean_empty, clean_empty⟩
      | created keys now hpresented => exact ⟨(h.texts d).bust, (h.texts d).waist, (h.texts d).hip⟩
  sent := by
    intro u m hm
    cases sent_step (steps_of_step hstep) hm with
    | inl hold => exact h.sent u m hold
    | inr hnew =>
      obtain ⟨d, keys, now, -, hsizes⟩ := hnew
      rw [hsizes]
      exact measures_of_clean hletters (h.texts d)

/-- Where all that is typed into the measurement fields passes their delegate, no text
has a letter, a minus or a backquote in it, and every triple that is read from the texts
or was sent by a creation is one of finite sizes that are not negative. -/
theorem measurements_nonneg (hletters : ∀ c : Char, c.isAlpha = true → letters c = true)
    {s s' : World D} {es : List (App.Event D)} (hstart : Starts s)
    (htyped : Along App.step (Typed letters) s es) (hrun : run App.step s es = some s') :
    (∀ d, CleanFields letters (s'.device d).create) ∧
      (∀ d, Measures (s'.device d).create.getMeasurements) ∧
      ∀ u m, Sent s'.net u m → Measures (m.bust, m.waist, m.hip) := by
  have h : Measured letters s' := run_invariant_along (Measured letters)
    (fun _ _ _ h he hstep => measured_step hletters h he hstep) (measured_starts hstart) htyped hrun
  exact ⟨h.texts, fun d => measures_of_clean hletters (h.texts d), h.sent⟩

theorem annCreated_nonneg : ∃ s m, run App.step justOpened annCreated = some s ∧
    measurementAt s.net.server "m" = some m ∧ Measures (m.bust, m.waist, m.hip) := by
  have hstored : ((run App.step justOpened annCreated).bind fun s =>
      measurementAt s.net.server "m").isSome = true := by
    decide +kernel
  obtain ⟨m, hbind⟩ := Option.isSome_iff_exists.mp hstored
  obtain ⟨s, hs, hm⟩ := Option.bind_eq_some_iff.mp hbind
  have htyped : Along App.step (Typed Char.isAlpha) justOpened annCreated := by
    refine along_of_forall fun s e he => ?_
    have hsizes : ∀ string ∈ ["36", "26", "38"],
        shouldChangeCharactersIn Char.isAlpha string = true := by decide
    simp only [annCreated, List.mem_cons, List.not_mem_nil, or_false] at he
    rcases he with rfl | rfl | rfl | rfl | rfl | rfl | rfl | rfl | rfl | rfl
    · exact edited_over (hsizes _ (by simp)) _
    · exact edited_over (hsizes _ (by simp)) _
    · exact edited_over (hsizes _ (by simp)) _
    all_goals trivial
  have hletters : ∀ c : Char, c.isAlpha = true → Char.isAlpha c = true := fun _ h => h
  have hall := measurements_nonneg hletters starts_justOpened htyped hs
  exact ⟨s, m, hs, hm, hall.2.2 "m" m (Or.inl hm)⟩

end Pincushion.MeasurementTexts
