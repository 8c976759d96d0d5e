import Pincushion.Integrity
import Pincushion.Navigation
import Pincushion.NetworkValues

/-! Whether an edit brings back what an earlier one replaced. A row of the review
screen is a copy; an edit leaves it as it is, and only the next list of uids, which
is asked for on the way back, takes it off the table. -/
namespace Pincushion.StaleRows
open KeyTree SwiftNumber Structs Singletons FirebaseHelpers AlterationScreens CreateContract Runs
open Navigation
open ReviewContract (Message Request deliveredList)

/-- The struct that a tap hands over. -/
def tapped (p : Phone) (e : Event) : Option AlterationStruct := match e, p.screen with
  | .tap row, .review r => r.vc.alterationStructArray[row]?
  | _, _ => none

/-- The screen whose edit is confirmed. -/
def confirming (p : Phone) (e : Event) : Option EditAlterationVC := match e, p.screen with
  | .editConfirmed, .editAlteration _ vc => some vc
  | _, _ => none

/-- The old value where a text still is as it was shown, and the new one elsewhere. -/
def unlessShown {α : Type*} (text shown : String) (old new : α) : α :=
  if text = shown then old else new

/-- The record after a session: what the user changed on the screen since it opened
is as the texts are read, and the rest as it was. -/
def sessionEdit (opened : AlterationStruct) (vc : EditAlterationVC) (r : AlterationStruct) :
    AlterationStruct :=
  let shown := CostFields.populated opened
  let (actualCost, units, secondaryCost) := vc.fields.readings
  let edited := { r with
    actualCost :=
      unlessShown vc.fields.actualPriceField shown.actualPriceField r.actualCost actualCost
    units := unlessShown vc.fields.quantityField shown.quantityField r.units units
    secondaryCost :=
      unlessShown vc.fields.additionalCostField shown.additionalCostField r.secondaryCost
        secondaryCost
    costDetails := unlessShown vc.detailsLabel opened.costDetails r.costDetails vc.detailsLabel }
  { edited with totalCost := edited.getTotalCost }

/-- What the sessions so far have come to. -/
structure History where
  /-- The struct that the last tap handed over. -/
  opened : Option AlterationStruct
  /-- The records edited since the last list of uids came, or while a read of them
  that is still to arrive had its value. -/
  edited : List String
  /-- Each record with every field as the last session that changed it left it. -/
  expected : String → Option AlterationStruct

/-- A read of the record has its value and is still to arrive. -/
def underWay (r : Review) (u : String) : Bool :=
  r.inFlight.any fun m => m.request = .alteration u && m.value.isSome

def nextEdited (p : Phone) (e : Event) (edited : List String) : List String := match e, p.screen with
  | .reviewContract, _ => []
  | .editConfirmed, .editAlteration _ vc =>
    if vc.confirmHandler.isSome then vc.myAlterationStruct.uid :: edited else edited
  | .deliver i, .review r | .deliver i, .editAlteration r _ =>
    if (deliveredList (r.state p) (.deliver i)).isSome then edited.filter (underWay r) else edited
  | _, _ => edited

def nextExpected (p : Phone) (e : Event) (opened : Option AlterationStruct)
    (expected : String → Option AlterationStruct) : String → Option AlterationStruct :=
  match e, p.screen with
  | .addConfirmed key, .addAlteration vc => Function.update expected key (some
      { vc.myAlterationStruct with contractUID := p.statics.contract.uid, uid := key })
  | .editConfirmed, .editAlteration _ vc =>
    let uid := vc.myAlterationStruct.uid
    if vc.confirmHandler.isSome then
      Function.update expected uid ((expected uid).map fun r => sessionEdit (opened.getD r) vc r)
    else expected
  | _, _ => expected

def next (p : Phone) (e : Event) (g : History) : History where
  opened := (tapped p e).or g.opened
  edited := nextEdited p e g.edited
  expected := nextExpected p e g.opened g.expected

/-- A price that the user leaves as it was shown is a whole number. -/
def WholeLeft (opened : AlterationStruct) (vc : EditAlterationVC) : Prop :=
  (vc.fields.actualPriceField = formatWhole opened.actualCost → opened.actualCost.den = 1) ∧
    (vc.fields.additionalCostField = formatWhole opened.secondaryCost →
      opened.secondaryCost.den = 1)

instance (opened : AlterationStruct) (vc : EditAlterationVC) : Decidable (WholeLeft opened vc) :=
  inferInstanceAs (Decidable (_ ∧ _))

/-- No row is tapped that is older than an edit of its record, and no edit leaves a
price that is shown rounded. -/
def InTime (g : History) (p : Phone) (e : Event) : Prop :=
  (∀ a ∈ tapped p e, a.uid ∉ g.edited) ∧
    ∀ vc ∈ confirming p e, ∀ opened ∈ g.opened, WholeLeft opened vc

instance (g : History) (p : Phone) (e : Event) : Decidable (InTime g p e) :=
  inferInstanceAs (Decidable (_ ∧ _))

/-- What a tap hands over is what is stored. -/
def HandsOverStored (p : Phone) (e : Event) : Prop :=
  ∀ a ∈ tapped p e, alterationAt p.db a.uid = some a

def opening (p : Phone) : History := ⟨none, [], alterationAt p.db⟩

/-- No edit brings back what an earlier one replaced. -/
structure NeverReverts (p : Phone) (es : List Event) (p' : Phone) : Prop where
  handed : Along step HandsOverStored p es
  kept : ∀ u, alterationAt p'.db u = (accumulate step next (opening p) p es).expected u

/-- The rows and the values under way are as expected, but for records edited since. -/
structure ReviewFresh (edited : List String) (expected : String → Option AlterationStruct)
    (r : Review) : Prop where
  rows : ∀ a ∈ r.vc.alterationStructArray, a.uid ∈ edited ∨ expected a.uid = some a
  values : ∀ u n a, (⟨.alteration u, some n⟩ : Message) ∈ r.inFlight →
    AlterationStruct.decode n = some a → a.uid = u ∧ (u ∈ edited ∨ expected u = some a)

/-- The session is one with the record as expected, and has changed its costs at most. -/
def SessionFresh (g : History) (vc : EditAlterationVC) : Prop :=
  ∃ a, g.opened = some a ∧ g.expected a.uid = some a ∧
    ∃ actualCost units secondaryCost totalCost, vc.myAlterationStruct =
      { a with actualCost, units, secondaryCost, totalCost }

def ScreenFresh (g : History) : Screen → Prop
  | .review r => ReviewFresh g.edited g.expected r
  | .editAlteration r vc => ReviewFresh g.edited g.expected r ∧ SessionFresh g vc
  | _ => True

structure Fresh (g : History) (p : Phone) : Prop where
  stored : alterationAt p.db = g.expected
  named : ∀ u a, g.expected u = some a → a.uid = u
  screen : ScreenFresh g p.screen

variable {p p' : Phone} {e : Event} {g : History} {r : Review} {db : Node} {edited : List String}
variable {expected : String → Option AlterationStruct} {vc vc' : EditAlterationVC}

theorem alterationAt_alteration (db : Node) (k : String) (a : AlterationStruct) :
    alterationAt ((Write.alteration k a).apply db) =
      Function.update (alterationAt db) k (some a) := by
  funext u
  rw [alterationAt_apply]
  by_cases hu : k = u
  · subst hu
    simp [Write.recordFor]
  · simp [Write.recordFor, hu, Function.update_of_ne (Ne.symm hu)]

theorem alterationAt_others {ws : List Write} (h : ∀ w ∈ ws, ∀ u, w.recordFor u = none) :
    alterationAt (ws.foldl (fun db w => w.apply db) db) = alterationAt db := by
  induction ws generalizing db with
  | nil => rfl
  | cons w ws ih =>
    rw [List.foldl_cons, ih fun w' hw' => h w' (List.mem_cons_of_mem w hw')]
    funext u
    rw [alterationAt_apply, h w (List.mem_cons_self ..), Option.none_or]

theorem unlessShown_eq {α : Type*} {text shown : String} {old new : α}
    (h : text = shown → new = old) : unlessShown text shown old new = new := by
  unfold unlessShown
  split
  · rename_i htext
    exact (h htext).symm
  · rfl

/-- A session that leaves no rounded price writes what is expected of it. -/
theorem sessionEdit_eq {a : AlterationStruct} {w : Write} (hwhole : WholeLeft a vc)
    (hstruct : ∃ actualCost units secondaryCost totalCost, vc.myAlterationStruct =
      { a with actualCost, units, secondaryCost, totalCost })
    (hw : vc.confirmHandler = some w) : w = .alteration a.uid (sessionEdit a vc a) := by
  have hactual : vc.fields.actualPriceField = formatWhole a.actualCost →
      vc.fields.readings.1 = a.actualCost := by
    intro htext
    simp only [CostFields.readings, htext, floatOfText_formatWhole, Option.getD_some]
    exact (wholeShown_eq_iff _).mpr (hwhole.1 htext)
  have hunits : vc.fields.quantityField = a.units.description →
      vc.fields.readings.2.1 = a.units := by
    intro htext
    simp only [CostFields.readings, htext, SwiftInt.ofText_description, Option.getD_some]
  have hsecondary : vc.fields.additionalCostField = formatWhole a.secondaryCost →
      vc.fields.readings.2.2 = a.secondaryCost := by
    intro htext
    simp only [CostFields.readings, htext, floatOfText_formatWhole, Option.getD_some]
    exact (wholeShown_eq_iff _).mpr (hwhole.2 htext)
  obtain ⟨actualCost, units, secondaryCost, totalCost, hstruct⟩ := hstruct
  rw [EditAlterationVC.confirmHandler_record hw, hstruct]
  simp only [sessionEdit, CostFields.populated, unlessShown_eq hactual, unlessShown_eq hunits,
    unlessShown_eq hsecondary, unlessShown_eq (id : vc.detailsLabel = a.costDetails → _)]
  rfl

theorem reviewFresh_appear (h : ReviewFresh edited expected r) (statics : Statics) :
    ReviewFresh edited expected (r.viewWillAppear statics) where
  rows := h.rows
  values u n a hm hn := by
    cases List.mem_append.mp hm with
    | inl hm => exact h.values u n a hm hn
    | inr hm =>
      cases (ReviewContract.mem_getAlterationUIDs hm).2

theorem reviewFresh_take {i : Nat} {s : ReviewContract.State}
    (h : ReviewFresh edited expected r) (hstored : alterationAt p.db = expected)
    (hnamed : ∀ u a, expected u = some a → a.uid = u)
    (hstep : ReviewContract.step (r.state p) (.take i) = some s) :
    ReviewFresh edited expected (r.set s) := by
  subst hstored
  obtain ⟨request, hi, rfl⟩ := ReviewContract.take_eq.mp hstep
  refine ⟨h.rows, fun u n a hm hn => ?_⟩
  cases List.mem_or_eq_of_mem_set hm with
  | inl hm => exact h.values u n a hm hn
  | inr hm =>
    cases hm
    exact ⟨hnamed u a hn, Or.inr hn⟩

theorem underWay_of_mem {u : String} {n : Node}
    (h : (⟨.alteration u, some n⟩ : Message) ∈ r.inFlight) : underWay r u = true :=
  List.any_eq_true.mpr ⟨_, h, by simp⟩

/-- The reads that a list asks for have no value yet. -/
theorem value_of_getAlterationStructs {uids : List String} {u : String} {n : Node} :
    (⟨.alteration u, some n⟩ : Message) ∉ ReviewContract.getAlterationStructs uids := by
  intro hm
  obtain ⟨uid, -, hissue⟩ := ReviewContract.mem_getAlterationStructs hm
  cases hissue

/-- No new rows, and no new values. -/
theorem ReviewFresh.mono {r' : Review} (h : ReviewFresh edited expected r)
    (hrows : ∀ a ∈ r'.vc.alterationStructArray, a ∈ r.vc.alterationStructArray)
    (hvalues : ∀ u n, (⟨.alteration u, some n⟩ : Message) ∈ r'.inFlight →
      (⟨.alteration u, some n⟩ : Message) ∈ r.inFlight) : ReviewFresh edited expected r' :=
  ⟨fun a ha => h.rows a (hrows a ha), fun u n a hm hn => h.values u n a (hvalues u n hm) hn⟩

/-- A list takes the rows off; a record that was still to arrive stays behind the
edits that it missed. -/
theorem reviewFresh_deliver {i : Nat} {s : ReviewContract.State}
    (h : ReviewFresh edited expected r)
    (hstep : ReviewContract.step (r.state p) (.deliver i) = some s) :
    ReviewFresh (if (deliveredList (r.state p) (.deliver i)).isSome
      then edited.filter (underWay r) else edited) expected (r.set s) := by
  obtain ⟨request, value, hi, rfl⟩ := ReviewContract.deliver_eq.mp hstep
  have hi : r.inFlight[i]? = some ⟨request, some value⟩ := hi
  have hmem := List.mem_of_getElem? hi
  cases request with
  | alterations c =>
    simp only [deliveredList, hi, Review.state, Review.set, ReviewContract.ReviewContractVC.receive]
    cases huids : asStrings value with
    | some uids =>
      refine ⟨fun a ha => (by cases ha), fun u n a hm hn => ?_⟩
      simp only [List.mem_append, value_of_getAlterationStructs, or_false] at hm
      have hm' := List.mem_of_mem_eraseIdx hm
      obtain ⟨huid, hvalue⟩ := h.values u n a hm' hn
      exact ⟨huid, hvalue.imp_left fun hu => List.mem_filter.mpr ⟨hu, underWay_of_mem hm'⟩⟩
    | none =>
      refine h.mono (fun a ha => ha) fun u n hm => ?_
      simp only [List.append_nil] at hm
      exact List.mem_of_mem_eraseIdx hm
  | alteration v =>
    simp only [deliveredList, hi, Review.state, Review.set, ReviewContract.ReviewContractVC.receive]
    cases hmodel : AlterationStruct.decode value with
    | some model =>
      obtain ⟨huid, hvalue⟩ := h.values v value model hmem hmodel
      refine ⟨fun a ha => ?_, fun u n a hm hn => ?_⟩
      · cases List.mem_append.mp ha with
        | inl ha => exact h.rows a ha
        | inr ha => exact List.mem_singleton.mp ha ▸ huid ▸ hvalue
      · simp only [List.append_nil] at hm
        exact h.values u n a (List.mem_of_mem_eraseIdx hm) hn
    | none =>
      refine h.mono (fun a ha => ha) fun u n hm => ?_
      simp only [List.append_nil] at hm
      exact List.mem_of_mem_eraseIdx hm

theorem sessionFresh_step {ev : EditAlterationVC.Event} (h : SessionFresh g vc)
    (hstep : vc.step ev = some vc') : SessionFresh g vc' := by
  obtain ⟨a, hopened, hexpected, hstruct⟩ := h
  refine ⟨a, hopened, hexpected, ?_⟩
  unfold EditAlterationVC.step at hstep
  split at hstep <;> cases hstep
  case h_4 =>
    obtain ⟨actualCost, units, secondaryCost, totalCost, hstruct⟩ := hstruct
    exact ⟨_, _, _, _, by
      simp only [EditAlterationVC.updateTotalAction, EditAlterationVC.calculateCost, calculated,
        hstruct]; rfl⟩
  all_goals exact hstruct

/-- An edit that is confirmed leaves the rows and values of its record behind. -/
theorem reviewFresh_edited {u : String} {a : Option AlterationStruct}
    (h : ReviewFresh edited expected r) :
    ReviewFresh (u :: edited) (Function.update expected u a) r := by
  refine ⟨fun b hb => ?_, fun v n b hm hn => ?_⟩
  · by_cases hu : b.uid = u
    · exact Or.inl (hu ▸ List.mem_cons_self ..)
    · rw [Function.update_of_ne hu]
      exact (h.rows b hb).imp_left (List.mem_cons_of_mem u)
  · obtain ⟨huid, hvalue⟩ := h.values v n b hm hn
    refine ⟨huid, ?_⟩
    by_cases hu : v = u
    · exact Or.inl (hu ▸ List.mem_cons_self ..)
    · rw [Function.update_of_ne hu]
      exact hvalue.imp_left (List.mem_cons_of_mem u)

theorem reviewFresh_new : ReviewFresh [] expected .new :=
  ⟨fun a ha => (by cases ha), fun u n a hm => (by cases hm)⟩

theorem named_update {u : String} {a : AlterationStruct}
    (h : ∀ u a, expected u = some a → a.uid = u) (ha : a.uid = u) :
    ∀ v b, Function.update expected u (some a) v = some b → b.uid = v := by
  intro v b hb
  by_cases hv : v = u
  · subst hv
    rw [Function.update_self] at hb
    exact Option.some.inj hb ▸ ha
  · rw [Function.update_of_ne hv] at hb
    exact h v b hb

theorem nextExpected_add {key : String} {vc : AddAlterationVC} {opened : Option AlterationStruct}
    (hscreen : p.screen = .addAlteration vc) :
    nextExpected p (.addConfirmed key) opened expected = Function.update expected key (some
      { vc.myAlterationStruct with contractUID := p.statics.contract.uid, uid := key }) := by
  unfold nextExpected
  rw [hscreen]

theorem nextExpected_confirmed {opened : Option AlterationStruct}
    (hscreen : p.screen = .editAlteration r vc) :
    nextExpected p .editConfirmed opened expected = if vc.confirmHandler.isSome then
      Function.update expected vc.myAlterationStruct.uid
        ((expected vc.myAlterationStruct.uid).map fun r => sessionEdit (opened.getD r) vc r)
      else expected := by
  unfold nextExpected
  rw [hscreen]

theorem nextEdited_confirmed (hscreen : p.screen = .editAlteration r vc) :
    nextEdited p .editConfirmed edited =
      if vc.confirmHandler.isSome then vc.myAlterationStruct.uid :: edited else edited := by
  unfold nextEdited
  rw [hscreen]

theorem nextEdited_deliver {i : Nat}
    (hscreen : p.screen = .review r ∨ ∃ vc, p.screen = .editAlteration r vc) :
    nextEdited p (.deliver i) edited = if (deliveredList (r.state p) (.deliver i)).isSome
      then edited.filter (underWay r) else edited := by
  unfold nextEdited
  obtain hscreen | ⟨vc, hscreen⟩ := hscreen <;> rw [hscreen]

theorem fresh_step (h : Fresh g p) (hin : InTime g p e) (hdevice : e.foreign = false)
    (hstep : Steps p e p') : Fresh (next p e g) p' := by
  have hscreen' := h.screen
  have hdb := db_of_steps hstep hdevice
  cases hstep with
  | created keys t hfront hscreen hpresented hfresh =>
    have hothers : ∀ w ∈ issued p (.createConfirmed keys t), ∀ u, w.recordFor u = none :=
      fun w hw => (CreateContractVC.createdWrites_cases hw).1
    refine ⟨?_, h.named, trivial⟩
    rw [hdb, alterationAt_others hothers]
    exact h.stored
  | added key vc hfront hscreen | addTrap key vc hfront hscreen =>
    have hnext : (next p (.addConfirmed key) g).expected = _ := nextExpected_add hscreen
    refine ⟨?_, ?_, trivial⟩
    · rw [hdb, hnext, ← h.stored]
      simp only [issued, hscreen]
      exact alterationAt_alteration _ _ _
    · rw [hnext]
      exact named_update h.named rfl
  | edited r vc w hfront hscreen hpresented hw =>
    rw [hscreen] at hscreen'
    obtain ⟨hreview, a, hopened, hexpected, hstruct⟩ := hscreen'
    have huid : vc.myAlterationStruct.uid = a.uid := by
      obtain ⟨actualCost, units, secondaryCost, totalCost, hstruct⟩ := hstruct
      rw [hstruct]
    have hwhole := hin.2 vc (by simp [confirming, hscreen]) a hopened
    obtain rfl := sessionEdit_eq hwhole hstruct hw
    have hnext : (next p .editConfirmed g).expected =
        Function.update g.expected a.uid (some (sessionEdit a vc a)) := by
      rw [next, nextExpected_confirmed hscreen, hw, huid, hexpected, hopened]
      rfl
    have hedited : (next p .editConfirmed g).edited = a.uid :: g.edited := by
      rw [next, nextEdited_confirmed hscreen, hw, huid]
      rfl
    refine ⟨?_, ?_, ?_⟩
    · rw [hnext, ← h.stored]
      exact alterationAt_alteration _ _ _
    · rw [hnext]
      exact named_update h.named rfl
    · refine reviewFresh_appear ?_ _
      rw [hnext, hedited]
      exact reviewFresh_edited hreview
  | editTrap r vc hfront hscreen hpresented hw =>
    have hsame : next p .editConfirmed g = g := by
      simp only [next, nextExpected_confirmed hscreen, nextEdited_confirmed hscreen, hw]
      rfl
    rw [hsame]
    exact ⟨h.stored, h.named, h.screen⟩
  | appendCallback u a value happend =>
    have hothers : ∀ w ∈ issued p (.appendCallback u), ∀ u, w.recordFor u = none := by
      intro w hw
      simp only [issued, happend] at hw
      obtain ⟨server, -, rfl⟩ := ListAppend.callback_eq (Option.mem_toList.mp hw)
      exact fun _ => rfl
    refine ⟨?_, h.named, h.screen⟩
    rw [hdb, alterationAt_others hothers]
    exact h.stored
  | remote w => cases hdevice
  | reviewContract => exact ⟨h.stored, h.named, reviewFresh_appear reviewFresh_new _⟩
  | leaveEdit r vc hfront hscreen =>
    rw [hscreen] at hscreen'
    exact ⟨h.stored, h.named, reviewFresh_appear hscreen'.1 _⟩
  | reappear r hfront hscreen =>
    rw [hscreen] at hscreen'
    exact ⟨h.stored, h.named, reviewFresh_appear hscreen' _⟩
  | take i r s hscreen htake =>
    rw [hscreen] at hscreen'
    exact ⟨h.stored, h.named, reviewFresh_take hscreen' h.stored h.named htake⟩
  | takeUnder i r vc s hscreen htake =>
    rw [hscreen] at hscreen'
    exact ⟨h.stored, h.named, reviewFresh_take hscreen'.1 h.stored h.named htake, hscreen'.2⟩
  | deliver i r s hscreen hdeliver =>
    rw [hscreen] at hscreen'
    refine ⟨h.stored, h.named, ?_⟩
    simp only [ScreenFresh, next, nextEdited_deliver (Or.inl hscreen)]
    exact reviewFresh_deliver hscreen' hdeliver
  | deliverUnder i r vc s hscreen hdeliver =>
    rw [hscreen] at hscreen'
    refine ⟨h.stored, h.named, ?_, hscreen'.2⟩
    simp only [next, nextEdited_deliver (Or.inr ⟨vc, hscreen⟩)]
    exact reviewFresh_deliver hscreen'.1 hdeliver
  | tap row r a hfront hscreen halert hshown hrow =>
    have htapped : tapped p (.tap row) = some a := by simp only [tapped, hscreen, hrow]
    rw [hscreen] at hscreen'
    have hexpected : g.expected a.uid = some a :=
      (hscreen'.rows a (List.mem_of_getElem? hrow)).resolve_left (hin.1 a htapped)
    refine ⟨h.stored, h.named, hscreen', a, ?_, hexpected, _, _, _, _, rfl⟩
    simp only [next, htapped, Option.some_or]
  | tapTrap row r hfront hscreen halert hshown hrow =>
    rw [hscreen] at hscreen'
    refine ⟨h.stored, h.named, ?_⟩
    simp only [hscreen]
    exact hscreen'
  | edit e r vc vc' hfront hscreen hedit =>
    rw [hscreen] at hscreen'
    exact ⟨h.stored, h.named, hscreen'.1, sessionFresh_step hscreen'.2 hedit⟩
  | okay | leave | loggedIn | loginDismissed | selectAlterations | leaveAdd | openAdd | add =>
    exact ⟨h.stored, h.named, trivial⟩
  | signOut hfront hscreen => exact ⟨h.stored, h.named, h.screen⟩
  | _ => exact ⟨h.stored, h.named, h.screen⟩

theorem handsOver_of_fresh (h : Fresh g p) (hin : InTime g p e) : HandsOverStored p e := by
  intro a ha
  have hscreen := h.screen
  unfold tapped at ha
  split at ha
  · rename_i row r hreview
    rw [hreview] at hscreen
    rw [h.stored]
    exact (hscreen.rows a (List.mem_of_getElem? ha)).resolve_left
      (hin.1 a (by simpa only [tapped, hreview] using ha))
  · cases ha

/-- A store that this app has written. -/
def Written (db : Node) : Prop :=
  ∃ ws : List Write, (∀ w ∈ ws, FromApp w) ∧ db = ws.foldl (fun db w => w.apply db) KeyTree.empty

theorem named_foldl {ws : List Write} (h : ∀ u a, alterationAt db u = some a → a.uid = u)
    (hws : ∀ w ∈ ws, FromApp w) :
    ∀ u a, alterationAt (ws.foldl (fun db w => w.apply db) db) u = some a → a.uid = u := by
  induction ws generalizing db with
  | nil => exact h
  | cons w ws ih =>
    refine ih (fun u a ha => ?_) fun w' hw' => hws w' (List.mem_cons_of_mem w hw')
    have hw := hws w (List.mem_cons_self ..)
    cases w with
    | alteration v r =>
      rw [alterationAt_alteration] at ha
      exact named_update h hw.2 u a ha
    | _ =>
      rw [alterationAt_apply] at ha
      exact h u a ha

theorem fresh_opening {pickerDate now currentDate originalDate : Date}
    (h : Launched pickerDate now currentDate originalDate p) (hdb : Written p.db) :
    Fresh (opening p) p := by
  obtain ⟨ws, hws, hdb⟩ := hdb
  refine ⟨rfl, fun u a ha => ?_, ?_⟩
  · simp only [opening, hdb] at ha
    exact named_foldl (fun u a ha => by cases ha) hws u a ha
  · obtain ⟨db, keys, user, huser, rfl⟩ := h
    trivial

/-- On one device, where no row is tapped that is older than an edit of its record and
no edit leaves a rounded price, every session opens on the stored record, and every
field stays as the last session that changed it left it. -/
theorem never_reverts {pickerDate now currentDate originalDate : Date} {es : List Event}
    (h : Launched pickerDate now currentDate originalDate p) (hdb : Written p.db)
    (hdevice : ∀ e ∈ es, e.foreign = false) (hrun : run step p es = some p')
    (hin : AlongWith step next InTime (opening p) p es) : NeverReverts p es p' := by
  have hfresh := fresh_opening h hdb
  have hown : AlongWith step next (fun g p e => InTime g p e ∧ e.foreign = false)
      (opening p) p es :=
    hin.imp fun e he g p hin => ⟨hin, hdevice e he⟩
  have hkeep : ∀ g p e p', Fresh g p → (InTime g p e ∧ e.foreign = false) →
      step p e = some p' → Fresh (next p e g) p' :=
    fun _ _ _ _ h hC hstep => fresh_step h hC.1 hC.2 (steps_of_step hstep)
  refine ⟨along_of_alongWith Fresh hkeep (fun _ _ _ _ h hC _ => handsOver_of_fresh h hC.1) hfresh
    hown hrun, fun u => ?_⟩
  exact congrFun (run_invariant_alongWith Fresh hkeep hfresh hown hrun).stored u

/-- The hem of 20 is raised to 35. -/
def raised : List Event := addedAndLoaded Integrity.hem ++ [.tap 0,
  .edit (.edit (.clear .actualPrice)), .edit (.edit (.change .actualPrice 0 0 "35")),
  .edit .updateTotalAction, .edit .addToContractAction, .editConfirmed]

/-- Its details are written once the new price is on the table. -/
def detailed : List Event := [.take 0, .deliver 0, .take 0, .deliver 0, .tap 0,
  .edit (.editDetails 0 0 "lined"), .edit .updateTotalAction, .edit .addToContractAction,
  .editConfirmed]

/-- It is opened and saved again before anything is loaded. -/
def savedAgain : List Event := [.tap 0, .edit .updateTotalAction, .edit .addToContractAction,
  .editConfirmed]

theorem never_reverts_detailed : ∃ p', run step suesPhone (raised ++ detailed) = some p' ∧
    (alterationAt p'.db "a").map (fun a => (a.actualCost, a.costDetails)) = some (35, "lined") ∧
    NeverReverts suesPhone (raised ++ detailed) p' := by
  have hdone : ∃ p' ∈ run step suesPhone (raised ++ detailed),
      (alterationAt p'.db "a").map (fun a => (a.actualCost, a.costDetails)) =
        some (35, "lined") := by
    decide +kernel
  have hin : AlongWith step next InTime (opening suesPhone) suesPhone (raised ++ detailed) := by
    decide +kernel
  have hdevice : ∀ e ∈ raised ++ detailed, e.foreign = false := by
    decide
  obtain ⟨p', hp', hstored⟩ := hdone
  have hwritten : Written suesPhone.db := ⟨[], fun w hw => (by cases hw), rfl⟩
  exact ⟨p', hp', hstored, never_reverts launched_suesPhone hwritten hdevice hp' hin⟩

/-- The row still shows 20, and saving what it opens brings 20 back. -/
theorem not_never_reverts_savedAgain : ∃ p p', run step suesPhone raised = some p ∧
    (alterationAt p.db "a").map (·.actualCost) = some 35 ∧ run step p savedAgain = some p' ∧
    (alterationAt p'.db "a").map (·.actualCost) = some 20 ∧
    ¬ NeverReverts suesPhone (raised ++ savedAgain) p' := by
  have hdone : ∃ p ∈ run step suesPhone raised,
      (alterationAt p.db "a").map (·.actualCost) = some 35 ∧
      (∃ a ∈ tapped p (.tap 0), a.uid = "a" ∧ a.actualCost = 20) ∧
      ∃ p' ∈ run step p savedAgain, (alterationAt p'.db "a").map (·.actualCost) = some 20 := by
    decide +kernel
  obtain ⟨p, hp, hstored, ⟨a, ha, huid, hold⟩, p', hp', hback⟩ := hdone
  refine ⟨p, p', hp, hstored, hp', hback, fun hnever => ?_⟩
  have hhanded := ((along_append hp).mp hnever.handed).2.1 a ha
  rw [huid] at hhanded
  rw [hhanded, Option.map_some, hold] at hstored
  exact absurd hstored (by decide)

end Pincushion.StaleRows
