import Pincushion.Integrity
import Pincushion.ReviewReads

/-! No path with an empty child key. Only one of the screens checks that there is a
contract; the others are reached from screens that made sure of it. A review screen
that was left still gets what it asked for, and reads on. -/
namespace Pincushion.EmptyKeys
open KeyTree Structs FirebaseHelpers AlterationScreens CreateContract Runs Navigation ReviewReads
open ReviewContract (Message Request)

structure State where
  phone : Phone
  left : List Review

inductive Event where
  | phone (e : Navigation.Event)
  | takeLeft (k i : Nat)
  | deliverLeft (k i : Nat)

/-- The review screen that the event takes off. -/
def popped (p : Phone) (e : Navigation.Event) : List Review := match e, p.screen with
  | .okay, .review r | .back, .review r => [r]
  | _, _ => []

def State.readLeft (s : State) (k : Nat) (e : ReviewContract.Event) : Option State :=
  match s.left[k]? with
  | some r => (ReviewContract.step (r.state s.phone) e).map fun m =>
      { s with left := s.left.set k (r.set m) }
  | none => none

def step (s : State) : Event → Option State
  | .phone e => (Navigation.step s.phone e).map fun p => ⟨p, s.left ++ popped s.phone e⟩
  | .takeLeft k i => s.readLeft k (.take i)
  | .deliverLeft k i => s.readLeft k (.deliver i)

/-- What the app has stored has no empty uid in it. -/
structure Stored (db : Node) : Prop where
  lists : ∀ c l, listAt db (.alterations c) = some l → "" ∉ l
  records : ∀ u r, alterationAt db u = some r → r.uid ≠ ""

def Starts (s : State) : Prop :=
  (∃ pickerDate now currentDate originalDate,
    Launched pickerDate now currentDate originalDate s.phone) ∧
  Stored s.phone.db ∧ s.left = []

/-- A review screen that has seen no empty uid, and asks for nothing under one. -/
def ReviewKeyed (r : Review) : Prop := ReviewOf (· ≠ "") (· ≠ "") (·.uid ≠ "") r

def ScreenKeyed (contractUID : String) : Screen → Prop
  | .create => True
  | .seeAlterations alert => alert = false → contractUID ≠ ""
  | .addAlteration _ => contractUID ≠ ""
  | .review r => ReviewKeyed r
  | .editAlteration r vc => ReviewKeyed r ∧ vc.myAlterationStruct.uid ≠ ""

structure AppendKeyed (a : PendingAppend) : Prop where
  append : ∃ c k, a.append = updateAlterationsForContract c k ∧ c ≠ "" ∧ k ≠ ""
  value : ∀ n l, a.value = some n → a.append.target.decode n = some l → "" ∉ l

structure Keyed (p : Phone) : Prop where
  stored : Stored p.db
  appends : ∀ u a, p.appends u = some a → AppendKeyed a
  away : p.screen ≠ .create → p.signOutDialog = false ∧ p.listener = none
  screen : ScreenKeyed p.statics.contract.uid p.screen

variable {db : Node} {w : Write} {p p' : Phone} {e : Navigation.Event} {r : Review}

theorem listFor_ne (h : FromApp w) {c : String} {l : List String} (hl : w.listFor c = some l) :
    "" ∉ l := by
  cases w with
  | contract k v =>
    simp only [Write.listFor] at hl
    split at hl
    · cases hl
      exact fun hmem => h "" hmem rfl
    · cases hl
  | list t l' =>
    obtain ⟨-, rfl⟩ := Write.listFor_list hl
    exact fun hmem => h "" hmem rfl
  | _ => cases hl

theorem stored_apply (h : Stored db) (hw : FromApp w) : Stored (w.apply db) where
  lists c l hl := by
    rw [listAt_apply_alterations] at hl
    split at hl
    · rename_i l' hl'
      cases l' with
      | nil => cases hl
      | cons head tail =>
        cases hl
        exact listFor_ne hw hl'
    · exact h.lists c l hl
  records u r hr := by
    rw [alterationAt_apply, Option.or_eq_some_iff] at hr
    cases hr with
    | inl hr =>
      cases w with
      | alteration v r' =>
        simp only [Write.recordFor] at hr
        split at hr
        · cases hr
          exact hw.2 ▸ hw.1
        · cases hr
      | _ => cases hr
    | inr hr => exact h.records u r hr.2

theorem stored_foldl {ws : List Write} (h : Stored db) (hws : ∀ w ∈ ws, FromApp w) :
    Stored (ws.foldl (fun db w => w.apply db) db) := by
  induction ws generalizing db with
  | nil => exact h
  | cons w ws ih =>
    exact ih (stored_apply h (hws w (List.mem_cons_self ..)))
      fun w' hw' => hws w' (List.mem_cons_of_mem _ hw')

theorem Stored.storeOf (h : Stored db) : StoreOf (· ≠ "") (· ≠ "") (·.uid ≠ "") db where
  lists c l _ hl _ hu _ := fun hempty => h.lists c l hl (hempty ▸ hu)
  records u a _ ha := h.records u a ha

theorem ReviewKeyed.path (h : ReviewKeyed r) {m : Message} (hm : m ∈ r.inFlight) :
    "" ∉ m.request.path := by
  have hkeyed := h.inFlight m hm
  obtain ⟨request, value⟩ := m
  cases request <;> simpa [Request.path] using hkeyed.1.symm

theorem keyed_append {a : ListAppend} (h : AppendKeyed ⟨a, none⟩)
    (hdb : Stored p.db) : AppendKeyed ⟨a, some (p.db.sub a.target.node)⟩ := by
  refine ⟨h.append, fun n l hn hl => ?_⟩
  cases hn
  obtain ⟨c, k, ha, -, -⟩ := h.append
  have ht : a.target = .alterations c := congrArg ListAppend.target ha
  refine hdb.lists c l ?_
  simp only [ht] at hl
  exact asStrings_of_decode hl

theorem fromApp_append {a : ListAppend} {value : Node} {w : Write}
    (h : AppendKeyed ⟨a, some value⟩) (hw : a.callback value = some w) :
    FromApp w ∧ "" ∉ w.path := by
  obtain ⟨server, hserver, rfl⟩ := ListAppend.callback_eq hw
  obtain ⟨c, k, ha, hc, hk⟩ := h.append
  have hlist := h.value value server rfl hserver
  simp only at ha
  subst ha
  refine ⟨fun u hu => ?_, ?_⟩
  · rintro rfl
    cases List.mem_append.mp hu with
    | inl hu => exact hlist hu
    | inr hu => exact hk (List.mem_singleton.mp hu).symm
  · simpa [Write.path, updateAlterationsForContract, ListTarget.node, ListTarget.field]
      using hc.symm

theorem fromApp_created {keys : CreateContractVC.Keys} {t : Date} {w : Write}
    (hfresh : p.Fresh keys.toList) (hw : w ∈ p.create.createdWrites p.statics keys t) :
    FromApp w ∧ "" ∉ w.path := by
  have hne : ∀ k ∈ keys.toList, "" ≠ k := fun k hk => (hfresh.2 k hk).1.symm
  simp only [CreateContractVC.Keys.toList, List.mem_cons, List.not_mem_nil, or_false,
    forall_eq_or_imp, forall_eq] at hne
  simp only [CreateContractVC.createdWrites, List.mem_cons, List.not_mem_nil, or_false] at hw
  obtain rfl | rfl | rfl | rfl := hw
  · exact ⟨trivial, by simpa [CreateContractVC.makeDress, addDressToFBDB, Write.path, Write.node]
      using hne.1⟩
  · exact ⟨by simp [CreateContractVC.makeContract, addContractToFBDB, FromApp],
      by simpa [CreateContractVC.makeContract, addContractToFBDB, Write.path, Write.node]
        using hne.2.1⟩
  · exact ⟨trivial, by simpa [addBrideToFBDB, Write.path, Write.node] using hne.2.2.1⟩
  · exact ⟨trivial, by simpa [addMeasurementToFBDB, Write.path, Write.node] using hne.2.2.2⟩

/-- Each write of the device has a path without an empty key, and stores what the
app may store. -/
theorem issued_keyed (h : Keyed p) (hstep : Steps p e p') :
    ∀ w ∈ issued p e, FromApp w ∧ "" ∉ w.path := by
  intro w hw
  cases issues_of_mem hw with
  | created keys t w hw => exact fromApp_created (fresh_of_created hstep) hw
  | added key vc hscreen =>
    have hkey := ((fresh_of_added hstep).2 key (List.mem_singleton_self key)).1
    exact ⟨⟨hkey, rfl⟩, by simpa [AddAlterationVC.makeAlteration, addAlterationToFBDB, Write.path,
      Write.node] using hkey.symm⟩
  | edited r vc w hscreen hw =>
    have hscreen' := h.screen
    rw [hscreen] at hscreen'
    obtain ⟨r', rfl, huid, -⟩ := EditAlterationVC.confirmHandler_eq hw
    have hne : r'.uid ≠ "" := huid ▸ hscreen'.2
    exact ⟨⟨hne, rfl⟩, by simpa [Write.path, Write.node] using hne.symm⟩
  | appended u a value w happend hw => exact fromApp_append (h.appends u _ happend) hw

theorem keyed_stored (h : Keyed p) (hstep : Steps p e p') : Stored p'.db := by
  cases hforeign : e.foreign with
  | false =>
    rw [db_of_steps hstep hforeign]
    exact stored_foldl h.stored fun w hw => (issued_keyed h hstep w hw).1
  | true =>
    cases hstep with
    | remote w hw => exact stored_apply h.stored hw
    | _ => cases hforeign

theorem keyed_appends (h : Keyed p) (hstep : Steps p e p') :
    ∀ u a, p'.appends u = some a → AppendKeyed a := by
  cases hstep with
  | added key vc hfront hscreen hpresented hfresh hcontract =>
    refine forall_update h.appends fun a ha => ?_
    cases ha
    exact ⟨⟨_, _, rfl, hcontract, (hfresh.2 key (List.mem_singleton_self key)).1⟩,
      fun _ _ hn => by cases hn⟩
  | appendTake u a happend =>
    refine forall_update h.appends fun b hb => ?_
    cases hb
    exact keyed_append (h.appends u _ happend) h.stored
  | appendCallback u a value happend => exact forall_update h.appends nofun
  | _ => exact h.appends

/-- Nothing asks, and nothing listens, over another screen. -/
theorem keyed_away (h : Keyed p) (hstep : Steps p e p') :
    p'.screen ≠ .create → p'.signOutDialog = false ∧ p'.listener = none := by
  cases hstep with
  | created keys t hfront | selectAlterations hfront | reviewContract hfront =>
    exact fun _ => ⟨(Phone.front_eq hfront).2.1, rfl⟩
  | signOut hfront hscreen => exact fun haway => absurd hscreen haway
  | signedOut => exact fun _ => ⟨rfl, rfl⟩
  | signOutCancelled => exact fun haway => ⟨rfl, (h.away haway).2⟩
  | heard l u hlistener | asked l hlistener | unheard l hlistener =>
    intro haway
    rw [(h.away haway).2] at hlistener
    cases hlistener
  | viewDidAppear => exact fun haway => ⟨(h.away haway).1, rfl⟩
  | loggedIn | loginDismissed | okay | leave => exact fun haway => absurd rfl haway
  | leaveAdd vc hfront hscreen | added key vc hfront hscreen | addTrap key vc hfront hscreen =>
    have haway : p.screen ≠ .create := by simp [hscreen]
    exact fun _ => ⟨(h.away haway).1, rfl⟩
  | leaveEdit r vc hfront hscreen | openAdd object hfront hscreen | add e vc vc' hfront hscreen | reappear r hfront hscreen
  | take i r s hscreen | takeUnder i r vc s hscreen | deliver i r s hscreen
  | deliverUnder i r vc s hscreen | tap row r a hfront hscreen | edit e r vc vc' hfront hscreen
  | edited r vc w hfront hscreen =>
    have haway : p.screen ≠ .create := by simp [hscreen]
    exact fun _ => ⟨(h.away haway).1, (h.away haway).2⟩
  | _ => exact h.away

/-- Each screen is come to from one that has the contract it needs. -/
theorem keyed_screen (h : Keyed p) (hstep : Steps p e p') :
    ScreenKeyed p'.statics.contract.uid p'.screen := by
  have hscreen' := h.screen
  cases hstep with
  | created | selectAlterations | leaveAdd | added | addTrap =>
    exact of_decide_eq_false
  | signOut hfront hscreen => exact h.screen
  | signedOut hdialog =>
    have hcreate : p.screen = .create := by
      by_contra haway
      rw [(h.away haway).1] at hdialog
      cases hdialog
    simp only [Phone.signOutConfirmed, hcreate]
    trivial
  | reviewContract => exact reviewOf_appear reviewOf_new id
  | loggedIn | loginDismissed | okay | leave => trivial
  | leaveEdit r vc hfront hscreen | edited r vc w hfront hscreen =>
    rw [hscreen] at hscreen'
    exact reviewOf_appear hscreen'.1 id
  | openAdd object hfront hscreen =>
    rw [hscreen] at hscreen'
    exact hscreen' rfl
  | add e vc vc' hfront hscreen =>
    rw [hscreen] at hscreen'
    exact hscreen'
  | reappear r hfront hscreen =>
    rw [hscreen] at hscreen'
    exact reviewOf_appear hscreen' id
  | take i r s hscreen hstep =>
    rw [hscreen] at hscreen'
    exact reviewOf_take h.stored.storeOf hscreen' hstep
  | takeUnder i r vc s hscreen hstep =>
    rw [hscreen] at hscreen'
    exact ⟨reviewOf_take h.stored.storeOf hscreen'.1 hstep, hscreen'.2⟩
  | deliver i r s hscreen hstep =>
    rw [hscreen] at hscreen'
    exact reviewOf_deliver hscreen' hstep
  | deliverUnder i r vc s hscreen hstep =>
    rw [hscreen] at hscreen'
    exact ⟨reviewOf_deliver hscreen'.1 hstep, hscreen'.2⟩
  | tap row r a hfront hscreen halert hshown hrow =>
    rw [hscreen] at hscreen'
    exact ⟨hscreen', hscreen'.rows a (List.mem_of_getElem? hrow)⟩
  | edit e r vc vc' hfront hscreen hstep =>
    rw [hscreen] at hscreen'
    exact ⟨hscreen'.1, (EditAlterationVC.step_uid hstep).1 ▸ hscreen'.2⟩
  | _ => exact h.screen

theorem keyed_step (h : Keyed p) (hstep : Steps p e p') : Keyed p' :=
  ⟨keyed_stored h hstep, keyed_appends h hstep, keyed_away h hstep, keyed_screen h hstep⟩

/-- The screen that is up, and those that were left, as far as they read. -/
def State.reviews (s : State) : List Review := s.left ++ match s.phone.screen with
  | .review r | .editAlteration r _ => [r]
  | _ => []

/-- No read that is under way, nor any write of the step, has a path with an empty
key; the handlers that rely on a uid have one. -/
structure NoEmptyKey (s : State) (e : Event) : Prop where
  reads : ∀ r ∈ s.reviews, ∀ m ∈ r.inFlight, "" ∉ m.request.path
  appends : ∀ u a, s.phone.appends u = some a → "" ∉ a.append.target.node
  writes : ∀ e', e = .phone e' → ∀ w ∈ issued s.phone e', "" ∉ w.path
  add : ∀ key, e = .phone (.addConfirmed key) → s.phone.statics.contract.uid ≠ ""
  edit : e = .phone .editConfirmed → ∀ r vc, s.phone.screen = .editAlteration r vc →
    vc.myAlterationStruct.uid ≠ ""

structure Invariant (s : State) : Prop where
  phone : Keyed s.phone
  left : ∀ r ∈ s.left, ReviewKeyed r

variable {s s' : State} {ev : Event}

theorem invariant_starts (h : Starts s) : Invariant s := by
  obtain ⟨⟨pickerDate, now, currentDate, originalDate, db, keys, user, huser, hphone⟩, hstored,
    hleft⟩ := h
  refine ⟨⟨hstored, ?_, ?_, ?_⟩, fun r hr => by simp [hleft] at hr⟩ <;> rw [hphone]
  · exact nofun
  · exact fun haway => absurd rfl haway
  · trivial

theorem invariant_readLeft {k : Nat} {e : ReviewContract.Event} (h : Invariant s)
    (hkeep : ∀ r m, ReviewKeyed r → ReviewContract.step (r.state s.phone) e = some m →
      ReviewKeyed (r.set m)) (hread : s.readLeft k e = some s') : Invariant s' := by
  simp only [State.readLeft] at hread
  split at hread
  · rename_i r hk
    obtain ⟨m, hm, rfl⟩ := Option.map_eq_some_iff.mp hread
    exact ⟨h.phone, forall_mem_set h.left (hkeep r m (h.left r (List.mem_of_getElem? hk)) hm)⟩
  · cases hread

theorem keyed_popped (h : Keyed p) : ∀ r ∈ popped p e, ReviewKeyed r := by
  intro r hr
  have hscreen := h.screen
  unfold popped at hr
  split at hr
  · rename_i hreview
    rw [hreview] at hscreen
    exact List.mem_singleton.mp hr ▸ hscreen
  · rename_i hreview
    rw [hreview] at hscreen
    exact List.mem_singleton.mp hr ▸ hscreen
  · cases hr

theorem invariant_step (h : Invariant s) (hstep : step s ev = some s') : Invariant s' := by
  cases ev with
  | phone e =>
    obtain ⟨p', hp', rfl⟩ := Option.map_eq_some_iff.mp hstep
    refine ⟨keyed_step h.phone (steps_of_step hp'), fun r hr => ?_⟩
    cases List.mem_append.mp hr with
    | inl hr => exact h.left r hr
    | inr hr => exact keyed_popped h.phone r hr
  | takeLeft k i =>
    exact invariant_readLeft h (fun _ _ => reviewOf_take h.phone.stored.storeOf) hstep
  | deliverLeft k i => exact invariant_readLeft h (fun _ _ => reviewOf_deliver) hstep

theorem reviewKeyed_reviews (h : Invariant s) : ∀ r ∈ s.reviews, ReviewKeyed r := by
  intro r hr
  have hscreen := h.phone.screen
  cases List.mem_append.mp hr with
  | inl hr => exact h.left r hr
  | inr hr =>
    split at hr
    · rename_i hreview
      rw [hreview] at hscreen
      exact List.mem_singleton.mp hr ▸ hscreen
    · rename_i hedit
      rw [hedit] at hscreen
      exact List.mem_singleton.mp hr ▸ hscreen.1
    · cases hr

/-- In no state that the app comes to, and in no step, is there a path with an
empty child key. -/
theorem no_empty_key (h : Reachable step Starts s) (hstep : step s ev = some s') :
    NoEmptyKey s ev := by
  have hinv : Invariant s :=
    reachable_invariant Invariant (fun _ h => invariant_starts h)
      (fun _ _ _ h hstep => invariant_step h hstep) h
  have hscreen := hinv.phone.screen
  refine ⟨fun r hr m hm => (reviewKeyed_reviews hinv r hr).path hm, ?_, ?_, ?_, ?_⟩
  · intro u a ha
    obtain ⟨c, k, happend, hc, hk⟩ := (hinv.phone.appends u a ha).append
    rw [happend]
    simpa [updateAlterationsForContract, ListTarget.node] using hc.symm
  · rintro e rfl w hw
    obtain ⟨p', hp', rfl⟩ := Option.map_eq_some_iff.mp hstep
    exact (issued_keyed hinv.phone (steps_of_step hp') w hw).2
  · rintro key rfl
    obtain ⟨p', hp', rfl⟩ := Option.map_eq_some_iff.mp hstep
    cases steps_of_step hp' with
    | added key vc hfront hadd | addTrap key vc hfront hadd =>
      rw [hadd] at hscreen
      exact hscreen
  · rintro rfl r vc hedit
    rw [hedit] at hscreen
    exact hscreen.2

/-- Ann's hem is added, loaded, and opened again to be updated. -/
def hemOpened : List Navigation.Event := addedAndLoaded Integrity.hem ++
  [.tap 0, .edit .updateTotalAction, .edit .addToContractAction]

theorem starts_suesPhone : Starts ⟨suesPhone, []⟩ :=
  ⟨⟨10, 0, 0, 0, launched_suesPhone⟩,
    ⟨fun c l hl => (by cases hl), fun u r hr => (by cases hr)⟩, rfl⟩

theorem no_empty_key_hem : ∃ s s', run step ⟨suesPhone, []⟩ (hemOpened.map .phone) = some s ∧
    step s (.phone .editConfirmed) = some s' ∧ NoEmptyKey s (.phone .editConfirmed) := by
  have hdone : ∃ s ∈ run step ⟨suesPhone, []⟩ (hemOpened.map .phone),
      (step s (.phone .editConfirmed)).isSome = true := by
    decide +kernel
  obtain ⟨s, hs, hconfirm⟩ := hdone
  obtain ⟨s', hs'⟩ := Option.isSome_iff_exists.mp hconfirm
  exact ⟨s, s', hs, hs', no_empty_key ⟨_, _, starts_suesPhone, hs⟩ hs'⟩

end Pincushion.EmptyKeys
