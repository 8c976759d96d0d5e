import Pincushion.Indices
import Mathlib.Data.Set.Card

/-! What is written beside what was confirmed. The screens write in the confirm
handlers of their dialogs, but the Add Bride screen writes as soon as its dialog
has come up, and both answers come too late. -/
namespace Pincushion.Confirmations
open KeyTree SwiftNumber Structs Singletons FirebaseHelpers AlterationScreens CreateContract
open Network Runs RecordScreens Indices
open App (World Device Starts)
variable {D : Type*}

structure State (D : Type*) where
  world : World D
  /-- The dialog that asks to confirm a bride is up. -/
  brideDialog : D → Bool

inductive Event (D : Type*) where
  | app (e : App.Event D)
  | addBride (d : D) (vc : AddBrideVC) (newBrideKey : String)
  | answerBride (d : D) (confirm : Bool)

/-- Confirm only pops the screen of the bride, and Cancel does nothing. -/
def step [DecidableEq D] (s : State D) : Event D → Option (State D)
  | .app e => (App.step s.world e).map fun world => { s with world }
  | .addBride d vc newBrideKey =>
    if s.brideDialog d then none
    else (addBride s.world d vc newBrideKey).map fun world =>
      ⟨world, Function.update s.brideDialog d true⟩
  | .answerBride d _ =>
    if s.brideDialog d then some { s with brideDialog := Function.update s.brideDialog d false }
    else none

/-- The confirming answers: Create, Add, Update, and Confirm for a bride. -/
def Event.confirms : Event D → Bool
  | .app (.act _ (.createConfirmed _ _)) => true
  | .app (.act _ (.addConfirmed _)) => true
  | .app (.act _ .editConfirmed) => true
  | .answerBride _ confirm => confirm
  | _ => false

def Event.confirmsCreation : Event D → Bool
  | .app (.act _ (.createConfirmed _ _)) => true
  | _ => false

def Event.confirmsAdd : Event D → Bool
  | .app (.act _ (.addConfirmed _)) => true
  | _ => false

def Event.confirmsBride : Event D → Bool
  | .answerBride _ confirm => confirm
  | _ => false

def Event.asksForBride : Event D → Bool
  | .addBride _ _ _ => true
  | _ => false

/-- The callback of an append carries on what an earlier step began. -/
def Event.carriesOn : Event D → Bool
  | .app (.callback _) => true
  | _ => false

/-- The record that a write stores: its collection and its key. -/
def stored : Write → Option (String × String)
  | .specialist uid _ => some ("specialists", uid)
  | .bride uid _ => some ("brides", uid)
  | .measurement uid _ => some ("measurements", uid)
  | .dress uid _ => some ("dresses", uid)
  | .contract uid _ => some ("contracts", uid)
  | .alteration uid _ => some ("alterations", uid)
  | .list _ _ => none

def Has (db : Node) (c k : String) : Prop := ∃ u, textAt db [c, k] "uid" = some u

/-- The record is stored, or the write that stores it is on its way. -/
def Held (n : Net D) (c k : String) : Prop :=
  Has n.server c k ∨ ∃ d, ∃ w ∈ n.outbox d, stored w = some (c, k)

/-- The records of a collection that are new since `n`. -/
def added (n n' : Net D) (c : String) : Set String := {k | Held n' c k ∧ ¬ Held n c k}

/-- Any store whose alterations carry their own uids, with nothing on its way to
it and every device at a screen that was just made. -/
structure Opens (s : State D) : Prop where
  quiet : Quiet s.world.net
  known : ∀ c k, Has s.world.net.server c k → k ∈ s.world.net.keys
  named : ∀ u r, alterationAt s.world.net.server u = some r → r.uid = u
  device : ∀ d, ∃ pickerDate now currentDate originalDate,
    s.world.device d = ⟨true, Statics.initial currentDate originalDate, .new pickerDate now,
      none, none, []⟩
  dialog : ∀ d, s.brideDialog d = false

/-- The step puts a write on its way or starts an append. -/
def Begins [DecidableEq D] (s : State D) (e : Event D) : Prop :=
  ∃ s', step s e = some s' ∧
    ((∃ d, (s.world.net.outbox d).length < (s'.world.net.outbox d).length) ∨
      s.world.net.reads.length < s'.world.net.reads.length)

/-- What the dialogs promise of a run: only a confirming answer begins a write,
without one the store stays as it was, and as many records are added as were
confirmed. -/
structure Confirmed [DecidableEq D] (s : State D) (es : List (Event D)) (s' : State D) :
    Prop where
  begun : Along step (fun s e => Begins s e → e.confirms ∨ e.carriesOn) s es
  cancelled : (∀ e ∈ es, e.confirms = false) →
    s'.world.net.server = s.world.net.server ∧ Quiet s'.world.net
  contracts : (added s.world.net s'.world.net "contracts").ncard = es.countP (·.confirmsCreation)
  alterations : (added s.world.net s'.world.net "alterations").ncard = es.countP (·.confirmsAdd)
  brides : (added s.world.net s'.world.net "brides").ncard =
    es.countP (·.confirmsCreation) + es.countP (·.confirmsBride)

variable {db : Node} {w : Write} {ws : List Write} {c k : String} {n n' : Net D} {d : D}

theorem node_of_stored (h : stored w = some (c, k)) : w.node = [c, k] := by
  cases w <;> simp_all only [stored, Option.some.injEq, Prod.mk.injEq, reduceCtorEq] <;>
  · obtain ⟨rfl, rfl⟩ := h
    rfl

theorem has_apply_iff : Has (w.apply db) c k ↔ Has db c k ∨ stored w = some (c, k) := by
  by_cases hnode : w.node = [c, k]
  · cases w with
    | list t l =>
      have hfield : "uid" ≠ t.field := by cases t <;> simp [ListTarget.field]
      have hsame := textAt_apply_list db t l hfield
      have ht : t.node = [c, k] := hnode
      rw [ht] at hsame
      simp [Has, hsame, stored]
    | _ =>
      simp only [Write.node, List.cons.injEq, and_true] at hnode
      obtain ⟨rfl, rfl⟩ := hnode
      refine ⟨fun _ => Or.inr rfl, fun _ => ?_⟩
      simp only [Has, textAt, Write.apply, Write.path, Write.node, sub_setValue_self, Write.value]
      exact ⟨_, rfl⟩
  · have hsame : textAt (w.apply db) [c, k] "uid" = textAt db [c, k] "uid" :=
      textAt_apply_ne hnode
    have hother : stored w ≠ some (c, k) := fun h => hnode (node_of_stored h)
    simp [Has, hsame, hother]

theorem has_of_alterationAt {u : String} {r : AlterationStruct}
    (h : alterationAt db u = some r) : Has db "alterations" u := by
  cases huid : textAt db ["alterations", u] "uid" with
  | some uid => exact ⟨uid, huid⟩
  | none =>
    simp only [textAt] at huid
    simp [alterationAt, AlterationStruct.decode, huid] at h

theorem held_of_recordValue {u : String} {r : AlterationStruct} (h : n.RecordValue u r) :
    Held n "alterations" u := by
  cases h with
  | inl h => exact Or.inl (has_of_alterationAt h)
  | inr h =>
    obtain ⟨d, w, hw, hr⟩ := h
    refine Or.inr ⟨d, w, hw, ?_⟩
    cases w with
    | alteration v r =>
      simp only [Write.recordFor] at hr
      split at hr
      · rename_i hv
        rw [stored, hv]
      · cases hr
    | _ => cases hr

/-- The records that a confirmed answer adds. -/
def Event.made : Event D → List (String × String)
  | .app (.act _ (.createConfirmed keys _)) => [("dresses", keys.dress),
      ("contracts", keys.contract), ("brides", keys.bride), ("measurements", keys.measurement)]
  | .app (.act _ (.addConfirmed newAlterationKey)) => [("alterations", newAlterationKey)]
  | _ => []

/-- The records that a device could write again are held. -/
def Shown (n : Net D) (v : Device) : Prop :=
  (∀ r ∈ v.loaded, Held n "alterations" r.uid) ∧
    ∀ vc, v.edit = some vc → Held n "alterations" vc.myAlterationStruct.uid

/-- What is held is what the start held and what was made since, each once. -/
structure Tally (start : Net D) (made : List (String × String)) (s : World D) : Prop where
  held : ∀ c k, Held s.net c k ↔ Held start c k ∨ (c, k) ∈ made
  nodup : made.Nodup
  fresh : ∀ c k, (c, k) ∈ made → ¬ Held start c k
  known : ∀ c k, Held s.net c k → k ∈ s.net.keys
  named : ∀ u r, s.net.RecordValue u r → r.uid = u
  shown : ∀ d, Shown s.net (s.device d)

variable {start : Net D} {made : List (String × String)} {s s' : World D} {v v' : Device}

theorem Shown.mono (h : Shown n v) (hheld : ∀ c k, Held n c k → Held n' c k) : Shown n' v :=
  ⟨fun r hr => hheld _ _ (h.1 r hr), fun vc hvc => hheld _ _ (h.2 vc hvc)⟩

theorem shown_act {a : App.Action} (h : Shown n v) (hact : v.act a = some v') : Shown n v' := by
  cases App.acts_of_act hact with
  | openEdit row r hloaded =>
    refine ⟨h.1, fun vc hvc => ?_⟩
    cases hvc
    exact h.1 r (List.mem_of_getElem? hloaded)
  | edit e vc vc' hedit hstep =>
    refine ⟨h.1, fun vc'' hvc => ?_⟩
    cases hvc
    rw [(EditAlterationVC.step_uid hstep).1]
    exact h.2 vc hedit
  | back => exact ⟨h.1, fun vc hvc => by cases hvc⟩
  | _ => exact h

/-- A step that neither adds nor loses a record. -/
theorem tally_same (h : Tally start made s) (hheld : ∀ c k, Held n c k ↔ Held s.net c k)
    (hkeys : n.keys = s.net.keys) (hnamed : ∀ u r, n.RecordValue u r → r.uid = u)
    {device : D → Device} (hshown : ∀ d, Shown s.net (device d)) :
    Tally start made ⟨n, device⟩ where
  held c k := (hheld c k).trans (h.held c k)
  nodup := h.nodup
  fresh := h.fresh
  known c k hk := by
    rw [hkeys]
    exact h.known c k ((hheld c k).mp hk)
  named := hnamed
  shown d := (hshown d).mono fun c k hk => (hheld c k).mpr hk

/-- How many of the new records are in a collection. -/
theorem ncard_added (h : Tally start made s) (c : String) :
    (added start s.net c).ncard = made.countP (fun p => p.1 = c) := by
  have hset : added start s.net c =
      ((made.filter fun p => p.1 = c).map Prod.snd).toFinset := by
    ext k
    have hadded : k ∈ added start s.net c ↔ (c, k) ∈ made :=
      ⟨fun hk => ((h.held c k).mp hk.1).resolve_left hk.2,
        fun hk => ⟨(h.held c k).mpr (Or.inr hk), h.fresh c k hk⟩⟩
    simp [hadded]
  have hnodup : ((made.filter fun p => p.1 = c).map Prod.snd).Nodup := by
    refine List.Nodup.map_on (fun p hp q hq hpq => ?_) (h.nodup.filter _)
    have hp' := of_decide_eq_true (List.mem_filter.mp hp).2
    have hq' := of_decide_eq_true (List.mem_filter.mp hq).2
    exact Prod.ext (hp'.trans hq'.symm) hpq
  rw [hset, Set.ncard_coe_finset, List.toFinset_card_of_nodup hnodup, List.length_map,
    List.countP_eq_length_filter]

theorem countP_made {p : String × String → Bool} {q : Event D → Bool}
    (h : ∀ e : Event D, e.made.countP p = if q e then 1 else 0) (es : List (Event D)) :
    (es.flatMap Event.made).countP p = es.countP q := by
  induction es with
  | nil => rfl
  | cons e es ih => rw [List.flatMap_cons, List.countP_append, List.countP_cons, h, ih, Nat.add_comm]

/-- One contract and one bride for a creation, one alteration for an Add. -/
theorem countP_made_event (e : Event D) :
    e.made.countP (fun p => p.1 = "contracts") = (if e.confirmsCreation then 1 else 0) ∧
    e.made.countP (fun p => p.1 = "brides") = (if e.confirmsCreation then 1 else 0) ∧
    e.made.countP (fun p => p.1 = "alterations") = if e.confirmsAdd then 1 else 0 := by
  cases e with
  | app e =>
    cases e with
    | act d a => cases a <;> simp [Event.made, Event.confirmsCreation, Event.confirmsAdd]
    | _ => exact ⟨rfl, rfl, rfl⟩
  | _ => exact ⟨rfl, rfl, rfl⟩

theorem tally_opens {t : State D} (h : Opens t) : Tally t.world.net [] t.world where
  held c k := by simp
  nodup := List.nodup_nil
  fresh c k hk := by cases hk
  known c k hk := by
    cases hk with
    | inl hk => exact h.known c k hk
    | inr hk =>
      obtain ⟨d, w, hw, -⟩ := hk
      rw [h.quiet.2 d] at hw
      cases hw
  named u r hr := by
    cases hr with
    | inl hr => exact h.named u r hr
    | inr hr =>
      obtain ⟨d, w, hw, -⟩ := hr
      rw [h.quiet.2 d] at hw
      cases hw
  shown d := by
    obtain ⟨pickerDate, now, currentDate, originalDate, hd⟩ := h.device d
    rw [hd]
    exact ⟨fun r hr => (by cases hr), fun vc hvc => (by cases hvc)⟩

variable [DecidableEq D]

theorem held_setValues_iff :
    Held (n.setValues d ws) c k ↔ Held n c k ∨ (c, k) ∈ ws.filterMap stored := by
  simp only [Held, List.mem_filterMap]
  constructor
  · intro h
    rcases h with h | ⟨d', w, hw, hs⟩
    · exact Or.inl (Or.inl h)
    · cases Net.mem_outbox_setValues hw with
      | inl hw => exact Or.inl (Or.inr ⟨d', w, hw, hs⟩)
      | inr hw => exact Or.inr ⟨w, hw, hs⟩
  · intro h
    rcases h with (h | ⟨d', w, hw, hs⟩) | ⟨w, hw, hs⟩
    · exact Or.inl h
    · exact Or.inr ⟨d', w, Net.mem_outbox_setValues_of_mem hw, hs⟩
    · exact Or.inr ⟨d, w, Net.mem_outbox_setValues_self hw, hs⟩

/-- A write that arrives is on its way no longer, and its record is stored. -/
theorem held_deliver_iff (h : n.deliver d = some n') : Held n' c k ↔ Held n c k := by
  obtain ⟨w, ws, hd, rfl⟩ := Net.deliver_eq h
  simp only [Held, has_apply_iff]
  constructor
  · intro h
    rcases h with (h | hs) | ⟨d', w', hw', hs⟩
    · exact Or.inl h
    · exact Or.inr ⟨d, w, by simp [hd], hs⟩
    · exact Or.inr ⟨d', w', Net.mem_outbox_deliver hd hw', hs⟩
  · intro h
    rcases h with h | ⟨d', w', hw', hs⟩
    · exact Or.inl (Or.inl h)
    · cases Net.mem_outbox_or_first hd hw' with
      | inl hw => exact Or.inl (Or.inr (hw ▸ hs))
      | inr hw' => exact Or.inr ⟨d', w', hw', hs⟩

/-- New writes count once, and each is for a key that nothing had. -/
theorem tally_writes {newKeys : List String} {more : List (String × String)}
    (h : Tally start made s) (hnew : s.net.Fresh newKeys) (hmore : ws.filterMap stored = more)
    (hnodup : more.Nodup) (hkeys : ∀ c k, (c, k) ∈ more → k ∈ newKeys)
    (hnamed : ∀ w ∈ ws, ∀ u r, w.recordFor u = some r → r.uid = u)
    (hv : Shown s.net v) :
    Tally start (made ++ more) (s.set ((s.net.allocate newKeys).setValues d ws) d v) := by
  have hfree : ∀ c k, (c, k) ∈ more → ¬ Held s.net c k :=
    fun c k hk hheld => (hnew.2 k (hkeys c k hk)).2 (h.known c k hheld)
  have hheld : ∀ c k, Held ((s.net.allocate newKeys).setValues d ws) c k ↔
      Held s.net c k ∨ (c, k) ∈ more := fun c k => hmore ▸ held_setValues_iff
  have hmono : ∀ c k, Held s.net c k → Held ((s.net.allocate newKeys).setValues d ws) c k :=
    fun c k hk => (hheld c k).mpr (Or.inl hk)
  constructor
  · intro c k
    rw [List.mem_append, ← or_assoc, ← h.held]
    exact hheld c k
  · refine List.nodup_append'.mpr ⟨h.nodup, hnodup, fun p hp hp' => ?_⟩
    exact hfree p.1 p.2 hp' ((h.held p.1 p.2).mpr (Or.inr hp))
  · intro c k hk hstart
    cases List.mem_append.mp hk with
    | inl hk => exact h.fresh c k hk hstart
    | inr hk => exact hfree c k hk ((h.held c k).mpr (Or.inl hstart))
  · intro c k hk
    cases (hheld c k).mp hk with
    | inl hk => exact List.mem_append_left _ (h.known c k hk)
    | inr hk => exact List.mem_append_right _ (hkeys c k hk)
  · intro u r hr
    cases Net.recordValue_setValues hr with
    | inl hr => exact h.named u r hr
    | inr hr =>
      obtain ⟨w, hw, hr⟩ := hr
      exact hnamed w hw u r hr
  · exact App.forall_device_set (P := Shown _) (fun d' => (h.shown d').mono hmono) (hv.mono hmono)

theorem shown_set (h : ∀ d, Shown s.net (s.device d)) (hv : Shown s.net v) :
    ∀ d', Shown s.net (Function.update s.device d v d') :=
  App.forall_device_set (P := Shown s.net) (n := s.net) h hv

/-- An edit stores again what is held already. -/
theorem tally_edited {r : AlterationStruct} (h : Tally start made s)
    (hr : Held s.net "alterations" r.uid) (hv : Shown s.net v) :
    Tally start made (s.set (s.net.setValues d [.alteration r.uid r]) d v) := by
  refine tally_same (n := s.net.setValues d [.alteration r.uid r]) h (fun c k => ?_) rfl
    (fun u r' hr' => ?_) (shown_set h.shown hv)
  · rw [held_setValues_iff]
    simp only [List.filterMap_cons, stored, List.filterMap_nil, List.mem_singleton,
      Prod.mk.injEq, or_iff_left_iff_imp, and_imp]
    rintro rfl rfl
    exact hr
  · cases Net.recordValue_setValues hr' with
    | inl hr' => exact h.named u r' hr'
    | inr hr' =>
      obtain ⟨w, hw, hw'⟩ := hr'
      obtain rfl := List.mem_singleton.mp hw
      simp only [Write.recordFor] at hw'
      split at hw'
      · rename_i hu
        cases hw'
        exact hu
      · cases hw'

theorem tally_alteration {key : String} {r : AlterationStruct} (h : Tally start made s)
    (hnew : s.net.Fresh [key]) (hr : r.uid = key) (hv : Shown s.net v) :
    Tally start (made ++ [("alterations", key)])
      (s.set ((s.net.allocate [key]).setValues d [.alteration key r]) d v) := by
  refine tally_writes h hnew rfl (List.nodup_singleton _) ?_ ?_ hv
  · intro c k hk
    cases List.mem_singleton.mp hk
    exact List.mem_singleton_self key
  · intro w hw u r' hr'
    obtain rfl := List.mem_singleton.mp hw
    simp only [Write.recordFor] at hr'
    split at hr'
    · rename_i hu
      cases hr'
      rw [hr, hu]
    · cases hr'

theorem tally_app {e : App.Event D} (h : Tally start made s) (hstep : App.Steps s e s') :
    Tally start (made ++ Event.made (.app e)) s' := by
  cases hstep with
  | screens d a v hact =>
    have hmade : Event.made (.app (.act d a)) = [] := by
      cases a <;> first | rfl | cases hact
    rw [hmade, List.append_nil]
    exact tally_same (n := s.net) h (fun _ _ => Iff.rfl) rfl h.named
      (shown_set h.shown (shown_act (h.shown d) hact))
  | load d u k r hload =>
    have hvalue := Net.recordValue_view hload
    have hv : Shown s.net { s.device d with loaded := (s.device d).loaded ++ [r] } := by
      refine ⟨fun r' hr' => ?_, (h.shown d).2⟩
      cases List.mem_append.mp hr' with
      | inl hr' => exact (h.shown d).1 r' hr'
      | inr hr' =>
        obtain rfl := List.mem_singleton.mp hr'
        rw [h.named u r' hvalue]
        exact held_of_recordValue hvalue
    refine (List.append_nil made).symm ▸ ?_
    exact tally_same (n := s.net) h (fun _ _ => Iff.rfl) rfl h.named (shown_set h.shown hv)
  | created d keys now hpresented hfresh =>
    refine tally_writes h hfresh rfl (by simp [Event.made]) ?_ ?_ (h.shown d)
    · simp only [Event.made, List.mem_cons, Prod.mk.injEq, List.not_mem_nil, or_false,
        CreateContractVC.Keys.toList]
      intro c k hk
      rcases hk with ⟨-, rfl⟩ | ⟨-, rfl⟩ | ⟨-, rfl⟩ | ⟨-, rfl⟩ <;> simp
    · intro w hw u r hr
      rw [(CreateContractVC.createdWrites_cases hw).1 u] at hr
      cases hr
  | addTrap d key vc hadd hpresented hfresh hempty =>
    exact tally_alteration h hfresh rfl (h.shown d)
  | added d key vc hadd hpresented hfresh hcontract =>
    have hv : Shown s.net { s.device d with
        add := none
        statics := vc.appendToCurrent key (s.device d).statics } := h.shown d
    have htally := tally_alteration (d := d) (r := { vc.myAlterationStruct with
      contractUID := (s.device d).statics.contract.uid
      uid := key }) h hfresh rfl hv
    exact ⟨htally.held, htally.nodup, htally.fresh, htally.known, htally.named, htally.shown⟩
  | edited d vc w hedit hpresented hw =>
    obtain ⟨r, rfl, huid, -⟩ := EditAlterationVC.confirmHandler_eq hw
    have hheld : Held s.net "alterations" r.uid := huid ▸ (h.shown d).2 vc hedit
    refine (List.append_nil made).symm ▸ ?_
    exact tally_edited h hheld ⟨(h.shown d).1, fun vc hvc => by cases hvc⟩
  | editTrap d =>
    refine (List.append_nil made).symm ▸ ?_
    exact tally_same (n := s.net) h (fun _ _ => Iff.rfl) rfl h.named
      (shown_set h.shown (h.shown d))
  | take i k net hnet =>
    obtain ⟨d, a, -, rfl⟩ := Net.take_eq hnet
    refine (List.append_nil made).symm ▸ ?_
    exact ⟨h.held, h.nodup, h.fresh, h.known, h.named, h.shown⟩
  | callback i net hnet =>
    obtain ⟨d, a, value, -, rfl⟩ := Net.callback_eq hnet
    have hnone : ∀ w ∈ (a.callback value).toList, stored w = none ∧ ∀ u, w.recordFor u = none := by
      intro w hw
      obtain ⟨seen, -, rfl⟩ := ListAppend.callback_eq (Option.mem_toList.mp hw)
      exact ⟨rfl, fun _ => rfl⟩
    refine (List.append_nil made).symm ▸ ?_
    have herased : Tally start made
        { s with net := { s.net with reads := s.net.reads.eraseIdx i } } :=
      ⟨h.held, h.nodup, h.fresh, h.known, h.named, h.shown⟩
    refine tally_same (n := Net.setValues { s.net with reads := s.net.reads.eraseIdx i } d
      (a.callback value).toList) herased (fun c k => ?_) rfl (fun u r hr => ?_) h.shown
    · rw [held_setValues_iff, List.filterMap_eq_nil_iff.mpr fun w hw => (hnone w hw).1]
      simp only [List.not_mem_nil, or_false]
    · cases Net.recordValue_setValues hr with
      | inl hr => exact h.named u r hr
      | inr hr =>
        obtain ⟨w, hw, hr⟩ := hr
        rw [(hnone w hw).2 u] at hr
        cases hr
  | deliver d net hnet =>
    have hkeys : net.keys = s.net.keys := by
      obtain ⟨w, ws, -, rfl⟩ := Net.deliver_eq hnet
      rfl
    refine (List.append_nil made).symm ▸ ?_
    exact tally_same h (fun _ _ => held_deliver_iff hnet) hkeys
      (fun u r hr => h.named u r (Net.recordValue_deliver hnet hr)) h.shown

/-- Without a confirming answer nothing gets on its way. -/
theorem quiet_app {e : App.Event D} (h : Quiet s.net) (hstep : App.Steps s e s')
    (hconfirms : (Event.app e).confirms = false) :
    s'.net.server = s.net.server ∧ Quiet s'.net := by
  cases hstep with
  | screens | load => exact ⟨rfl, h⟩
  | created | addTrap | added | edited | editTrap => cases hconfirms
  | take i k net hnet =>
    obtain ⟨d, a, hi, -⟩ := Net.take_eq hnet
    rw [h.1] at hi
    cases hi
  | callback i net hnet =>
    obtain ⟨d, a, value, hi, -⟩ := Net.callback_eq hnet
    rw [h.1] at hi
    cases hi
  | deliver d net hnet =>
    obtain ⟨w, ws, hd, -⟩ := Net.deliver_eq hnet
    rw [h.2 d] at hd
    cases hd

theorem length_app {e : App.Event D} (hstep : App.Steps s e s')
    (hconfirms : (Event.app e).confirms = false) (hcarries : (Event.app e).carriesOn = false) :
    (∀ d, (s'.net.outbox d).length ≤ (s.net.outbox d).length) ∧
      s'.net.reads.length ≤ s.net.reads.length := by
  cases hstep with
  | screens | load => exact ⟨fun _ => le_refl _, le_refl _⟩
  | created | addTrap | added | edited | editTrap => cases hconfirms
  | take i k net hnet =>
    obtain ⟨d, a, -, rfl⟩ := Net.take_eq hnet
    exact ⟨fun _ => le_refl _, by simp⟩
  | callback => cases hcarries
  | deliver d net hnet =>
    obtain ⟨w, ws, hd, rfl⟩ := Net.deliver_eq hnet
    refine ⟨fun d' => ?_, le_refl _⟩
    by_cases hd' : d' = d
    · subst hd'
      simp [hd]
    · simp [hd']

variable {t t' : State D} {e : Event D} {es : List (Event D)}

theorem step_app_eq {e : App.Event D} (h : step t (.app e) = some t') :
    App.Steps t.world e t'.world ∧ t'.brideDialog = t.brideDialog := by
  obtain ⟨world, hworld, rfl⟩ := Option.map_eq_some_iff.mp h
  exact ⟨App.steps_of_step hworld, rfl⟩

theorem step_answer_eq {confirm : Bool} (h : step t (.answerBride d confirm) = some t') :
    t.brideDialog d = true ∧ t'.world = t.world := by
  simp only [step] at h
  split at h
  · rename_i hdialog
    exact ⟨hdialog, by rw [← Option.some.inj h]⟩
  · cases h

/-- The dialog comes up with its bride already on the way. -/
theorem begins_addBride {vc : AddBrideVC} {key : String}
    (h : step t (.addBride d vc key) = some t') : Begins t (.addBride d vc key) := by
  refine ⟨t', h, Or.inl ⟨d, ?_⟩⟩
  simp only [step] at h
  split at h
  · cases h
  · obtain ⟨world, hworld, rfl⟩ := Option.map_eq_some_iff.mp h
    simp only [addBride] at hworld
    split at hworld
    · cases hworld
      simp only [addRecord]
      split <;> simp [World.set, Net.setValues, Net.observe, Net.allocate]
    · cases hworld

theorem not_begins (hask : e.asksForBride = false) (hconfirms : e.confirms = false)
    (hcarries : e.carriesOn = false) : ¬ Begins t e := by
  intro hbegins
  obtain ⟨t', hstep, hmore⟩ := hbegins
  cases e with
  | app e =>
    obtain ⟨houtbox, hreads⟩ := length_app (step_app_eq hstep).1 hconfirms hcarries
    cases hmore with
    | inl hmore =>
      obtain ⟨d, hd⟩ := hmore
      exact absurd hd (not_lt.mpr (houtbox d))
    | inr hmore => exact absurd hmore (not_lt.mpr hreads)
  | addBride => cases hask
  | answerBride d confirm =>
    rw [(step_answer_eq hstep).2] at hmore
    simp at hmore

theorem quiet_run (h : Quiet t.world.net) (hrun : run step t es = some t')
    (hask : ∀ e ∈ es, e.asksForBride = false) (hconfirms : ∀ e ∈ es, e.confirms = false) :
    t'.world.net.server = t.world.net.server ∧ Quiet t'.world.net := by
  induction es generalizing t with
  | nil =>
    obtain rfl := run_nil_eq.mp hrun
    exact ⟨rfl, h⟩
  | cons e es ih =>
    obtain ⟨m, he, hes⟩ := run_cons_eq.mp hrun
    have hm : m.world.net.server = t.world.net.server ∧ Quiet m.world.net := by
      cases e with
      | app e => exact quiet_app h (step_app_eq he).1 (hconfirms _ (List.mem_cons_self ..))
      | addBride => cases hask _ (List.mem_cons_self ..)
      | answerBride d confirm =>
        rw [(step_answer_eq he).2]
        exact ⟨rfl, h⟩
    obtain ⟨hserver, hquiet⟩ := ih hm.2 hes (fun e he => hask e (List.mem_cons_of_mem _ he))
      fun e he => hconfirms e (List.mem_cons_of_mem _ he)
    exact ⟨hserver.trans hm.1, hquiet⟩

theorem tally_run (h : Tally start made t.world) (hdialog : ∀ d, t.brideDialog d = false)
    (hrun : run step t es = some t') (hask : ∀ e ∈ es, e.asksForBride = false) :
    Tally start (made ++ es.flatMap Event.made) t'.world ∧
      es.countP (·.confirmsBride) = 0 := by
  induction es generalizing t made with
  | nil =>
    obtain rfl := run_nil_eq.mp hrun
    exact ⟨by simpa using h, rfl⟩
  | cons e es ih =>
    obtain ⟨m, he, hes⟩ := run_cons_eq.mp hrun
    cases e with
    | app e =>
      obtain ⟨hsteps, hsame⟩ := step_app_eq he
      obtain ⟨htally, hcount⟩ := ih (tally_app h hsteps) (fun d => hsame ▸ hdialog d) hes
        fun e he => hask e (List.mem_cons_of_mem _ he)
      refine ⟨by simpa only [List.flatMap_cons, List.append_assoc] using htally, ?_⟩
      rw [List.countP_cons, hcount]
      rfl
    | addBride => cases hask _ (List.mem_cons_self ..)
    | answerBride d confirm =>
      have hup := (step_answer_eq he).1
      rw [hdialog d] at hup
      cases hup

/-- The dialogs hold what they promise in the runs in which none asks to confirm
a bride, and in no other. -/
theorem confirmed_iff (h : Opens t) (hrun : run step t es = some t') :
    Confirmed t es t' ↔ ∀ e ∈ es, e.asksForBride = false := by
  constructor
  · intro hconfirmed e he
    obtain ⟨m, m', hm, hbegins⟩ := along_of_mem hrun hconfirmed.begun he
    cases e with
    | addBride d vc key =>
      rcases hbegins (begins_addBride hm) with hfalse | hfalse <;> cases hfalse
    | _ => rfl
  · intro hask
    obtain ⟨htally, hbrides⟩ := tally_run (tally_opens h) h.dialog hrun hask
    rw [List.nil_append] at htally
    refine ⟨?_, quiet_run h.quiet hrun hask, ?_, ?_, ?_⟩
    · refine along_of_forall fun m e he hbegins => ?_
      by_contra hnot
      simp only [not_or, Bool.not_eq_true] at hnot
      exact not_begins (hask e he) hnot.1 hnot.2 hbegins
    · rw [ncard_added htally, countP_made fun e => (countP_made_event e).1]
    · rw [ncard_added htally, countP_made fun e => (countP_made_event e).2.2]
    · rw [ncard_added htally, countP_made fun e => (countP_made_event e).2.1, hbrides,
        Nat.add_zero]

def opened : State Unit := ⟨Integrity.justOpened, fun _ => false⟩

theorem opens_opened : Opens opened where
  quiet := ⟨rfl, fun _ => rfl⟩
  known c k h := by
    obtain ⟨u, hu⟩ := h
    cases hu
  named u r h := by cases h
  device _ := ⟨0, 0, 0, 0, rfl⟩
  dialog _ := rfl

theorem confirmed_hemAdded : ∃ t, run step opened (Integrity.hemAdded.map .app) = some t ∧
    Confirmed opened (Integrity.hemAdded.map .app) t := by
  have hdone : (run step opened (Integrity.hemAdded.map .app)).isSome = true := by
    decide +kernel
  obtain ⟨t, ht⟩ := Option.isSome_iff_exists.mp hdone
  have hask : ∀ e ∈ Integrity.hemAdded.map Event.app, e.asksForBride = false := by
    decide +kernel
  exact ⟨t, ht, (confirmed_iff opens_opened ht).mpr hask⟩

/-- Sue asks to add Ann and cancels. -/
def annCancelled : List (Event Unit) := [
  .addBride () ⟨"s", "Ann", "Lace", "ann@home"⟩ "b", .answerBride () false, .app (.deliver ())]

/-- Nothing was confirmed, and Ann is stored. -/
theorem not_confirmed_annCancelled : ∃ t, run step opened annCancelled = some t ∧
    (∀ e ∈ annCancelled, e.confirms = false) ∧
    (brideAt t.world.net.server "b").map (·.firstName) = some "Ann" ∧
    ¬ Confirmed opened annCancelled t := by
  have hdone : ∃ t ∈ run step opened annCancelled,
      (brideAt t.world.net.server "b").map (·.firstName) = some "Ann" := by
    decide +kernel
  obtain ⟨t, ht, hann⟩ := hdone
  have hcancelled : ∀ e ∈ annCancelled, e.confirms = false := by
    decide +kernel
  refine ⟨t, ht, hcancelled, hann, fun hconfirmed => ?_⟩
  rw [(hconfirmed.cancelled hcancelled).1] at hann
  cases hann

end Pincushion.Confirmations
