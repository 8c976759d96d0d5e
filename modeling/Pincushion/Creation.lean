import Pincushion.Integrity

/-! What a created contract points at. The singleton that should hold the uid of
the bride is only ever set to the empty text, and no bride has that key. -/
namespace Pincushion.Creation
open KeyTree SwiftNumber Structs Singletons FirebaseHelpers AlterationScreens CreateContract
open Network Runs App Integrity
variable {D : Type*}

/-- The dress and the bride of the contract are stored and belong together, and
the bride has this name. -/
structure PointsAtBrideAndDress (db : Node) (k : Contract) (name : String) : Prop where
  dress : ∃ d, dressAt db k.dressUID = some d ∧ d.brideUID = k.brideUID
  bride : ∃ b, brideAt db k.brideUID = some b ∧ b.uid = k.brideUID ∧
    b.specialist = k.specialistUID ∧ b.firstName = name

/-- A write that stores no bride under the empty key and no contract with another bride. -/
def Unlinked (w : Write) : Prop :=
  w.node ≠ ["brides", ""] ∧ ∀ c k, w = .contract c k → k.brideUID = ""

def brideUIDAt (db : Node) (c : String) : Option String :=
  asString ((db.sub ["contracts", c]).sub ["brideUID"])

theorem brideUIDAt_of_contractAt {db : Node} {c : String} {k : Contract}
    (h : contractAt db c = some k) : brideUIDAt db c = some k.brideUID := by
  simp only [contractAt, Contract.decode, Option.bind_eq_bind, Option.bind_eq_some_iff] at h
  obtain ⟨uid, -, dress, -, bride, hbride, specialist, -, date, -, alterations, -, hk⟩ := h
  cases hk
  exact hbride

theorem brideUIDAt_apply {db : Node} {w : Write} (hw : Unlinked w) {c b : String}
    (h : brideUIDAt (w.apply db) c = some b) : brideUIDAt db c = some b ∨ b = "" := by
  by_cases hnode : w.node = ["contracts", c]
  · cases w with
    | contract c' k =>
      right
      obtain rfl : c' = c := by simpa [Write.node] using hnode
      simp only [brideUIDAt, Write.apply, Write.path, Write.node, Write.value, sub_setValue_self,
        Contract.encode, sub_keyed] at h
      rw [← hw.2 c' k rfl]
      exact (Option.some.inj h).symm
    | list t l =>
      left
      obtain rfl : t = .alterations c := ListTarget.node_injective hnode
      have hsub := sub_apply_list db (.alterations c) l
      simp only [ListTarget.node, ListTarget.field] at hsub
      rwa [brideUIDAt, hsub, sub_setValue_field (by decide)] at h
    | _ => simp [Write.node] at hnode
  · left
    rwa [brideUIDAt, sub_apply_ne w db hnode] at h

/-- No bride is stored under the empty key, and every contract points there. -/
structure NoBride (s : World D) : Prop where
  singleton : ∀ d, (s.device d).statics.brideUID = ""
  queued : ∀ d, ∀ w ∈ s.net.outbox d, Unlinked w
  reads : ∀ p ∈ s.net.reads, ∃ c, p.append.target = .alterations c
  bride : brideAt s.net.server "" = none
  contract : ∀ c b, brideUIDAt s.net.server c = some b → b = ""

theorem noBride_start {s : World D} (h : Starts s) : NoBride s := by
  obtain ⟨hnet, hdevice⟩ := h
  have hstatics : ∀ d, (s.device d).statics.brideUID = "" := by
    intro d
    obtain ⟨pickerDate, now, currentDate, originalDate, hd⟩ := hdevice d
    rw [hd]
    rfl
  refine ⟨hstatics, ?_, ?_, ?_, ?_⟩ <;> rw [hnet]
  · intro d w hw
    cases hw
  · intro p hp
    cases hp
  · rfl
  · intro c b hb
    cases hb

theorem brideUID_act {v v' : Device} {a : Action} (h : v.statics.brideUID = "")
    (hact : v.act a = some v') : v'.statics.brideUID = "" := by
  cases acts_of_act hact with
  | signOutConfirmed => rfl
  | _ => exact h

variable [DecidableEq D] {s s' : World D} {e : Event D} {d : D} {net : Net D} {v : Device}

theorem unlinked_created {vc : CreateContractVC} {g : Statics} {k : CreateContractVC.Keys}
    {now : Date} (hg : g.brideUID = "") (hk : k.bride ≠ "") :
    ∀ w ∈ vc.createdWrites g k now, Unlinked w := by
  intro w hw
  simp only [CreateContractVC.createdWrites, List.mem_cons, List.not_mem_nil, or_false] at hw
  obtain rfl | rfl | rfl | rfl := hw
  · exact ⟨by simp [CreateContractVC.makeDress, addDressToFBDB, Write.node],
      fun _ _ h => by cases h⟩
  · refine ⟨by simp [CreateContractVC.makeContract, addContractToFBDB, Write.node], ?_⟩
    intro c k' h
    cases h
    exact hg
  · exact ⟨by simp [addBrideToFBDB, Write.node, hk], fun _ _ h => by cases h⟩
  · exact ⟨by simp [addMeasurementToFBDB, Write.node], fun _ _ h => by cases h⟩

theorem queued_setValues {n : Net D} {ws : List Write} (h : ∀ d, ∀ w ∈ n.outbox d, Unlinked w)
    (hws : ∀ w ∈ ws, Unlinked w) : ∀ d', ∀ w ∈ (n.setValues d ws).outbox d', Unlinked w := by
  intro d' w hw
  cases Net.mem_outbox_setValues hw with
  | inl hw => exact h d' w hw
  | inr hw => exact hws w hw

theorem unlinked_alteration (u : String) (r : AlterationStruct) :
    ∀ w ∈ [Write.alteration u r], Unlinked w := by
  intro w hw
  obtain rfl := List.mem_singleton.mp hw
  exact ⟨by simp [Write.node], fun _ _ h => by cases h⟩

/-- A device acts: its writes join its queue, and the server is as it was. -/
theorem noBride_set (h : NoBride s) (hv : v.statics.brideUID = "")
    (hqueued : ∀ d, ∀ w ∈ net.outbox d, Unlinked w)
    (hreads : ∀ p ∈ net.reads, ∃ c, p.append.target = .alterations c)
    (hserver : net.server = s.net.server) : NoBride (s.set net d v) where
  singleton := forall_device_set (P := fun v => v.statics.brideUID = "") h.singleton hv
  queued := hqueued
  reads := hreads
  bride := by
    rw [← h.bride, ← hserver]
    rfl
  contract c b hb := by
    refine h.contract c b ?_
    rw [← hserver]
    exact hb

theorem noBride_step (h : NoBride s) (hstep : Steps s e s') : NoBride s' := by
  cases hstep with
  | screens d a v hact =>
    exact noBride_set h (brideUID_act (h.singleton d) hact) h.queued h.reads rfl
  | load d u k r hload => exact noBride_set h (h.singleton d) h.queued h.reads rfl
  | created d keys now hpresented hfresh =>
    have hkey : keys.bride ≠ "" := (hfresh.2 keys.bride (by simp [CreateContractVC.Keys.toList])).1
    exact noBride_set h (h.singleton d)
      (queued_setValues h.queued (unlinked_created (h.singleton d) hkey)) h.reads rfl
  | addTrap d key vc hadd hpresented hfresh hempty =>
    exact noBride_set h (h.singleton d)
      (queued_setValues h.queued (unlinked_alteration key _)) h.reads rfl
  | added d key vc hadd hpresented hfresh hcontract =>
    refine noBride_set h (h.singleton d)
      (queued_setValues h.queued (unlinked_alteration key _)) (fun p hp => ?_) rfl
    cases List.mem_append.mp hp with
    | inl hp => exact h.reads p hp
    | inr hp =>
      obtain rfl := List.mem_singleton.mp hp
      exact ⟨_, rfl⟩
  | edited d vc w hedit hpresented hw =>
    obtain ⟨r, rfl, -⟩ := EditAlterationVC.confirmHandler_eq hw
    exact noBride_set h (h.singleton d)
      (queued_setValues h.queued (unlinked_alteration r.uid r)) h.reads rfl
  | editTrap d => exact noBride_set h (h.singleton d) h.queued h.reads rfl
  | take i k net hnet =>
    have hreads : ∀ p ∈ net.reads, ∃ c, p.append.target = .alterations c := by
      intro p hp
      obtain ⟨q, hq, happend⟩ := Net.mem_reads_take hnet hp
      exact happend ▸ h.reads q hq
    obtain ⟨d, a, hi, rfl⟩ := Net.take_eq hnet
    exact ⟨h.singleton, h.queued, hreads, h.bride, h.contract⟩
  | callback i net hnet =>
    obtain ⟨d, a, value, hi, rfl⟩ := Net.callback_eq hnet
    refine ⟨h.singleton, queued_setValues h.queued fun w hw => ?_,
      fun p hp => h.reads p (List.mem_of_mem_eraseIdx hp), h.bride, h.contract⟩
    obtain ⟨seen, -, rfl⟩ := ListAppend.callback_eq (Option.mem_toList.mp hw)
    obtain ⟨c, hc⟩ := h.reads _ (List.mem_of_getElem? hi)
    have htarget : a.target = .alterations c := hc
    exact ⟨by simp [Write.node, htarget, ListTarget.node], fun _ _ h => by cases h⟩
  | deliver d net hnet =>
    obtain ⟨w, ws, hd, rfl⟩ := Net.deliver_eq hnet
    have hw : Unlinked w := h.queued d w (by simp [hd])
    refine ⟨h.singleton, fun d' w' hw' => h.queued d' w' (Net.mem_outbox_deliver hd hw'), h.reads,
      ?_, fun c b hb => ?_⟩
    · rw [← h.bride]
      exact congrArg Bride.decode (sub_apply_ne w s.net.server hw.1)
    · cases brideUIDAt_apply hw hb with
      | inl hb => exact h.contract c b hb
      | inr hb => exact hb

/-- No contract that is ever stored points at a bride. -/
theorem not_pointsAtBrideAndDress (h : Reachable step Starts s) {c : String} {k : Contract}
    (hk : contractAt s.net.server c = some k) (name : String) :
    ¬ PointsAtBrideAndDress s.net.server k name := by
  have hs : NoBride s :=
    reachable_of_steps NoBride (fun _ => noBride_start) (fun _ _ _ => noBride_step) h
  intro hpoints
  obtain ⟨b, hb, -⟩ := hpoints.bride
  rw [hs.contract c _ (brideUIDAt_of_contractAt hk), hs.bride] at hb
  cases hb

theorem ann_not_pointed_at : ∃ s k, run step justOpened annCreated = some s ∧
    contractAt s.net.server "c" = some k ∧ ¬ PointsAtBrideAndDress s.net.server k "Ann" := by
  have hstored : ((run step justOpened annCreated).bind fun s =>
      contractAt s.net.server "c").isSome = true := by
    decide +kernel
  obtain ⟨k, hbind⟩ := Option.isSome_iff_exists.mp hstored
  obtain ⟨s, hs, hk⟩ := Option.bind_eq_some_iff.mp hbind
  have hreach : Reachable step Starts s := ⟨justOpened, _, starts_justOpened, hs⟩
  exact ⟨s, k, hs, hk, not_pointsAtBrideAndDress hreach hk "Ann"⟩

/-- Ann is stored under "b", and the contract says that its bride is "". -/
theorem ann_contract_without_bride : ∃ s k, run step justOpened annCreated = some s ∧
    contractAt s.net.server "c" = some k ∧
    (brideAt s.net.server "b").map (·.firstName) = some "Ann" ∧
    ¬ ∃ name, PointsAtBrideAndDress s.net.server k name := by
  have hstored : ((run step justOpened annCreated).bind fun s =>
      (contractAt s.net.server "c").map fun k =>
        (brideAt s.net.server k.brideUID, (brideAt s.net.server "b").map (·.firstName))) =
          some (none, some "Ann") := by
    decide +kernel
  obtain ⟨s, hs, hmap⟩ := Option.bind_eq_some_iff.mp hstored
  obtain ⟨k, hk, hbrides⟩ := Option.map_eq_some_iff.mp hmap
  obtain ⟨hnone, hann⟩ := Prod.mk.inj hbrides
  refine ⟨s, k, hs, hk, hann, ?_⟩
  rintro ⟨name, hpoints⟩
  obtain ⟨b, hb, -⟩ := hpoints.bride
  rw [hnone] at hb
  cases hb

end Pincushion.Creation
