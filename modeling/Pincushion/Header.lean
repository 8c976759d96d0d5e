import Pincushion.Integrity

/-! The header of the printed contract. It is taken from three singletons, and a
creation, an Add, an edit and a sign-out each touch only some of them. -/
namespace Pincushion.Header
open KeyTree SwiftNumber Structs Singletons FirebaseHelpers AlterationScreens CreateContract
open Network Runs App Integrity
variable {D : Type*}

/-- The singletons hold what the records of one creation hold. The measurement is
compared as it was written, for its sizes need not be finite. -/
structure HeaderOf (g : Statics) (keys : CreateContractVC.Keys) (db : Node) : Prop where
  uid : g.contract.uid = keys.contract
  contract : ∃ k, contractAt db keys.contract = some k ∧ k.dressUID = g.contract.dressUID ∧
    k.brideUID = g.contract.brideUID ∧ k.specialistUID = g.contract.specialistUID ∧
    k.eventDate = g.contract.eventDate
  bride : ∃ b, brideAt db keys.bride = some b ∧ b.uid = keys.bride ∧ b.firstName = g.fullName
  measurement : ∃ m : Measurement, db.sub ["measurements", keys.measurement] = m.encode ∧
    m.bride = keys.bride ∧ (m.bust, m.waist, m.hip) = g.measurement

/-- If there is a current contract, a creation on this device has made it. -/
def HasHeader (past : List (Event D)) (d : D) (g : Statics) (db : Node) : Prop :=
  g.contract.uid ≠ "" →
    ∃ keys now, Event.act d (.createConfirmed keys now) ∈ past ∧ HeaderOf g keys db

/-- The keys that the creations on a device have got. -/
def Made (past : List (Event D)) (d : D) (k : String) : Prop :=
  ∃ keys now, Event.act d (.createConfirmed keys now) ∈ past ∧ k ∈ keys.toList

variable {past : List (Event D)} {s s' : World D} {e : Event D} {d d' : D} {k : String}
variable {g g' : Statics} {keys : CreateContractVC.Keys} {db db' : Node} {n : Net D} {v : Device}

theorem made_append : Made (past ++ [e]) d k ↔ Made past d k ∨ Made [e] d k := by
  simp only [Made, List.mem_append, or_and_right, exists_or]

/-- Only the device of a contract, a bride or a measurement ever writes it. -/
structure Apart (past : List (Event D)) (s : World D) : Prop where
  queued : ∀ d, ∀ w ∈ s.net.outbox d,
    (∃ u r, w = .alteration u r) ∨ ∃ c k, w.node = [c, k] ∧ Made past d k
  reads : ∀ p ∈ s.net.reads, ∃ c, p.append.target = .alterations c ∧ Made past p.device c
  current : ∀ d, (s.device d).statics.contract.uid = "" ∨
    Made past d (s.device d).statics.contract.uid
  original : ∀ d, (s.device d).statics.originalValues.uid = ""
  single : ∀ d d' k, Made past d k → Made past d' k → d = d'
  known : ∀ d k, Made past d k → k ∈ s.net.keys

theorem apart_start (h : Starts s) : Apart [] s := by
  obtain ⟨hnet, hdevice⟩ := h
  have hmade : ∀ d k, ¬ Made ([] : List (Event D)) d k := by
    intro d k hk
    obtain ⟨keys, now, hmem, -⟩ := hk
    cases hmem
  have hstatics : ∀ d, (s.device d).statics.contract.uid = "" ∧
      (s.device d).statics.originalValues.uid = "" := by
    intro d
    obtain ⟨pickerDate, now, currentDate, originalDate, hd⟩ := hdevice d
    rw [hd]
    exact ⟨rfl, rfl⟩
  refine ⟨?_, ?_, fun d => Or.inl (hstatics d).1, fun d => (hstatics d).2,
    fun d d' k hk => absurd hk (hmade d k), fun d k hk => absurd hk (hmade d k)⟩ <;> rw [hnet]
  · intro d w hw
    cases hw
  · intro p hp
    cases hp

theorem hasHeader_start (h : Starts s) (d : D) :
    HasHeader [] d (s.device d).statics (s.net.settled d) := by
  obtain ⟨pickerDate, now, currentDate, originalDate, hd⟩ := h.2 d
  rw [hd]
  exact fun huid => absurd rfl huid

/-- Any other event than a creation makes no keys. -/
theorem made_append_iff (h : ∀ d keys now, e ≠ .act d (.createConfirmed keys now)) :
    Made (past ++ [e]) d k ↔ Made past d k := by
  rw [made_append, or_iff_left_iff_imp]
  intro hk
  obtain ⟨keys, now, hmem, -⟩ := hk
  exact absurd (List.mem_singleton.mp hmem).symm (h d keys now)

theorem apart_append (h : Apart past s) (he : ∀ d keys now, e ≠ .act d (.createConfirmed keys now)) :
    Apart (past ++ [e]) s where
  queued := by simpa only [made_append_iff he] using h.queued
  reads := by simpa only [made_append_iff he] using h.reads
  current := by simpa only [made_append_iff he] using h.current
  original := h.original
  single := by simpa only [made_append_iff he] using h.single
  known := by simpa only [made_append_iff he] using h.known

theorem current_act {a : Action} (h : v.statics.contract.uid = "" ∨ Made past d v.statics.contract.uid)
    (horiginal : v.statics.originalValues.uid = "") {v' : Device} (hact : v.act a = some v') :
    (v'.statics.contract.uid = "" ∨ Made past d v'.statics.contract.uid) ∧
      v'.statics.originalValues.uid = "" := by
  cases acts_of_act hact with
  | signOutConfirmed => exact ⟨Or.inl horiginal, horiginal⟩
  | _ => exact ⟨h, horiginal⟩

theorem queued_alteration (u : String) (r : AlterationStruct) (past : List (Event D)) (d : D) :
    ∀ w ∈ [Write.alteration u r], (∃ u r, w = .alteration u r) ∨
      ∃ c k, w.node = [c, k] ∧ Made past d k := by
  intro w hw
  exact Or.inl ⟨u, r, List.mem_singleton.mp hw⟩

theorem node_of_createdWrites {vc : CreateContractVC} {now : Date} {w : Write}
    (hw : w ∈ vc.createdWrites g keys now) : ∃ c k, w.node = [c, k] ∧ k ∈ keys.toList := by
  simp only [CreateContractVC.createdWrites, List.mem_cons, List.not_mem_nil, or_false] at hw
  obtain rfl | rfl | rfl | rfl := hw
  · exact ⟨"dresses", keys.dress, rfl, by simp [CreateContractVC.Keys.toList]⟩
  · exact ⟨"contracts", keys.contract, rfl, by simp [CreateContractVC.Keys.toList]⟩
  · exact ⟨"brides", keys.bride, rfl, by simp [CreateContractVC.Keys.toList]⟩
  · exact ⟨"measurements", keys.measurement, rfl, by simp [CreateContractVC.Keys.toList]⟩

theorem made_created {now : Date} :
    Made (past ++ [.act d (.createConfirmed keys now)]) d' k ↔
      Made past d' k ∨ d' = d ∧ k ∈ keys.toList := by
  rw [made_append]
  refine or_congr_right ⟨fun hk => ?_, fun hk => ⟨keys, now, by rw [hk.1]; simp, hk.2⟩⟩
  obtain ⟨keys', now', hmem, hk⟩ := hk
  cases List.mem_singleton.mp hmem
  exact ⟨rfl, hk⟩

theorem contractAt_apply (db : Node) (c : String) (k : Contract) (h : k.alterations ≠ []) :
    contractAt ((Write.contract c k).apply db) c = some k := by
  simp only [contractAt, Write.apply, Write.path, Write.node, sub_setValue_self, Write.value]
  exact k.decode_encode h

theorem brideAt_apply (db : Node) (u : String) (b : Bride) (hm : b.measurements ≠ [])
    (hd : b.dresses ≠ []) : brideAt ((Write.bride u b).apply db) u = some b := by
  simp only [brideAt, Write.apply, Write.path, Write.node, sub_setValue_self, Write.value]
  exact b.decode_encode hm hd

/-- The store after a creation. -/
def afterCreation (vc : CreateContractVC) (g : Statics) (keys : CreateContractVC.Keys) (now : Date)
    (db : Node) : Node := (vc.createdWrites g keys now).foldl (fun db w => w.apply db) db

theorem contractAt_created (vc : CreateContractVC) (g : Statics) (keys : CreateContractVC.Keys)
    (now : Date) (db : Node) : contractAt (afterCreation vc g keys now db) keys.contract =
      some ⟨keys.contract, keys.dress, g.brideUID, vc.currentUserUID, vc.selectedDate, ["-1"]⟩ := by
  simp only [afterCreation, CreateContractVC.createdWrites, List.foldl_cons, List.foldl_nil]
  rw [contractAt, sub_apply_ne _ _ (by simp [addMeasurementToFBDB, Write.node]),
    sub_apply_ne _ _ (by simp [addBrideToFBDB, Write.node])]
  exact contractAt_apply _ _ _ (List.cons_ne_nil _ _)

theorem brideAt_created (vc : CreateContractVC) (g : Statics) (keys : CreateContractVC.Keys)
    (now : Date) (db : Node) : brideAt (afterCreation vc g keys now db) keys.bride =
      some ⟨vc.brideNameField, vc.brideNameField, "test@dot.com", keys.bride, vc.currentUserUID,
        ["-1"], ["-1"]⟩ := by
  simp only [afterCreation, CreateContractVC.createdWrites, List.foldl_cons, List.foldl_nil]
  rw [brideAt, sub_apply_ne _ _ (by simp [addMeasurementToFBDB, Write.node])]
  exact brideAt_apply _ _ _ (List.cons_ne_nil _ _) (List.cons_ne_nil _ _)

theorem measurement_created (vc : CreateContractVC) (g : Statics) (keys : CreateContractVC.Keys)
    (now : Date) (db : Node) :
    (afterCreation vc g keys now db).sub ["measurements", keys.measurement] =
      (⟨keys.bride, keys.measurement, now, vc.getMeasurements.1, vc.getMeasurements.2.1,
        vc.getMeasurements.2.2⟩ : Measurement).encode := by
  simp only [afterCreation, CreateContractVC.createdWrites, List.foldl_cons, List.foldl_nil]
  simp only [addMeasurementToFBDB, Write.apply, Write.path, Write.node, sub_setValue_self,
    Write.value]
  rfl

/-- A creation leaves its records and singletons in step. -/
theorem headerOf_created (vc : CreateContractVC) (g : Statics) (keys : CreateContractVC.Keys)
    (now : Date) (db : Node) :
    HeaderOf (vc.createdStatics g keys) keys (afterCreation vc g keys now db) where
  uid := rfl
  contract := ⟨_, contractAt_created vc g keys now db, rfl, rfl, rfl, rfl⟩
  bride := ⟨_, brideAt_created vc g keys now db, rfl, rfl⟩
  measurement := ⟨_, measurement_created vc g keys now db, rfl, rfl⟩

/-- The header stays while the contract changes in its list at most, and the
bride and the measurement not at all. -/
theorem hasHeader_append (h : HasHeader past d g db)
    (hcontract : ∀ c k, Made past d c → contractAt db c = some k →
      ∃ l, contractAt db' c = some { k with alterations := l })
    (hrest : ∀ c k, Made past d k → c = "brides" ∨ c = "measurements" →
      db'.sub [c, k] = db.sub [c, k]) : HasHeader (past ++ [e]) d g db' := by
  intro huid
  obtain ⟨keys, now, hmem, hheader⟩ := h huid
  have hmade : ∀ k ∈ keys.toList, Made past d k := fun k hk => ⟨keys, now, hmem, hk⟩
  refine ⟨keys, now, List.mem_append_left _ hmem, hheader.uid, ?_, ?_, ?_⟩
  · obtain ⟨k, hk, hfields⟩ := hheader.contract
    obtain ⟨l, hl⟩ := hcontract _ k (hmade _ (by simp [CreateContractVC.Keys.toList])) hk
    exact ⟨_, hl, hfields⟩
  · have hb := hrest "brides" _ (hmade keys.bride (by simp [CreateContractVC.Keys.toList]))
      (Or.inl rfl)
    simpa only [brideAt, hb] using hheader.bride
  · have hm := hrest "measurements" _
      (hmade keys.measurement (by simp [CreateContractVC.Keys.toList])) (Or.inr rfl)
    simpa only [hm] using hheader.measurement

theorem hasHeader_of_sub_eq (h : HasHeader past d g db)
    (hsub : ∀ c k, Made past d k → c = "contracts" ∨ c = "brides" ∨ c = "measurements" →
      db'.sub [c, k] = db.sub [c, k]) : HasHeader (past ++ [e]) d g db' := by
  refine hasHeader_append h (fun c k hc hk => ⟨k.alterations, ?_⟩) fun c k hk hcoll =>
    hsub c k hk (Or.inr hcoll)
  rw [contractAt, hsub "contracts" c hc (Or.inl rfl)]
  exact hk

theorem hasHeader_alteration {u : String} {r : AlterationStruct} (h : HasHeader past d g db) :
    HasHeader (past ++ [e]) d g ((Write.alteration u r).apply db) := by
  refine hasHeader_of_sub_eq h fun c k _ hc => sub_apply_ne _ _ ?_
  rcases hc with rfl | rfl | rfl <;> simp [Write.node]

/-- An append to a contract changes its list alone. -/
theorem hasHeader_list {c : String} {l : List String} (h : HasHeader past d g db) (hl : l ≠ []) :
    HasHeader (past ++ [e]) d g ((Write.list (.alterations c) l).apply db) := by
  refine hasHeader_append h (fun c' k _ hk => ?_) fun c' k _ hc => sub_apply_ne _ _ ?_
  · by_cases hc : c = c'
    · subst hc
      refine ⟨l, ?_⟩
      have hsub := sub_apply_list db (.alterations c) l
      simp only [ListTarget.node, ListTarget.field] at hsub
      rw [contractAt, hsub]
      exact Contract.decode_setAlterations hk hl
    · refine ⟨k.alterations, ?_⟩
      rw [contractAt, sub_apply_ne _ _ (by simpa [Write.node, ListTarget.node] using hc)]
      exact hk
  · rcases hc with rfl | rfl <;> simp [Write.node, ListTarget.node]

/-- The list in memory is no part of the header. -/
theorem HasHeader.of_eq (h : HasHeader past d g db)
    (hcontract : ∃ l, g'.contract = { g.contract with alterations := l })
    (hname : g'.fullName = g.fullName) (hsizes : g'.measurement = g.measurement) :
    HasHeader past d g' db := by
  obtain ⟨l, hl⟩ := hcontract
  intro huid
  rw [hl] at huid
  obtain ⟨keys, now, hmem, hheader⟩ := h huid
  refine ⟨keys, now, hmem, ?_, ?_, ?_, ?_⟩
  · rw [hl]
    exact hheader.uid
  · rw [hl]
    exact hheader.contract
  · rw [hname]
    exact hheader.bride
  · rw [hsizes]
    exact hheader.measurement

theorem hasHeader_act {a : Action} {v' : Device} (h : HasHeader past d v.statics db)
    (horiginal : v.statics.originalValues.uid = "") (hact : v.act a = some v') :
    HasHeader past d v'.statics db := by
  cases acts_of_act hact with
  | signOutConfirmed => exact fun huid => absurd horiginal huid
  | authState => exact h.of_eq ⟨_, rfl⟩ rfl rfl
  | _ => exact h

/-- What is made on one device is not written by another. -/
theorem node_ne_of_apart (h : Apart past s) (hd : d ≠ d') {c : String} (hk : Made past d k)
    (hc : c ≠ "alterations") : ∀ w ∈ s.net.outbox d', w.node ≠ [c, k] := by
  intro w hw hnode
  cases h.queued d' w hw with
  | inl halteration =>
    obtain ⟨u, r, rfl⟩ := halteration
    simp only [Write.node, List.cons.injEq] at hnode
    exact hc hnode.1.symm
  | inr hmade =>
    obtain ⟨c', k', hnode', hk'⟩ := hmade
    rw [hnode'] at hnode
    simp only [List.cons.injEq, and_true] at hnode
    exact hd (h.single d d' k hk (hnode.2 ▸ hk'))

variable [DecidableEq D]

theorem apart_set {net : Net D} (h : Apart past s)
    (hqueued : ∀ d, ∀ w ∈ net.outbox d,
      (∃ u r, w = .alteration u r) ∨ ∃ c k, w.node = [c, k] ∧ Made past d k)
    (hreads : ∀ p ∈ net.reads, ∃ c, p.append.target = .alterations c ∧ Made past p.device c)
    (hkeys : s.net.keys ⊆ net.keys)
    (hcurrent : v.statics.contract.uid = "" ∨ Made past d v.statics.contract.uid)
    (horiginal : v.statics.originalValues.uid = "") : Apart past (s.set net d v) where
  queued := hqueued
  reads := hreads
  current d' := by
    simp only [World.set]
    by_cases hd : d' = d
    · subst hd
      rwa [Function.update_self]
    · rw [Function.update_of_ne hd]
      exact h.current d'
  original := forall_device_set (P := fun v => v.statics.originalValues.uid = "") h.original
    horiginal
  single := h.single
  known d k hk := hkeys (h.known d k hk)

/-- The writes of a device join its queue. -/
theorem queued_setValues {ws : List Write} (h : Apart past s) {n : Net D}
    (hn : n.outbox = s.net.outbox)
    (hws : ∀ w ∈ ws, (∃ u r, w = .alteration u r) ∨ ∃ c k, w.node = [c, k] ∧ Made past d k) :
    ∀ d', ∀ w ∈ (n.setValues d ws).outbox d',
      (∃ u r, w = .alteration u r) ∨ ∃ c k, w.node = [c, k] ∧ Made past d' k := by
  intro d' w hw
  by_cases hd : d' = d
  · subst hd
    cases Net.mem_outbox_setValues hw with
    | inl hw => exact h.queued d' w (hn ▸ hw)
    | inr hw => exact hws w hw
  · simp only [Net.setValues, Function.update_of_ne hd, hn] at hw
    exact h.queued d' w hw

theorem apart_created {now : Date} (h : Apart past s) (hfresh : s.net.Fresh keys.toList) :
    Apart (past ++ [.act d (.createConfirmed keys now)]) (s.set
      ((s.net.allocate keys.toList).setValues d
        ((s.device d).create.createdWrites (s.device d).statics keys now)) d
      { s.device d with
        create := (s.device d).create.created keys
        statics := (s.device d).create.createdStatics (s.device d).statics keys }) := by
  have hmono : ∀ d' k, Made past d' k → Made (past ++ [.act d (.createConfirmed keys now)]) d' k :=
    fun d' k hk => made_created.mpr (Or.inl hk)
  have hnew : ∀ d' k, Made past d' k → k ∉ keys.toList :=
    fun d' k hk hmem => (hfresh.2 k hmem).2 (h.known d' k hk)
  have hsingle : ∀ d₁ d₂ k, Made (past ++ [.act d (.createConfirmed keys now)]) d₁ k →
      Made (past ++ [.act d (.createConfirmed keys now)]) d₂ k → d₁ = d₂ := by
    intro d₁ d₂ k h₁ h₂
    cases made_created.mp h₁ with
    | inl h₁ => cases made_created.mp h₂ with
      | inl h₂ => exact h.single d₁ d₂ k h₁ h₂
      | inr h₂ => exact absurd h₂.2 (hnew d₁ k h₁)
    | inr h₁ => cases made_created.mp h₂ with
      | inl h₂ => exact absurd h₁.2 (hnew d₂ k h₂)
      | inr h₂ => rw [h₁.1, h₂.1]
  have hmore : Apart (past ++ [.act d (.createConfirmed keys now)])
      ⟨s.net.allocate keys.toList, s.device⟩ := by
    refine ⟨fun d' w hw => (h.queued d' w hw).imp_right ?_, fun p hp => ?_,
      fun d' => (h.current d').imp_right (hmono d' _), h.original, hsingle, fun d' k hk => ?_⟩
    · rintro ⟨c, k, hnode, hk⟩
      exact ⟨c, k, hnode, hmono d' k hk⟩
    · obtain ⟨c, htarget, hc⟩ := h.reads p hp
      exact ⟨c, htarget, hmono _ c hc⟩
    · cases made_created.mp hk with
      | inl hk => exact List.mem_append_left _ (h.known d' k hk)
      | inr hk => exact List.mem_append_right _ hk.2
  refine apart_set (s := ⟨s.net.allocate keys.toList, s.device⟩) hmore ?_ hmore.reads
    (List.Subset.refl _) (Or.inr ?_) (h.original d)
  · refine queued_setValues hmore rfl fun w hw => Or.inr ?_
    obtain ⟨c, k, hnode, hk⟩ := node_of_createdWrites hw
    exact ⟨c, k, hnode, made_created.mpr (Or.inr ⟨rfl, hk⟩)⟩
  · refine made_created.mpr (Or.inr ⟨rfl, ?_⟩)
    simp [CreateContractVC.createdStatics, CreateContractVC.updateContractSingleton,
      CreateContractVC.created, CreateContractVC.Keys.toList]

theorem apart_step (h : Apart past s) (hstep : Steps s e s') : Apart (past ++ [e]) s' := by
  cases hstep with
  | screens d a v hact =>
    have he : ∀ d' keys now, Event.act d a ≠ .act d' (.createConfirmed keys now) := by
      intro d' keys now he
      cases he
      cases hact
    have h' := apart_append h he
    obtain ⟨hcurrent, horiginal⟩ := current_act (h'.current d) (h'.original d) hact
    exact apart_set h' h'.queued h'.reads (List.Subset.refl _) hcurrent horiginal
  | load d u k r hload =>
    have h' := apart_append h (e := .act d (.load u k)) fun _ _ _ he => by cases he
    exact apart_set h' h'.queued h'.reads (List.Subset.refl _) (h'.current d) (h'.original d)
  | created d keys now hpresented hfresh => exact apart_created h hfresh
  | addTrap d key vc hadd hpresented hfresh hempty =>
    have h' := apart_append h (e := .act d (.addConfirmed key)) fun _ _ _ he => by cases he
    exact apart_set h' (queued_setValues h' rfl (queued_alteration key _ _ _)) h'.reads
      (List.subset_append_left _ _) (h'.current d) (h'.original d)
  | added d key vc hadd hpresented hfresh hcontract =>
    have h' := apart_append h (e := .act d (.addConfirmed key)) fun _ _ _ he => by cases he
    refine apart_set h' (queued_setValues h' rfl (queued_alteration key _ _ _)) (fun p hp => ?_)
      (List.subset_append_left _ _) (h'.current d) (h'.original d)
    cases List.mem_append.mp hp with
    | inl hp => exact h'.reads p hp
    | inr hp =>
      obtain rfl := List.mem_singleton.mp hp
      exact ⟨_, rfl, (h'.current d).resolve_left hcontract⟩
  | edited d vc w hedit hpresented hw =>
    have h' := apart_append h (e := .act d .editConfirmed) fun _ _ _ he => by cases he
    obtain ⟨r, rfl, -⟩ := EditAlterationVC.confirmHandler_eq hw
    exact apart_set h' (queued_setValues h' rfl (queued_alteration r.uid r _ _)) h'.reads
      (List.Subset.refl _) (h'.current d) (h'.original d)
  | editTrap d =>
    have h' := apart_append h (e := .act d .editConfirmed) fun _ _ _ he => by cases he
    exact apart_set h' h'.queued h'.reads (List.Subset.refl _) (h'.current d) (h'.original d)
  | take i k net hnet =>
    have h' := apart_append h (e := .take i k) fun _ _ _ he => by cases he
    obtain ⟨d, a, hi, rfl⟩ := Net.take_eq hnet
    have hread := h'.reads _ (List.mem_of_getElem? hi)
    exact ⟨h'.queued, forall_mem_set h'.reads hread, h'.current, h'.original, h'.single, h'.known⟩
  | callback i net hnet =>
    have h' := apart_append h (e := .callback i) fun _ _ _ he => by cases he
    obtain ⟨d, a, value, hi, rfl⟩ := Net.callback_eq hnet
    refine ⟨queued_setValues h' rfl fun w hw => Or.inr ?_,
      fun p hp => h'.reads p (List.mem_of_mem_eraseIdx hp), h'.current, h'.original, h'.single,
      h'.known⟩
    obtain ⟨seen, -, rfl⟩ := ListAppend.callback_eq (Option.mem_toList.mp hw)
    obtain ⟨c, htarget, hc⟩ := h'.reads _ (List.mem_of_getElem? hi)
    have ht : a.target = .alterations c := htarget
    exact ⟨"contracts", c, by rw [Write.node, ht]; rfl, hc⟩
  | deliver d net hnet =>
    have h' := apart_append h (e := .deliver d) fun _ _ _ he => by cases he
    obtain ⟨w, ws, hd, rfl⟩ := Net.deliver_eq hnet
    exact ⟨fun d' w' hw' => h'.queued d' w' (Net.mem_outbox_deliver hd hw'), h'.reads, h'.current,
      h'.original, h'.single, h'.known⟩

theorem hasHeader_set {net : Net D}
    (h : ∀ d, HasHeader past d (s.device d).statics (s.net.settled d))
    (hother : ∀ d', d' ≠ d → net.settled d' = s.net.settled d')
    (hv : HasHeader (past ++ [e]) d v.statics (net.settled d)) :
    ∀ d', HasHeader (past ++ [e]) d' ((s.set net d v).device d').statics (net.settled d') := by
  intro d'
  simp only [World.set]
  by_cases hd : d' = d
  · subst hd
    rwa [Function.update_self]
  · rw [Function.update_of_ne hd, hother d' hd]
    exact hasHeader_of_sub_eq (h d') fun _ _ _ _ => rfl

theorem hasHeader_step (hapart : Apart past s)
    (h : ∀ d, HasHeader past d (s.device d).statics (s.net.settled d)) (hstep : Steps s e s') :
    ∀ d, HasHeader (past ++ [e]) d (s'.device d).statics (s'.net.settled d) := by
  cases hstep with
  | screens d a v hact =>
    refine hasHeader_set h (fun _ _ => rfl) ?_
    exact hasHeader_of_sub_eq (hasHeader_act (h d) (hapart.original d) hact) fun _ _ _ _ => rfl
  | load d u k r hload =>
    exact hasHeader_set h (fun _ _ => rfl) (hasHeader_of_sub_eq (h d) fun _ _ _ _ => rfl)
  | created d keys now hpresented hfresh =>
    refine hasHeader_set h (fun d' hd => Net.settled_setValues_ne _ hd _) fun _ => ?_
    refine ⟨keys, now, by simp, ?_⟩
    rw [Net.settled_setValues]
    exact headerOf_created _ _ keys now _
  | addTrap d key vc hadd hpresented hfresh hempty =>
    have hsame : HasHeader past d (vc.appendToCurrent key (s.device d).statics)
        (s.net.settled d) := (h d).of_eq ⟨_, rfl⟩ rfl rfl
    refine hasHeader_set h (fun d' hd => Net.settled_setValues_ne _ hd _) ?_
    rw [Net.settled_setValues]
    exact hasHeader_alteration hsame
  | added d key vc hadd hpresented hfresh hcontract =>
    have hsame : HasHeader past d (vc.appendToCurrent key (s.device d).statics)
        (s.net.settled d) := (h d).of_eq ⟨_, rfl⟩ rfl rfl
    refine hasHeader_set h (fun d' hd => ?_) ?_
    · exact Net.settled_setValues_ne (s.net.allocate [key]) hd _
    · have hsettled := Net.settled_setValues (s.net.allocate [key]) d
        [(AddAlterationVC.makeAlteration key (s.device d).statics.contract.uid
          vc.myAlterationStruct).2]
      exact hsettled ▸ hasHeader_alteration hsame
  | edited d vc w hedit hpresented hw =>
    obtain ⟨r, rfl, -⟩ := EditAlterationVC.confirmHandler_eq hw
    refine hasHeader_set h (fun d' hd => Net.settled_setValues_ne _ hd _) ?_
    rw [Net.settled_setValues]
    exact hasHeader_alteration (h d)
  | editTrap d =>
    exact hasHeader_set h (fun _ _ => rfl) (hasHeader_of_sub_eq (h d) fun _ _ _ _ => rfl)
  | take i k net hnet =>
    obtain ⟨d, a, -, rfl⟩ := Net.take_eq hnet
    exact fun d' => hasHeader_of_sub_eq (h d') fun _ _ _ _ => rfl
  | callback i net hnet =>
    obtain ⟨d, a, value, hi, rfl⟩ := Net.callback_eq hnet
    intro d'
    by_cases hd : d' = d
    · subst hd
      simp only [Net.settled_setValues]
      cases hw : a.callback value with
      | none => exact hasHeader_of_sub_eq (h d') fun _ _ _ _ => rfl
      | some w =>
        obtain ⟨seen, hseen, rfl⟩ := ListAppend.callback_eq hw
        obtain ⟨c, htarget, -⟩ := hapart.reads _ (List.mem_of_getElem? hi)
        have ht : a.target = .alterations c := htarget
        rw [ht]
        refine hasHeader_list (h d') ?_
        simp [decode_ne_nil hseen]
    · simp only [Net.settled_setValues_ne _ hd]
      exact hasHeader_of_sub_eq (h d') fun _ _ _ _ => rfl
  | deliver d net hnet =>
    intro d'
    by_cases hd : d' = d
    · subst hd
      rw [Net.settled_deliver hnet]
      exact hasHeader_of_sub_eq (h d') fun _ _ _ _ => rfl
    · refine hasHeader_of_sub_eq (h d') fun c k hk hc => ?_
      refine Net.sub_settled_deliver_ne hnet hd (node_ne_of_apart hapart hd hk ?_)
      rcases hc with rfl | rfl | rfl <;> decide

/-- The events of any run tell whose key is whose. -/
theorem apart_of_run {es : List (Event D)} (hstart : Starts s) (hrun : run step s es = some s') :
    Apart es s' :=
  run_invariant_past Apart (fun _ _ _ _ h hstep => apart_step h (steps_of_step hstep))
    (apart_start hstart) hrun

/-- A current contract is stored, and the header printed for it is that of the
records its creation made. The store is the one that the device's own writes make. -/
theorem header_of_current {es : List (Event D)} (hstart : Starts s)
    (hrun : run step s es = some s') (d : D)
    (hcurrent : (s'.device d).statics.contract.uid ≠ "") :
    ∃ keys now, Event.act d (.createConfirmed keys now) ∈ es ∧
      HeaderOf (s'.device d).statics keys (s'.net.settled d) := by
  have h := run_invariant_past
    (fun past (s : World D) => Apart past s ∧
      ∀ d, HasHeader past d (s.device d).statics (s.net.settled d))
    (fun _ _ _ _ h hstep => ⟨apart_step h.1 (steps_of_step hstep),
      hasHeader_step h.1 h.2 (steps_of_step hstep)⟩)
    ⟨apart_start hstart, hasHeader_start hstart⟩ hrun
  exact h.2 d hcurrent

theorem header_of_hemAdded : ∃ s, run step justOpened hemAdded = some s ∧
    ∃ keys now, Event.act () (.createConfirmed keys now) ∈ hemAdded ∧
      HeaderOf (s.device ()).statics keys (s.net.settled ()) := by
  have hdone : ∃ s ∈ run step justOpened hemAdded,
      (s.device ()).statics.contract.uid ≠ "" := by
    decide +kernel
  obtain ⟨s, hs, hcurrent⟩ := hdone
  exact ⟨s, hs, header_of_current starts_justOpened hs () hcurrent⟩

end Pincushion.Header
