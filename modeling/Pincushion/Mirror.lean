import Pincushion.Integrity

/-! The list of alterations in memory beside the stored one, on one device. An
Add appends two uids to the list in memory and one to the stored list, so the
lengths tell how many Adds the current contract has had. -/
namespace Pincushion.Mirror
open KeyTree Structs Singletons FirebaseHelpers AlterationScreens CreateContract
open Network Runs App Integrity

def countAdd (e : Event Unit) (k : Nat) : Nat := match e with
  | .act _ (.createConfirmed _ _) => 0
  | .act _ (.addConfirmed _) => k + 1
  | _ => k

/-- The Adds that were confirmed since the last creation. -/
def addsSinceCreation (s : World Unit) (es : List (Event Unit)) : Nat :=
  accumulate step (fun _ => countAdd) 0 s es

/-- After their sentinels both lists are the same, and its uids are keys of stored
records. The store is the one that the device's own writes make. -/
def Mirrors (s : World Unit) : Prop :=
  let c := (s.device ()).statics.contract
  ∃ us, c.alterations = "" :: us ∧
    listAt (s.net.settled ()) (.alterations c.uid) = some ("-1" :: us) ∧
    ∀ u ∈ us, ∃ r, alterationAt (s.net.settled ()) u = some r

variable {n n' : Net Unit} {c : String} {k : Nat}

def pendingAt (n : Net Unit) (c : String) : Nat :=
  n.reads.countP fun p => p.append.target = .alterations c

/-- No list of `c` anywhere is longer than the Adds that have got their turn. -/
def ShortAt (k : Nat) (c : String) (n : Net Unit) : Prop :=
  ∀ l, n.ListValue c l → l.length + pendingAt n c ≤ 1 + k

/-- Every list and every pending read is that of an allocated contract. -/
structure Keyed (n : Net Unit) : Prop where
  list : ∀ c l, n.ListValue c l → c ∈ n.keys
  read : ∀ p ∈ n.reads, ∃ c u, p.append = updateAlterationsForContract c u ∧ c ∈ n.keys

theorem listAt_apply_exists {db : Node} {w : Write}
    (h : ∃ l, listAt db (.alterations c) = some l) (hw : w.listFor c ≠ some []) :
    ∃ l, listAt (w.apply db) (.alterations c) = some l := by
  rw [listAt_apply_alterations]
  cases hl : w.listFor c with
  | none => exact h
  | some l =>
    have hne : l ≠ [] := fun hnil => hw (hnil ▸ hl)
    exact ⟨l, asStrings_encode hne⟩

theorem pendingAt_take {i j : Nat} (h : n.take i j = some n') (c : String) :
    pendingAt n' c = pendingAt n c := by
  obtain ⟨d, a, hi, rfl⟩ := Net.take_eq h
  have hsame := map_set_of_eq (fun p : PendingRead Unit => p.append.target)
    (b := ⟨d, a, some ((n.view d j).sub a.target.node)⟩) hi rfl
  have hcount : ∀ l : List (PendingRead Unit),
      l.countP (fun p => p.append.target = .alterations c) =
      (l.map fun p => p.append.target).countP fun t => t = .alterations c := by
    intro l
    rw [List.countP_map]
    rfl
  simp only [pendingAt, hcount, hsame]

theorem shortAt_of_values (h : ShortAt k c n)
    (hvalues : ∀ l, n'.ListValue c l → n.ListValue c l)
    (hpending : pendingAt n' c ≤ pendingAt n c) : ShortAt k c n' := by
  intro l hl
  have hle := h l (hvalues l hl)
  omega

/-- The callback's list is longer by one, and one read fewer is pending. -/
theorem shortAt_callback {i : Nat} (h : ShortAt k c n) (hkeyed : Keyed n)
    (hstep : n.callback i = some n') : ShortAt k c n' := by
  obtain ⟨d, a, value, hi, rfl⟩ := Net.callback_eq hstep
  obtain ⟨b, u, rfl, -⟩ := hkeyed.read _ (List.mem_of_getElem? hi)
  obtain ⟨hlt, hget⟩ := List.getElem?_eq_some_iff.mp hi
  have hcount : pendingAt n c = pendingAt { n with reads := n.reads.eraseIdx i } c +
      if b = c then 1 else 0 := by
    have hperm := (List.getElem_cons_eraseIdx_perm hlt).countP_eq
      (fun p : PendingRead Unit => p.append.target = .alterations c)
    rw [hget, List.countP_cons] at hperm
    simpa [pendingAt, updateAlterationsForContract] using hperm.symm
  intro l hl
  change l.length + pendingAt { n with reads := n.reads.eraseIdx i } c ≤ 1 + k
  cases Net.listValue_setValues hl with
  | inl hl =>
    have hle := h l (Net.listValue_eraseRead hl)
    omega
  | inr hw =>
    obtain ⟨w, hw, hl⟩ := hw
    obtain ⟨seen, hseen, rfl⟩ := ListAppend.callback_eq (Option.mem_toList.mp hw)
    obtain ⟨htarget, rfl⟩ := Write.listFor_list hl
    obtain rfl : b = c := ListTarget.alterations.inj htarget
    have hle := h seen (Or.inr (Or.inr ⟨_, List.mem_of_getElem? hi,
      PendingRead.list_eq hseen rfl⟩))
    simp only [updateAlterationsForContract, List.length_append, List.length_singleton, if_true]
      at hcount ⊢
    omega

theorem keyed_allocate (h : Keyed n) (newKeys : List String) : Keyed (n.allocate newKeys) := by
  constructor
  · exact fun c l hl => List.mem_append_left _ (h.list c l hl)
  · intro p hp
    obtain ⟨c, u, ha, hc⟩ := h.read p hp
    exact ⟨c, u, ha, List.mem_append_left _ hc⟩

theorem keyed_setValues {ws : List Write} (h : Keyed n)
    (hws : ∀ w ∈ ws, ∀ c l, w.listFor c = some l → c ∈ n.keys) : Keyed (n.setValues () ws) := by
  refine ⟨fun c l hl => ?_, h.read⟩
  cases Net.listValue_setValues hl with
  | inl hl => exact h.list c l hl
  | inr hw =>
    obtain ⟨w, hw, hl⟩ := hw
    exact hws w hw c l hl

theorem keyed_observe (h : Keyed n) (hc : c ∈ n.keys) (u : String) :
    Keyed (n.observe () (updateAlterationsForContract c u)) := by
  refine ⟨fun b l hl => h.list b l (Net.listValue_observe hl), fun p hp => ?_⟩
  cases List.mem_append.mp hp with
  | inl hp => exact h.read p hp
  | inr hp =>
    obtain rfl := List.mem_singleton.mp hp
    exact ⟨c, u, rfl, hc⟩

theorem keyed_take {i j : Nat} (h : Keyed n) (hstep : n.take i j = some n') : Keyed n' := by
  have hvalues := fun c l => Net.listValue_take (c := c) (l := l) hstep
  have hreads := fun p => Net.mem_reads_take (p := p) hstep
  obtain ⟨d, a, hi, rfl⟩ := Net.take_eq hstep
  refine ⟨fun c l hl => h.list c l (hvalues c l hl), fun p hp => ?_⟩
  obtain ⟨q, hq, happend⟩ := hreads p hp
  obtain ⟨c, u, ha, hc⟩ := h.read q hq
  exact ⟨c, u, happend ▸ ha, hc⟩

theorem keyed_callback {i : Nat} (h : Keyed n) (hstep : n.callback i = some n') : Keyed n' := by
  obtain ⟨d, a, value, hi, rfl⟩ := Net.callback_eq hstep
  obtain ⟨b, u, rfl, hb⟩ := h.read _ (List.mem_of_getElem? hi)
  have herase : Keyed { n with reads := n.reads.eraseIdx i } :=
    ⟨fun c l hl => h.list c l (Net.listValue_eraseRead hl),
      fun p hp => h.read p (List.mem_of_mem_eraseIdx hp)⟩
  refine keyed_setValues herase fun w hw c l hl => ?_
  obtain ⟨seen, -, rfl⟩ := ListAppend.callback_eq (Option.mem_toList.mp hw)
  obtain ⟨htarget, -⟩ := Write.listFor_list hl
  obtain rfl : b = c := ListTarget.alterations.inj htarget
  exact hb

theorem keyed_deliver (h : Keyed n) (hstep : n.deliver () = some n') : Keyed n' := by
  have hvalues := fun c l => Net.listValue_deliver (c := c) (l := l) hstep
  obtain ⟨w, ws, hd, rfl⟩ := Net.deliver_eq hstep
  exact ⟨fun c l hl => h.list c l (hvalues c l hl), h.read⟩

/-- The contract in memory after `k` Adds: two uids for each in memory, at most one
stored. -/
structure Current (k : Nat) (contract : Contract) (n : Net Unit) : Prop where
  memory : ∃ us, contract.alterations = "" :: us ∧ us.length = 2 * k
  stored : ∃ l, listAt (n.settled ()) (.alterations contract.uid) = some l
  short : ShortAt k contract.uid n
  known : contract.uid ∈ n.keys

structure Counted (k : Nat) (g : Statics) (n : Net Unit) : Prop where
  keyed : Keyed n
  original : g.originalValues.uid = "" ∧ g.originalValues.alterations = [""]
  current : g.contract.uid ≠ "" → Current k g.contract n

/-- A step of the network that brings no list but those of its callbacks. -/
theorem counted_net {g : Statics} (h : Counted k g n) (hkeyed : Keyed n')
    (hstored : ∀ c, (∃ l, listAt (n.settled ()) (.alterations c) = some l) →
      ∃ l, listAt (n'.settled ()) (.alterations c) = some l)
    (hshort : ∀ c, ShortAt k c n → ShortAt k c n') (hkeys : n'.keys = n.keys) :
    Counted k g n' := by
  refine ⟨hkeyed, h.original, fun hc => ?_⟩
  have hcurrent := h.current hc
  exact ⟨hcurrent.memory, hstored _ hcurrent.stored, hshort _ hcurrent.short,
    hkeys ▸ hcurrent.known⟩

theorem counted_take {g : Statics} {i j : Nat} (h : Counted k g n)
    (hstep : n.take i j = some n') : Counted k g n' := by
  have hpending := pendingAt_take hstep
  have hkeyed := keyed_take h.keyed hstep
  have hshort : ∀ c, ShortAt k c n → ShortAt k c n' := fun c hs =>
    shortAt_of_values hs (fun l => Net.listValue_take hstep) (Nat.le_of_eq (hpending c))
  obtain ⟨d, a, -, rfl⟩ := Net.take_eq hstep
  exact counted_net h hkeyed (fun _ hl => hl) hshort rfl

theorem counted_deliver {g : Statics} (h : Counted k g n) (hstep : n.deliver () = some n') :
    Counted k g n' := by
  have hkeyed := keyed_deliver h.keyed hstep
  have hsettled := Net.settled_deliver hstep
  have hvalues : ∀ c l, n'.ListValue c l → n.ListValue c l := fun c l =>
    Net.listValue_deliver hstep
  obtain ⟨w, ws, hd, rfl⟩ := Net.deliver_eq hstep
  refine counted_net h hkeyed (fun c hl => ?_) (fun c hs => ?_) rfl
  · rwa [hsettled]
  · exact shortAt_of_values hs (hvalues c) (Nat.le_refl _)

theorem counted_callback {g : Statics} {i : Nat} (h : Counted k g n)
    (hstep : n.callback i = some n') : Counted k g n' := by
  have hkeyed := keyed_callback h.keyed hstep
  have hshort : ∀ c, ShortAt k c n → ShortAt k c n' := fun c hs =>
    shortAt_callback hs h.keyed hstep
  obtain ⟨d, a, value, -, rfl⟩ := Net.callback_eq hstep
  refine counted_net h hkeyed (fun c hl => ?_) hshort rfl
  rw [Net.settled_setValues]
  cases hw : a.callback value with
  | none => exact hl
  | some w =>
    obtain ⟨seen, hseen, rfl⟩ := ListAppend.callback_eq hw
    refine listAt_apply_exists hl fun hnil => ?_
    obtain ⟨-, hempty⟩ := Write.listFor_list hnil
    exact decode_ne_nil hseen (List.append_eq_nil_iff.mp hempty).1

theorem counted_allocate {g : Statics} (h : Counted k g n) (newKeys : List String) :
    Counted k g (n.allocate newKeys) := by
  refine ⟨keyed_allocate h.keyed newKeys, h.original, fun hc => ?_⟩
  have hcurrent := h.current hc
  exact ⟨hcurrent.memory, hcurrent.stored, hcurrent.short,
    List.mem_append_left _ hcurrent.known⟩

/-- An alteration's record is no list. -/
theorem counted_record {g : Statics} (h : Counted k g n) (u : String) (r : AlterationStruct) :
    Counted k g (n.setValues () [.alteration u r]) := by
  have hnone : ∀ w ∈ [Write.alteration u r], ∀ c, w.listFor c = none := by
    intro w hw c
    obtain rfl := List.mem_singleton.mp hw
    rfl
  refine counted_net h (keyed_setValues h.keyed fun w hw c l hl => ?_) (fun c hl => ?_)
    (fun c hs => shortAt_of_values hs (fun l hl => ?_) (Nat.le_refl _)) rfl
  · rw [hnone w hw c] at hl
    cases hl
  · rw [Net.settled_setValues]
    exact listAt_apply_exists hl (by simp [Write.listFor])
  · cases Net.listValue_setValues hl with
    | inl hl => exact hl
    | inr hw =>
      obtain ⟨w, hw, hl⟩ := hw
      rw [hnone w hw c] at hl
      cases hl

theorem counted_noContract {g : Statics} (hkeyed : Keyed n)
    (horiginal : g.originalValues.uid = "" ∧ g.originalValues.alterations = [""])
    (hc : g.contract.uid = "") : Counted k g n :=
  ⟨hkeyed, horiginal, fun hne => absurd hc hne⟩

/-- What the screens do to the singletons: the contract stays, or it is reset. -/
theorem counted_statics {g g' : Statics} (h : Counted k g n)
    (hc : g'.contract = g.contract ∨ g'.contract = g.originalValues)
    (ho : g'.originalValues = g.originalValues) : Counted k g' n := by
  cases hc with
  | inl hc => exact ⟨h.keyed, ho ▸ h.original, fun hne => hc ▸ h.current (hc ▸ hne)⟩
  | inr hc => exact counted_noContract h.keyed (ho ▸ h.original) (hc ▸ h.original.1)

theorem statics_act {v v' : Device} {a : Action} (h : v.act a = some v') :
    (v'.statics.contract = v.statics.contract ∨ v'.statics.contract = v.statics.originalValues) ∧
      v'.statics.originalValues = v.statics.originalValues := by
  cases acts_of_act h with
  | signOutConfirmed => exact ⟨Or.inr rfl, rfl⟩
  | _ => exact ⟨Or.inl rfl, rfl⟩

theorem countAdd_act {v v' : Device} {a : Action} (h : v.act a = some v') (d : Unit) (k : Nat) :
    countAdd (.act d a) k = k := by
  cases a with
  | createConfirmed | addConfirmed => cases h
  | _ => rfl

theorem counted_added {g : Statics} {key : String} (h : Counted k g n)
    (hc : g.contract.uid ≠ "") (vc : AddAlterationVC) :
    Counted (k + 1) (vc.appendToCurrent key g)
      (n.observe () (updateAlterationsForContract g.contract.uid key)) := by
  have hcurrent := h.current hc
  refine ⟨keyed_observe h.keyed hcurrent.known key, h.original, fun _ => ?_⟩
  obtain ⟨us, hus, hlen⟩ := hcurrent.memory
  refine ⟨⟨us ++ [vc.alterationUID] ++ [key], ?_, ?_⟩, hcurrent.stored, fun l hl => ?_,
    hcurrent.known⟩
  · simp [AddAlterationVC.appendToCurrent, hus]
  · simp only [List.length_append, List.length_singleton, hlen]
    omega
  · have hle := hcurrent.short l (Net.listValue_observe hl)
    have hcount : pendingAt (n.observe () (updateAlterationsForContract g.contract.uid key))
        g.contract.uid = pendingAt n g.contract.uid + 1 := by
      simp [pendingAt, Net.observe, updateAlterationsForContract, List.countP_append]
    change l.length + pendingAt _ g.contract.uid ≤ _
    omega

theorem counted_created {g : Statics} {vc : CreateContractVC} {keys : CreateContractVC.Keys}
    {now : Date} (h : Counted k g n) (hfresh : n.Fresh keys.toList) :
    Counted 0 (vc.createdStatics g keys)
      ((n.allocate keys.toList).setValues () (vc.createdWrites g keys now)) := by
  have hmem : keys.contract ∈ keys.toList := by simp [CreateContractVC.Keys.toList]
  have hnew : keys.contract ∉ n.keys := (hfresh.2 keys.contract hmem).2
  have hknown : keys.contract ∈ (n.allocate keys.toList).keys := List.mem_append_right _ hmem
  refine ⟨keyed_setValues (keyed_allocate h.keyed _) fun w hw c l hl => ?_, h.original, fun _ => ?_⟩
  · rw [((CreateContractVC.createdWrites_cases hw).2 c l hl).2]
    exact hknown
  · refine ⟨⟨[], h.original.2, rfl⟩, ?_, fun l hl => ?_, hknown⟩
    · rw [Net.settled_setValues]
      refine listAt_apply_exists (listAt_apply_exists ?_ (by simp [addBrideToFBDB, Write.listFor]))
        (by simp [addMeasurementToFBDB, Write.listFor])
      exact ⟨["-1"], by
        rw [listAt_apply_alterations]
        simp [CreateContractVC.makeContract, addContractToFBDB, Write.listFor,
          CreateContractVC.createdStatics, CreateContractVC.updateContractSingleton,
          CreateContractVC.created, asStrings_encode]⟩
    · have hpending : pendingAt n keys.contract = 0 := by
        rw [pendingAt, List.countP_eq_zero]
        intro p hp
        obtain ⟨c, u, ha, hc⟩ := h.keyed.read p hp
        have hne : c ≠ keys.contract := fun heq => hnew (heq ▸ hc)
        simp [ha, updateAlterationsForContract, hne]
      cases Net.listValue_setValues hl with
      | inl hl => exact absurd (h.keyed.list _ l hl) hnew
      | inr hw =>
        obtain ⟨w, hw, hl⟩ := hw
        obtain ⟨rfl, -⟩ := (CreateContractVC.createdWrites_cases hw).2 _ l hl
        change 1 + pendingAt n keys.contract ≤ 1 + 0
        omega

variable {s s' : World Unit} {e : Event Unit}

theorem counted_step (h : Counted k (s.device ()).statics s.net) (hstep : Steps s e s') :
    Counted (countAdd e k) (s'.device ()).statics s'.net := by
  cases hstep with
  | screens d a v hact =>
    rw [countAdd_act hact]
    exact counted_statics h (statics_act hact).1 (statics_act hact).2
  | load d u j r hload => exact h
  | created d keys now hpresented hfresh => exact counted_created h hfresh
  | addTrap d key vc hadd hpresented hfresh hempty =>
    have hrecord := counted_record (counted_allocate h [key]) key
      { vc.myAlterationStruct with contractUID := "", uid := key }
    exact counted_noContract hrecord.keyed h.original hempty
  | added d key vc hadd hpresented hfresh hcontract =>
    have hrecord := counted_record (counted_allocate h [key]) key
      { vc.myAlterationStruct with
        contractUID := (s.device ()).statics.contract.uid
        uid := key }
    exact counted_added hrecord hcontract vc
  | edited d vc w hedit hpresented hw =>
    obtain ⟨r, rfl, -⟩ := EditAlterationVC.confirmHandler_eq hw
    exact counted_record h r.uid r
  | editTrap d => exact h
  | take i j net hnet => exact counted_take h hnet
  | callback i net hnet => exact counted_callback h hnet
  | deliver d net hnet => exact counted_deliver h hnet

theorem counted_start (h : Starts s) : Counted 0 (s.device ()).statics s.net := by
  obtain ⟨hnet, hdevice⟩ := h
  obtain ⟨pickerDate, now, currentDate, originalDate, hd⟩ := hdevice ()
  rw [hd, hnet]
  refine counted_noContract ⟨?_, ?_⟩ ⟨rfl, rfl⟩ rfl
  · rintro c l (hl | ⟨d, w, hw, -⟩ | ⟨p, hp, -⟩)
    · cases hl
    · cases hw
    · cases hp
  · intro p hp
    cases hp

/-- The lists agree as long as no Add has been confirmed since the contract was
created, and never after one has. -/
theorem mirrors_iff_no_adds {es : List (Event Unit)} (hstart : Starts s)
    (hrun : run step s es = some s') (hc : (s'.device ()).statics.contract.uid ≠ "") :
    Mirrors s' ↔ addsSinceCreation s es = 0 := by
  have hcounted : Counted (addsSinceCreation s es) (s'.device ()).statics s'.net :=
    run_invariant_accumulate (fun k (t : World Unit) => Counted k (t.device ()).statics t.net)
      (fun _ _ e _ h hstep => counted_step (e := e) h (steps_of_step hstep))
      (counted_start hstart) hrun
  obtain ⟨owner, hintact⟩ := intact_of_reachable ⟨s, es, hstart, hrun⟩
  have hcurrent := hcounted.current hc
  obtain ⟨us, hus, hlen⟩ := hcurrent.memory
  obtain ⟨l, hl⟩ := hcurrent.stored
  obtain ⟨vs, rfl, -⟩ := hintact.owned.list _ l (Net.listValue_settled hl)
  have hshort := hcurrent.short _ (Net.listValue_settled hl)
  rw [List.length_cons] at hshort
  constructor
  · intro h
    obtain ⟨ws, hmemory, hstored, -⟩ := h
    obtain rfl : us = ws := (List.cons.inj (hus.symm.trans hmemory)).2
    obtain rfl : vs = us := (List.cons.inj (Option.some.inj (hl.symm.trans hstored))).2
    omega
  · intro h
    obtain rfl := List.length_eq_zero_iff.mp (by omega : us.length = 0)
    obtain rfl := List.length_eq_zero_iff.mp (by omega : vs.length = 0)
    exact ⟨[], hus, hl, by simp⟩

theorem mirrors_created : ∃ s, run step justOpened annCreated = some s ∧ Mirrors s := by
  have huid : (run step justOpened annCreated).map (fun s => (s.device ()).statics.contract.uid) =
      some "c" := by
    decide +kernel
  have hadds : addsSinceCreation justOpened annCreated = 0 := by
    decide +kernel
  obtain ⟨s, hs, hc⟩ := Option.map_eq_some_iff.mp huid
  refine ⟨s, hs, (mirrors_iff_no_adds starts_justOpened hs ?_).mpr hadds⟩
  rw [hc]
  decide

/-- After one Add whose writes have arrived, memory has a placeholder that the
store has not. -/
theorem not_mirrors_added : ∃ s, run step justOpened hemAdded = some s ∧ s.net.reads.length = 0 ∧
    s.net.outbox () = [] ∧ (s.device ()).statics.contract.alterations = ["", "3.14", "a"] ∧
    ¬ Mirrors s := by
  have hlists : (run step justOpened hemAdded).map (fun s => (s.net.reads.length, s.net.outbox (),
      (s.device ()).statics.contract.alterations,
      listAt (s.net.settled ()) (.alterations (s.device ()).statics.contract.uid))) =
        some (0, [], ["", "3.14", "a"], some ["-1", "a"]) := by
    decide +kernel
  obtain ⟨s, hs, hmap⟩ := Option.map_eq_some_iff.mp hlists
  simp only [Prod.mk.injEq] at hmap
  obtain ⟨hreads, hqueue, hmemory, hstored⟩ := hmap
  refine ⟨s, hs, hreads, hqueue, hmemory, fun h => ?_⟩
  obtain ⟨us, hus, hl, -⟩ := h
  obtain rfl : us = ["3.14", "a"] := (List.cons.inj (hus.symm.trans hmemory)).2
  rw [hstored] at hl
  exact absurd hl (by decide)

end Pincushion.Mirror
