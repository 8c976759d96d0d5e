import Pincushion.Indices

/-! The helper methods by themselves, called in any order on any number of
devices. The lists start with a sentinel, so that their records decode, and the
whole-list writes of the appends carry it on. -/
namespace Pincushion.Sentinels
open KeyTree Structs FirebaseHelpers Network Runs Indices
variable {D : Type*}

def PUSH_CHARS : List Char :=
  "-0123456789ABCDEFGHIJKLMNOPQRSTUVWXYZ_abcdefghijklmnopqrstuvwxyz".toList

/-- What `childByAutoId` returns: eight characters of a timestamp and twelve random ones. -/
def IsPushId (key : String) : Prop :=
  key.toList.length = 20 ∧ ∀ c ∈ key.toList, c ∈ PUSH_CHARS

instance : DecidablePred IsPushId := fun key =>
  have : Decidable (∀ c ∈ key.toList, c ∈ PUSH_CHARS) := List.decidableBAll _ _
  inferInstanceAs (Decidable (_ ∧ _))

theorem IsPushId.ne_sentinel {key : String} (h : IsPushId key) : key ≠ "-1" := by
  rintro rfl
  exact absurd h.1 (by decide)

inductive Event (D : Type*) where
  | addSpecialistToFBDB (d : D) (uid firstName lastName email : String)
  | addBrideToFBDB (d : D) (newBrideKey specialistUID firstName lastName email : String)
  | addContractToFBDB (d : D) (newContractKey dressUID brideUID specialistUID : String)
      (eventDate : Date)
  | updateAlterationsForContract (d : D) (contractUID newAlterationUID : String)
  | updateMesurementsFor (d : D) (brideUID newMeasurementUID : String)
  | getBridesForSpecialist (d : D) (uid : String) (newBrides : List String)
  | take (i k : Nat)
  | callback (i : Nat)
  | deliver (d : D)

/-- The append that a call starts. -/
def Event.append : Event D → Option ListAppend
  | .updateAlterationsForContract _ contractUID newAlterationUID =>
      some (FirebaseHelpers.updateAlterationsForContract contractUID newAlterationUID)
  | .updateMesurementsFor _ brideUID newMeasurementUID =>
      some (FirebaseHelpers.updateMesurementsFor brideUID newMeasurementUID)
  | .getBridesForSpecialist _ uid newBrides =>
      some (FirebaseHelpers.getBridesForSpecialist uid newBrides)
  | _ => none

def appends (es : List (Event D)) : List ListAppend := es.filterMap Event.append

/-- The new uids of an append are keys that `childByAutoId` made. -/
def observe (n : Net D) (d : D) (a : ListAppend) : Option (Net D) :=
  if ∀ u ∈ a.new, IsPushId u then some (n.observe d a) else none

/-- The three records are added with the lists that their callers pass. -/
def step [DecidableEq D] (n : Net D) : Event D → Option (Net D)
  | .addSpecialistToFBDB d uid firstName lastName email =>
      some (n.setValues d
        [FirebaseHelpers.addSpecialistToFBDB uid firstName lastName email ["-1"]])
  | .addBrideToFBDB d newBrideKey specialistUID firstName lastName email =>
      if IsPushId newBrideKey then
        some (n.setValues d [(FirebaseHelpers.addBrideToFBDB newBrideKey specialistUID firstName
          lastName email ["-1"]).2])
      else none
  | .addContractToFBDB d newContractKey dressUID brideUID specialistUID eventDate =>
      if IsPushId newContractKey then
        some (n.setValues d [(FirebaseHelpers.addContractToFBDB newContractKey dressUID brideUID
          specialistUID eventDate).2])
      else none
  | .updateAlterationsForContract d contractUID newAlterationUID =>
      observe n d (FirebaseHelpers.updateAlterationsForContract contractUID newAlterationUID)
  | .updateMesurementsFor d brideUID newMeasurementUID =>
      observe n d (FirebaseHelpers.updateMesurementsFor brideUID newMeasurementUID)
  | .getBridesForSpecialist d uid newBrides =>
      observe n d (FirebaseHelpers.getBridesForSpecialist uid newBrides)
  | .take i k => n.take i k
  | .callback i => n.callback i
  | .deliver d => n.deliver d

/-- The sentinel, and after it only uids that were passed to an append on this list. -/
def Sentineled (passed : List ListAppend) (t : ListTarget) (l : List String) : Prop :=
  ∃ us, l = "-1" :: us ∧ ∀ u ∈ us, u ≠ "-1" ∧ ∃ a ∈ passed, a.target = t ∧ u ∈ a.new

/-- Whatever is stored where a list's record belongs decodes to such a list. -/
def Sound (passed : List ListAppend) (db : Node) : Prop :=
  ∀ t : ListTarget, db.sub t.node ≠ empty →
    ∃ l, serverList db t = some l ∧ listAt db t = some l ∧ Sentineled passed t l

variable {passed : List ListAppend} {db : Node} {w : Write} {ws : List Write} {t : ListTarget}
variable {l : List String} {n n' : Net D} {d : D} {a : ListAppend}

theorem Sentineled.mono {passed' : List ListAppend} (h : Sentineled passed t l)
    (hsub : passed ⊆ passed') : Sentineled passed' t l := by
  obtain ⟨us, rfl, hus⟩ := h
  refine ⟨us, rfl, fun u hu => ⟨(hus u hu).1, ?_⟩⟩
  obtain ⟨a, ha, htarget⟩ := (hus u hu).2
  exact ⟨a, hsub ha, htarget⟩

theorem sentineled_append (h : Sentineled passed a.target l) (ha : a ∈ passed)
    (hnew : ∀ u ∈ a.new, IsPushId u) : Sentineled passed a.target (l ++ a.new) := by
  obtain ⟨us, rfl, hus⟩ := h
  refine ⟨us ++ a.new, rfl, fun u hu => ?_⟩
  cases List.mem_append.mp hu with
  | inl hu => exact hus u hu
  | inr hu => exact ⟨(hnew u hu).ne_sentinel, a, ha, rfl, hu⟩

theorem sub_ne_empty (h : Recorded db t) : db.sub t.node ≠ empty := by
  intro hempty
  obtain ⟨u, hu⟩ := h
  simp only [textAt, hempty] at hu
  cases hu

theorem Sound.mono {passed' : List ListAppend} (h : Sound passed db) (hsub : passed ⊆ passed') :
    Sound passed' db := by
  intro t ht
  obtain ⟨l, hserver, hlist, hl⟩ := h t ht
  exact ⟨l, hserver, hlist, hl.mono hsub⟩

theorem Sound.recorded (h : Sound passed db) (ht : db.sub t.node ≠ empty) : Recorded db t := by
  obtain ⟨l, hl, -⟩ := h t ht
  exact recorded_of_decode hl

theorem sound_apply (h : Sound passed db) (hw : Grounded db w)
    (hlists : ∀ t l, listed w = some (t, l) → Sentineled passed t l) :
    Sound passed (w.apply db) := by
  intro t ht
  by_cases hlisted : ∃ l, listed w = some (t, l)
  · obtain ⟨l, hl⟩ := hlisted
    have hwhole : Recorded db t → ∃ l, serverList db t = some l := by
      intro hr
      obtain ⟨l, hl, -⟩ := h t (sub_ne_empty hr)
      exact ⟨l, hl⟩
    have hserver := serverList_of_listed hw hwhole hl
    exact ⟨l, hserver, asStrings_of_decode hserver, hlists t l hl⟩
  · have hnone : ∀ l, listed w ≠ some (t, l) := fun l hl => hlisted ⟨l, hl⟩
    have hnode : w.node ≠ t.node := fun hnode => hlisted (listed_of_node hnode)
    rw [sub_node_apply_ne hnode] at ht
    obtain ⟨l, hserver, hlist, hl⟩ := h t ht
    refine ⟨l, (serverList_of_not_listed hnone).trans hserver, ?_, hl⟩
    rw [listAt_apply_ne db w hnode, hlist]

theorem sound_foldl (h : Sound passed db) (hws : GroundedAll db ws)
    (hlists : ∀ w ∈ ws, ∀ t l, listed w = some (t, l) → Sentineled passed t l) :
    Sound passed (ws.foldl (fun db w => w.apply db) db) := by
  induction ws generalizing db with
  | nil => exact h
  | cons w ws ih =>
    have hfirst := sound_apply h hws.1 (hlists w (List.mem_cons_self ..))
    exact ih hfirst hws.2 fun w' hw' => hlists w' (List.mem_cons_of_mem w hw')

/-- The lists are sound on the server, on their way, and in the reads that have
taken them. A read that took a record has it in the settled store of its device. -/
structure Keeping (passed : List ListAppend) (n : Net D) : Prop where
  stored : Sound passed n.server
  grounded : ∀ d, GroundedAll n.server (n.outbox d)
  queued : ∀ d, ∀ w ∈ n.outbox d, ∀ t l, listed w = some (t, l) → Sentineled passed t l
  reads : ∀ p ∈ n.reads, p.append ∈ passed ∧ ∀ u ∈ p.append.new, IsPushId u
  taken : ∀ p ∈ n.reads, ∀ value, p.value = some value → value ≠ empty →
    Recorded (n.settled p.device) p.append.target ∧
    ∃ l, p.append.target.decode value = some l ∧ Sentineled passed p.append.target l

theorem keeping_initial : Keeping [] (.initial : Net D) where
  stored t ht := absurd rfl ht
  grounded d := trivial
  queued d w hw := by cases hw
  reads p hp := by cases hp
  taken p hp := by cases hp

theorem Keeping.mono {passed' : List ListAppend} (h : Keeping passed n)
    (hsub : passed ⊆ passed') : Keeping passed' n where
  stored := h.stored.mono hsub
  grounded := h.grounded
  queued d w hw t l hl := (h.queued d w hw t l hl).mono hsub
  reads p hp := ⟨hsub (h.reads p hp).1, (h.reads p hp).2⟩
  taken p hp value hvalue hne := by
    obtain ⟨hr, l, hl, hs⟩ := h.taken p hp value hvalue hne
    exact ⟨hr, l, hl, hs.mono hsub⟩

/-- A device sees sound lists too, whichever of its writes have arrived. -/
theorem Keeping.view (h : Keeping passed n) (d : D) (k : Nat) : Sound passed (n.view d k) := by
  have hsplit := List.take_append_drop k (n.outbox d)
  have hgrounded := h.grounded d
  rw [← hsplit] at hgrounded
  exact sound_foldl h.stored (groundedAll_append.mp hgrounded).1
    fun w hw => h.queued d w (List.mem_of_mem_take hw)

theorem keeping_observe (h : Keeping passed n) (ha : a ∈ passed)
    (hnew : ∀ u ∈ a.new, IsPushId u) : Keeping passed (n.observe d a) where
  stored := h.stored
  grounded := h.grounded
  queued := h.queued
  reads p hp := by
    cases List.mem_append.mp hp with
    | inl hp => exact h.reads p hp
    | inr hp =>
      obtain rfl := List.mem_singleton.mp hp
      exact ⟨ha, hnew⟩
  taken p hp value hvalue hne := by
    cases List.mem_append.mp hp with
    | inl hp => exact h.taken p hp value hvalue hne
    | inr hp =>
      obtain rfl := List.mem_singleton.mp hp
      cases hvalue

theorem keeping_take {i k : Nat} (h : Keeping passed n) (hstep : n.take i k = some n') :
    Keeping passed n' := by
  obtain ⟨d, a, hi, rfl⟩ := Net.take_eq hstep
  refine ⟨h.stored, h.grounded, h.queued, ?_, ?_⟩
  · have hread := h.reads _ (List.mem_of_getElem? hi)
    exact forall_mem_set h.reads hread
  · refine forall_mem_set h.taken fun value hvalue hne => ?_
    cases hvalue
    obtain ⟨l, hl, -, hs⟩ := h.view d k a.target hne
    exact ⟨recorded_settled_of_view (recorded_of_decode hl), l, hl, hs⟩

theorem observe_eq (h : observe n d a = some n') :
    (∀ u ∈ a.new, IsPushId u) ∧ n' = n.observe d a := by
  simp only [observe] at h
  split at h
  · rename_i hnew
    exact ⟨hnew, (Option.some.inj h).symm⟩
  · cases h

variable [DecidableEq D]

theorem keeping_setValue (h : Keeping passed n) (hgrounded : Grounded (n.settled d) w)
    (hlists : ∀ t l, listed w = some (t, l) → Sentineled passed t l) :
    Keeping passed (n.setValues d [w]) where
  stored := h.stored
  grounded := grounded_setValues h.grounded ⟨hgrounded, trivial⟩
  queued d' w' hw' := by
    cases Net.mem_outbox_setValues hw' with
    | inl hw' => exact h.queued d' w' hw'
    | inr hw' =>
      obtain rfl := List.mem_singleton.mp hw'
      exact hlists
  reads := h.reads
  taken p hp value hvalue hne := by
    obtain ⟨hr, hl⟩ := h.taken p hp value hvalue hne
    exact ⟨recorded_settled_setValues hr, hl⟩

/-- A record comes with the bare sentinel. -/
theorem sentineled_new (passed : List ListAppend) (t : ListTarget) :
    Sentineled passed t ["-1"] :=
  ⟨[], rfl, fun _ hu => by cases hu⟩

theorem callback_eq_none_of_empty (a : ListAppend) : a.callback empty = none := by
  cases a with
  | mk target new => cases target <;> rfl

/-- A callback writes the list it took with the uids of its append behind it. -/
theorem keeping_callback {i : Nat} (h : Keeping passed n) (hstep : n.callback i = some n') :
    Keeping passed n' := by
  obtain ⟨d, a, value, hi, rfl⟩ := Net.callback_eq hstep
  have hread := List.mem_of_getElem? hi
  have herased : Keeping passed { n with reads := n.reads.eraseIdx i } :=
    ⟨h.stored, h.grounded, h.queued, fun p hp => h.reads p (List.mem_of_mem_eraseIdx hp),
      fun p hp => h.taken p (List.mem_of_mem_eraseIdx hp)⟩
  cases hw : a.callback value with
  | none =>
    refine ⟨herased.stored, ?_, ?_, herased.reads, fun p hp value hvalue hne => ?_⟩
    · exact grounded_setValues herased.grounded trivial
    · intro d' w hw
      cases Net.mem_outbox_setValues hw with
      | inl hw => exact herased.queued d' w hw
      | inr hw => cases hw
    · obtain ⟨hr, hl⟩ := herased.taken p hp value hvalue hne
      exact ⟨recorded_settled_setValues hr, hl⟩
  | some w =>
    obtain ⟨seen, hseen, rfl⟩ := ListAppend.callback_eq hw
    have hne : value ≠ empty := by
      rintro rfl
      rw [callback_eq_none_of_empty] at hw
      cases hw
    obtain ⟨hr, l, hl, hs⟩ := h.taken _ hread value rfl hne
    obtain rfl : l = seen := Option.some.inj (hl.symm.trans hseen)
    refine keeping_setValue herased ⟨hr, by simp [decode_ne_nil hl]⟩ fun t l' hl' => ?_
    cases hl'
    exact sentineled_append hs (h.reads _ hread).1 (h.reads _ hread).2

theorem keeping_deliver (h : Keeping passed n) (hstep : n.deliver d = some n') :
    Keeping passed n' := by
  have hgrounded := grounded_deliver h.grounded hstep
  have htaken : ∀ p ∈ n.reads, ∀ value, p.value = some value → value ≠ empty →
      Recorded (n'.settled p.device) p.append.target ∧
      ∃ l, p.append.target.decode value = some l ∧ Sentineled passed p.append.target l := by
    intro p hp value hvalue hne
    obtain ⟨hr, hl⟩ := h.taken p hp value hvalue hne
    exact ⟨recorded_settled_deliver hr hstep, hl⟩
  obtain ⟨w, ws, hd, rfl⟩ := Net.deliver_eq hstep
  have hfirst : GroundedAll n.server (w :: ws) := hd ▸ h.grounded d
  refine ⟨?_, hgrounded, ?_, h.reads, htaken⟩
  · exact sound_apply h.stored hfirst.1 (h.queued d w (by simp [hd]))
  · exact fun d' w' hw' => h.queued d' w' (Net.mem_outbox_deliver hd hw')

theorem keeping_step {past : List (Event D)} {e : Event D} (h : Keeping (appends past) n)
    (hstep : step n e = some n') : Keeping (appends (past ++ [e])) n' := by
  have hmore : Keeping (appends (past ++ [e])) n := by
    refine h.mono ?_
    rw [appends, appends, List.filterMap_append]
    exact List.subset_append_left _ _
  cases e with
  | addSpecialistToFBDB d uid firstName lastName email =>
    cases hstep
    refine keeping_setValue hmore ⟨by simp, by simp⟩ fun t l hl => ?_
    cases hl
    exact sentineled_new _ _
  | addBrideToFBDB d key specialistUID firstName lastName email =>
    simp only [step] at hstep
    split at hstep
    · cases hstep
      refine keeping_setValue hmore ⟨by simp, by simp⟩ fun t l hl => ?_
      cases hl
      exact sentineled_new _ _
    · cases hstep
  | addContractToFBDB d key dressUID brideUID specialistUID eventDate =>
    simp only [step] at hstep
    split at hstep
    · cases hstep
      refine keeping_setValue hmore (List.cons_ne_nil _ _) fun t l hl => ?_
      cases hl
      exact sentineled_new _ _
    · cases hstep
  | updateAlterationsForContract | updateMesurementsFor | getBridesForSpecialist =>
    obtain ⟨hnew, rfl⟩ := observe_eq hstep
    exact keeping_observe hmore (by simp [appends, Event.append]) hnew
  | take i k => exact keeping_take hmore hstep
  | callback i => exact keeping_callback hmore hstep
  | deliver d => exact keeping_deliver hmore hstep

/-- Every list that is stored keeps its sentinel, and the read of an append that
took a record never fails to decode it; a record that is stored is there in
everything a device may see. -/
theorem stored_lists_decode {es : List (Event D)} (hrun : run step .initial es = some n) :
    Sound (appends es) n.server ∧ (∀ d k, Sound (appends es) (n.view d k)) ∧
    (∀ t : ListTarget, n.server.sub t.node ≠ empty → ∀ d k, (n.view d k).sub t.node ≠ empty) ∧
    ∀ p ∈ n.reads, ∀ value, p.value = some value → value ≠ empty →
      ∃ w, p.append.callback value = some w := by
  have hstart : Keeping (appends ([] : List (Event D))) (.initial : Net D) := keeping_initial
  have h : Keeping (appends es) n :=
    run_invariant_past (fun past n => Keeping (appends past) n)
      (fun _ _ _ _ h hstep => keeping_step h hstep) hstart hrun
  refine ⟨h.stored, h.view, fun t ht d k => ?_, fun p hp value hvalue hne => ?_⟩
  · exact sub_ne_empty (recorded_foldl_iff.mpr (Or.inl (h.stored.recorded ht)))
  · obtain ⟨-, l, hl, -⟩ := h.taken p hp value hvalue hne
    exact ⟨.list p.append.target (l ++ p.append.new), by simp only [ListAppend.callback, hl]⟩

/-- Two hems join the list of a new contract; the read of a third is under way. -/
def hemsAppended : List (Event Unit) := [
  .addContractToFBDB () "-Lf00000000000000000" "d" "" "s" 0, .deliver (),
  .updateAlterationsForContract () "-Lf00000000000000000" "-Lf0000000000000000a",
  .take 0 0, .callback 0,
  .updateAlterationsForContract () "-Lf00000000000000000" "-Lf0000000000000000b",
  .take 0 1, .deliver (), .callback 0, .deliver (),
  .updateAlterationsForContract () "-Lf00000000000000000" "-Lf0000000000000000c", .take 0 0]

theorem stored_lists_decode_hems : ∃ n, run step .initial hemsAppended = some n ∧
    Sound (appends hemsAppended) n.server ∧
    listAt n.server (.alterations "-Lf00000000000000000") =
      some ["-1", "-Lf0000000000000000a", "-Lf0000000000000000b"] := by
  have hrun : ∃ n ∈ run step (.initial : Net Unit) hemsAppended,
      listAt n.server (.alterations "-Lf00000000000000000") =
        some ["-1", "-Lf0000000000000000a", "-Lf0000000000000000b"] := by
    decide +kernel
  obtain ⟨n, hn, hlist⟩ := hrun
  exact ⟨n, hn, (stored_lists_decode hn).1, hlist⟩

end Pincushion.Sentinels
