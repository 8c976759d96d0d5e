import Pincushion.ReviewContract

/-! What the review table holds after any number of overlapping loads. Every
struct in it, or still to come, belongs to the load of the last list that
arrived, or to a record read that was in flight when that list emptied it. -/
namespace Pincushion.ReviewLoads
open KeyTree SwiftNumber Structs Singletons FirebaseHelpers Runs ReviewContract
variable {s s' : State} {e : Event} {es : List Event}

/-- All that a step can do. -/
theorem step_cases (h : step s e = some s') :
    (e = .viewWillAppear ∧ s' = { s with inFlight := s.inFlight ++ getAlterationUIDs s.statics }) ∨
    (∃ i request, e = .take i ∧ s.inFlight[i]? = some ⟨request, none⟩ ∧
      s' = { s with inFlight := s.inFlight.set i ⟨request, some (s.db.sub request.path)⟩ }) ∨
    (∃ i request value, e = .deliver i ∧ s.inFlight[i]? = some ⟨request, some value⟩ ∧
      s' = { s with
        vc := (s.vc.receive request value).1
        inFlight := s.inFlight.eraseIdx i ++ (s.vc.receive request value).2 }) ∨
    (∃ w, e = .write w ∧ s' = { s with db := w.apply s.db }) := by
  cases e with
  | viewWillAppear => exact Or.inl ⟨rfl, (Option.some.inj h).symm⟩
  | take i =>
    obtain ⟨request, hi, hs⟩ := take_eq.mp h
    exact Or.inr (Or.inl ⟨i, request, rfl, hi, hs⟩)
  | deliver i =>
    obtain ⟨request, value, hi, hs⟩ := deliver_eq.mp h
    exact Or.inr (Or.inr (Or.inl ⟨i, request, value, rfl, hi, hs⟩))
  | write w => exact Or.inr (Or.inr (Or.inr ⟨w, rfl, (Option.some.inj h).symm⟩))

theorem recordReads_append (xs ys : List Message) :
    recordReads (xs ++ ys) = recordReads xs ++ recordReads ys := by
  simp [recordReads]

theorem recordReads_getAlterationUIDs (g : Statics) : recordReads (getAlterationUIDs g) = [] := by
  unfold getAlterationUIDs
  split <;> rfl

theorem recordReads_getAlterationStructs (uids : List String) :
    recordReads (getAlterationStructs uids) = listed uids := by
  simp [recordReads, getAlterationStructs, issue, Request.recordUID, List.filterMap_map,
    Function.comp_def]

theorem mem_recordReads {inFlight : List Message} {m : Message} {u : String} (hm : m ∈ inFlight)
    (hu : m.request = .alteration u) : u ∈ recordReads inFlight := by
  simp only [recordReads, List.mem_filterMap, List.mem_map]
  exact ⟨m.request, ⟨m, hm, rfl⟩, by rw [hu]; rfl⟩

/-- A read that takes its value stays the read it is. -/
theorem requests_set {inFlight : List Message} {i : Nat} {request : Request}
    {value value' : Option Node} (hi : inFlight[i]? = some ⟨request, value⟩) :
    (inFlight.set i ⟨request, value'⟩).map (·.request) = inFlight.map (·.request) :=
  map_set_of_eq (b := ⟨request, value'⟩) (·.request) hi rfl

theorem recordReads_set {inFlight : List Message} {i : Nat} {request : Request}
    {value value' : Option Node} (hi : inFlight[i]? = some ⟨request, value⟩) :
    recordReads (inFlight.set i ⟨request, value'⟩) = recordReads inFlight := by
  simp only [recordReads, requests_set hi]

theorem recordReads_erase {inFlight : List Message} {i : Nat} {m : Message}
    (hi : inFlight[i]? = some m) :
    (recordReads inFlight).Perm (recordReads [m] ++ recordReads (inFlight.eraseIdx i)) := by
  obtain ⟨hlt, rfl⟩ := List.getElem?_eq_some_iff.mp hi
  rw [← recordReads_append, List.singleton_append]
  exact ((List.getElem_cons_eraseIdx_perm hlt).symm.map _).filterMap _

/-- What holds of the reads in flight, of those that a step issues and of a read that
takes its value, holds of the reads that are then in flight. -/
theorem forall_inFlight_step {P : Message → Prop} (h : ∀ m ∈ s.inFlight, P m)
    (hstep : step s e = some s')
    (happear : e = .viewWillAppear → P (issue (.alterations s.statics.contract.uid)))
    (htake : ∀ request, P ⟨request, none⟩ → P ⟨request, some (s.db.sub request.path)⟩)
    (hlist : ∀ uids, deliveredList s e = some uids →
      ∀ u ∈ listed uids, P (issue (.alteration u))) :
    ∀ m ∈ s'.inFlight, P m := by
  intro m hm
  obtain ⟨rfl, rfl⟩ | ⟨i, request, rfl, hi, rfl⟩ | ⟨i, request, value, rfl, hi, rfl⟩ |
    ⟨w, rfl, rfl⟩ := step_cases hstep
  · cases List.mem_append.mp hm with
    | inl hm => exact h m hm
    | inr hm =>
      rw [(mem_getAlterationUIDs hm).2]
      exact happear rfl
  · exact forall_mem_set h (htake request (h _ (List.mem_of_getElem? hi))) m hm
  · cases List.mem_append.mp hm with
    | inl hm => exact h m (List.mem_of_mem_eraseIdx hm)
    | inr hm =>
      obtain ⟨c, uids, rfl, huids, u, hu, rfl⟩ := mem_receive hm
      exact hlist uids (by simp [deliveredList, hi, huids]) u hu
  · exact h m hm

section
variable (records : String → Option AlterationStruct) (us : List String)

/-- What is stored under the listed uids, if it can be read, and what the reads
under way will bring of it. -/
structure Reads (s : State) : Prop where
  stored : ∀ u ∈ us, alterationAt s.db u = records u
  reads : ∀ m ∈ s.inFlight, ∀ u, m.request = .alteration u →
    u ∈ us ∧ ∀ v, m.value = some v → AlterationStruct.decode v = records u

/-- The table and what is to come are `stale` and the records that can be read. -/
def Gathers (stale : List AlterationStruct) (s : State) : Prop :=
  (s.vc.alterationStructArray ++ (recordReads s.inFlight).filterMap records).Perm
    (stale ++ us.filterMap records)

/-- A write that rewrites no listed record. -/
def Quiet : Event → Prop
  | .write w => ∀ u ∈ us, w.node ≠ ["alterations", u]
  | _ => True

end

section
variable {records : String → Option AlterationStruct} {us : List String}

theorem alterationAt_step {u : String} (hu : u ∈ us) (hq : Quiet us e)
    (hstep : step s e = some s') : alterationAt s'.db u = alterationAt s.db u := by
  obtain ⟨-, rfl⟩ | ⟨_, _, -, -, rfl⟩ | ⟨_, _, _, -, -, rfl⟩ | ⟨w, rfl, rfl⟩ := step_cases hstep
  · rfl
  · rfl
  · rfl
  · exact congrArg AlterationStruct.decode (sub_apply_ne w s.db (hq u hu))

theorem reads_step (h : Reads records us s) (hq : Quiet us e)
    (hl : ∀ uids, deliveredList s e = some uids → listed uids = us) (hstep : step s e = some s') :
    Reads records us s' := by
  constructor
  · intro u hu
    rw [alterationAt_step hu hq hstep]
    exact h.stored u hu
  · refine forall_inFlight_step h.reads hstep (fun _ u hu => by cases hu) ?_ ?_
    · intro request hread u hu
      obtain rfl : request = .alteration u := hu
      have hus := (hread u rfl).1
      refine ⟨hus, fun v hv => ?_⟩
      cases hv
      exact h.stored u hus
    · intro uids huids v hv u hu
      cases hu
      exact ⟨hl uids huids ▸ hv, fun _ hv => by cases hv⟩

/-- A record that arrives leaves the reads and enters the table, or cannot be
read and never was to be in it. -/
theorem gathers_step {stale : List AlterationStruct} (h : Gathers records us stale s)
    (hr : Reads records us s) (hnone : deliveredList s e = none) (hstep : step s e = some s') :
    Gathers records us stale s' := by
  refine List.Perm.trans ?_ h
  obtain ⟨rfl, rfl⟩ | ⟨i, request, rfl, hi, rfl⟩ | ⟨i, request, value, rfl, hi, rfl⟩ |
    ⟨w, rfl, rfl⟩ := step_cases hstep
  · simp only [recordReads_append, recordReads_getAlterationUIDs, List.append_nil]
    exact List.Perm.refl _
  · simp only [recordReads_set hi]
    exact List.Perm.refl _
  · have herase := (recordReads_erase hi).symm.filterMap records
    cases request with
    | alterations c =>
      have hvalue : asStrings value = none := by simpa [deliveredList, hi] using hnone
      simp only [ReviewContractVC.receive, hvalue, List.append_nil]
      exact herase.append_left _
    | alteration u =>
      have hbrings := (hr.reads _ (List.mem_of_getElem? hi) u rfl).2 value rfl
      rw [List.filterMap_append] at herase
      cases hdecode : AlterationStruct.decode value with
      | none =>
        have hread : [u].filterMap records = [] := by simp [← hbrings, hdecode]
        simp only [ReviewContractVC.receive, hdecode, List.append_nil]
        exact (hread ▸ herase).append_left _
      | some model =>
        have hread : [u].filterMap records = [model] := by simp [← hbrings, hdecode]
        simp only [ReviewContractVC.receive, hdecode, List.append_nil, List.append_assoc]
        exact (hread ▸ herase).append_left _
  · exact List.Perm.refl _

/-- The arrival of a list empties the table: all that is in flight becomes stale. -/
theorem gathers_list {uids : List String} (hl : deliveredList s e = some uids)
    (hus : listed uids = us) (hstep : step s e = some s') :
    Gathers records us ((recordReads s.inFlight).filterMap records) s' := by
  obtain ⟨rfl, rfl⟩ | ⟨i, request, rfl, hi, rfl⟩ | ⟨i, request, value, rfl, hi, rfl⟩ |
    ⟨w, rfl, rfl⟩ := step_cases hstep
  · cases hl
  · cases hl
  · cases request with
    | alteration u => simp [deliveredList, hi] at hl
    | alterations c =>
      have hvalue : asStrings value = some uids := by simpa [deliveredList, hi] using hl
      simp only [Gathers, ReviewContractVC.receive, hvalue, List.nil_append, recordReads_append,
        recordReads_getAlterationStructs, hus, List.filterMap_append]
      exact ((recordReads_erase hi).symm.filterMap records).append_right _
  · cases hl

end

section
variable (rec : String → AlterationStruct) (us : List String)

/-- The records of the listed uids, and what the reads under way will bring. -/
structure Sound (s : State) : Prop where
  known : ∀ u ∈ us, alterationAt s.db u = some (rec u)
  reads : ∀ m ∈ s.inFlight, ∀ u, m.request = .alteration u →
    u ∈ us ∧ ∀ v, m.value = some v → AlterationStruct.decode v = some (rec u)

/-- The table and what is to come are the listed records once each, and `n`
structs of reads that the last list overtook. -/
def Tally (n : Nat) (s : State) : Prop :=
  ∃ stale : List AlterationStruct, stale.length = n ∧
    (s.vc.alterationStructArray ++ (recordReads s.inFlight).map rec).Perm (stale ++ us.map rec)

end

variable {rec : String → AlterationStruct} {us : List String} {n : Nat}

/-- Where every listed record can be read, nothing is left out. -/
theorem sound_iff_reads : Sound rec us s ↔ Reads (fun u => some (rec u)) us s := by
  constructor
  · intro h
    exact ⟨h.known, h.reads⟩
  · intro h
    exact ⟨h.stored, h.reads⟩

theorem tally_iff_gathers :
    Tally rec us n s ↔ ∃ stale, stale.length = n ∧ Gathers (fun u => some (rec u)) us stale s := by
  simp only [Tally, Gathers, List.filterMap_eq_map']

theorem sound_step (h : Sound rec us s) (hq : Quiet us e)
    (hl : ∀ uids, deliveredList s e = some uids → listed uids = us) (hstep : step s e = some s') :
    Sound rec us s' :=
  sound_iff_reads.mpr (reads_step (sound_iff_reads.mp h) hq hl hstep)

/-- A step that delivers no list leaves the tally as it is. -/
theorem tally_step (h : Tally rec us n s) (hs : Sound rec us s) (hnone : deliveredList s e = none)
    (hstep : step s e = some s') : Tally rec us n s' := by
  obtain ⟨stale, hlen, hgathers⟩ := tally_iff_gathers.mp h
  have hgathers' := gathers_step hgathers (sound_iff_reads.mp hs) hnone hstep
  exact tally_iff_gathers.mpr ⟨stale, hlen, hgathers'⟩

/-- The arrival of a list starts the tally anew: all that is in flight is overtaken. -/
theorem tally_list {uids : List String} (hl : deliveredList s e = some uids)
    (hus : listed uids = us) (hstep : step s e = some s') :
    Tally rec us (recordReads s.inFlight).length s' := by
  refine tally_iff_gathers.mpr ⟨_, ?_, gathers_list hl hus hstep⟩
  rw [List.filterMap_eq_map', List.length_map]

/-- The store keeps the list of the contract, and so does every read of it. -/
structure Steady (c : String) (uids : List String) (s : State) : Prop where
  contract : s.statics.contract.uid = c
  stored : listAt s.db (.alterations c) = some uids
  arrivals : ∀ m ∈ s.inFlight, ∀ c', m.request = .alterations c' →
    c' = c ∧ ∀ v, m.value = some v → asStrings v = some uids

/-- A write that rewrites neither the contract nor a listed record. -/
def Undisturbed (c : String) (us : List String) : Event → Prop
  | .write w => w.node ≠ ["contracts", c] ∧ ∀ u ∈ us, w.node ≠ ["alterations", u]
  | _ => True

variable {c : String} {uids : List String}

theorem Undisturbed.quiet (h : Undisturbed c us e) : Quiet us e := by
  cases e with
  | write w => exact h.2
  | _ => trivial

theorem steady_step (h : Steady c uids s) (hu : Undisturbed c us e) (hstep : step s e = some s') :
    Steady c uids s' := by
  have hdata : s'.statics = s.statics ∧
      listAt s'.db (.alterations c) = listAt s.db (.alterations c) := by
    obtain ⟨-, rfl⟩ | ⟨_, _, -, -, rfl⟩ | ⟨_, _, _, -, -, rfl⟩ | ⟨w, rfl, rfl⟩ := step_cases hstep
    · exact ⟨rfl, rfl⟩
    · exact ⟨rfl, rfl⟩
    · exact ⟨rfl, rfl⟩
    · exact ⟨rfl, listAt_apply_ne s.db w (t := .alterations c) hu.1⟩
  refine ⟨hdata.1 ▸ h.contract, hdata.2.trans h.stored,
    forall_inFlight_step h.arrivals hstep ?_ ?_ ?_⟩
  · intro _ c' hc'
    cases hc'
    exact ⟨h.contract, fun _ hv => by cases hv⟩
  · intro request hread c' hc'
    obtain rfl : request = .alterations c' := hc'
    obtain rfl := (hread c' rfl).1
    refine ⟨rfl, fun v hv => ?_⟩
    cases hv
    exact h.stored
  · intro uids' _ u _ c' hc'
    cases hc'

theorem Steady.deliveredList_eq (h : Steady c uids s) {l : List String}
    (hl : deliveredList s e = some l) : l = uids := by
  cases e with
  | deliver i =>
    simp only [deliveredList] at hl
    split at hl
    · rename_i c' value hi
      have hv := (h.arrivals _ (List.mem_of_getElem? hi) c' rfl).2 value rfl
      exact Option.some.inj (hl.symm.trans hv)
    · cases hl
  | _ => cases hl

/-- The table is tallied, or a list is on its way. -/
def Loading (rec : String → AlterationStruct) (us : List String) (n : Nat) (s : State) : Prop :=
  Tally rec us n s ∨ ∃ c, .alterations c ∈ s.inFlight.map (·.request)

/-- A list on its way stays so until it is delivered. -/
theorem coming_step {c' : String} (hc : .alterations c' ∈ s.inFlight.map (·.request))
    (ht : Steady c uids s) (hl : deliveredList s e = none) (hstep : step s e = some s') :
    .alterations c' ∈ s'.inFlight.map (·.request) := by
  obtain ⟨rfl, rfl⟩ | ⟨i, request, rfl, hi, rfl⟩ | ⟨i, request, value, rfl, hi, rfl⟩ |
    ⟨w, rfl, rfl⟩ := step_cases hstep
  · simp only [List.map_append, List.mem_append, hc, true_or]
  · simpa only [requests_set hi] using hc
  · obtain ⟨m, hm, hreq⟩ := List.mem_map.mp hc
    obtain ⟨hlt, hget⟩ := List.getElem?_eq_some_iff.mp hi
    rw [← (List.getElem_cons_eraseIdx_perm hlt).mem_iff, hget, List.mem_cons] at hm
    cases hm with
    | inl hm =>
      -- a list that arrives is a list that was delivered
      obtain rfl : request = .alterations c' := by
        rw [← hreq, hm]
      have hv := (ht.arrivals _ (List.mem_of_getElem? hi) c' rfl).2 value rfl
      simp [deliveredList, hi, hv] at hl
    | inr hm =>
      rw [← hreq]
      exact List.mem_map_of_mem (List.mem_append_left _ hm)
  · exact hc

theorem loading_step (h : Loading rec (listed uids) n s) (hs : Sound rec (listed uids) s)
    (ht : Steady c uids s) (hstep : step s e = some s') :
    Loading rec (listed uids)
      (if (deliveredList s e).isSome then (recordReads s.inFlight).length else n) s' := by
  cases hl : deliveredList s e with
  | some l =>
    obtain rfl := ht.deliveredList_eq hl
    exact Or.inl (tally_list hl rfl hstep)
  | none =>
    cases h with
    | inl h => exact Or.inl (tally_step h hs hl hstep)
    | inr h =>
      obtain ⟨c', hc'⟩ := h
      exact Or.inr ⟨c', coming_step hc' ht hl hstep⟩

/-- A run with an appearance in it, or one that starts loading, ends loading. -/
theorem loading_run (hc : c ≠ "") (h : Loading rec (listed uids) n s ∨ .viewWillAppear ∈ es)
    (hs : Sound rec (listed uids) s) (ht : Steady c uids s)
    (hu : ∀ e ∈ es, Undisturbed c (listed uids) e) (hrun : run step s es = some s') :
    Loading rec (listed uids) (overtaken n s es) s' ∧ Sound rec (listed uids) s' ∧
      Steady c uids s' := by
  induction es generalizing s n with
  | nil =>
    obtain rfl := run_nil_eq.mp hrun
    exact ⟨h.resolve_right (by simp), hs, ht⟩
  | cons e es ih =>
    obtain ⟨m, he, hes⟩ := run_cons_eq.mp hrun
    have hue := hu e (List.mem_cons_self ..)
    have hs' : Sound rec (listed uids) m :=
      sound_step hs hue.quiet (fun l hl => by rw [ht.deliveredList_eq hl]) he
    have ht' := steady_step ht hue he
    rw [overtaken, accumulate_cons he]
    refine ih ?_ hs' ht' (fun e' he' => hu e' (List.mem_cons_of_mem _ he')) hes
    cases h with
    | inl h =>
      exact Or.inl (loading_step h hs ht he)
    | inr h =>
      cases List.mem_cons.mp h with
      | inl h =>
        left
        right
        subst h
        obtain rfl := Option.some.inj he
        exact ⟨c, by simp [getAlterationUIDs, ht.contract, hc, issue]⟩
      | inr h => exact Or.inr h

theorem known_records {db : Node} (h : ∀ u ∈ us, ∃ r, alterationAt db u = some r) :
    ∃ rec : String → AlterationStruct, ∀ u ∈ us, alterationAt db u = some (rec u) := by
  refine ⟨fun u => (alterationAt db u).getD default, fun u hu => ?_⟩
  obtain ⟨r, hr⟩ := h u hu
  simp only [hr, Option.getD_some]

/-- With nothing in flight the table shows the stored records exactly when the
last list to arrive overtook none. -/
theorem Tally.shows_iff (h : Tally rec (listed uids) n s) (hs : Sound rec (listed uids) s)
    (hl : listAt s.db (.alterations s.statics.contract.uid) = some uids)
    (hdone : recordReads s.inFlight = []) : Shows s s.vc.alterationStructArray ↔ n = 0 := by
  obtain ⟨stale, hlen, hperm⟩ := h
  have hrecs : (listed uids).map (alterationAt s.db) = ((listed uids).map rec).map some := by
    rw [List.map_map]
    exact List.map_congr_left hs.known
  rw [hdone, List.map_nil, List.append_nil] at hperm
  constructor
  · rintro ⟨uids', hl', hshow⟩
    obtain rfl : uids' = uids := Option.some.inj (hl'.symm.trans hl)
    have hcount := hperm.length_eq
    have hcount' := hshow.length_eq
    simp only [List.length_append, List.length_map] at hcount hcount'
    omega
  · intro hn
    obtain rfl := List.length_eq_zero_iff.mp (hlen.trans hn)
    refine ⟨uids, hl, ?_⟩
    rw [hrecs]
    exact hperm.map some

/-- The table shows every stored alteration once, and the totals say what they cost. -/
def CountedOnce (s : State) : Prop :=
  Shows s s.vc.alterationStructArray ∧
    getAlterationsTotalFloat s.vc.alterationStructArray = storedTotal s ∧
    getAlterationsTotal s.vc.alterationStructArray = "$" ++ floatDescription (storedTotal s)

theorem countedOnce_iff_shows : CountedOnce s ↔ Shows s s.vc.alterationStructArray := by
  constructor
  · exact And.left
  · intro h
    exact ⟨h, h.total, by rw [getAlterationsTotal, h.total]⟩

/-- Reloading counts every alteration once when no record read was in flight as
the last list arrived, and at no other time. -/
theorem countedOnce_iff_not_overtaken (hidle : s.inFlight = []) (hc : s.statics.contract.uid ≠ "")
    (hl : listAt s.db (.alterations s.statics.contract.uid) = some uids)
    (hdecode : ∀ u ∈ listed uids, ∃ r, alterationAt s.db u = some r)
    (hu : ∀ e ∈ es, Undisturbed s.statics.contract.uid (listed uids) e)
    (happear : .viewWillAppear ∈ es) (hrun : run step s es = some s') (hdone : s'.inFlight = []) :
    CountedOnce s' ↔ overtaken 0 s es = 0 := by
  obtain ⟨rec, hknown⟩ := known_records hdecode
  have hs : Sound rec (listed uids) s := ⟨hknown, by simp [hidle]⟩
  have ht : Steady s.statics.contract.uid uids s := ⟨rfl, hl, by simp [hidle]⟩
  obtain ⟨hload, hs', ht'⟩ := loading_run (n := 0) hc (Or.inr happear) hs ht hu hrun
  have htally := hload.resolve_right (by simp [hdone])
  rw [countedOnce_iff_shows]
  exact htally.shows_iff hs' (ht'.contract ▸ ht'.stored) (by rw [hdone]; rfl)

/-- A hem of contract "c" under the key "a", and nothing else. -/
def oneHem : State where
  db := (Write.list (.alterations "c") ["-1", "a"]).apply
    ((Write.alteration "a" { (default : AlterationStruct) with
        name := "Hem", actualCost := 20, totalCost := 20, units := 1
        uid := "a", contractUID := "c" }).apply
      ((addContractToFBDB "c" "d" "" "s" 0).2.apply empty))
  statics := { Statics.initial 0 0 with contract := { emptyContract 0 with uid := "c" } }
  vc := ⟨[], [], 0⟩
  inFlight := []

theorem countedOnce_oneHem :
    ∃ s', run step oneHem [.viewWillAppear, .take 0, .deliver 0, .take 0, .deliver 0] = some s' ∧
      CountedOnce s' := by
  have hlist : listAt oneHem.db (.alterations "c") = some ["-1", "a"] := rfl
  have hover : overtaken 0 oneHem [.viewWillAppear, .take 0, .deliver 0, .take 0, .deliver 0] = 0 :=
    rfl
  refine ⟨_, rfl, (countedOnce_iff_not_overtaken rfl (by decide) hlist ?_ ?_ ?_ rfl rfl).mpr hover⟩
  · intro u hu
    obtain rfl : u = "a" := by simpa [listed] using hu
    exact ⟨_, rfl⟩
  · simp [Undisturbed]
  · simp

/-- Two appearances whose reads arrive in the order they were issued show the hem twice. -/
theorem not_countedOnce_oneHem :
    ∃ s', run step oneHem [.viewWillAppear, .viewWillAppear, .take 0, .deliver 0, .take 0,
        .deliver 0, .take 0, .deliver 0, .take 0, .deliver 0] = some s' ∧
      s'.inFlight = [] ∧ ¬ CountedOnce s' := by
  refine ⟨_, rfl, rfl, ?_⟩
  rintro ⟨⟨uids, hl, hperm⟩, -⟩
  obtain rfl : uids = ["-1", "a"] := (Option.some.inj hl).symm
  exact absurd hperm.length_eq (by decide)

/-- A step of a load that nothing disturbs: no further list arrives and no listed
record is rewritten. -/
def Settles (us : List String) (s : State) (e : Event) : Prop :=
  deliveredList s e = none ∧ Quiet us e

/-- The last list to arrive overtook no record read, all its records have
arrived, and list and records are still as they were. -/
structure Settled (s : State) (uids : List String) : Prop where
  arrived : ∃ start next i es, deliveredList start (.deliver i) = some uids ∧
    recordReads start.inFlight = [] ∧ step start (.deliver i) = some next ∧
    Along step (Settles (listed uids)) next es ∧ run step next es = some s
  complete : recordReads s.inFlight = []
  stored : listAt s.db (.alterations s.statics.contract.uid) = some uids
  decode : ∀ u ∈ listed uids, ∃ r, alterationAt s.db u = some r

/-- Records that no step rewrites stay as they are. -/
theorem alterationAt_run {u : String} (hu : u ∈ us) (h : Along step (Settles us) s es)
    (hrun : run step s es = some s') : alterationAt s'.db u = alterationAt s.db u := by
  refine run_invariant_along (fun t => alterationAt t.db u = alterationAt s.db u) ?_ rfl h hrun
  intro t e t' ht hsettles hstep
  exact (alterationAt_step hu hsettles.2 hstep).trans ht

theorem deliver_db {i : Nat} (h : step s (.deliver i) = some s') : s'.db = s.db := by
  obtain ⟨he, -⟩ | ⟨_, _, he, -⟩ | ⟨i, request, value, he, hi, rfl⟩ | ⟨_, he, -⟩ := step_cases h
  · cases he
  · cases he
  · rfl
  · cases he

theorem Settled.shows (h : Settled s uids) : Shows s s.vc.alterationStructArray := by
  obtain ⟨start, next, i, es, hl, hnone, hfirst, hsettles, hrun⟩ := h.arrived
  obtain ⟨rec, hknown⟩ := known_records h.decode
  have hstart : Sound rec (listed uids) start := by
    constructor
    · intro u hu
      rw [← deliver_db hfirst, ← alterationAt_run hu hsettles hrun]
      exact hknown u hu
    · intro m hm u hu
      have hmem := mem_recordReads hm hu
      rw [hnone] at hmem
      cases hmem
  have hlist : ∀ l, deliveredList start (.deliver i) = some l → listed l = listed uids := by
    intro l hl'
    rw [Option.some.inj (hl'.symm.trans hl)]
  have hnext : Sound rec (listed uids) next ∧ Tally rec (listed uids) 0 next := by
    constructor
    · exact sound_step (e := .deliver i) hstart trivial hlist hfirst
    · have htally : Tally rec (listed uids) (recordReads start.inFlight).length next :=
        tally_list hl rfl hfirst
      rwa [hnone, List.length_nil] at htally
  obtain ⟨hs, ht⟩ := run_invariant_along
    (fun t => Sound rec (listed uids) t ∧ Tally rec (listed uids) 0 t)
    (fun t e t' ht hsettles hstep =>
      ⟨sound_step ht.1 hsettles.2 (by simp [hsettles.1]) hstep,
        tally_step ht.2 ht.1 hsettles.1 hstep⟩)
    hnext hsettles hrun
  exact (ht.shows_iff hs h.stored h.complete).mpr rfl

end Pincushion.ReviewLoads
