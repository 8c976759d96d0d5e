import Pincushion.ReviewLoads

/-! One load of the review table. Its record reads can arrive in every order, and
in whatever order they do, the table holds the same records and has the same total. -/
namespace Pincushion.DeliveryOrder
open KeyTree SwiftNumber Structs Singletons FirebaseHelpers Runs ReviewContract ReviewLoads
variable {s s' : State} {e : Event} {es : List Event} {uids us : List String} {db : Node}

/-- The screen as a call of `getAlterationStructs` leaves it, with no other load in flight. -/
def loading (s : State) (uids : List String) : State :=
  { s with
    vc := { s.vc with alterationsUIDArray := uids, alterationStructArray := [] }
    inFlight := getAlterationStructs uids }

/-- It is the arrival of the list that calls it. -/
theorem deliver_list {c : String} {value : Node}
    (hflight : s.inFlight = [⟨.alterations c, some value⟩]) (hl : asStrings value = some uids) :
    step s (.deliver 0) = some (loading s uids) := by
  refine deliver_eq.mpr ⟨.alterations c, value, by rw [hflight]; rfl, ?_⟩
  simp only [loading, ReviewContractVC.receive, hl, hflight, List.eraseIdx_cons_zero,
    List.nil_append]

/-- A step that starts no other load and rewrites no listed record. -/
def Arrival (us : List String) (e : Event) : Prop := e ≠ .viewWillAppear ∧ Quiet us e

/-- Part of the listed records are in the table, and reads for the others under way. -/
structure Midway (db : Node) (us : List String) (s : State) : Prop where
  only : ∀ m ∈ s.inFlight, ∃ u, m.request = .alteration u
  reads : Reads (alterationAt db) us s
  gathers : Gathers (alterationAt db) us [] s

theorem midway_loading : Midway s.db (listed uids) (loading s uids) := by
  constructor
  · intro m hm
    obtain ⟨u, -, rfl⟩ := mem_getAlterationStructs hm
    exact ⟨u, rfl⟩
  · refine ⟨fun u _ => rfl, fun m hm u hu => ?_⟩
    obtain ⟨u', hu', rfl⟩ := mem_getAlterationStructs hm
    cases hu
    exact ⟨hu', fun v hv => by cases hv⟩
  · simp only [Gathers, loading, recordReads_getAlterationStructs]
    exact List.Perm.refl _

theorem Midway.deliveredList_eq (h : Midway db us s) : deliveredList s e = none := by
  cases e with
  | deliver i =>
    simp only [deliveredList]
    split
    · rename_i c value hi
      obtain ⟨u, hu⟩ := h.only _ (List.mem_of_getElem? hi)
      cases hu
    · rfl
  | _ => rfl

theorem receive_alteration (vc : ReviewContractVC) (u : String) (value : Node) :
    (vc.receive (.alteration u) value).2 = [] ∧
      (vc.receive (.alteration u) value).1.alterationStructArray =
        vc.alterationStructArray ++ (AlterationStruct.decode value).toList := by
  simp only [ReviewContractVC.receive]
  cases AlterationStruct.decode value <;> simp

theorem midway_step (h : Midway db us s) (he : Arrival us e) (hstep : step s e = some s') :
    Midway db us s' := by
  have hnone := h.deliveredList_eq (e := e)
  refine ⟨?_, reads_step h.reads he.2 (by simp [hnone]) hstep,
    gathers_step h.gathers h.reads hnone hstep⟩
  refine forall_inFlight_step h.only hstep (fun happear => absurd happear he.1) ?_ ?_
  · intro request hread
    exact hread
  · intro uids _ u _
    exact ⟨u, rfl⟩

/-- What is left when every read has arrived. -/
theorem arrived (hes : ∀ e ∈ es, Arrival (listed uids) e)
    (hrun : run step (loading s uids) es = some s') (hdone : s'.inFlight = []) :
    s'.vc.alterationStructArray.Perm ((listed uids).filterMap (alterationAt s.db)) := by
  have halong : Along step (fun _ => Arrival (listed uids)) (loading s uids) es :=
    (along_iff_forall hrun).mpr hes
  have hmid := run_invariant_along (Midway s.db (listed uids))
    (fun _ _ _ h he hstep => midway_step h he hstep) midway_loading halong hrun
  have hgathers := hmid.gathers
  simpa [Gathers, hdone, recordReads] using hgathers

theorem getAlterationsTotalFloat_perm {xs ys : List AlterationStruct} (h : xs.Perm ys) :
    getAlterationsTotalFloat xs = getAlterationsTotalFloat ys := by
  rw [getAlterationsTotalFloat_eq_sum, getAlterationsTotalFloat_eq_sum]
  exact (h.map (·.getTotalCost)).sum_eq

/-- A read that takes its value and arrives at once. -/
theorem take_deliver {i : Nat} {u : String} (hi : s.inFlight[i]? = some (issue (.alteration u))) :
    ∃ s', run step s [.take i, .deliver i] = some s' ∧ s'.db = s.db ∧
      s'.inFlight = s.inFlight.eraseIdx i ∧
      s'.vc.alterationStructArray =
        s.vc.alterationStructArray ++ (alterationAt s.db u).toList := by
  let value := s.db.sub ["alterations", u]
  let taken : State := { s with inFlight := s.inFlight.set i ⟨.alteration u, some value⟩ }
  have htake : step s (.take i) = some taken := take_eq.mpr ⟨.alteration u, hi, rfl⟩
  have hlt : i < s.inFlight.length := (List.getElem?_eq_some_iff.mp hi).1
  have hvalue : taken.inFlight[i]? = some ⟨.alteration u, some value⟩ := by
    simp only [taken, List.getElem?_set_self hlt]
  have hdeliver := deliver_eq.mpr ⟨.alteration u, value, hvalue, rfl⟩
  obtain ⟨hissues, hshows⟩ := receive_alteration s.vc u value
  refine ⟨_, run_cons_eq.mpr ⟨taken, htake, run_cons_eq.mpr ⟨_, hdeliver, rfl⟩⟩, rfl, ?_, hshows⟩
  simp only [taken, hissues, List.append_nil, List.eraseIdx_set_eq]

/-- Every order of the listed uids is one in which their records can arrive. -/
theorem arrives_in_order {order : List String} (h : order.Perm us)
    (hflight : s.inFlight = us.map fun u => issue (.alteration u)) :
    ∃ es s', (∀ e ∈ es, ∃ i, e = .take i ∨ e = .deliver i) ∧ run step s es = some s' ∧
      s'.inFlight = [] ∧ s'.vc.alterationStructArray =
        s.vc.alterationStructArray ++ order.filterMap (alterationAt s.db) := by
  induction order generalizing s us with
  | nil =>
    obtain rfl := h.nil_eq
    exact ⟨[], s, by simp, rfl, hflight, by simp⟩
  | cons u order ih =>
    obtain ⟨i, hi, hget⟩ := List.mem_iff_getElem.mp (h.mem_iff.mp (List.mem_cons_self ..))
    have hissued : s.inFlight[i]? = some (issue (.alteration u)) := by
      simp [hflight, hi, hget]
    obtain ⟨next, hfirst, hdb, hrest, hshows⟩ := take_deliver hissued
    have hperm : order.Perm (us.eraseIdx i) := by
      have hcons := List.getElem_cons_eraseIdx_perm hi
      rw [hget] at hcons
      exact (List.perm_cons u).mp (h.trans hcons.symm)
    have hflight' : next.inFlight = (us.eraseIdx i).map fun u => issue (.alteration u) := by
      rw [hrest, hflight, List.eraseIdx_map]
    obtain ⟨es, s', hes, hrun, hdone, harray⟩ := ih hperm hflight'
    refine ⟨[.take i, .deliver i] ++ es, s', ?_, run_append_eq.mpr ⟨next, hfirst, hrun⟩, hdone, ?_⟩
    · intro e he
      cases List.mem_append.mp he with
      | inl he => exact ⟨i, by simpa using he⟩
      | inr he => exact hes e he
    · rw [harray, hshows, hdb, List.append_assoc, List.filterMap_cons]
      cases alterationAt s.db u <;> rfl

theorem arrival_of_read {i : Nat} (h : e = .take i ∨ e = .deliver i) : Arrival us e := by
  cases h with
  | inl h => exact ⟨by simp [h], by rw [h]; trivial⟩
  | inr h => exact ⟨by simp [h], by rw [h]; trivial⟩

theorem loading_arrives_in_order {order : List String} (h : order.Perm (listed uids)) :
    ∃ es s', (∀ e ∈ es, Arrival (listed uids) e) ∧ run step (loading s uids) es = some s' ∧
      s'.inFlight = [] ∧
      s'.vc.alterationStructArray = order.filterMap (alterationAt s.db) := by
  obtain ⟨es, s', hes, hrun, hdone, harray⟩ := arrives_in_order (s := loading s uids) h rfl
  refine ⟨es, s', fun e he => ?_, hrun, hdone, harray⟩
  obtain ⟨i, hi⟩ := hes e he
  exact arrival_of_read hi

/-- The order in which the reads of one load arrive makes no difference to what
the contract costs, nor to which records are in the table. -/
theorem total_of_any_order (s : State) (uids : List String) {es₁ es₂ : List Event}
    {s₁ s₂ : State} (h₁ : ∀ e ∈ es₁, Arrival (listed uids) e)
    (h₂ : ∀ e ∈ es₂, Arrival (listed uids) e)
    (hrun₁ : run step (loading s uids) es₁ = some s₁)
    (hrun₂ : run step (loading s uids) es₂ = some s₂)
    (hdone₁ : s₁.inFlight = []) (hdone₂ : s₂.inFlight = []) :
    s₁.vc.alterationStructArray.Perm s₂.vc.alterationStructArray ∧
      s₁.vc.alterationStructArray.Perm ((listed uids).filterMap (alterationAt s.db)) ∧
      s₂.vc.alterationStructArray.Perm ((listed uids).filterMap (alterationAt s.db)) ∧
      getAlterationsTotalFloat s₁.vc.alterationStructArray =
        getAlterationsTotalFloat s₂.vc.alterationStructArray ∧
      getAlterationsTotal s₁.vc.alterationStructArray =
        getAlterationsTotal s₂.vc.alterationStructArray := by
  have hperm₁ := arrived h₁ hrun₁ hdone₁
  have hperm₂ := arrived h₂ hrun₂ hdone₂
  have hperm := hperm₁.trans hperm₂.symm
  have htotal := getAlterationsTotalFloat_perm hperm
  refine ⟨hperm, hperm₁, hperm₂, htotal, ?_⟩
  rw [getAlterationsTotal, htotal, getAlterationsTotal]

/-- A hem and a bustle. -/
def twoRecords : State where
  db := (Write.alteration "b" { (default : AlterationStruct) with
      name := "Bustle", actualCost := 35, totalCost := 35, units := 1
      uid := "b", contractUID := "c" }).apply oneHem.db
  statics := oneHem.statics
  vc := ⟨[], [], 0⟩
  inFlight := []

/-- The sentinel, a uid twice, and one that has no record. -/
def repeatedUIDs : List String := ["a", "-1", "b", "x", "a"]

def asIssued : List Event :=
  [.take 0, .take 1, .take 2, .take 3, .deliver 0, .deliver 0, .deliver 0, .deliver 0]

def shuffled : List Event :=
  [.take 1, .deliver 1, .take 2, .take 1, .deliver 1, .deliver 1, .take 0, .deliver 0]

theorem total_twoRecords :
    ∃ s₁ s₂, run step (loading twoRecords repeatedUIDs) asIssued = some s₁ ∧
      run step (loading twoRecords repeatedUIDs) shuffled = some s₂ ∧
      s₁.vc.alterationStructArray.length = 3 ∧
      s₁.vc.alterationStructArray ≠ s₂.vc.alterationStructArray ∧
      getAlterationsTotal s₁.vc.alterationStructArray =
        getAlterationsTotal s₂.vc.alterationStructArray := by
  have hissued : ∀ e ∈ asIssued, Arrival (listed repeatedUIDs) e := by
    simp [asIssued, Arrival, Quiet]
  have hshuffled : ∀ e ∈ shuffled, Arrival (listed repeatedUIDs) e := by
    simp [shuffled, Arrival, Quiet]
  refine ⟨_, _, rfl, rfl, by decide, by decide, ?_⟩
  exact (total_of_any_order twoRecords repeatedUIDs hissued hshuffled rfl rfl rfl rfl).2.2.2.2

end Pincushion.DeliveryOrder
