import Mathlib.Data.List.Nodup
import Pincushion.FirebaseHelpers
import Pincushion.StaleAppend

/-! Concurrent calls of the three append helpers on one store. A call issues a
read of its node, the read takes the value the node has at some later moment,
and later still the callback sets the whole list. -/
namespace Pincushion.Appends
open KeyTree Structs FirebaseHelpers Runs
open StaleAppend (Event)

inductive Phase where
  | idle
  | issued
  | taken (value : Node)
  | finished

structure Call where
  append : ListAppend
  phase : Phase

structure State where
  db : Node
  calls : List Call

/-- The effect of a callback whose read delivered `value`. -/
def deliver (db : Node) (a : ListAppend) (value : Node) : Node :=
  match a.callback value with
  | some w => w.apply db
  | none => db

def step (s : State) : Event → Option State
  | .issue i => match s.calls[i]? with
    | some ⟨a, .idle⟩ => some { s with calls := s.calls.set i ⟨a, .issued⟩ }
    | _ => none
  | .take i => match s.calls[i]? with
    | some ⟨a, .issued⟩ =>
        some { s with calls := s.calls.set i ⟨a, .taken (s.db.sub a.target.node)⟩ }
    | _ => none
  | .put i => match s.calls[i]? with
    | some ⟨a, .taken value⟩ =>
        some ⟨deliver s.db a value, s.calls.set i ⟨a, .finished⟩⟩
    | _ => none

/-- The uids that the calls are to add to the list of `t`. -/
def news (calls : List Call) (t : ListTarget) : List String :=
  calls.flatMap fun c => if c.append.target = t then c.append.new else []

/-- From `s` to `s'` every target list keeps each uid it had and gets each new
uid, each as often as it had it or was to get it. -/
def KeepsAll (s s' : State) : Prop :=
  ∀ c ∈ s.calls, ∃ l l', serverList s.db c.append.target = some l ∧
    serverList s'.db c.append.target = some l' ∧
    ∀ u ∈ l ++ news s.calls c.append.target,
      l'.count u = (l ++ news s.calls c.append.target).count u

/-- Where no uid is listed or brought twice, that is once each. -/
theorem KeepsAll.count_eq_one {s s' : State} (h : KeepsAll s s') {c : Call} (hc : c ∈ s.calls)
    {l : List String} (hl : serverList s.db c.append.target = some l)
    (hnodup : (l ++ news s.calls c.append.target).Nodup) :
    ∃ l', serverList s'.db c.append.target = some l' ∧
      ∀ u ∈ l ++ news s.calls c.append.target, l'.count u = 1 := by
  obtain ⟨m, l', hm, hl', hcount⟩ := h c hc
  obtain rfl : m = l := Option.some.inj (hm.symm.trans hl)
  refine ⟨l', hl', fun u hu => ?_⟩
  rw [hcount u hu, List.nodup_iff_count_eq_one.mp hnodup u hu]

/-- The callback finds the list of its node as its read took it. -/
def FreshWrite (s : State) : Event → Prop
  | .put i => match s.calls[i]? with
    | some ⟨a, .taken value⟩ => serverList s.db a.target = a.target.decode value
    | _ => True
  | _ => True

def Phase.abs (t : ListTarget) : Phase → StaleAppend.Phase String
  | .idle => .idle
  | .issued => .issued
  | .taken value => .taken ((t.decode value).getD [])
  | .finished => .done

def Call.abs (c : Call) : StaleAppend.Job ListTarget String :=
  ⟨c.append.target, c.append.new, c.phase.abs c.append.target⟩

def lists (db : Node) (t : ListTarget) : List String := (serverList db t).getD []

def State.abs (s : State) : StaleAppend.State ListTarget String :=
  ⟨lists s.db, s.calls.map Call.abs⟩

/-- Every node a call is about decodes, as does every value its read took. -/
def Decodes (s : State) : Prop :=
  ∀ c ∈ s.calls, (∃ l, serverList s.db c.append.target = some l) ∧
    ∀ value, c.phase = .taken value → ∃ l, c.append.target.decode value = some l

variable {s s' : State} {e : Event} {es : List Event}

/-- All that a step can do while the nodes decode. -/
theorem step_cases (hd : Decodes s) (h : step s e = some s') :
    (∃ i a, e = .issue i ∧ s.calls[i]? = some ⟨a, .idle⟩ ∧
      s' = ⟨s.db, s.calls.set i ⟨a, .issued⟩⟩) ∨
    (∃ i a l, e = .take i ∧ s.calls[i]? = some ⟨a, .issued⟩ ∧
      serverList s.db a.target = some l ∧
      s' = ⟨s.db, s.calls.set i ⟨a, .taken (s.db.sub a.target.node)⟩⟩) ∨
    (∃ i a value seen l, e = .put i ∧ s.calls[i]? = some ⟨a, .taken value⟩ ∧
      serverList s.db a.target = some l ∧ a.target.decode value = some seen ∧
      s' = ⟨(Write.list a.target (seen ++ a.new)).apply s.db,
        s.calls.set i ⟨a, .finished⟩⟩) := by
  cases e with
  | issue i =>
    simp only [step] at h
    split at h
    · rename_i a hi
      exact Or.inl ⟨i, a, rfl, hi, (Option.some.inj h).symm⟩
    · cases h
  | take i =>
    simp only [step] at h
    split at h
    · rename_i a hi
      obtain ⟨l, hl⟩ := (hd _ (List.mem_of_getElem? hi)).1
      exact Or.inr (Or.inl ⟨i, a, l, rfl, hi, hl, (Option.some.inj h).symm⟩)
    · cases h
  | put i =>
    simp only [step] at h
    split at h
    · rename_i a value hi
      obtain ⟨⟨l, hl⟩, hv⟩ := hd _ (List.mem_of_getElem? hi)
      obtain ⟨seen, hseen⟩ := hv value rfl
      refine Or.inr (Or.inr ⟨i, a, value, seen, l, rfl, hi, hl, hseen, ?_⟩)
      simp only at hseen
      simp only [deliver, ListAppend.callback, hseen] at h
      exact (Option.some.inj h).symm
    · cases h

/-- Setting one target's list leaves every other target's list as it was. -/
theorem lists_apply {db : Node} {t : ListTarget} {l l' : List String}
    (h : serverList db t = some l) (hl : l' ≠ []) :
    lists ((Write.list t l').apply db) = Function.update (lists db) t l' := by
  funext t'
  by_cases ht : t' = t
  · subst ht
    simp [lists, serverList_apply_list h hl]
  · have hnode : (Write.list t l').node ≠ t'.node :=
      fun heq => ht (ListTarget.node_injective heq).symm
    simp [lists, serverList_apply_ne _ _ hnode, Function.update_of_ne ht]

theorem decodes_apply {db : Node} {t t' : ListTarget} {l : List String}
    (h : ∃ l', serverList db t' = some l') (hl : l ≠ []) :
    ∃ l', serverList ((Write.list t l).apply db) t' = some l' := by
  obtain ⟨l', hl'⟩ := h
  by_cases ht : t = t'
  · subst ht
    exact ⟨l, serverList_apply_list hl' hl⟩
  · have hnode : (Write.list t l).node ≠ t'.node := fun heq => ht (ListTarget.node_injective heq)
    exact ⟨l', (serverList_apply_ne _ _ hnode).trans hl'⟩

theorem decodes_step (s : State) (e : Event) (s' : State) (hd : Decodes s)
    (h : step s e = some s') : Decodes s' := by
  obtain ⟨i, a, rfl, hi, rfl⟩ | ⟨i, a, l, rfl, hi, hl, rfl⟩ |
    ⟨i, a, value, seen, l, rfl, hi, hl, hseen, rfl⟩ := step_cases hd h
  · refine forall_mem_set hd ?_
    exact ⟨(hd _ (List.mem_of_getElem? hi)).1, fun _ hv => by cases hv⟩
  · refine forall_mem_set hd ⟨⟨l, hl⟩, fun v hv => ?_⟩
    cases hv
    exact ⟨l, hl⟩
  · have hne : seen ++ a.new ≠ [] := by simp [decode_ne_nil hseen]
    refine forall_mem_set (fun c hc => ?_) ?_
    · exact ⟨decodes_apply (hd c hc).1 hne, (hd c hc).2⟩
    · exact ⟨decodes_apply ⟨l, hl⟩ hne, fun _ hv => by cases hv⟩

/-- The store of nodes is a store of lists as far as the helpers can see. -/
theorem abs_step (s : State) (e : Event) (s' : State) (hd : Decodes s)
    (h : step s e = some s') : StaleAppend.step s.abs e = some s'.abs := by
  obtain ⟨i, a, rfl, hi, rfl⟩ | ⟨i, a, l, rfl, hi, hl, rfl⟩ |
    ⟨i, a, value, seen, l, rfl, hi, hl, hseen, rfl⟩ := step_cases hd h
  · simp [StaleAppend.step, State.abs, hi, Call.abs, Phase.abs, List.map_set]
  · simp [StaleAppend.step, State.abs, hi, Call.abs, Phase.abs, List.map_set, lists, serverList]
  · have hne : seen ++ a.new ≠ [] := by simp [decode_ne_nil hseen]
    simp [StaleAppend.step, State.abs, hi, Call.abs, Phase.abs, List.map_set, hseen,
      lists_apply hl hne]

theorem freshWrite_iff (s : State) (e : Event) (hd : Decodes s) :
    FreshWrite s e ↔ StaleAppend.FreshPut s.abs e := by
  cases e with
  | issue i => exact Iff.rfl
  | take i => exact Iff.rfl
  | put i =>
    simp only [FreshWrite, StaleAppend.FreshPut, State.abs, List.getElem?_map]
    cases hi : s.calls[i]? with
    | none => simp
    | some c =>
      obtain ⟨a, phase⟩ := c
      obtain ⟨⟨l, hl⟩, hv⟩ := hd _ (List.mem_of_getElem? hi)
      cases phase with
      | taken value =>
        obtain ⟨seen, hseen⟩ := hv value rfl
        simp only at hl hseen
        simp [Call.abs, Phase.abs, lists, hl, hseen]
      | _ => simp [Call.abs, Phase.abs]

theorem planned_abs (calls : List Call) (t : ListTarget) :
    StaleAppend.planned (calls.map Call.abs) t = news calls t := by
  simp only [StaleAppend.planned, List.flatMap_map]
  rfl

theorem abs_run (hd : Decodes s) (hrun : run step s es = some s') :
    run StaleAppend.step s.abs es = some s'.abs :=
  run_simulation State.abs Decodes decodes_step abs_step hd hrun

/-- With all calls finished, what has landed is what the calls were to add. -/
theorem landed_abs (hd : Decodes s) (hrun : run step s es = some s')
    (hdone : ∀ c ∈ s'.calls, c.phase = .finished) (t : ListTarget) :
    StaleAppend.landed s'.abs.jobs t = news s.calls t := by
  have hphase : ∀ j ∈ s'.abs.jobs, j.phase = .done := by
    intro j hj
    obtain ⟨c, hc, rfl⟩ := List.mem_map.mp hj
    simp only [Call.abs, hdone c hc, Phase.abs]
  rw [StaleAppend.landed_eq_planned _ hphase, StaleAppend.run_planned (abs_run hd hrun) t]
  exact planned_abs s.calls t

/-- A target that decodes does so to the end of every run. -/
theorem serverList_run {t : ListTarget} {l : List String} (hd : Decodes s)
    (hl : serverList s.db t = some l) (hrun : run step s es = some s') :
    ∃ l', serverList s'.db t = some l' := by
  have hstep : ∀ m e m', (Decodes m ∧ ∃ l, serverList m.db t = some l) → step m e = some m' →
      Decodes m' ∧ ∃ l, serverList m'.db t = some l := by
    rintro m e m' ⟨hm, hlist⟩ h
    refine ⟨decodes_step m e m' hm h, ?_⟩
    obtain ⟨i, a, -, -, rfl⟩ | ⟨i, a, -, -, -, -, rfl⟩ |
      ⟨i, a, value, seen, -, -, -, -, hseen, rfl⟩ := step_cases hm h
    · exact hlist
    · exact hlist
    · exact decodes_apply hlist (by simp [decode_ne_nil hseen])
  exact (run_invariant _ hstep ⟨hd, l, hl⟩ hrun).2

theorem keepsAll_iff (hd : Decodes s) (hrun : run step s es = some s')
    (hdone : ∀ c ∈ s'.calls, c.phase = .finished) :
    KeepsAll s s' ↔ ∀ j ∈ s.abs.jobs, StaleAppend.Complete s.abs.value j.node s'.abs := by
  have hpoint : ∀ c ∈ s.calls, (∃ l l', serverList s.db c.append.target = some l ∧
      serverList s'.db c.append.target = some l' ∧
      ∀ u ∈ l ++ news s.calls c.append.target,
        l'.count u = (l ++ news s.calls c.append.target).count u) ↔
      StaleAppend.Complete s.abs.value c.abs.node s'.abs := by
    intro c hc
    obtain ⟨l, hl⟩ := (hd c hc).1
    obtain ⟨l', hl'⟩ := serverList_run hd hl hrun
    have hland := landed_abs hd hrun hdone c.append.target
    simp only [StaleAppend.Complete, Call.abs, hland]
    simp [State.abs, lists, hl, hl']
  simp only [KeepsAll]
  constructor
  · intro h j hj
    obtain ⟨c, hc, rfl⟩ := List.mem_map.mp hj
    exact (hpoint c hc).mp (h c hc)
  · intro h c hc
    exact (hpoint c hc).mpr (h c.abs (List.mem_map_of_mem hc))

theorem along_freshWrite_iff (hd : Decodes s) (hrun : run step s es = some s') :
    Along step FreshWrite s es ↔ Along StaleAppend.step StaleAppend.FreshPut s.abs es :=
  along_simulation State.abs Decodes decodes_step abs_step freshWrite_iff hd hrun

/-- Before any call has begun, that its node decodes is all there is to ask. -/
theorem decodes_start (hidle : ∀ c ∈ s.calls, c.phase = .idle)
    (hnodes : ∀ c ∈ s.calls, ∃ l, serverList s.db c.append.target = some l) : Decodes s := by
  intro c hc
  refine ⟨hnodes c hc, fun value hv => ?_⟩
  rw [hidle c hc] at hv
  cases hv

theorem idle_abs (hidle : ∀ c ∈ s.calls, c.phase = .idle) : ∀ j ∈ s.abs.jobs, j.phase = .idle := by
  intro j hj
  obtain ⟨c, hc, rfl⟩ := List.mem_map.mp hj
  simp only [Call.abs, hidle c hc, Phase.abs]

/-- Appends lose no uid in a run in which every callback finds the list of its
node as its read took it, and where each call brings a uid in no other run. -/
theorem keepsAll_iff_freshWrite (hidle : ∀ c ∈ s.calls, c.phase = .idle)
    (hnodes : ∀ c ∈ s.calls, ∃ l, serverList s.db c.append.target = some l)
    (hrun : run step s es = some s') (hdone : ∀ c ∈ s'.calls, c.phase = .finished) :
    (Along step FreshWrite s es → KeepsAll s s') ∧
    ((∀ c ∈ s.calls, c.append.new ≠ []) → KeepsAll s s' → Along step FreshWrite s es) := by
  have hd := decodes_start hidle hnodes
  have hrun' := abs_run hd hrun
  rw [keepsAll_iff hd hrun hdone, along_freshWrite_iff hd hrun]
  constructor
  · intro hfresh j _
    exact StaleAppend.complete_of_fresh (idle_abs hidle) hrun' hfresh j.node
  · intro hnew hkeep
    refine StaleAppend.fresh_of_complete (idle_abs hidle) ?_ hrun' hkeep
    intro j hj
    obtain ⟨c, hc, rfl⟩ := List.mem_map.mp hj
    exact hnew c hc

/-- Two calls that add an alteration to the new contract "c". -/
def twoAdds : State where
  db := (addContractToFBDB "c" "d" "b" "s" 0).2.apply empty
  calls := [⟨updateAlterationsForContract "c" "a", .idle⟩,
    ⟨updateAlterationsForContract "c" "b", .idle⟩]

/-- One call after the other keeps both uids. -/
theorem keepsAll_twoAdds_sequential :
    ∃ s', run step twoAdds [.issue 0, .take 0, .put 0, .issue 1, .take 1, .put 1] = some s' ∧
      KeepsAll twoAdds s' := by
  let first := (Write.list (.alterations "c") ["-1", "a"]).apply twoAdds.db
  let second := (Write.list (.alterations "c") ["-1", "a", "b"]).apply first
  have hrun : run step twoAdds [.issue 0, .take 0, .put 0, .issue 1, .take 1, .put 1] =
      some ⟨second, [⟨updateAlterationsForContract "c" "a", .finished⟩,
        ⟨updateAlterationsForContract "c" "b", .finished⟩]⟩ := rfl
  refine ⟨_, hrun, (keepsAll_iff_freshWrite ?_ ?_ hrun ?_).1 ?_⟩
  · simp [twoAdds]
  · intro c hc
    simp only [twoAdds, List.mem_cons, List.not_mem_nil, or_false] at hc
    obtain rfl | rfl := hc <;> exact ⟨["-1"], rfl⟩
  · simp
  · exact ⟨trivial, trivial, rfl, trivial, trivial, rfl, trivial⟩

/-- Both reads before either write: the second write drops the uid of the first. -/
theorem not_keepsAll_twoAdds_overlapping :
    ∃ s', run step twoAdds [.issue 0, .issue 1, .take 0, .take 1, .put 0, .put 1] = some s' ∧
      (∀ c ∈ s'.calls, c.phase = .finished) ∧ ¬ KeepsAll twoAdds s' := by
  refine ⟨_, rfl, by simp [twoAdds], ?_⟩
  intro h
  obtain ⟨l, l', hl, hl', hcount⟩ :=
    h ⟨updateAlterationsForContract "c" "a", .idle⟩ (by simp [twoAdds])
  obtain rfl : l = ["-1"] := (Option.some.inj hl).symm
  obtain rfl : l' = ["-1", "b"] := (Option.some.inj hl').symm
  exact absurd (hcount "a" (by decide)) (by decide)

end Pincushion.Appends
