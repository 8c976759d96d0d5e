import Pincushion.Runs
import Mathlib.Data.List.Perm.Subperm
import Mathlib.Logic.Function.Basic

/-! Appends made of a read and a later write of the whole list. Jobs share the
lists of a store; a job reads the list of its node at some moment after it is
issued and later writes back what it saw with its own elements added. Nothing
orders the steps of different jobs. -/
namespace Pincushion.StaleAppend
open Runs
variable {κ α : Type*}

inductive Phase (α : Type*) where
  | idle
  | issued
  | taken (seen : List α)
  | done

structure Job (κ α : Type*) where
  node : κ
  new : List α
  phase : Phase α

/-- What a job is for, whatever it has done so far. -/
def Job.plan (j : Job κ α) : κ × List α := (j.node, j.new)

structure State (κ α : Type*) where
  value : κ → List α
  jobs : List (Job κ α)

inductive Event where
  | issue (i : Nat)
  | take (i : Nat)
  | put (i : Nat)

/-- The write of a job finds the list its read saw. -/
def FreshPut (s : State κ α) : Event → Prop
  | .put i => match s.jobs[i]? with
    | some ⟨k, _, .taken seen⟩ => s.value k = seen
    | _ => True
  | _ => True

section
variable [DecidableEq κ]

def step (s : State κ α) : Event → Option (State κ α)
  | .issue i => match s.jobs[i]? with
    | some ⟨k, new, .idle⟩ => some { s with jobs := s.jobs.set i ⟨k, new, .issued⟩ }
    | _ => none
  | .take i => match s.jobs[i]? with
    | some ⟨k, new, .issued⟩ => some { s with jobs := s.jobs.set i ⟨k, new, .taken (s.value k)⟩ }
    | _ => none
  | .put i => match s.jobs[i]? with
    | some ⟨k, new, .taken seen⟩ =>
        some ⟨Function.update s.value k (seen ++ new), s.jobs.set i ⟨k, new, .done⟩⟩
    | _ => none

/-- What a finished job has added to the list of `k`. -/
def Job.landed (k : κ) : Job κ α → List α
  | ⟨n, new, .done⟩ => if n = k then new else []
  | _ => []

def landed (jobs : List (Job κ α)) (k : κ) : List α := jobs.flatMap (Job.landed k)

/-- What the jobs are to add to the list of `k`. -/
def planned (jobs : List (Job κ α)) (k : κ) : List α :=
  jobs.flatMap fun j => if j.node = k then j.new else []
end

theorem split_at {β : Type*} {l : List β} {i : Nat} {x : β} (h : l[i]? = some x) :
    ∃ pre post, l = pre ++ x :: post ∧ pre.length = i ∧
      ∀ y, l.set i y = pre ++ y :: post := by
  obtain ⟨hi, rfl⟩ := List.getElem?_eq_some_iff.mp h
  have hl : l = l.take i ++ l[i] :: l.drop (i + 1) := by simp
  refine ⟨l.take i, l.drop (i + 1), hl, by simp; omega, fun y => ?_⟩
  rw [List.set_eq_take_append_cons_drop, if_pos hi]

/-- Where one job has changed, every other job was there before. -/
theorem mem_of_mem_split {β : Type*} {l pre post : List β} {x y z : β} (hl : l = pre ++ y :: post)
    (hz : z ∈ pre ++ x :: post) : z = x ∨ z ∈ l := by
  subst hl
  simp only [List.mem_append, List.mem_cons] at hz ⊢
  cases hz with
  | inl hz => exact Or.inr (Or.inl hz)
  | inr hz => exact hz.imp_right fun hz => Or.inr (Or.inr hz)

theorem freshPut_put {s : State κ α} {pre post : List (Job κ α)} {k : κ} {new seen : List α}
    (hl : s.jobs = pre ++ ⟨k, new, .taken seen⟩ :: post) :
    FreshPut s (.put pre.length) ↔ s.value k = seen := by
  have hi : s.jobs[pre.length]? = some ⟨k, new, .taken seen⟩ := by simp [hl]
  simp only [FreshPut, hi]

variable [DecidableEq κ] {s s' : State κ α} {e : Event}

/-- All that a step can do. -/
theorem step_cases (h : step s e = some s') :
    (∃ pre k new post, e = .issue pre.length ∧ s.jobs = pre ++ ⟨k, new, .idle⟩ :: post ∧
      s' = ⟨s.value, pre ++ ⟨k, new, .issued⟩ :: post⟩) ∨
    (∃ pre k new post, e = .take pre.length ∧ s.jobs = pre ++ ⟨k, new, .issued⟩ :: post ∧
      s' = ⟨s.value, pre ++ ⟨k, new, .taken (s.value k)⟩ :: post⟩) ∨
    (∃ pre k new seen post, e = .put pre.length ∧
      s.jobs = pre ++ ⟨k, new, .taken seen⟩ :: post ∧
      s' = ⟨Function.update s.value k (seen ++ new), pre ++ ⟨k, new, .done⟩ :: post⟩) := by
  cases e with
  | issue i =>
    simp only [step] at h
    split at h
    · rename_i k new hi
      obtain ⟨pre, post, hl, rfl, hset⟩ := split_at hi
      refine Or.inl ⟨pre, k, new, post, rfl, hl, ?_⟩
      rw [← Option.some.inj h, hset]
    · cases h
  | take i =>
    simp only [step] at h
    split at h
    · rename_i k new hi
      obtain ⟨pre, post, hl, rfl, hset⟩ := split_at hi
      refine Or.inr (Or.inl ⟨pre, k, new, post, rfl, hl, ?_⟩)
      rw [← Option.some.inj h, hset]
    · cases h
  | put i =>
    simp only [step] at h
    split at h
    · rename_i k new seen hi
      obtain ⟨pre, post, hl, rfl, hset⟩ := split_at hi
      refine Or.inr (Or.inr ⟨pre, k, new, seen, post, rfl, hl, ?_⟩)
      rw [← Option.some.inj h, hset]
    · cases h

theorem landed_split (pre post : List (Job κ α)) (j : Job κ α) (k : κ) :
    landed (pre ++ j :: post) k = landed pre k ++ (j.landed k ++ landed post k) := by
  simp [landed]

/-- A step before the write lands nothing. -/
theorem landed_of_split {jobs pre post : List (Job κ α)} {i j : Job κ α} {k : κ}
    (hl : jobs = pre ++ j :: post) (h : i.landed k = j.landed k) :
    landed (pre ++ i :: post) k = landed jobs k := by
  rw [hl, landed_split, landed_split, h]

theorem landed_length_put (pre post : List (Job κ α)) (n k : κ) (new seen : List α) :
    (landed (pre ++ ⟨n, new, .done⟩ :: post) k).length =
      (landed (pre ++ ⟨n, new, .taken seen⟩ :: post) k).length +
        if n = k then new.length else 0 := by
  simp only [landed_split, List.length_append, Job.landed]
  split
  · simp only [List.length_nil]
    omega
  · rfl

theorem step_plan (h : step s e = some s') : s'.jobs.map Job.plan = s.jobs.map Job.plan := by
  obtain ⟨pre, n, new, post, rfl, hl, rfl⟩ | ⟨pre, n, new, post, rfl, hl, rfl⟩ |
    ⟨pre, n, new, seen, post, rfl, hl, rfl⟩ := step_cases h <;>
  simp [hl, Job.plan]

theorem run_plan {es : List Event} (h : run step s es = some s') :
    s'.jobs.map Job.plan = s.jobs.map Job.plan :=
  run_invariant (fun t => t.jobs.map Job.plan = s.jobs.map Job.plan)
    (fun _ _ _ ht hstep => (step_plan hstep).trans ht) rfl h

theorem planned_eq (jobs : List (Job κ α)) (k : κ) :
    planned jobs k = (jobs.map Job.plan).flatMap fun p => if p.1 = k then p.2 else [] := by
  simp only [planned, List.flatMap_map]
  rfl

theorem run_planned {es : List Event} (h : run step s es = some s') (k : κ) :
    planned s'.jobs k = planned s.jobs k := by
  rw [planned_eq, run_plan h, ← planned_eq]

/-- Jobs come from jobs with the same node and the same elements to add. -/
theorem step_mem_plan (h : step s e = some s') {j : Job κ α} (hj : j ∈ s'.jobs) :
    ∃ i ∈ s.jobs, i.node = j.node ∧ i.new = j.new := by
  have hmem : j.plan ∈ s.jobs.map Job.plan := step_plan h ▸ List.mem_map_of_mem hj
  obtain ⟨i, hi, heq⟩ := List.mem_map.mp hmem
  exact ⟨i, hi, congrArg Prod.fst heq, congrArg Prod.snd heq⟩

theorem landed_eq_planned (jobs : List (Job κ α)) (h : ∀ j ∈ jobs, j.phase = .done) (k : κ) :
    landed jobs k = planned jobs k := by
  unfold landed planned
  apply List.flatMap_congr
  intro j hj
  obtain ⟨n, new, phase⟩ := j
  obtain rfl := h _ hj
  rfl

theorem landed_eq_nil (jobs : List (Job κ α)) (h : ∀ j ∈ jobs, j.phase = .idle) (k : κ) :
    landed jobs k = [] := by
  simp only [landed, List.flatMap_eq_nil_iff]
  intro j hj
  obtain ⟨n, new, phase⟩ := j
  obtain rfl := h _ hj
  rfl

variable (start : κ → List α)

/-- Something that landed at `k` is gone for good: the list is short of what
landed, and so is every read under way. -/
structure Short (k : κ) (s : State κ α) : Prop where
  value : (s.value k).length < (start k).length + (landed s.jobs k).length
  reads : ∀ j ∈ s.jobs, j.node = k → ∀ seen, j.phase = .taken seen →
    seen.length < (start k).length + (landed s.jobs k).length

theorem short_step {start : κ → List α} {k : κ} (h : Short start k s)
    (hstep : step s e = some s') : Short start k s' := by
  obtain ⟨pre, n, new, post, rfl, hl, rfl⟩ | ⟨pre, n, new, post, rfl, hl, rfl⟩ |
    ⟨pre, n, new, seen, post, rfl, hl, rfl⟩ := step_cases hstep
  · have hland : landed (pre ++ ⟨n, new, .issued⟩ :: post) k = landed s.jobs k :=
      landed_of_split hl rfl
    constructor
    · simpa only [hland] using h.value
    · intro j hj hn seen hs
      simp only [hland]
      cases mem_of_mem_split hl hj with
      | inl heq =>
        subst heq
        cases hs
      | inr hj => exact h.reads j hj hn seen hs
  · have hland : landed (pre ++ ⟨n, new, .taken (s.value n)⟩ :: post) k = landed s.jobs k :=
      landed_of_split hl rfl
    constructor
    · simpa only [hland] using h.value
    · intro j hj hn seen hs
      simp only [hland]
      cases mem_of_mem_split hl hj with
      | inl heq =>
        subst heq
        cases hs
        exact hn ▸ h.value
      | inr hj => exact h.reads j hj hn seen hs
  · have hland := landed_length_put pre post n k new seen
    rw [← hl] at hland
    have hmine := h.reads ⟨n, new, .taken seen⟩ (by simp [hl])
    constructor
    · simp only [hland]
      by_cases hk : k = n
      · subst hk
        have hlt := hmine rfl seen rfl
        simp only [Function.update_self, List.length_append, if_true]
        omega
      · simpa [Function.update_of_ne hk, Ne.symm hk] using h.value
    · intro j hj hn seen' hs
      simp only [hland]
      cases mem_of_mem_split hl hj with
      | inl heq =>
        subst heq
        cases hs
      | inr hj =>
        have := h.reads j hj hn seen' hs
        omega

variable [DecidableEq α]

/-- The list of every node is its start with what has landed there, and no read
under way saw more than its node still holds. -/
structure Kept (s : State κ α) : Prop where
  count : ∀ k u, (s.value k).count u = (start k).count u + (landed s.jobs k).count u
  trailing : ∀ j ∈ s.jobs, ∀ seen, j.phase = .taken seen → seen <+: s.value j.node

theorem Kept.length {start : κ → List α} (h : Kept start s) (k : κ) :
    (s.value k).length = (start k).length + (landed s.jobs k).length := by
  have hperm : (s.value k).Perm (start k ++ landed s.jobs k) := by
    rw [List.perm_iff_count]
    intro u
    rw [h.count k u, List.count_append]
  rw [hperm.length_eq, List.length_append]

theorem kept_start (h : ∀ j ∈ s.jobs, j.phase = .idle) : Kept s.value s where
  count k u := by simp [landed_eq_nil s.jobs h k]
  trailing j hj seen hs := by rw [h j hj] at hs; cases hs

theorem kept_step {start : κ → List α} (h : Kept start s) (hf : FreshPut s e)
    (hstep : step s e = some s') : Kept start s' := by
  obtain ⟨pre, n, new, post, rfl, hl, rfl⟩ | ⟨pre, n, new, post, rfl, hl, rfl⟩ |
    ⟨pre, n, new, seen, post, rfl, hl, rfl⟩ := step_cases hstep
  · constructor
    · intro k u
      have hland : landed (pre ++ ⟨n, new, .issued⟩ :: post) k = landed s.jobs k :=
        landed_of_split hl rfl
      simpa only [hland] using h.count k u
    · intro j hj seen hs
      cases mem_of_mem_split hl hj with
      | inl heq =>
        subst heq
        cases hs
      | inr hj => exact h.trailing j hj seen hs
  · constructor
    · intro k u
      have hland : landed (pre ++ ⟨n, new, .taken (s.value n)⟩ :: post) k = landed s.jobs k :=
        landed_of_split hl rfl
      simpa only [hland] using h.count k u
    · intro j hj seen hs
      cases mem_of_mem_split hl hj with
      | inl heq =>
        subst heq
        cases hs
        exact List.prefix_rfl
      | inr hj => exact h.trailing j hj seen hs
  · have hseen := (freshPut_put hl).mp hf
    have hgrow : ∀ k, s.value k <+: Function.update s.value n (seen ++ new) k := by
      intro k
      by_cases hk : k = n
      · subst hk
        simp [hseen]
      · simp [hk]
    constructor
    · intro k u
      have hc := h.count k u
      rw [hl, landed_split] at hc
      rw [landed_split]
      by_cases hk : k = n
      · subst hk
        simp only [hseen, Job.landed, Function.update_self, List.count_append, List.count_nil,
          if_true] at hc ⊢
        omega
      · simpa [Job.landed, Function.update_of_ne hk, Ne.symm hk] using hc
    · intro j hj seen' hs
      cases mem_of_mem_split hl hj with
      | inl heq =>
        subst heq
        cases hs
      | inr hj => exact (h.trailing j hj seen' hs).trans (hgrow j.node)

/-- The first stale write leaves its node short. -/
theorem short_of_stale {start : κ → List α} (h : Kept start s) (hnew : ∀ j ∈ s.jobs, j.new ≠ [])
    (hf : ¬ FreshPut s e) (hstep : step s e = some s') :
    ∃ j ∈ s.jobs, Short start j.node s' := by
  obtain ⟨pre, n, new, post, rfl, hl, rfl⟩ | ⟨pre, n, new, post, rfl, hl, rfl⟩ |
    ⟨pre, n, new, seen, post, rfl, hl, rfl⟩ := step_cases hstep
  · exact absurd trivial hf
  · exact absurd trivial hf
  · rw [freshPut_put hl] at hf
    have hland := landed_length_put pre post n n new seen
    rw [← hl, if_pos rfl] at hland
    have hpos : 0 < new.length :=
      List.length_pos_iff.mpr (hnew ⟨n, new, .taken seen⟩ (by simp [hl]))
    have hlen := h.length n
    have hpre : seen <+: s.value n :=
      h.trailing ⟨n, new, .taken seen⟩ (by simp [hl]) seen rfl
    have hlt : seen.length < (s.value n).length := by
      have hle := hpre.length_le
      have hne : seen.length ≠ (s.value n).length := fun heq => hf (hpre.eq_of_length heq).symm
      omega
    refine ⟨⟨n, new, .taken seen⟩, by simp [hl], ?_, ?_⟩
    · simp only [hland, Function.update_self, List.length_append]
      omega
    · intro j hj hn seen' hs
      change j.node = n at hn
      simp only [hland]
      have hle : seen'.length ≤ (s.value n).length := by
        cases mem_of_mem_split hl hj with
        | inl heq =>
          subst heq
          cases hs
        | inr hj => exact hn ▸ (h.trailing j hj seen' hs).length_le
      omega

theorem kept_or_short {start : κ → List α} {es : List Event} (h : Kept start s)
    (hnew : ∀ j ∈ s.jobs, j.new ≠ []) (hrun : run step s es = some s') :
    Along step FreshPut s es ∨ ∃ j ∈ s.jobs, Short start j.node s' := by
  induction es generalizing s with
  | nil => exact Or.inl trivial
  | cons e es ih =>
    obtain ⟨m, he, hes⟩ := run_cons_eq.mp hrun
    by_cases hf : FreshPut s e
    · rw [along_cons he]
      have hnew' : ∀ j ∈ m.jobs, j.new ≠ [] := by
        intro j hj
        obtain ⟨i, hi, -, heq⟩ := step_mem_plan he hj
        exact heq ▸ hnew i hi
      rcases ih (kept_step h hf he) hnew' hes with ha | ⟨j, hj, hs⟩
      · exact Or.inl ⟨hf, ha⟩
      · obtain ⟨i, hi, heq, -⟩ := step_mem_plan he hj
        exact Or.inr ⟨i, hi, heq ▸ hs⟩
    · obtain ⟨j, hj, hs⟩ := short_of_stale h hnew hf he
      exact Or.inr ⟨j, hj,
        run_invariant (Short start j.node) (fun _ _ _ hs => short_step hs) hs hes⟩

/-- Every element the list of `k` started with and every element that landed
there is in it, as often as it should be. -/
def Complete (k : κ) (s : State κ α) : Prop :=
  ∀ u ∈ start k ++ landed s.jobs k,
    (s.value k).count u = (start k ++ landed s.jobs k).count u

theorem Kept.complete {start : κ → List α} (h : Kept start s) (k : κ) : Complete start k s := by
  intro u _
  rw [h.count k u, List.count_append]

theorem Short.not_complete {start : κ → List α} {k : κ} (h : Short start k s) :
    ¬ Complete start k s := by
  intro hc
  have hsub : (start k ++ landed s.jobs k).Subperm (s.value k) :=
    List.subperm_ext_iff.mpr fun u hu => Nat.le_of_eq (hc u hu).symm
  have hle := hsub.length_le
  have hlt := h.value
  rw [List.length_append] at hle
  omega

/-- A run in which every write finds the list it read loses nothing. -/
theorem complete_of_fresh {es : List Event} (hidle : ∀ j ∈ s.jobs, j.phase = .idle)
    (hrun : run step s es = some s') (hf : Along step FreshPut s es) (k : κ) :
    Complete s.value k s' :=
  (run_invariant_along (Kept s.value) (fun _ _ _ h hf => kept_step h hf)
    (kept_start hidle) hf hrun).complete k

/-- Where every job has something to add, no other run does. -/
theorem fresh_of_complete {es : List Event} (hidle : ∀ j ∈ s.jobs, j.phase = .idle)
    (hnew : ∀ j ∈ s.jobs, j.new ≠ []) (hrun : run step s es = some s')
    (hc : ∀ j ∈ s.jobs, Complete s.value j.node s') : Along step FreshPut s es := by
  rcases kept_or_short (kept_start hidle) hnew hrun with hf | ⟨j, hj, hs⟩
  · exact hf
  · exact absurd (hc j hj) hs.not_complete

end Pincushion.StaleAppend
