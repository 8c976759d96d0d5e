import Mathlib.Data.List.Basic

/-! Runs of a partial step function. A step that is not enabled, or that traps,
has no successor and so ends the run before it. -/
namespace Pincushion.Runs
variable {σ ε : Type*} {step : σ → ε → Option σ}

def run (step : σ → ε → Option σ) : σ → List ε → Option σ
  | s, [] => some s
  | s, e :: es => match step s e with
    | some s' => run step s' es
    | none => none

theorem run_nil_eq {s s' : σ} : run step s [] = some s' ↔ s = s' := by
  simp [run]

theorem run_cons_eq {s s' : σ} {e : ε} {es : List ε} :
    run step s (e :: es) = some s' ↔ ∃ m, step s e = some m ∧ run step m es = some s' := by
  cases h : step s e <;> simp [run, h]

/-- What every step keeps, every run keeps. -/
theorem run_invariant (P : σ → Prop)
    (hstep : ∀ s e s', P s → step s e = some s' → P s')
    {s s' : σ} {es : List ε} (h : P s) (hrun : run step s es = some s') : P s' := by
  induction es generalizing s with
  | nil => exact run_nil_eq.mp hrun ▸ h
  | cons e es ih =>
    obtain ⟨m, he, hes⟩ := run_cons_eq.mp hrun
    exact ih (hstep s e m h he) hes

/-- What every step keeps between the state and the events so far, every run keeps. -/
theorem run_invariant_past (P : List ε → σ → Prop)
    (hstep : ∀ past s e s', P past s → step s e = some s' → P (past ++ [e]) s')
    {past : List ε} {s s' : σ} {es : List ε} (h : P past s) (hrun : run step s es = some s') :
    P (past ++ es) s' := by
  induction es generalizing past s with
  | nil =>
    rw [List.append_nil]
    exact run_nil_eq.mp hrun ▸ h
  | cons e es ih =>
    obtain ⟨m, he, hes⟩ := run_cons_eq.mp hrun
    rw [List.append_cons]
    exact ih (hstep past s e m h he) hes

/-- Every step of the run meets `C` in the state it starts from. -/
def Along (step : σ → ε → Option σ) (C : σ → ε → Prop) : σ → List ε → Prop
  | _, [] => True
  | s, e :: es => C s e ∧ match step s e with
    | some s' => Along step C s' es
    | none => True

theorem along_cons {C : σ → ε → Prop} {s m : σ} {e : ε} {es : List ε} (he : step s e = some m) :
    Along step C s (e :: es) ↔ C s e ∧ Along step C m es := by
  simp [Along, he]

instance {C : σ → ε → Prop} [∀ s e, Decidable (C s e)] :
    ∀ (s : σ) (es : List ε), Decidable (Along step C s es)
  | _, [] => isTrue trivial
  | s, e :: es =>
    have : Decidable (match step s e with
        | some s' => Along step C s' es
        | none => True) := match step s e with
      | some s' => instDecidableAlong s' es
      | none => isTrue trivial
    inferInstanceAs (Decidable (_ ∧ _))

/-- What every step that meets `C` keeps, every run of such steps keeps. -/
theorem run_invariant_along {C : σ → ε → Prop} (P : σ → Prop)
    (hstep : ∀ s e s', P s → C s e → step s e = some s' → P s')
    {s s' : σ} {es : List ε} (h : P s) (hC : Along step C s es)
    (hrun : run step s es = some s') : P s' := by
  induction es generalizing s with
  | nil => exact run_nil_eq.mp hrun ▸ h
  | cons e es ih =>
    obtain ⟨m, he, hes⟩ := run_cons_eq.mp hrun
    rw [along_cons he] at hC
    exact ih (hstep s e m h hC.1 he) hC.2 hes

/-- The same between the state and the events so far. -/
theorem run_invariant_along_past {C : σ → ε → Prop} (P : List ε → σ → Prop)
    (hstep : ∀ past s e s', P past s → C s e → step s e = some s' → P (past ++ [e]) s')
    {past : List ε} {s s' : σ} {es : List ε} (h : P past s) (hC : Along step C s es)
    (hrun : run step s es = some s') : P (past ++ es) s' := by
  induction es generalizing past s with
  | nil =>
    rw [List.append_nil]
    exact run_nil_eq.mp hrun ▸ h
  | cons e es ih =>
    obtain ⟨m, he, hes⟩ := run_cons_eq.mp hrun
    rw [along_cons he] at hC
    have hnext := ih (hstep past s e m h hC.1 he) hC.2 hes
    rwa [List.append_assoc] at hnext

theorem along_of_forall {C : σ → ε → Prop} {s : σ} {es : List ε} (h : ∀ s, ∀ e ∈ es, C s e) :
    Along step C s es := by
  induction es generalizing s with
  | nil => trivial
  | cons e es ih =>
    refine ⟨h s e (List.mem_cons_self ..), ?_⟩
    cases step s e with
    | none => trivial
    | some m => exact ih fun s e' he' => h s e' (List.mem_cons_of_mem e he')

/-- Each event of the run has the state it was taken in. -/
theorem along_of_mem {C : σ → ε → Prop} {s s' : σ} {es : List ε} {e : ε}
    (hrun : run step s es = some s') (h : Along step C s es) (he : e ∈ es) :
    ∃ m m', step m e = some m' ∧ C m e := by
  induction es generalizing s with
  | nil => cases he
  | cons e' es ih =>
    obtain ⟨m, hm, hes⟩ := run_cons_eq.mp hrun
    rw [along_cons hm] at h
    cases List.mem_cons.mp he with
    | inl he => exact ⟨s, m, he ▸ hm, he ▸ h.1⟩
    | inr he => exact ih hes h.2 he

theorem along_iff_forall {C : ε → Prop} {s s' : σ} {es : List ε} (hrun : run step s es = some s') :
    Along step (fun _ => C) s es ↔ ∀ e ∈ es, C e := by
  constructor
  · intro h e he
    obtain ⟨_, _, _, hc⟩ := along_of_mem hrun h he
    exact hc
  · intro h
    exact along_of_forall fun _ => h

/-- What a run leaves of a value that `f` updates before each of its steps. -/
def accumulate {α : Type*} (step : σ → ε → Option σ) (f : σ → ε → α → α) : α → σ → List ε → α
  | a, _, [] => a
  | a, s, e :: es => match step s e with
    | some s' => accumulate step f (f s e a) s' es
    | none => a

theorem accumulate_cons {α : Type*} {f : σ → ε → α → α} {a : α} {s m : σ} {e : ε} {es : List ε}
    (he : step s e = some m) :
    accumulate step f a s (e :: es) = accumulate step f (f s e a) m es := by
  simp [accumulate, he]

/-- What every step keeps between the state and the value, every run keeps. -/
theorem run_invariant_accumulate {α : Type*} {f : σ → ε → α → α} (P : α → σ → Prop)
    (hstep : ∀ a s e s', P a s → step s e = some s' → P (f s e a) s')
    {a : α} {s s' : σ} {es : List ε} (h : P a s) (hrun : run step s es = some s') :
    P (accumulate step f a s es) s' := by
  induction es generalizing a s with
  | nil => exact run_nil_eq.mp hrun ▸ h
  | cons e es ih =>
    obtain ⟨m, he, hes⟩ := run_cons_eq.mp hrun
    rw [accumulate_cons he]
    exact ih (hstep a s e m h he) hes

/-- Every step of the run meets `C` in the state it starts from, with the value that
`f` has left by then. -/
def AlongWith {α : Type*} (step : σ → ε → Option σ) (f : σ → ε → α → α) (C : α → σ → ε → Prop) :
    α → σ → List ε → Prop
  | _, _, [] => True
  | a, s, e :: es => C a s e ∧ match step s e with
    | some s' => AlongWith step f C (f s e a) s' es
    | none => True

theorem alongWith_cons {α : Type*} {f : σ → ε → α → α} {C : α → σ → ε → Prop} {a : α} {s m : σ}
    {e : ε} {es : List ε} (he : step s e = some m) :
    AlongWith step f C a s (e :: es) ↔ C a s e ∧ AlongWith step f C (f s e a) m es := by
  simp [AlongWith, he]

instance {α : Type*} {f : σ → ε → α → α} {C : α → σ → ε → Prop} [∀ a s e, Decidable (C a s e)] :
    ∀ (a : α) (s : σ) (es : List ε), Decidable (AlongWith step f C a s es)
  | _, _, [] => isTrue trivial
  | a, s, e :: es =>
    have : Decidable (match step s e with
        | some s' => AlongWith step f C (f s e a) s' es
        | none => True) := match step s e with
      | some s' => instDecidableAlongWith (f s e a) s' es
      | none => isTrue trivial
    inferInstanceAs (Decidable (_ ∧ _))

/-- A condition on the state is one on the value, where what they keep says so; it need
be kept only by steps that meet the condition. -/
theorem along_iff_alongWith {α : Type*} {f : σ → ε → α → α} {C : σ → ε → Prop}
    {C' : α → σ → ε → Prop} (P : α → σ → Prop)
    (hstep : ∀ a s e s', P a s → C s e → step s e = some s' → P (f s e a) s')
    (hC : ∀ a s e s', P a s → step s e = some s' → (C s e ↔ C' a s e))
    {a : α} {s s' : σ} {es : List ε} (h : P a s) (hrun : run step s es = some s') :
    Along step C s es ↔ AlongWith step f C' a s es := by
  induction es generalizing a s with
  | nil => exact Iff.rfl
  | cons e es ih =>
    obtain ⟨m, he, hes⟩ := run_cons_eq.mp hrun
    have hhere := hC a s e m h he
    rw [along_cons he, alongWith_cons he, ← hhere]
    exact and_congr_right fun hc => ih (hstep a s e m h hc he) hes

theorem AlongWith.imp {α : Type*} {f : σ → ε → α → α} {C C' : α → σ → ε → Prop} {a : α} {s : σ}
    {es : List ε} (h : AlongWith step f C a s es) (himp : ∀ e ∈ es, ∀ a s, C a s e → C' a s e) :
    AlongWith step f C' a s es := by
  induction es generalizing a s with
  | nil => trivial
  | cons e es ih =>
    refine ⟨himp e (List.mem_cons_self ..) a s h.1, ?_⟩
    have hrest := h.2
    cases hm : step s e with
    | none => trivial
    | some m =>
      rw [hm] at hrest
      exact ih hrest fun e' he' => himp e' (List.mem_cons_of_mem e he')

section With
variable {α : Type*} {f : σ → ε → α → α} {C : α → σ → ε → Prop} (P : α → σ → Prop)
variable (hstep : ∀ a s e s', P a s → C a s e → step s e = some s' → P (f s e a) s')
include hstep

/-- What every step that meets `C` keeps between the state and the value, every run of
such steps keeps. -/
theorem run_invariant_alongWith {a : α} {s s' : σ} {es : List ε} (h : P a s)
    (hC : AlongWith step f C a s es) (hrun : run step s es = some s') :
    P (accumulate step f a s es) s' := by
  induction es generalizing a s with
  | nil => exact run_nil_eq.mp hrun ▸ h
  | cons e es ih =>
    obtain ⟨m, he, hes⟩ := run_cons_eq.mp hrun
    rw [alongWith_cons he] at hC
    rw [accumulate_cons he]
    exact ih (hstep a s e m h hC.1 he) hC.2 hes

theorem along_of_alongWith {D : σ → ε → Prop}
    (hD : ∀ a s e s', P a s → C a s e → step s e = some s' → D s e) {a : α} {s s' : σ}
    {es : List ε} (h : P a s) (hC : AlongWith step f C a s es) (hrun : run step s es = some s') :
    Along step D s es := by
  induction es generalizing a s with
  | nil => trivial
  | cons e es ih =>
    obtain ⟨m, he, hes⟩ := run_cons_eq.mp hrun
    rw [alongWith_cons he] at hC
    exact (along_cons he).mpr
      ⟨hD a s e m h hC.1 he, ih (hstep a s e m h hC.1 he) hC.2 hes⟩

end With

/-- The states a run from an initial state leads to. -/
def Reachable (step : σ → ε → Option σ) (init : σ → Prop) (s' : σ) : Prop :=
  ∃ s es, init s ∧ run step s es = some s'

theorem reachable_invariant {init : σ → Prop} (P : σ → Prop) (hinit : ∀ s, init s → P s)
    (hstep : ∀ s e s', P s → step s e = some s' → P s') {s' : σ}
    (h : Reachable step init s') : P s' := by
  obtain ⟨s, es, hs, hrun⟩ := h
  exact run_invariant P hstep (hinit s hs) hrun

theorem run_append_eq {s s' : σ} {es es' : List ε} :
    run step s (es ++ es') = some s' ↔ ∃ m, run step s es = some m ∧ run step m es' = some s' := by
  induction es generalizing s with
  | nil => simp [run_nil_eq]
  | cons e es ih =>
    simp only [List.cons_append, run_cons_eq, ih]
    exact ⟨fun ⟨m', he, m, hes, hrest⟩ => ⟨m, ⟨m', he, hes⟩, hrest⟩,
      fun ⟨m, ⟨m', he, hes⟩, hrest⟩ => ⟨m', he, m, hes, hrest⟩⟩

theorem along_append {C : σ → ε → Prop} {s m : σ} {es es' : List ε}
    (h : run step s es = some m) :
    Along step C s (es ++ es') ↔ Along step C s es ∧ Along step C m es' := by
  induction es generalizing s with
  | nil =>
    rw [run_nil_eq.mp h]
    exact (and_iff_right trivial).symm
  | cons e es ih =>
    obtain ⟨m', he, hes⟩ := run_cons_eq.mp h
    rw [List.cons_append, along_cons he, along_cons he, ih hes, and_assoc]

theorem reachable_step {init : σ → Prop} {s s' : σ} {e : ε} (h : Reachable step init s)
    (hstep : step s e = some s') : Reachable step init s' := by
  obtain ⟨s₀, es, hs, hrun⟩ := h
  exact ⟨s₀, es ++ [e], hs, run_append_eq.mpr ⟨s, hrun, run_cons_eq.mpr ⟨s', hstep, rfl⟩⟩⟩

/-- Where a step keeps `P` exactly when it meets `C`, a run passes through nothing but
states with `P` exactly when all its steps meet `C`. -/
theorem forall_prefix_iff_along {P : σ → Prop} {C : σ → ε → Prop}
    (hstep : ∀ s e s', P s → step s e = some s' → (P s' ↔ C s e)) {s s' : σ} {es : List ε}
    (h : P s) (hrun : run step s es = some s') :
    (∀ past m, past <+: es → run step s past = some m → P m) ↔ Along step C s es := by
  induction es generalizing s with
  | nil =>
    refine iff_of_true (fun past m hpast hm => ?_) trivial
    rw [List.prefix_nil.mp hpast] at hm
    exact run_nil_eq.mp hm ▸ h
  | cons e es ih =>
    obtain ⟨m, he, hes⟩ := run_cons_eq.mp hrun
    rw [along_cons he, ← hstep s e m h he]
    constructor
    · intro hall
      have hm : P m := hall [e] m (List.prefix_append [e] es) (run_cons_eq.mpr ⟨m, he, rfl⟩)
      refine ⟨hm, (ih hm hes).mp fun past m' hpast hm' => ?_⟩
      exact hall (e :: past) m' (List.cons_prefix_cons.mpr ⟨rfl, hpast⟩)
        (run_cons_eq.mpr ⟨m, he, hm'⟩)
    · rintro ⟨hm, halong⟩ past m' hpast hm'
      cases past with
      | nil => exact run_nil_eq.mp hm' ▸ h
      | cons e' past =>
        obtain ⟨rfl, htail⟩ := List.cons_prefix_cons.mp hpast
        obtain ⟨m'', he', hrest⟩ := run_cons_eq.mp hm'
        obtain rfl : m'' = m := Option.some.inj (he'.symm.trans he)
        exact (ih hm hes).mpr halong past m' htail hrest

section Simulation
variable {τ : Type*} {step' : τ → ε → Option τ} (f : σ → τ) (I : σ → Prop)
variable (hI : ∀ s e s', I s → step s e = some s' → I s')
variable (hsim : ∀ s e s', I s → step s e = some s' → step' (f s) e = some (f s'))
include hI hsim

/-- Where every step is one of the abstract steps, every run is an abstract run. -/
theorem run_simulation {s s' : σ} {es : List ε} (h : I s) (hrun : run step s es = some s') :
    run step' (f s) es = some (f s') := by
  induction es generalizing s with
  | nil => rw [run_nil_eq.mp hrun, run_nil_eq]
  | cons e es ih =>
    obtain ⟨m, he, hes⟩ := run_cons_eq.mp hrun
    exact run_cons_eq.mpr ⟨f m, hsim s e m h he, ih (hI s e m h he) hes⟩

theorem along_simulation {C : σ → ε → Prop} {C' : τ → ε → Prop}
    (hC : ∀ s e, I s → (C s e ↔ C' (f s) e)) {s s' : σ} {es : List ε} (h : I s)
    (hrun : run step s es = some s') : Along step C s es ↔ Along step' C' (f s) es := by
  induction es generalizing s with
  | nil => exact Iff.rfl
  | cons e es ih =>
    obtain ⟨m, he, hes⟩ := run_cons_eq.mp hrun
    rw [along_cons he, along_cons (hsim s e m h he), hC s e h, ih (hI s e m h he) hes]

end Simulation

/-- One of several jobs in a list takes a step, and the others stay. -/
theorem forall_mem_set {α : Type*} {P : α → Prop} {l : List α} {i : Nat} {b : α}
    (h : ∀ a ∈ l, P a) (hb : P b) : ∀ a ∈ l.set i b, P a := by
  intro a ha
  cases List.mem_or_eq_of_mem_set ha with
  | inl ha => exact h a ha
  | inr ha => exact ha ▸ hb

/-- One of several jobs in a list takes a step that `f` does not see. -/
theorem map_set_of_eq {α β : Type*} (f : α → β) {l : List α} {i : Nat} {a b : α}
    (hi : l[i]? = some a) (hf : f b = f a) : (l.set i b).map f = l.map f := by
  have hself : (l.map f)[i]? = some (f b) := by simp [hi, hf]
  rw [List.map_set, ← (List.getElem?_eq_some_iff.mp hself).2, List.set_getElem_self]

end Pincushion.Runs
