import Pincushion.KeyTree
import Mathlib.Data.List.Infix

/-! Writes that wait, laid over a tree of leaves. An overlay says of each path
whether a write covers it and, if one does, which leaf is there. Every write
acts on one path at a time, so what a sequence of them leaves at a path can be
followed without the rest of the tree. -/
namespace Pincushion.KeyTree
variable {κ α : Type*}

/-- A tree to be put at a path; `null` when it is the empty tree, which deletes. -/
structure Patch (κ α : Type*) where
  path : List κ
  tree : Tree κ α
  null : Bool

def Overlay (κ α : Type*) := List κ → Option (Option α)

def Overlay.bare : Overlay κ α := fun _ => none

/-- The tree as it is seen through the overlay. -/
def Tree.over (t : Tree κ α) (o : Overlay κ α) : Tree κ α := fun q => (o q).getD (t q)

/-- No leaf of the tree lies strictly above the path. -/
def Tree.ClearAbove (t : Tree κ α) (p : List κ) : Prop := ∀ q, q <+: p → q ≠ p → t q = none

theorem clearAbove_iff {t : Tree κ α} {p : List κ} :
    t.ClearAbove p ↔ ∀ q ∈ p.inits, q ≠ p → (t q).isNone := by
  simp only [Tree.ClearAbove, List.mem_inits, Option.isNone_iff_eq_none]

/-- No leaf of the tree stands where writes that go on below it would uncover it. -/
def Tree.ClearOf (t : Tree κ α) (o : Overlay κ α) : Prop :=
  ∀ q r, o q = none → (o (q ++ r)).isSome → t q = none

def Overlay.sub (o : Overlay κ α) (p : List κ) : Overlay κ α := fun q => o (p ++ q)

theorem over_bare (t : Tree κ α) : t.over Overlay.bare = t := rfl

theorem sub_over (t : Tree κ α) (o : Overlay κ α) (p : List κ) :
    (t.over o).sub p = (t.sub p).over (o.sub p) := rfl

theorem Tree.ClearOf.sub {t : Tree κ α} {o : Overlay κ α} (h : t.ClearOf o) (p : List κ) :
    (t.sub p).ClearOf (o.sub p) := by
  intro q r hq hr
  refine h (p ++ q) r hq ?_
  rwa [List.append_assoc]

variable [DecidableEq κ]

instance (t : Tree κ α) (p : List κ) : Decidable (t.ClearAbove p) :=
  decidable_of_iff (∀ q ∈ p.inits, q ≠ p → (t q).isNone) clearAbove_iff.symm

/-- Unlike `setValue`, deleting a child that is not there leaves a leaf above it alone. -/
def Tree.patch (t : Tree κ α) (w : Patch κ α) : Tree κ α := fun q =>
  if w.path <+: q then w.tree (q.drop w.path.length)
  else if q <+: w.path ∧ w.null = false then none else t q

namespace Patch
variable (w : Patch κ α) (q : List κ)

/-- What the write makes of what an overlay has at one path. -/
def act (a : Option (Option α)) : Option (Option α) :=
  if w.path <+: q then some (w.tree (q.drop w.path.length))
  else if q <+: w.path ∧ w.null = false then a.map fun _ => none else a

variable {w q}

theorem act_of_prefix (h : w.path <+: q) (a : Option (Option α)) :
    w.act q a = some (w.tree (q.drop w.path.length)) := by
  simp [act, h]

theorem act_of_not_prefix (h : ¬ w.path <+: q) : w.act q none = none := by
  simp [act, h]

theorem act_of_apart (h : ¬ w.path <+: q) (h' : ¬ q <+: w.path) (a : Option (Option α)) :
    w.act q a = a := by
  simp [act, h, h']

end Patch

namespace Overlay

def patch (o : Overlay κ α) (w : Patch κ α) : Overlay κ α := fun q => w.act q (o q)

/-- The writes one after the other, the oldest first. -/
def layer (o : Overlay κ α) (ws : List (Patch κ α)) : Overlay κ α := ws.foldl patch o

theorem layer_cons (o : Overlay κ α) (w : Patch κ α) (ws : List (Patch κ α)) :
    o.layer (w :: ws) = (o.patch w).layer ws := rfl

theorem layer_append (o : Overlay κ α) (vs ws : List (Patch κ α)) :
    o.layer (vs ++ ws) = (o.layer vs).layer ws := List.foldl_append ..

/-- What the writes leave at a path comes from what was at that path. -/
theorem layer_congr {o o' : Overlay κ α} {q : List κ} (ws : List (Patch κ α)) (h : o q = o' q) :
    o.layer ws q = o'.layer ws q := by
  induction ws generalizing o o' with
  | nil => exact h
  | cons w ws ih =>
    apply ih
    rw [patch, patch, h]

/-- Once a write covers a path, what was there before does not matter. -/
theorem layer_of_covers {o o' : Overlay κ α} {q : List κ} {ws : List (Patch κ α)}
    (h : ∃ w ∈ ws, w.path <+: q) : o.layer ws q = o'.layer ws q := by
  induction ws generalizing o o' with
  | nil =>
    obtain ⟨w, hw, -⟩ := h
    cases hw
  | cons w ws ih =>
    by_cases hq : w.path <+: q
    · apply layer_congr ws
      rw [patch, patch, Patch.act_of_prefix hq, Patch.act_of_prefix hq]
    · apply ih
      obtain ⟨w', hw', hq'⟩ := h
      cases List.mem_cons.mp hw' with
      | inl heq =>
        subst heq
        exact absurd hq' hq
      | inr hw' => exact ⟨w', hw', hq'⟩

/-- Writes that do not cover a path leave it uncovered. -/
theorem layer_of_not_covers {o : Overlay κ α} {q : List κ} {ws : List (Patch κ α)}
    (ho : o q = none) (h : ∀ w ∈ ws, ¬ w.path <+: q) : o.layer ws q = none := by
  induction ws generalizing o with
  | nil => exact ho
  | cons w ws ih =>
    apply ih
    · rw [patch, ho, Patch.act_of_not_prefix (h w (List.mem_cons_self ..))]
    · exact fun w' hw' => h w' (List.mem_cons_of_mem w hw')

/-- Writes that part from a path leave it as it was. -/
theorem layer_of_apart_all (o : Overlay κ α) {q : List κ} {ws : List (Patch κ α)}
    (h : ∀ w ∈ ws, ¬ w.path <+: q ∧ ¬ q <+: w.path) : o.layer ws q = o q := by
  induction ws generalizing o with
  | nil => rfl
  | cons w ws ih =>
    obtain ⟨hw, hw'⟩ := h w (List.mem_cons_self ..)
    rw [layer_cons, ih _ fun v hv => h v (List.mem_cons_of_mem w hv), patch,
      Patch.act_of_apart hw hw']

theorem isSome_layer {o : Overlay κ α} {q : List κ} (ws : List (Patch κ α))
    (h : (o q).isSome) : (o.layer ws q).isSome := by
  induction ws generalizing o with
  | nil => exact h
  | cons w ws ih =>
    apply ih
    obtain ⟨a, ha⟩ := Option.isSome_iff_exists.mp h
    rw [patch, ha, Patch.act]
    split_ifs <;> rfl

/-- The paths that a sequence of writes covers are those below one of them. -/
theorem isSome_layer_iff {q : List κ} {ws : List (Patch κ α)} :
    ((bare : Overlay κ α).layer ws q).isSome ↔ ∃ w ∈ ws, w.path <+: q := by
  constructor
  · intro h
    by_contra hnot
    rw [layer_of_not_covers rfl fun w hw hq => hnot ⟨w, hw, hq⟩] at h
    cases h
  · rintro ⟨w, hw, hq⟩
    obtain ⟨vs, us, rfl⟩ := List.append_of_mem hw
    rw [layer_append, layer_cons]
    apply isSome_layer
    rw [patch, Patch.act_of_prefix hq]
    rfl

/-- Writes that later ones cover again can be left out. -/
theorem layer_of_shadowed {vs ws : List (Patch κ α)}
    (h : ∀ v ∈ vs, ∃ w ∈ ws, w.path <+: v.path) : bare.layer (vs ++ ws) = bare.layer ws := by
  funext q
  rw [layer_append]
  by_cases hq : ∃ v ∈ vs, v.path <+: q
  · obtain ⟨v, hv, hvq⟩ := hq
    obtain ⟨w, hw, hwv⟩ := h v hv
    exact layer_of_covers ⟨w, hw, hwv.trans hvq⟩
  · refine layer_congr ws (layer_of_not_covers rfl fun v hv hvq => hq ⟨v, hv, hvq⟩)

/-- Writes that meet no later one are taken away by uncovering what is below them. -/
theorem layer_of_apart {vs ws : List (Patch κ α)} (q : List κ)
    (h : ∀ v ∈ vs, ∀ w ∈ ws, ¬ w.path <+: v.path ∧ ¬ v.path <+: w.path) :
    bare.layer ws q = if ∃ v ∈ vs, v.path <+: q then none else bare.layer (vs ++ ws) q := by
  split_ifs with hq
  · obtain ⟨v, hv, hvq⟩ := hq
    refine layer_of_not_covers rfl fun w hw hwq => ?_
    cases List.prefix_or_prefix_of_prefix hwq hvq with
    | inl hwv => exact (h v hv w hw).1 hwv
    | inr hvw => exact (h v hv w hw).2 hvw
  · rw [layer_append]
    exact layer_congr ws (layer_of_not_covers rfl fun v hv hvq => hq ⟨v, hv, hvq⟩).symm

end Overlay

/-- Adding a write to the overlay is making it on the tree that is seen. -/
theorem over_patch {t : Tree κ α} {w : Patch κ α} (o : Overlay κ α) (h : t.ClearAbove w.path) :
    t.over (o.patch w) = (t.over o).patch w := by
  funext q
  simp only [Tree.over, Tree.patch, Overlay.patch, Patch.act]
  by_cases hp : w.path <+: q
  · simp [hp]
  · by_cases hq : q <+: w.path ∧ w.null = false
    · cases ho : o q with
      | none => simp [hp, hq, h q hq.1 fun heq => hp (heq ▸ List.prefix_rfl)]
      | some a => simp [hp, hq]
    · simp [hp, hq]

theorem over_layer {t : Tree κ α} {ws : List (Patch κ α)} (o : Overlay κ α)
    (h : ∀ w ∈ ws, t.ClearAbove w.path) : t.over (o.layer ws) = ws.foldl Tree.patch (t.over o) := by
  induction ws generalizing o with
  | nil => rfl
  | cons w ws ih =>
    rw [Overlay.layer_cons, ih _ fun w' hw' => h w' (List.mem_cons_of_mem w hw'),
      over_patch o (h w (List.mem_cons_self ..)), List.foldl_cons]

theorem clearOf_layer {t : Tree κ α} {ws : List (Patch κ α)}
    (h : ∀ w ∈ ws, t.ClearAbove w.path) : t.ClearOf (Overlay.bare.layer ws) := by
  intro q r hq hr
  obtain ⟨w, hw, hwq⟩ := Overlay.isSome_layer_iff.mp hr
  have hnot : ¬ w.path <+: q := by
    intro hwq
    have hsome := Overlay.isSome_layer_iff.mpr ⟨w, hw, hwq⟩
    rw [hq] at hsome
    cases hsome
  cases List.prefix_or_prefix_of_prefix (List.prefix_append q r) hwq with
  | inl hqw => exact h w hw q hqw fun heq => hnot (heq ▸ List.prefix_rfl)
  | inr hwq => exact absurd hwq hnot

/-- A write that puts something there, or has no leaf above it, is `setValue`. -/
theorem patch_eq_setValue {t : Tree κ α} {w : Patch κ α} (h : w.null = false ∨ t.ClearAbove w.path) :
    t.patch w = t.setValue w.path w.tree := by
  funext q
  simp only [Tree.patch, Tree.setValue]
  by_cases hp : w.path <+: q
  · simp [hp]
  · by_cases hq : q <+: w.path
    · cases h with
      | inl h => simp [hq, h]
      | inr h => simp [hp, hq, h q hq fun heq => hp (heq ▸ List.prefix_rfl)]
    · simp [hp, hq]

/-! Writes made again. At each path a write either sets what is there or leaves it,
so a sequence of writes is as good as its last one that sets the path. -/
section Replay

/-- What the write sets a path to, if it sets it. -/
def Patch.effect (w : Patch κ α) (q : List κ) : Option (Option α) :=
  if w.path <+: q then some (w.tree (q.drop w.path.length))
  else if q <+: w.path ∧ w.null = false then some none else none

theorem patch_apply (t : Tree κ α) (w : Patch κ α) (q : List κ) :
    t.patch w q = (w.effect q).getD (t q) := by
  simp only [Tree.patch, Patch.effect]
  split_ifs <;> rfl

/-- The last effect of a sequence of writes. -/
def effects (ws : List (Patch κ α)) (q : List κ) : Option (Option α) :=
  ws.foldl (fun e w => (w.effect q).or e) none

theorem foldl_effect (ws : List (Patch κ α)) (q : List κ) (e : Option (Option α)) :
    ws.foldl (fun e w => (w.effect q).or e) e = (effects ws q).or e := by
  induction ws generalizing e with
  | nil => rfl
  | cons w ws ih =>
    rw [effects, List.foldl_cons, List.foldl_cons, ih, ih, Option.or_none, Option.or_assoc]

theorem effects_append (vs ws : List (Patch κ α)) (q : List κ) :
    effects (vs ++ ws) q = (effects ws q).or (effects vs q) := by
  rw [effects, List.foldl_append, foldl_effect]
  rfl

theorem effects_cons (w : Patch κ α) (ws : List (Patch κ α)) (q : List κ) :
    effects (w :: ws) q = (effects ws q).or (w.effect q) := by
  rw [effects, List.foldl_cons, foldl_effect, Option.or_none]

theorem foldl_patch_apply (t : Tree κ α) (ws : List (Patch κ α)) (q : List κ) :
    ws.foldl Tree.patch t q = (effects ws q).getD (t q) := by
  induction ws generalizing t with
  | nil => rfl
  | cons w ws ih =>
    rw [List.foldl_cons, ih, patch_apply, effects_cons]
    cases effects ws q <;> rfl

/-- A write that comes again later does not matter now. -/
theorem foldl_patch_of_mem (t : Tree κ α) {w : Patch κ α} {ws : List (Patch κ α)} (h : w ∈ ws) :
    ws.foldl Tree.patch (t.patch w) = ws.foldl Tree.patch t := by
  funext q
  rw [foldl_patch_apply, foldl_patch_apply, patch_apply]
  cases he : effects ws q with
  | some a => rfl
  | none =>
    obtain ⟨vs, us, rfl⟩ := List.append_of_mem h
    rw [effects_append, effects_cons, Option.or_eq_none_iff, Option.or_eq_none_iff] at he
    rw [he.1.2]
    rfl

/-- The writes are in the tree: making them again changes nothing. -/
def Tree.Absorbs (t : Tree κ α) (ws : List (Patch κ α)) : Prop := ws.foldl Tree.patch t = t

theorem absorbs_iff {t : Tree κ α} {ws : List (Patch κ α)} :
    t.Absorbs ws ↔ ∀ q a, effects ws q = some a → t q = a := by
  constructor
  · intro h q a ha
    rw [← congrFun h q, foldl_patch_apply, ha, Option.getD_some]
  · intro h
    funext q
    rw [foldl_patch_apply]
    cases he : effects ws q with
    | none => rfl
    | some a => exact (h q a he).symm

theorem Tree.Absorbs.of_append {t : Tree κ α} {vs ws : List (Patch κ α)}
    (h : t.Absorbs (vs ++ ws)) : t.Absorbs ws := by
  refine absorbs_iff.mpr fun q a ha => absorbs_iff.mp h q a ?_
  rw [effects_append, ha, Option.some_or]

theorem Tree.Absorbs.snoc {t : Tree κ α} {ws : List (Patch κ α)} (w : Patch κ α)
    (h : t.Absorbs ws) : (t.patch w).Absorbs (ws ++ [w]) := by
  refine absorbs_iff.mpr fun q a ha => ?_
  rw [effects_append, effects, List.foldl_cons, List.foldl_nil, Option.or_none] at ha
  rw [patch_apply]
  cases he : w.effect q with
  | none =>
    rw [he, Option.none_or] at ha
    exact absorbs_iff.mp h q a ha
  | some b =>
    rw [he, Option.some_or] at ha
    exact Option.some.inj ha

theorem absorbs_nil (t : Tree κ α) : t.Absorbs [] := rfl

theorem Tree.Absorbs.foldl_append {t : Tree κ α} {vs : List (Patch κ α)} (h : t.Absorbs vs)
    (ws : List (Patch κ α)) : (vs ++ ws).foldl Tree.patch t = ws.foldl Tree.patch t := by
  rw [List.foldl_append, h]

end Replay

end Pincushion.KeyTree
