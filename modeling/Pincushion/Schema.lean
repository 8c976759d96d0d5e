import Pincushion.Overlay

/-! Where the leaves of a tree may stand. When no leaf may stand below another, a tree that is
seen through an overlay can be brought up to date at one path alone. -/
namespace Pincushion.KeyTree
variable {κ α : Type*}

/-- The paths of leaves, none of which lies below another. -/
structure Schema (κ : Type*) where
  leaf : List κ → Prop
  apart : ∀ p r, leaf p → leaf (p ++ r) → r = []

def Schema.sub (S : Schema κ) (p : List κ) : Schema κ where
  leaf q := S.leaf (p ++ q)
  apart q r hq hr := S.apart (p ++ q) r hq (by rwa [List.append_assoc])

variable {S : Schema κ} {t u s s' : Tree κ α} {o o' : Overlay κ α} {p q r : List κ}

def Tree.Within (t : Tree κ α) (S : Schema κ) : Prop := ∀ q a, t q = some a → S.leaf q

theorem Tree.Within.sub (h : t.Within S) (p : List κ) : (t.sub p).Within (S.sub p) :=
  fun q a hq => h (p ++ q) a hq

theorem within_empty (S : Schema κ) : (empty : Tree κ α).Within S := fun q a hq => by cases hq

/-- The leaves that are written stand where they may, and no write starts below a leaf. -/
structure Overlay.Fits (o : Overlay κ α) (S : Schema κ) : Prop where
  within : ∀ q a, o q = some (some a) → S.leaf q
  above : ∀ q r, o q = none → (o (q ++ r)).isSome → ¬ S.leaf q

theorem fits_bare (S : Schema κ) : (Overlay.bare : Overlay κ α).Fits S where
  within q a hq := by cases hq
  above q r _ hr := by cases hr

theorem Overlay.Fits.sub (h : o.Fits S) (p : List κ) : (o.sub p).Fits (S.sub p) where
  within q a hq := h.within (p ++ q) a hq
  above q r hq hr := h.above (p ++ q) r hq (by rwa [List.append_assoc])

/-- Writes that fit below a path, made at that path. -/
theorem Overlay.Fits.moved [DecidableEq κ] {p : List κ} (h : o.Fits (S.sub p))
    (habove : ∀ q, q <+: p → q ≠ p → ¬ S.leaf q)
    (hmoved : ∀ q, o' q = if p <+: q then o (q.drop p.length) else none) : o'.Fits S where
  within q a hq := by
    rw [hmoved] at hq
    split_ifs at hq with hp
    obtain ⟨r, rfl⟩ := hp
    rw [List.drop_left] at hq
    exact h.within r a hq
  above q r hq hr := by
    rw [hmoved] at hq hr
    split_ifs at hr with hpr
    · cases List.prefix_or_prefix_of_prefix hpr (List.prefix_append q r) with
      | inl hp =>
        rw [if_pos hp] at hq
        obtain ⟨s, rfl⟩ := hp
        rw [List.append_assoc, List.drop_left] at hr
        rw [List.drop_left] at hq
        exact h.above s r hq hr
      | inr hqp =>
        by_cases heq : q = p
        · subst heq
          rw [if_pos List.prefix_rfl, List.drop_length] at hq
          rw [List.drop_left] at hr
          have hroot := h.above [] r hq hr
          change ¬ S.leaf (q ++ []) at hroot
          rwa [List.append_nil] at hroot
        · exact habove q hqp heq
    · cases hr

theorem Tree.Within.clearOf (ht : t.Within S) (ho : o.Fits S) : t.ClearOf o := by
  intro q r hq hr
  cases hleaf : t q with
  | none => rfl
  | some a => exact absurd (ht q a hleaf) (ho.above q r hq hr)

theorem Tree.Within.over (ht : t.Within S) (ho : o.Fits S) : (t.over o).Within S := by
  intro q a hq
  rw [Tree.over] at hq
  cases hoq : o q with
  | none =>
    rw [hoq] at hq
    exact ht q a hq
  | some b =>
    rw [hoq, Option.getD_some] at hq
    exact ho.within q a (hq ▸ hoq)

/-- Where something is written, what is below it does not matter. -/
theorem over_congr (h : ∀ q, o q = none → t q = u q) : t.over o = u.over o := by
  funext q
  simp only [Tree.over]
  cases ho : o q with
  | none => exact h q ho
  | some a => rfl

/-- What becomes of an overlay when a write at a path goes: only what was below the path changes,
and only where no other write covers it. -/
structure Retreats (p : List κ) (o o' : Overlay κ α) : Prop where
  away : ∀ q, ¬ p <+: q → o' q = o q
  covered : ∀ q, (o' q).isSome → o' q = o q

theorem retreats_self (p : List κ) (o : Overlay κ α) : Retreats p o o :=
  ⟨fun _ _ => rfl, fun _ _ => rfl⟩

variable [DecidableEq κ]

theorem Tree.Within.patch {w : Patch κ α} (ht : t.Within S) (hw : w.tree.Within (S.sub w.path)) :
    (t.patch w).Within S := by
  intro q a hq
  rw [Tree.patch] at hq
  split_ifs at hq with hp
  · obtain ⟨r, rfl⟩ := hp
    rw [List.drop_left] at hq
    exact hw r a hq
  · exact ht q a hq

/-- A leaf may be written where the schema has one, and not below one. -/
structure Patch.Allowed (w : Patch κ α) (S : Schema κ) : Prop where
  within : w.tree.Within (S.sub w.path)
  above : ∀ q, q <+: w.path → q ≠ w.path → ¬ S.leaf q

theorem Overlay.Fits.patch {w : Patch κ α} (h : o.Fits S) (hw : w.Allowed S) :
    (o.patch w).Fits S where
  within q a hq := by
    rw [Overlay.patch, Patch.act] at hq
    split_ifs at hq with hp hand
    · obtain ⟨r, rfl⟩ := hp
      rw [List.drop_left] at hq
      exact hw.within r a (Option.some.inj hq)
    · obtain ⟨b, -, hb⟩ := Option.map_eq_some_iff.mp hq
      cases hb
    · exact h.within q a hq
  above q r hq hr := by
    have hp : ¬ w.path <+: q := by
      intro hp
      rw [Overlay.patch, Patch.act_of_prefix hp] at hq
      cases hq
    have hold : o q = none := by
      rw [Overlay.patch, Patch.act, if_neg hp] at hq
      split_ifs at hq
      · exact Option.map_eq_none_iff.mp hq
      · exact hq
    by_cases hpr : w.path <+: q ++ r
    · cases List.prefix_or_prefix_of_prefix hpr (List.prefix_append q r) with
      | inl hpq => exact absurd hpq hp
      | inr hqp => exact hw.above q hqp fun heq => hp (heq ▸ List.prefix_rfl)
    · refine h.above q r hold ?_
      rw [Overlay.patch, Patch.act, if_neg hpr] at hr
      split_ifs at hr
      · rwa [Option.isSome_map] at hr
      · exact hr

theorem fits_layer {ws : List (Patch κ α)} (h : o.Fits S) (hws : ∀ w ∈ ws, w.Allowed S) :
    (o.layer ws).Fits S := by
  induction ws generalizing o with
  | nil => exact h
  | cons w ws ih =>
    exact ih (h.patch (hws w (List.mem_cons_self ..))) fun w' hw' =>
      hws w' (List.mem_cons_of_mem w hw')

/-- What has to be the same away from a path for an update at the path to be enough. -/
structure SameApart (p : List κ) (s s' : Tree κ α) (o o' : Overlay κ α) (S : Schema κ) :
    Prop where
  tree : ∀ q, ¬ p <+: q → ¬ q <+: p → s' q = s q
  leaf : ∀ q, q <+: p → q ≠ p → S.leaf q → s' q = s q
  overlay : ∀ q, ¬ p <+: q → o' q = o q
  uncovered : ∀ q, q <+: p → q ≠ p → o' q = none

/-- The tree seen through the overlay, brought up to date at one path. -/
theorem over_update {w : Patch κ α} (h : SameApart w.path s s' o o' S) (hs : s.Within S)
    (hs' : s'.Within S) (ho' : o'.Fits S)
    (htree : w.tree = (s'.sub w.path).over (o'.sub w.path)) (hnull : w.null = true ↔ w.tree = empty) :
    (s.over o).patch w = s'.over o' := by
  have hwithin : w.tree.Within (S.sub w.path) := by
    rw [htree]
    exact (hs'.sub w.path).over (ho'.sub w.path)
  funext q
  rw [Tree.patch]
  by_cases hp : w.path <+: q
  · obtain ⟨r, rfl⟩ := hp
    rw [if_pos (List.prefix_append w.path r), List.drop_left, htree]
    rfl
  · rw [if_neg hp]
    have ho := h.overlay q hp
    by_cases hq : q <+: w.path
    · have hne : q ≠ w.path := fun heq => hp (heq ▸ List.prefix_rfl)
      have hnone : o' q = none := h.uncovered q hq hne
      have hleft : s.over o q = s q := by rw [Tree.over, ← ho, hnone, Option.getD_none]
      have hright : s'.over o' q = s' q := by rw [Tree.over, hnone, Option.getD_none]
      rw [hleft, hright]
      by_cases hleaf : S.leaf q
      · obtain ⟨r, hr⟩ := hq
        have hr' : r ≠ [] := by
          rintro rfl
          exact hne (by rw [← hr, List.append_nil])
        have hempty : w.tree = empty := by
          funext q'
          cases hq' : w.tree q' with
          | none => rfl
          | some a =>
            have hbelow : S.leaf (q ++ (r ++ q')) := by
              rw [← List.append_assoc, hr]
              exact hwithin q' a hq'
            exact absurd (List.append_eq_nil_iff.mp (S.apart q _ hleaf hbelow)).1 hr'
        rw [if_neg (by simp [hnull.mpr hempty]), h.leaf q ⟨r, hr⟩ hne hleaf]
      · have hnone : ∀ {t : Tree κ α}, t.Within S → t q = none := by
          intro t ht
          cases htq : t q with
          | none => rfl
          | some a => exact absurd (ht q a htq) hleaf
        rw [hnone hs, hnone hs']
        split_ifs <;> rfl
    · rw [if_neg fun hand => hq hand.1, Tree.over, Tree.over, ho, h.tree q hp hq]

/-- A write to the tree changes nothing apart from its path. -/
theorem sameApart_patch {w : Patch κ α} (hs : w.tree.Within (S.sub w.path))
    (hnull : w.null = false → w.tree ≠ empty) (huncovered : ∀ q, q <+: w.path → q ≠ w.path → o q = none) :
    SameApart w.path t (t.patch w) o o S where
  tree q hp hq := by rw [Tree.patch, if_neg hp, if_neg fun hand => hq hand.1]
  leaf q hq hne hleaf := by
    have hp : ¬ w.path <+: q := fun hp => hne (hq.eq_of_length (Nat.le_antisymm hq.length_le hp.length_le))
    rw [Tree.patch, if_neg hp]
    split_ifs with hand
    · exfalso
      refine hnull hand.2 ?_
      funext q'
      cases hq' : w.tree q' with
      | none => rfl
      | some a =>
        obtain ⟨r, hr⟩ := hq
        have hbelow : S.leaf (q ++ (r ++ q')) := by
          rw [← List.append_assoc, hr]
          exact hs q' a hq'
        have hnil := (List.append_eq_nil_iff.mp (S.apart q _ hleaf hbelow)).1
        exact absurd (by rw [← hr, hnil, List.append_nil]) hne
    · rfl
  overlay q _ := rfl
  uncovered := huncovered

end Pincushion.KeyTree
