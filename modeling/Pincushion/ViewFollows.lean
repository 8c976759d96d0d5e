import Pincushion.ViewUpdates

/-! A view that is updated step by step shows what it would show if it were worked out anew: the
data of the server with the waiting writes over them. -/
namespace Pincushion.Snapshot
open KeyTree SortedDictionary
variable {κ α : Type*} [LinearOrder κ]

namespace FViewCache

/-- The nodes are in order, and the leaves of the server stand where they may. -/
structure Sane (v : FViewCache κ α) (S : Schema κ) : Prop where
  eventUnfiltered : v.cachedEventSnap.isFiltered = false
  serverUnfiltered : v.cachedServerSnap.isFiltered = false
  event : v.cachedEventSnap.node.Canonical
  server : v.cachedServerSnap.node.Canonical
  within : v.cachedServerSnap.node.tree.Within S

/-- The view is complete, and its node is the server's seen through the writes. -/
structure Shows (v : FViewCache κ α) (o : Overlay κ α) : Prop where
  complete : v.cachedEventSnap.isFullyInitialized = true
  tree : v.cachedEventSnap.node.tree = v.cachedServerSnap.node.tree.over o

/-- There is something complete to show. -/
def Known (v : FViewCache κ α) (o : Overlay κ α) : Prop :=
  v.cachedServerSnap.isFullyInitialized = true ∨ (o []).isSome

structure Follows (v : FViewCache κ α) (o : Overlay κ α) (S : Schema κ) : Prop where
  sane : v.Sane S
  shows : v.Known o → v.Shows o

theorem node_of_completeServerSnap {κ α : Type*} {v : FViewCache κ α} {s : FNode κ α}
    (hs : v.completeServerSnap = some s) : s = v.cachedServerSnap.node := by
  rw [completeServerSnap] at hs
  split_ifs at hs
  exact (Option.some.inj hs).symm

theorem Sane.withServer {v : FViewCache κ α} {S : Schema κ} {n : FNode κ α} (h : v.Sane S)
    (hn : n.Canonical) (hwithin : n.tree.Within S) (complete : Bool) :
    (v.updateServerSnap n complete false).Sane S :=
  ⟨h.eventUnfiltered, rfl, h.event, hn, hwithin⟩

theorem Sane.withEvent {v : FViewCache κ α} {S : Schema κ} {n : FNode κ α} (h : v.Sane S)
    (hn : n.Canonical) (complete : Bool) : (v.updateEventSnap n complete false).Sane S :=
  ⟨rfl, h.serverUnfiltered, hn, h.server, h.within⟩

end FViewCache

namespace FViewProcessor
open FIndexedFilter FViewCache
variable {S : Schema κ} {v : FViewCache κ α} {w w' : FWriteTreeRef κ α} {n c : FNode κ α} {k : κ}
  {p rest : List κ}

/-- A write that covers the view leaves nothing to see of the server. -/
theorem over_of_shadowed (h : (w.overlay []).isSome) (t u : Tree κ α) :
    t.over w.overlay = u.over w.overlay := by
  refine over_congr fun q hq => ?_
  have hsome := FWriteTreeRef.overlay_downward h q
  rw [List.nil_append, hq] at hsome
  cases hsome

theorem uncovered_above (h : w.overlay p = none) : ∀ q, q <+: p → q ≠ p → w.overlay q = none := by
  rintro q ⟨r, rfl⟩ -
  cases hq : w.overlay q with
  | none => rfl
  | some a =>
    have hsome := FWriteTreeRef.overlay_downward (Option.isSome_iff_exists.mpr ⟨a, hq⟩) r
    rw [h] at hsome
    cases hsome

theorem covered_of_root (h : (w.overlay []).isSome) (p : List κ) : (w.overlay p).isSome :=
  FWriteTreeRef.overlay_downward h p

theorem isCompleteForChild_of_init {c : FCacheNode κ α} (h : c.isFullyInitialized = true)
    (hf : c.isFiltered = false) (k : κ) : c.isCompleteForChild k = true := by
  simp [FCacheNode.isCompleteForChild, h, hf]

variable [DecidableEq α]

theorem generate_shadowed (h : (w.overlay p).isSome) :
    generateEventCacheAfterServerEvent v p w = v := by
  rw [generateEventCacheAfterServerEvent.eq_def, FWriteTreeRef.isSome_shadowing, if_pos h]

theorem server_generate : (generateEventCacheAfterServerEvent v p w).cachedServerSnap =
    v.cachedServerSnap := by
  rw [generateEventCacheAfterServerEvent.eq_def]
  split_ifs <;> rfl

theorem sane_generate (hv : v.Sane S) (hw : w.Regular S) :
    (generateEventCacheAfterServerEvent v p w).Sane S := by
  cases p with
  | nil =>
    rw [generateEventCacheAfterServerEvent]
    split_ifs with hshadow hfiltered
    · exact hv
    · rw [hv.serverUnfiltered] at hfiltered
      cases hfiltered
    · refine hv.withEvent ?_ _
      cases hcalc : w.calculateCompleteEventCache v.completeServerSnap with
      | none => exact FNode.canonical_emptyNode
      | some m =>
        refine FWriteTreeRef.canonical_completeEventCache hw (fun s hs => ?_) hcalc
        rw [completeServerSnap] at hs
        split_ifs at hs
        · cases hs
          exact hv.server
        · cases hs
  | cons k rest =>
    rw [generateEventCacheAfterServerEvent]
    split_ifs with hshadow hcomplete
    · exact hv
    · refine hv.withEvent ?_ _
      have hold := hv.event.getImmediateChild k
      by_cases hnone : w.overlay (k :: rest) = none
      · obtain ⟨u, hu, hcanonical, -⟩ :=
          FWriteTreeRef.afterServerOverwrite_some hw hv.server hv.within hnone
        simp only [hu]
        exact canonical_updateChildIn hv.event (hold.updateChild rest hcanonical)
      · simp only [FWriteTreeRef.afterServerOverwrite_none (Option.isSome_iff_ne_none.mpr hnone)]
        exact canonical_updateChildIn hv.event hold
    · refine hv.withEvent ?_ _
      cases hcalc : w.calculateCompleteChild k v.cachedServerSnap with
      | none => exact hv.event
      | some m =>
        exact canonical_updateChildIn hv.event
          (FWriteTreeRef.canonical_completeChild hw hv.server hcalc)

/-- At its own path the view is worked out anew, unless a write covers it. -/
theorem follows_generate_root (hv : v.Sane S) (hw : w.Regular S)
    (hinit : v.cachedServerSnap.isFullyInitialized = true)
    (hshadow : (w.overlay []).isSome → v.Shows w.overlay) :
    (generateEventCacheAfterServerEvent v [] w).Follows w.overlay S := by
  refine ⟨sane_generate hv hw, fun _ => ?_⟩
  by_cases hcover : (w.overlay []).isSome
  · rw [generate_shadowed hcover]
    exact hshadow hcover
  · obtain ⟨m, hm, -, htree⟩ := FWriteTreeRef.completeEventCache_spec hw hv.server hv.within
    rw [generateEventCacheAfterServerEvent, FWriteTreeRef.isSome_shadowing, if_neg hcover]
    refine ⟨by simp [updateEventSnap], ?_⟩
    simpa [updateEventSnap, updateFullNode, hv.serverUnfiltered, completeServerSnap, hinit, hm]
      using htree

/-- Below it only what is at the path is, and the rest has to have been right. -/
theorem follows_generate_child (hv : v.Sane S) (hw : w.Regular S)
    (hold : v.Known w.overlay → v.cachedEventSnap.isFullyInitialized = true ∧
      ((w.overlay (k :: rest)).isSome → v.Shows w.overlay) ∧
      (w.overlay (k :: rest) = none → ∃ s o, s.Within S ∧ v.cachedEventSnap.node.tree = s.over o ∧
        SameApart (k :: rest) s v.cachedServerSnap.node.tree o w.overlay S)) :
    (generateEventCacheAfterServerEvent v (k :: rest) w).Follows w.overlay S := by
  refine ⟨sane_generate hv hw, fun hknown => ?_⟩
  rw [Known, server_generate] at hknown
  obtain ⟨hinit, hshadow, hopen⟩ := hold hknown
  by_cases hnone : w.overlay (k :: rest) = none
  · obtain ⟨s, o, hs, htree, happart⟩ := hopen hnone
    obtain ⟨u, hu, hcanonical, hutree⟩ :=
      FWriteTreeRef.afterServerOverwrite_some hw hv.server hv.within hnone
    have hchild := isCompleteForChild_of_init hinit hv.eventUnfiltered k
    rw [generateEventCacheAfterServerEvent, FWriteTreeRef.isSome_shadowing, hnone,
      if_neg (by simp)]
    simp only [hchild, if_true, hu]
    refine ⟨by simp [updateEventSnap, hinit], ?_⟩
    simp only [updateEventSnap]
    rw [updateChildIn_updateChild hv.event hcanonical, FNode.tree_updateChild, htree]
    exact over_update happart hs hv.within hw.fits hutree (hcanonical.null_iff _)
  · have hcover := Option.isSome_iff_ne_none.mpr hnone
    rw [generate_shadowed hcover]
    exact hshadow hcover

end FViewProcessor

end Pincushion.Snapshot
