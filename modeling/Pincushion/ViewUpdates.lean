import Mathlib.Data.List.Perm.Subperm
import Pincushion.Schema
import Pincushion.ViewProcessor

/-! What the parts that a view is updated with come to, as trees of leaves. -/
namespace Pincushion.Snapshot
open KeyTree SortedDictionary
variable {κ α : Type*}

/-! What `forEach` reaches does not depend on the path it starts from. -/
namespace FImmutableTree
variable {β : Type*}

mutual
theorem forEach_append (t : FImmutableTree κ β) (p q : List κ) :
    t.forEachPathSoFar (p ++ q) = (t.forEachPathSoFar q).map fun x => (p ++ x.1, x.2) := by
  cases t with
  | node value cs =>
    rw [forEachPathSoFar, forEachPathSoFar, List.map_append, forEachChild_append cs p q]
    cases value <;> rfl
theorem forEachChild_append (cs : List (κ × FImmutableTree κ β)) (p q : List κ) :
    forEachChildSoFar cs (p ++ q) = (forEachChildSoFar cs q).map fun x => (p ++ x.1, x.2) := by
  cases cs with
  | nil => rfl
  | cons e rest =>
    rw [forEachChildSoFar, forEachChildSoFar, List.map_append, forEachChild_append rest p q,
      List.append_assoc, forEach_append e.2 p (q ++ [e.1])]
end

end FImmutableTree

variable [LinearOrder κ]

namespace FNode
variable {n c v : FNode κ α} {k : κ} {p q r : List κ}

theorem tree_getImmediateChild (n : FNode κ α) (k : κ) :
    (n.getImmediateChild k).tree = n.tree.sub [k] := by
  rw [← tree_getChild, getChild_cons]
  cases n.getImmediateChild k <;> rfl

/-- A canonical node is empty when it has no leaf. -/
theorem Canonical.isEmpty_iff (h : n.Canonical) : n.isEmpty = true ↔ n.tree = KeyTree.empty := by
  constructor
  · intro hempty
    rw [eq_emptyNode hempty, tree_emptyNode]
  · intro htree
    cases hempty : n.isEmpty with
    | true => rfl
    | false =>
      obtain ⟨q, a, hq⟩ := h.exists_leaf hempty
      rw [htree] at hq
      cases hq

theorem Canonical.null_iff (h : v.Canonical) (p : List κ) :
    (toPatch p v).null = true ↔ (toPatch p v).tree = KeyTree.empty := h.isEmpty_iff

/-- No leaf stands below another. -/
theorem tree_below {a : α} (h : n.tree q = some a) (hr : r ≠ []) : n.tree (q ++ r) = none := by
  rw [tree] at h
  rw [tree, getChild_append]
  cases hchild : n.getChild q with
  | children cs =>
    rw [hchild] at h
    cases h
  | leaf value =>
    cases r with
    | nil => exact absurd rfl hr
    | cons k r => rfl

/-- Writing what is there changes nothing. -/
theorem Canonical.updateChild_self (h : n.Canonical) (p : List κ) :
    n.updateChild p (n.getChild p) = n := by
  refine (h.updateChild p (h.getChild p)).ext h ?_
  rw [tree_updateChild]
  funext q
  rw [Tree.patch]
  by_cases hp : p <+: q
  · obtain ⟨r, rfl⟩ := hp
    have hpath : (toPatch p (n.getChild p)).path <+: p ++ r := List.prefix_append p r
    rw [if_pos hpath]
    change (n.getChild p).tree ((p ++ r).drop p.length) = n.tree (p ++ r)
    rw [List.drop_left, tree_getChild, Tree.sub]
  · have hpath : ¬ (toPatch p (n.getChild p)).path <+: q := hp
    rw [if_neg hpath]
    split_ifs with hand
    · obtain ⟨⟨r, hr⟩, hempty⟩ := hand
      have hne : r ≠ [] := by
        rintro rfl
        rw [List.append_nil] at hr
        exact hp (hr ▸ List.prefix_rfl)
      obtain ⟨q', a, hq'⟩ := (h.getChild p).exists_leaf hempty
      cases hq : n.tree q with
      | none => rfl
      | some b =>
        have hbelow : n.tree (q ++ (r ++ q')) = some a := by
          rw [← List.append_assoc, hr]
          rwa [tree_getChild] at hq'
        rw [tree_below hq (by simp [hne])] at hbelow
        cases hbelow
    · rfl

theorem Canonical.updateImmediateChild_self (h : n.Canonical) (k : κ) :
    n.updateImmediateChild k (n.getImmediateChild k) = n := by
  have hself := h.updateChild_self [k]
  rwa [updateChild_cons, getChild_cons] at hself

section Equal
variable [DecidableEq α]

theorem isEqualChildren_iff {cs cs' : List (κ × FNode κ α)} : isEqualChildren cs cs' = true ↔
    ∀ e ∈ cs, e.2.isEqual ((objectForKey e.1 cs').getD emptyNode) = true := by
  induction cs with
  | nil => simp [isEqualChildren]
  | cons e rest ih => simp [isEqualChildren, ih]

/-- Canonical nodes that compare as equal are equal. -/
theorem Canonical.eq_of_isEqual {n' : FNode κ α} (h : n.Canonical) (h' : n'.Canonical)
    (heq : n.isEqual n' = true) : n = n' := by
  induction h generalizing n' with
  | leaf value =>
    rw [isEqual, decide_eq_true_iff] at heq
    cases n' with
    | leaf value' =>
      cases heq
      rfl
    | children cs' => cases heq
  | @children cs sorted nonempty canonical ih =>
    cases h' with
    | leaf value' => cases heq
    | @children cs' sorted' nonempty' canonical' =>
      rw [isEqual, Bool.or_eq_true, Bool.and_eq_true, Bool.and_eq_true, List.isEmpty_iff,
        List.isEmpty_iff, beq_iff_eq, isEqualChildren_iff] at heq
      cases heq with
      | inl hnil => rw [hnil.1, hnil.2]
      | inr heq =>
        obtain ⟨hlength, hall⟩ := heq
        have hget : ∀ e ∈ cs, objectForKey e.1 cs' = some e.2 := by
          intro e he
          have hchild := hall e he
          cases hget : objectForKey e.1 cs' with
          | none =>
            rw [hget] at hchild
            have hempty := ih e he canonical_emptyNode hchild
            have hne := nonempty e he
            rw [hempty] at hne
            cases hne
          | some c =>
            rw [hget] at hchild
            exact congrArg some (ih e he (canonical' _ (mem_of_objectForKey hget)) hchild).symm
        have hsub : cs ⊆ cs' := fun e he => mem_of_objectForKey (hget e he)
        have hnodup : cs.Nodup := sorted.imp fun hlt heq => hlt.ne (congrArg Prod.fst heq)
        have hperm : cs.Perm cs' :=
          (List.subperm_of_subset hnodup hsub).perm_of_length_le (Nat.le_of_eq hlength.symm)
        rw [Sorted.eq_of_mem sorted sorted' fun e => hperm.mem_iff]

end Equal

end FNode

namespace FIndexedFilter
variable [DecidableEq α] {node c : FNode κ α} {k : κ} {p : List κ}

theorem canonical_updateChildIn (hn : node.Canonical) (hc : c.Canonical) :
    (updateChildIn node k c p).Canonical := by
  rw [updateChildIn]
  split_ifs
  · exact hn
  · exact hn
  · exact hn.updateImmediateChild k hc

/-- Where the child differs at most at the affected path, it is written. -/
theorem updateChildIn_eq (hn : node.Canonical) (hc : c.Canonical)
    (h : c = (node.getImmediateChild k).updateChild p (c.getChild p)) :
    updateChildIn node k c p = node.updateImmediateChild k c := by
  have hold := hn.getImmediateChild k
  rw [updateChildIn]
  split_ifs with hsame hleaf
  · rw [Bool.and_eq_true] at hsame
    have heq := (hold.getChild p).eq_of_isEqual (hc.getChild p) hsame.1
    rw [← heq, hold.updateChild_self] at h
    rw [h, hn.updateImmediateChild_self]
  · rw [Bool.and_eq_true] at hleaf
    cases node with
    | leaf value => rw [FNode.updateImmediateChild, if_pos hleaf.2]
    | children cs => cases hleaf.1
  · rfl

theorem updateChildIn_updateChild {v : FNode κ α} (hn : node.Canonical) (hv : v.Canonical) :
    updateChildIn node k ((node.getImmediateChild k).updateChild p v) p =
      node.updateChild (k :: p) v := by
  have hget : ((node.getImmediateChild k).updateChild p v).getChild p = v := by
    have happend := FNode.getChild_updateChild (node.getImmediateChild k) v p []
    rw [List.append_nil] at happend
    rw [happend]
    cases v <;> rfl
  rw [updateChildIn_eq hn ((hn.getImmediateChild k).updateChild p hv) (by rw [hget]),
    FNode.updateChild_cons]

end FIndexedFilter

namespace FImmutableTree

theorem Canonical.of_mem_forEach {t : FImmutableTree κ (FNode κ α)} (h : t.Canonical)
    (p : List κ) {x : List κ × FNode κ α} (hx : x ∈ t.forEachPathSoFar p) : x.2.Canonical := by
  induction h generalizing p with
  | @mk value cs written children ih =>
    rw [forEachPathSoFar] at hx
    cases List.mem_append.mp hx with
    | inl hx =>
      clear written
      induction cs with
      | nil => cases hx
      | cons e rest ihrest =>
        rw [forEachChildSoFar] at hx
        cases List.mem_append.mp hx with
        | inl hx => exact ih e (List.mem_cons_self ..) _ hx
        | inr hx =>
          exact ihrest (fun e' he' => children e' (List.mem_cons_of_mem e he'))
            (fun e' he' => ih e' (List.mem_cons_of_mem e he')) (List.mem_append_left _ hx) hx
    | inr hx =>
      cases value with
      | none => cases hx
      | some v =>
        obtain rfl := List.mem_singleton.mp hx
        exact written v rfl

end FImmutableTree

namespace FCompoundWrite
variable {c : FCompoundWrite κ α} {n : FNode κ α} {p q : List κ}

theorem canonical_child (h : c.writeTree.Canonical) (p : List κ) :
    (c.childCompoundWriteAtPath p).writeTree.Canonical := by
  rw [childCompoundWriteAtPath]
  split_ifs
  · exact h
  · cases hcomplete : c.completeNodeAtPath p with
    | some shadowingNode => exact FImmutableTree.canonical_ofValue (h.of_complete hcomplete)
    | none => exact h.subtreeAtPath p

theorem canonical_applyToNode (h : c.writeTree.Canonical) (hn : n.Canonical) :
    (c.applyToNode n).Canonical := h.applySubtreeWrite [] hn

theorem overlay_downward (h : (c.overlay p).isSome) (q : List κ) : (c.overlay (p ++ q)).isSome := by
  obtain ⟨a, ha⟩ := Option.isSome_iff_exists.mp h
  obtain ⟨m, hm, -⟩ := Option.map_eq_some_iff.mp ha
  rw [overlay_of_complete c hm q]
  rfl

/-- Below a path that no write covers. -/
theorem tree_childMerge (hnone : c.overlay p = none) (hclear : n.tree.ClearOf (c.overlay.sub p)) :
    ((c.childCompoundWriteAtPath p).applyToNode n).tree = n.tree.over (c.overlay.sub p) := by
  have hchild := overlay_child c ((overlay_eq_none c).mp hnone)
  rw [← hchild] at hclear ⊢
  exact tree_applyToNode _ hclear

/-- The writes of a merge at a path, as an overlay. -/
theorem overlay_addCompoundWrite (c : FCompoundWrite κ α) (p q : List κ) :
    (emptyWrite.addCompoundWrite c p).overlay q =
      if p <+: q then c.overlay (q.drop p.length) else none := by
  rw [addCompoundWrite, overlay_addWrites, overlay_emptyWrite]
  have hmoved : (c.enumerateWrites.map fun x => FNode.toPatch (p ++ x.1) x.2) =
      FImmutableTree.patches (c.writeTree.forEachPathSoFar p) := by
    have happend := FImmutableTree.forEach_append c.writeTree p []
    rw [List.append_nil] at happend
    rw [FImmutableTree.patches, happend, List.map_map]
    rfl
  rw [hmoved]
  split_ifs with hp
  · obtain ⟨r, rfl⟩ := hp
    rw [List.drop_left]
    exact FImmutableTree.layer_forEach c.writeTree p r c.wellFormed
  · refine Overlay.layer_of_not_covers rfl fun w hw hwq => hp ?_
    obtain ⟨x, hx, rfl⟩ := FImmutableTree.mem_patches hw
    exact (FImmutableTree.prefix_of_mem_forEach c.writeTree hx).trans hwq

theorem fits_addCompoundWrite {S : Schema κ} (h : c.overlay.Fits (S.sub p))
    (habove : ∀ q, q <+: p → q ≠ p → ¬ S.leaf q) :
    (emptyWrite.addCompoundWrite c p).overlay.Fits S :=
  h.moved habove (overlay_addCompoundWrite c p)

theorem canonical_addCompoundWrite (p : List κ) (h : c.writeTree.Canonical) :
    (emptyWrite.addCompoundWrite c p).writeTree.Canonical :=
  FWriteTree.canonical_addWrites p FImmutableTree.canonical_empty fun _ hx => h.of_mem_forEach [] hx

theorem fits_childCompoundWrites {S : Schema κ} (hc : c.writeTree.Canonical)
    (h : c.overlay.Fits S) : ∀ e ∈ c.childCompoundWrites,
      e.2.writeTree.Canonical ∧ e.2.overlay.Fits (S.sub [e.1]) := by
  obtain ⟨t, ht⟩ := c
  cases t with
  | node value cs =>
    intro e he
    obtain ⟨⟨⟨k, child⟩, hmem⟩, -, rfl⟩ := List.mem_map.mp he
    have hvalue : value = none := by
      cases value with
      | none => rfl
      | some v =>
        obtain rfl : cs = [] := ht.1 rfl
        cases hmem
    subst hvalue
    constructor
    · cases hc with
      | mk written children => exact children _ hmem
    · have hoverlay : child.overlay = (overlay ⟨.node none cs, ht⟩).sub [k] := by
        funext q
        have hcons : (FImmutableTree.node none cs).overlay (k :: q) =
            ((objectForKey k cs).getD .empty).overlay q := FImmutableTree.overlay_cons k q
        rw [objectForKey_of_mem ht.2.1 hmem] at hcons
        exact hcons.symm
      change child.overlay.Fits (S.sub [k])
      rw [hoverlay]
      exact h.sub [k]

end FCompoundWrite

namespace FWriteTreeRef
variable {S : Schema κ} {w : FWriteTreeRef κ α} {s n : FNode κ α} {p q : List κ} {k : κ}

/-- The writes below the path of the reference. -/
def overlay (w : FWriteTreeRef κ α) : Overlay κ α :=
  w.writeTree.visibleWrites.overlay.sub w.path

structure Regular (w : FWriteTreeRef κ α) (S : Schema κ) : Prop where
  canonical : w.writeTree.visibleWrites.writeTree.Canonical
  fits : w.overlay.Fits S

theorem overlay_downward (h : (w.overlay p).isSome) (q : List κ) :
    (w.overlay (p ++ q)).isSome := by
  have hdown := FCompoundWrite.overlay_downward (c := w.writeTree.visibleWrites) h q
  rwa [List.append_assoc] at hdown

theorem shadowing_none (h : w.overlay p = none) : w.shadowingWriteAtPath p = none :=
  (FCompoundWrite.overlay_eq_none _).mp h

theorem shadowing_some (h : (w.overlay p).isSome) : ∃ n, w.shadowingWriteAtPath p = some n := by
  obtain ⟨a, ha⟩ := Option.isSome_iff_exists.mp h
  obtain ⟨n, hn, -⟩ := Option.map_eq_some_iff.mp ha
  exact ⟨n, hn⟩

theorem isSome_shadowing (w : FWriteTreeRef κ α) (p : List κ) :
    (w.shadowingWriteAtPath p).isSome = (w.overlay p).isSome := Option.isSome_map.symm

theorem sub_overlay (w : FWriteTreeRef κ α) (p : List κ) :
    w.writeTree.visibleWrites.overlay.sub (w.path ++ p) = w.overlay.sub p := by
  funext q
  simp only [overlay, Overlay.sub, List.append_assoc]

theorem childMerge_spec (hw : w.Regular S) (hn : n.Canonical) (hwithin : n.tree.Within (S.sub p))
    (hnone : w.overlay p = none) :
    ((w.writeTree.visibleWrites.childCompoundWriteAtPath (w.path ++ p)).applyToNode n).Canonical ∧
    ((w.writeTree.visibleWrites.childCompoundWriteAtPath (w.path ++ p)).applyToNode n).tree =
      n.tree.over (w.overlay.sub p) := by
  refine ⟨FCompoundWrite.canonical_applyToNode (FCompoundWrite.canonical_child hw.canonical _) hn,
    ?_⟩
  rw [← sub_overlay]
  refine FCompoundWrite.tree_childMerge hnone ?_
  rw [sub_overlay]
  exact hwithin.clearOf (hw.fits.sub p)

theorem afterServerOverwrite_none (h : (w.overlay p).isSome) :
    w.calculateEventCacheAfterServerOverwrite p s = none := by
  obtain ⟨n, hn⟩ := shadowing_some h
  have hcomplete : w.writeTree.visibleWrites.completeNodeAtPath (w.path ++ p) = some n := hn
  rw [calculateEventCacheAfterServerOverwrite,
    FWriteTree.calculateEventCacheAfterServerOverwriteAtPath]
  simp [FCompoundWrite.hasCompleteWriteAtPath, hcomplete]

theorem afterServerOverwrite_some (hw : w.Regular S) (hs : s.Canonical) (hwithin : s.tree.Within S)
    (hnone : w.overlay p = none) : ∃ u, w.calculateEventCacheAfterServerOverwrite p s = some u ∧
      u.Canonical ∧ u.tree = (s.tree.sub p).over (w.overlay.sub p) := by
  have hcomplete : w.writeTree.visibleWrites.completeNodeAtPath (w.path ++ p) = none :=
    shadowing_none hnone
  have hwithin' : (s.getChild p).tree.Within (S.sub p) := by
    rw [FNode.tree_getChild]
    exact hwithin.sub p
  rw [calculateEventCacheAfterServerOverwrite,
    FWriteTree.calculateEventCacheAfterServerOverwriteAtPath]
  simp only [FCompoundWrite.hasCompleteWriteAtPath, hcomplete, Option.isSome_none,
    Bool.false_eq_true, if_false]
  split_ifs with hempty
  · refine ⟨_, rfl, hs.getChild p, ?_⟩
    have hchild := FCompoundWrite.overlay_child _ hcomplete
    rw [FCompoundWrite.overlay_of_isEmpty _ hempty, sub_overlay] at hchild
    rw [← hchild, over_bare, FNode.tree_getChild]
  · obtain ⟨hcanonical, htree⟩ := childMerge_spec hw (hs.getChild p) hwithin' hnone
    refine ⟨_, rfl, hcanonical, ?_⟩
    rw [htree, FNode.tree_getChild]

theorem completeEventCache_spec (hw : w.Regular S) (hs : s.Canonical) (hwithin : s.tree.Within S) :
    ∃ n, w.calculateCompleteEventCache (some s) = some n ∧ n.Canonical ∧
      n.tree = s.tree.over w.overlay := by
  have hpath : w.writeTree.visibleWrites.overlay.sub w.path = w.overlay := rfl
  rw [calculateCompleteEventCache, FWriteTree.calculateCompleteEventCacheAtPath]
  cases hcomplete : w.writeTree.visibleWrites.completeNodeAtPath w.path with
  | some n =>
    refine ⟨n, rfl, hw.canonical.of_complete hcomplete, ?_⟩
    funext q
    rw [Tree.over, overlay, Overlay.sub, FCompoundWrite.overlay_of_complete _ hcomplete,
      Option.getD_some]
  | none =>
    have hchild := FCompoundWrite.overlay_child _ hcomplete
    rw [hpath] at hchild
    cases hempty : (w.writeTree.visibleWrites.childCompoundWriteAtPath w.path).isEmpty with
    | true =>
      refine ⟨s, by simp [hempty], hs, ?_⟩
      rw [← hchild, FCompoundWrite.overlay_of_isEmpty _ hempty, over_bare]
    | false =>
      refine ⟨(w.writeTree.visibleWrites.childCompoundWriteAtPath w.path).applyToNode s,
        by simp [hempty],
        FCompoundWrite.canonical_applyToNode (FCompoundWrite.canonical_child hw.canonical _) hs, ?_⟩
      rw [← hchild]
      refine FCompoundWrite.tree_applyToNode _ ?_
      rw [hchild]
      exact hwithin.clearOf hw.fits

/-- Without data of the server a write at or above the path is what is shown. -/
theorem completeEventCache_shadowed (hw : w.Regular S) (h : (w.overlay []).isSome)
    (s : Option (FNode κ α)) : ∃ n, w.calculateCompleteEventCache s = some n ∧ n.Canonical ∧
      ∀ u : Tree κ α, n.tree = u.over w.overlay := by
  obtain ⟨n, hn⟩ := shadowing_some h
  have hcomplete : w.writeTree.visibleWrites.completeNodeAtPath w.path = some n := by
    rw [shadowingWriteAtPath, FWriteTree.shadowingWriteAtPath, List.append_nil] at hn
    exact hn
  refine ⟨n, ?_, hw.canonical.of_complete hcomplete, fun u => ?_⟩
  · rw [calculateCompleteEventCache, FWriteTree.calculateCompleteEventCacheAtPath, hcomplete]
  · funext q
    rw [Tree.over, overlay, Overlay.sub, FCompoundWrite.overlay_of_complete _ hcomplete,
      Option.getD_some]

/-- From complete data of the server, or under a write that covers everything. -/
theorem completeEventCache_known {cache : FCacheNode κ α} (hw : w.Regular S)
    (hcanonical : cache.node.Canonical) (hwithin : cache.node.tree.Within S)
    (hknown : cache.isFullyInitialized = true ∨ (w.overlay []).isSome) :
    ∃ n, w.calculateCompleteEventCache
        (if cache.isFullyInitialized then some cache.node else none) = some n ∧
      n.Canonical ∧ n.tree = cache.node.tree.over w.overlay := by
  cases hknown with
  | inl hinit =>
    rw [if_pos hinit]
    exact completeEventCache_spec hw hcanonical hwithin
  | inr hcover =>
    obtain ⟨n, hn, hn', htree⟩ := completeEventCache_shadowed hw hcover
      (if cache.isFullyInitialized then some cache.node else none)
    exact ⟨n, hn, hn', htree _⟩

theorem canonical_completeEventCache (hw : w.Regular S) {s : Option (FNode κ α)}
    (hs : ∀ m ∈ s, m.Canonical) (h : w.calculateCompleteEventCache s = some n) : n.Canonical := by
  rw [calculateCompleteEventCache, FWriteTree.calculateCompleteEventCacheAtPath] at h
  cases hcomplete : w.writeTree.visibleWrites.completeNodeAtPath w.path with
  | some m =>
    rw [hcomplete] at h
    cases h
    exact hw.canonical.of_complete hcomplete
  | none =>
    simp only [hcomplete] at h
    split_ifs at h
    · exact hs n h
    · cases h
      refine FCompoundWrite.canonical_applyToNode (FCompoundWrite.canonical_child hw.canonical _) ?_
      cases s with
      | none => exact FNode.canonical_emptyNode
      | some m => exact hs m rfl

theorem canonical_completeChild {server : FCacheNode κ α} (hw : w.Regular S)
    (hs : server.node.Canonical) (h : w.calculateCompleteChild k server = some n) :
    n.Canonical := by
  rw [calculateCompleteChild, FWriteTree.calculateCompleteChildAtPath] at h
  cases hcomplete : w.writeTree.visibleWrites.completeNodeAtPath (w.path ++ [k]) with
  | some m =>
    simp only [hcomplete] at h
    cases h
    exact hw.canonical.of_complete hcomplete
  | none =>
    simp only [hcomplete] at h
    split_ifs at h
    cases h
    exact FCompoundWrite.canonical_applyToNode (FCompoundWrite.canonical_child hw.canonical _)
      (hs.getImmediateChild k)

theorem completeChild_spec {server : FCacheNode κ α} (hw : w.Regular S) (hs : server.node.Canonical)
    (hwithin : server.node.tree.Within S) (hinit : server.isFullyInitialized = true)
    (hfilter : server.isFiltered = false) : ∃ n, w.calculateCompleteChild k server = some n ∧
      n.Canonical ∧ n.tree = (server.node.tree.sub [k]).over (w.overlay.sub [k]) := by
  have hcomplete' : server.isCompleteForChild k = true := by
    simp [FCacheNode.isCompleteForChild, hinit, hfilter]
  have hchild := FNode.tree_getImmediateChild server.node k
  rw [calculateCompleteChild, FWriteTree.calculateCompleteChildAtPath]
  cases hcomplete : w.writeTree.visibleWrites.completeNodeAtPath (w.path ++ [k]) with
  | some n =>
    refine ⟨n, rfl, hw.canonical.of_complete hcomplete, ?_⟩
    funext q
    rw [Tree.over, ← sub_overlay, Overlay.sub, FCompoundWrite.overlay_of_complete _ hcomplete,
      Option.getD_some]
  | none =>
    have hnone : w.overlay [k] = none := by
      have hnone := (FCompoundWrite.overlay_eq_none _).mpr hcomplete
      rwa [overlay, Overlay.sub]
    obtain ⟨hcanonical, htree⟩ := childMerge_spec (p := [k]) hw (hs.getImmediateChild k)
      (by rw [hchild]; exact hwithin.sub [k]) hnone
    refine ⟨_, by simp only [hcomplete', if_true], hcanonical, ?_⟩
    rw [htree, hchild]

theorem canonical_foldl_update {cs : List (κ × FNode κ α)} {f : κ × FNode κ α → FNode κ α}
    (hs : s.Canonical) (h : ∀ e ∈ cs, (f e).Canonical) :
    (cs.foldl (fun n e => n.updateImmediateChild e.1 (f e)) s).Canonical := by
  induction cs generalizing s with
  | nil => exact hs
  | cons e rest ih =>
    exact ih (hs.updateImmediateChild e.1 (h e (List.mem_cons_self ..)))
      fun e' he' => h e' (List.mem_cons_of_mem e he')

theorem canonical_enumerateChildren (h : s.Canonical) : ∀ e ∈ s.enumerateChildren, e.2.Canonical := by
  cases h with
  | leaf value => exact fun e he => absurd he List.not_mem_nil
  | children sorted nonempty canonical => exact canonical

theorem canonical_completeChildren {c : FCompoundWrite κ α} (h : c.writeTree.Canonical) :
    ∀ e ∈ c.completeChildren, e.2.Canonical := by
  rw [FCompoundWrite.completeChildren]
  generalize c.writeTree = t at h
  cases h with
  | @mk value cs written children =>
    cases value with
    | some n => exact canonical_enumerateChildren (written n rfl)
    | none =>
      intro e he
      obtain ⟨e', he', hvalue⟩ := List.mem_filterMap.mp he
      obtain ⟨n, hn, rfl⟩ := Option.map_eq_some_iff.mp hvalue
      have hchild := children e' he'
      generalize e'.2 = child at hchild hn
      cases hchild with
      | mk written' children' => exact written' n hn

theorem canonical_completeEventChildren (hw : w.Regular S) (hs : s.Canonical) :
    (w.calculateCompleteEventChildren s).Canonical := by
  rw [calculateCompleteEventChildren, FWriteTree.calculateCompleteEventChildrenAtPath]
  cases hcomplete : w.writeTree.visibleWrites.completeNodeAtPath w.path with
  | some m =>
    exact canonical_foldl_update FNode.canonical_emptyNode
      (canonical_enumerateChildren (hw.canonical.of_complete hcomplete))
  | none =>
    have hmerge := FCompoundWrite.canonical_child hw.canonical w.path
    refine canonical_foldl_update ?_ (canonical_completeChildren hmerge)
    refine canonical_foldl_update FNode.canonical_emptyNode fun e he => ?_
    exact FCompoundWrite.canonical_applyToNode (FCompoundWrite.canonical_child hmerge _)
      (canonical_enumerateChildren hs e he)

end FWriteTreeRef

end Pincushion.Snapshot
