import Pincushion.ViewFollows

/-! What the operations do to a view: after each of them it shows the data of the server seen
through the writes that wait then. -/
namespace Pincushion.Snapshot
open KeyTree SortedDictionary

namespace FViewProcessor
open FIndexedFilter FViewCache
variable {κ α : Type*} [LinearOrder κ] {S : Schema κ} {v : FViewCache κ α} {w : FWriteTreeRef κ α}
  {n c : FNode κ α} {k : κ} {p rest : List κ} {o : Overlay κ α}

/-- Under a write that stays nothing changes. -/
theorem eq_of_covered (hr : Retreats p o w.overlay) (h : (w.overlay p).isSome) : w.overlay = o := by
  funext q
  by_cases hp : p <+: q
  · obtain ⟨r, rfl⟩ := hp
    exact hr.covered _ (FWriteTreeRef.overlay_downward h r)
  · exact hr.away q hp

/-- The view was complete before a write at the path went if it is complete after. -/
theorem known_of_retreats (hr : Retreats p o w.overlay) (h : v.Known w.overlay) : v.Known o := by
  cases h with
  | inl hinit => exact .inl hinit
  | inr hcover =>
    refine .inr ?_
    rwa [← eq_of_covered hr (covered_of_root hcover p)]

theorem follows_of_covered (hv : v.Follows o S) (hr : Retreats p o w.overlay)
    (h : (w.overlay p).isSome) : v.Follows w.overlay S := by
  rw [eq_of_covered hr h]
  exact hv

/-- The child that is written, worked out from what is shown. -/
theorem canonical_completeChild {opt : Option (FNode κ α)} (hv : v.Sane S) (hw : w.Regular S)
    (hopt : ∀ m ∈ opt, m.Canonical) (h : completeChild w v opt k = some c) : c.Canonical := by
  rw [completeChild.eq_def] at h
  split_ifs at h
  · cases h
    exact hv.event.getImmediateChild k
  · cases opt with
    | some m => exact FWriteTreeRef.canonical_completeChild hw (hopt m rfl) h
    | none => exact FWriteTreeRef.canonical_completeChild hw hv.server h

/-- The children that the server has sent, as a merge. -/
theorem fits_children {server : FNode κ α} (hserver : server.Canonical)
    (hwithin : server.tree.Within S) :
    (server.enumerateChildren.foldl (fun changed e => changed.addWrite e.2 [e.1])
      FCompoundWrite.emptyWrite).writeTree.Canonical ∧
    (server.enumerateChildren.foldl (fun changed e => changed.addWrite e.2 [e.1])
      FCompoundWrite.emptyWrite).overlay.Fits S := by
  have hfold : server.enumerateChildren.foldl (fun changed e => changed.addWrite e.2 [e.1])
      FCompoundWrite.emptyWrite = (server.enumerateChildren.map fun e => ([e.1], e.2)).foldl
        (fun changed x => changed.addWrite x.2 ([] ++ x.1)) FCompoundWrite.emptyWrite := by
    rw [List.foldl_map]
    rfl
  rw [hfold]
  constructor
  · refine FWriteTree.canonical_addWrites [] FImmutableTree.canonical_empty fun x hx => ?_
    obtain ⟨e, he, rfl⟩ := List.mem_map.mp hx
    exact FWriteTreeRef.canonical_enumerateChildren hserver e he
  · rw [FCompoundWrite.overlay_addWrites, FCompoundWrite.overlay_emptyWrite]
    refine fits_layer (fits_bare S) fun u hu => ?_
    obtain ⟨x, hx, rfl⟩ := List.mem_map.mp hu
    obtain ⟨e, he, rfl⟩ := List.mem_map.mp hx
    cases hserver with
    | leaf value => cases he
    | @children cs sorted nonempty canonical =>
      have hchild : e.2.tree = (FNode.children cs).tree.sub [e.1] := by
        rw [← FNode.tree_getImmediateChild, FNode.getImmediateChild,
          objectForKey_of_mem sorted he]
        rfl
      have hbelow : e.2.tree.Within (S.sub [e.1]) := by
        rw [hchild]
        exact hwithin.sub [e.1]
      refine ⟨hbelow, fun q hq hne hleaf => ?_⟩
      change q <+: [e.1] at hq
      change q ≠ [e.1] at hne
      cases q with
      | nil =>
        obtain ⟨q', a, hq'⟩ := (canonical e he).exists_leaf (nonempty e he)
        exact absurd (S.apart [] _ hleaf (hbelow q' a hq')) (List.cons_ne_nil e.1 q')
      | cons k' q =>
        obtain ⟨rfl, hnil⟩ := List.cons_prefix_cons.mp hq
        rw [List.prefix_nil.mp hnil] at hne
        exact hne rfl

theorem canonical_restored (hv : v.Sane S) (hw : w.Regular S) :
    ((w.calculateCompleteEventCache v.completeServerSnap).getD .emptyNode).Canonical := by
  cases hcalc : w.calculateCompleteEventCache v.completeServerSnap with
  | none => exact FNode.canonical_emptyNode
  | some m =>
    refine FWriteTreeRef.canonical_completeEventCache hw (fun s hs => ?_) hcalc
    rw [node_of_completeServerSnap hs]
    exact hv.server

/-- Data of the server that change under a write cannot be seen. -/
theorem over_updateChild_of_covered {s : FNode κ α} (n : FNode κ α) (hw : w.Regular S)
    (hwithin : s.tree.Within S) (hcover : (w.overlay p).isSome) :
    s.tree.over w.overlay = (s.updateChild p n).tree.over w.overlay := by
  refine over_congr fun q hq => ?_
  rw [FNode.tree_updateChild, Tree.patch]
  split_ifs with hbelow habove
  · obtain ⟨r, rfl⟩ := hbelow
    have hsome := FWriteTreeRef.overlay_downward hcover r
    change (w.overlay (p ++ r)).isSome = true at hsome
    change w.overlay (p ++ r) = none at hq
    rw [hq] at hsome
    cases hsome
  · obtain ⟨⟨r, hr⟩, -⟩ := habove
    change q ++ r = p at hr
    exact hwithin.clearOf hw.fits q r hq (by rwa [hr])
  · rfl

variable [DecidableEq α]

theorem follows_applyServerOverwriteTo (hv : v.Follows o S) (hw : w.Regular S)
    (hr : Retreats p o w.overlay) (hn : n.Canonical) (hwithin : n.tree.Within (S.sub p))
    (hstay : v.cachedServerSnap.isCompleteForPath p = true ∨ v.Follows w.overlay S) :
    (applyServerOverwriteTo v p n w).Follows w.overlay S := by
  cases p with
  | nil =>
    rw [applyServerOverwriteTo]
    refine follows_generate_root (hv.sane.withServer hn hwithin true) hw rfl fun hcover => ?_
    have hshows := hv.shows (known_of_retreats hr (.inr hcover))
    refine ⟨hshows.complete, ?_⟩
    have htree := hshows.tree
    rw [← eq_of_covered hr hcover] at htree
    exact htree.trans (over_of_shadowed hcover _ _)
  | cons k rest =>
    rw [applyServerOverwriteTo]
    split_ifs with hskip
    · rw [Bool.and_eq_true, Bool.not_eq_true'] at hskip
      cases hstay with
      | inl hcomplete =>
        rw [hskip.1] at hcomplete
        cases hcomplete
      | inr hfollows => exact hfollows
    · have hserver := updateChildIn_updateChild (k := k) (p := rest) hv.sane.server hn
      simp only [hserver]
      have htree := FNode.tree_updateChild v.cachedServerSnap.node n (k :: rest)
      have hpatched : (v.cachedServerSnap.node.updateChild (k :: rest) n).tree.Within S := by
        rw [htree]
        exact hv.sane.within.patch hwithin
      have hsane := hv.sane.withServer (hv.sane.server.updateChild (k :: rest) hn) hpatched
        v.cachedServerSnap.isFullyInitialized
      refine follows_generate_child hsane hw fun hknown => ?_
      have hshows := hv.shows (known_of_retreats hr hknown)
      refine ⟨hshows.complete, fun hcover => ⟨hshows.complete, ?_⟩, fun hnone => ?_⟩
      · have hsame := hshows.tree
        rw [← eq_of_covered hr hcover] at hsame
        exact hsame.trans (over_updateChild_of_covered n hw hv.sane.within hcover)
      · refine ⟨v.cachedServerSnap.node.tree, o, hv.sane.within, hshows.tree, ?_⟩
        have happart := sameApart_patch (t := v.cachedServerSnap.node.tree) (o := w.overlay)
          (w := FNode.toPatch (k :: rest) n) hwithin
          (fun hnull hempty => by
            rw [(hn.null_iff _).mpr hempty] at hnull
            cases hnull)
          (uncovered_above hnone)
        refine ⟨?_, ?_, hr.away, happart.uncovered⟩
        · change ∀ q, _ → _ → (v.cachedServerSnap.node.updateChild _ n).tree q = _
          rw [htree]
          exact happart.tree
        · change ∀ q, _ → _ → _ → (v.cachedServerSnap.node.updateChild _ n).tree q = _
          rw [htree]
          exact happart.leaf

/-- Nothing has changed but that the server has sent all there is. -/
theorem follows_listenComplete (hv : v.Follows w.overlay S) (hw : w.Regular S) :
    (listenCompleteOldCache v p w).Follows w.overlay S := by
  rw [listenCompleteOldCache, hv.sane.serverUnfiltered]
  have hsane := hv.sane.withServer hv.sane.server hv.sane.within
    (v.cachedServerSnap.isFullyInitialized || p.isEmpty)
  cases p with
  | nil =>
    refine follows_generate_root hsane hw (by simp [updateServerSnap]) fun hcover => ?_
    have hshows := hv.shows (.inr hcover)
    exact ⟨hshows.complete, hshows.tree⟩
  | cons k rest =>
    refine follows_generate_child hsane hw fun hknown => ?_
    have hshows := hv.shows (by
      cases hknown with
      | inl hinit => exact .inl (by simpa [updateServerSnap] using hinit)
      | inr hcover => exact .inr hcover)
    refine ⟨hshows.complete, fun _ => ⟨hshows.complete, hshows.tree⟩, fun hnone => ?_⟩
    refine ⟨v.cachedServerSnap.node.tree, w.overlay, hv.sane.within, hshows.tree, ?_⟩
    exact ⟨fun _ _ _ => rfl, fun _ _ _ _ => rfl, fun _ _ => rfl, uncovered_above hnone⟩

theorem sane_applyUserOverwriteTo {opt : Option (FNode κ α)} (hv : v.Sane S) (hw : w.Regular S)
    (hn : n.Canonical) (hopt : ∀ m ∈ opt, m.Canonical) :
    (applyUserOverwriteTo v p n w opt).Sane S := by
  cases p with
  | nil => exact hv.withEvent hn true
  | cons k rest =>
    rw [applyUserOverwriteTo]
    split_ifs with hrest hsame
    · exact hv
    · exact hv.withEvent (canonical_updateChildIn hv.event hn) _
    · exact hv
    · refine hv.withEvent (canonical_updateChildIn hv.event ?_) _
      cases hchild : completeChild w v opt k with
      | some m => exact (canonical_completeChild hv hw hopt hchild).updateChild rest hn
      | none => exact FNode.canonical_emptyNode

/-- In a view that is complete, the write is made on what is shown. -/
theorem event_applyUserOverwriteTo (opt : Option (FNode κ α)) (hv : v.Sane S) (hn : n.Canonical)
    (hinit : v.cachedEventSnap.isFullyInitialized = true) :
    (applyUserOverwriteTo v p n w opt).cachedEventSnap.isFullyInitialized = true ∧
      (applyUserOverwriteTo v p n w opt).cachedEventSnap.node =
        v.cachedEventSnap.node.updateChild p n ∧
      (applyUserOverwriteTo v p n w opt).cachedServerSnap = v.cachedServerSnap := by
  cases p with
  | nil => exact ⟨rfl, rfl, rfl⟩
  | cons k rest =>
    have hchild : completeChild w v opt k = some (v.cachedEventSnap.node.getImmediateChild k) := by
      rw [completeChild.eq_def, if_pos (isCompleteForChild_of_init hinit hv.eventUnfiltered k)]
    have hnew : (if rest.isEmpty = true then n
        else (v.cachedEventSnap.node.getImmediateChild k).updateChild rest n) =
          (v.cachedEventSnap.node.getImmediateChild k).updateChild rest n := by
      cases rest with
      | nil => rfl
      | cons k' rest => rfl
    rw [applyUserOverwriteTo]
    simp only [hchild, hnew]
    split_ifs with hsame
    · have hold := hv.event.getImmediateChild k
      have heq := hold.eq_of_isEqual (hold.updateChild rest hn) hsame
      refine ⟨hinit, ?_, rfl⟩
      rw [FNode.updateChild_cons, ← heq, hv.event.updateImmediateChild_self]
    · exact ⟨hinit, updateChildIn_updateChild hv.event hn, rfl⟩

/-- The user's write is the last of those that wait. -/
theorem follows_applyUserOverwriteTo {opt : Option (FNode κ α)} (hv : v.Follows o S)
    (hw : w.Regular S) (hn : n.Canonical) (hopt : ∀ m ∈ opt, m.Canonical)
    (hadd : w.overlay = o.patch (FNode.toPatch p n))
    (habove : ∀ q, q <+: p → q ≠ p → ¬ S.leaf q) :
    (applyUserOverwriteTo v p n w opt).Follows w.overlay S := by
  refine ⟨sane_applyUserOverwriteTo hv.sane hw hn hopt, fun hknown => ?_⟩
  cases p with
  | nil =>
    refine ⟨rfl, ?_⟩
    funext q
    rw [hadd, Tree.over, Overlay.patch, Patch.act_of_prefix (w := FNode.toPatch [] n) List.nil_prefix]
    rfl
  | cons k rest =>
    have hold : v.Known o := by
      cases hknown with
      | inl hinit =>
        refine .inl ?_
        rw [← hinit, applyUserOverwriteTo]
        split_ifs <;> rfl
      | inr hcover =>
        refine .inr ?_
        rw [hadd, Overlay.patch, Patch.act] at hcover
        have hpath : ¬ (FNode.toPatch (k :: rest) n).path <+: [] := fun h =>
          absurd (List.prefix_nil.mp h) (List.cons_ne_nil k rest)
        rw [if_neg hpath] at hcover
        split_ifs at hcover with hempty
        · rwa [Option.isSome_map] at hcover
        · exact hcover
    have hshows := hv.shows hold
    obtain ⟨hinit, hnode, hserver⟩ := event_applyUserOverwriteTo (w := w) (p := k :: rest) opt
      hv.sane hn hshows.complete
    refine ⟨hinit, ?_⟩
    rw [hnode, hserver, FNode.tree_updateChild, hshows.tree, hadd]
    refine (over_patch o fun q hq hne => ?_).symm
    cases hleaf : v.cachedServerSnap.node.tree q with
    | none => rfl
    | some a => exact absurd (hv.sane.within q a hleaf) (habove q hq hne)

/-- Each child that the merge changes is written to the data of the server. -/
theorem follows_applyChildren {server : FNode κ α} (es : List (κ × FCompoundWrite κ α))
    (hv : v.Follows w.overlay S) (hw : w.Regular S) (hserver : server.Canonical)
    (hwithin : server.tree.Within S) (hes : ∀ e ∈ es, e.2.writeTree.Canonical ∧
      e.2.overlay.Fits (S.sub [e.1])) :
    (es.foldl (fun cur e => applyServerOverwriteTo cur [e.1]
      (e.2.applyToNode (server.getImmediateChild e.1)) w) v).Follows w.overlay S := by
  induction es generalizing v with
  | nil => exact hv
  | cons e es ih =>
    obtain ⟨hcanonical, hfits⟩ := hes e (List.mem_cons_self ..)
    have hchild := hserver.getImmediateChild e.1
    have htree : (server.getImmediateChild e.1).tree.Within (S.sub [e.1]) := by
      rw [FNode.tree_getImmediateChild]
      exact hwithin.sub [e.1]
    refine ih ?_ fun e' he' => hes e' (List.mem_cons_of_mem e he')
    refine follows_applyServerOverwriteTo hv hw (retreats_self _ _)
      (FCompoundWrite.canonical_applyToNode hcanonical hchild) ?_ (.inr hv)
    rw [FCompoundWrite.tree_applyToNode _ (htree.clearOf hfits)]
    exact htree.over hfits

/-- The two passes over the children. -/
theorem follows_applyPasses {es : List (κ × FCompoundWrite κ α)} (hv : v.Follows w.overlay S)
    (hw : w.Regular S) (hes : ∀ e ∈ es, e.2.writeTree.Canonical ∧ e.2.overlay.Fits (S.sub [e.1]))
    (first last : κ × FCompoundWrite κ α → Bool) :
    ((es.filter last).foldl (fun cur e => applyServerOverwriteTo cur [e.1]
      (e.2.applyToNode (v.cachedServerSnap.node.getImmediateChild e.1)) w)
      ((es.filter first).foldl (fun cur e => applyServerOverwriteTo cur [e.1]
        (e.2.applyToNode (v.cachedServerSnap.node.getImmediateChild e.1)) w) v)).Follows
      w.overlay S := by
  have hpresent := follows_applyChildren (es.filter first) hv hw hv.sane.server hv.sane.within
    fun e he => hes e (List.mem_filter.mp he).1
  exact follows_applyChildren _ hpresent hw hv.sane.server hv.sane.within
    fun e he => hes e (List.mem_filter.mp he).1

theorem follows_applyServerMergeTo {changed : FCompoundWrite κ α} (hv : v.Follows w.overlay S)
    (hw : w.Regular S) (hchanged : changed.writeTree.Canonical)
    (hfits : changed.overlay.Fits (S.sub p)) (habove : ∀ q, q <+: p → q ≠ p → ¬ S.leaf q) :
    (applyServerMergeTo v p changed w).Follows w.overlay S := by
  rw [applyServerMergeTo]
  split_ifs with hskip hroot
  · exact hv
  · rw [List.isEmpty_iff] at hroot
    subst hroot
    exact follows_applyPasses hv hw
      (FCompoundWrite.fits_childCompoundWrites (S := S) hchanged hfits) _ _
  · exact follows_applyPasses hv hw (FCompoundWrite.fits_childCompoundWrites
      (FCompoundWrite.canonical_addCompoundWrite p hchanged)
      (FCompoundWrite.fits_addCompoundWrite hfits habove)) _ _

/-- An acknowledged write uncovers what the server has under it. -/
theorem follows_ackUserWriteOn (hv : v.Follows o S) (hw : w.Regular S)
    (hr : Retreats p o w.overlay) : (ackUserWriteOn v p w).Follows w.overlay S := by
  rw [ackUserWriteOn]
  dsimp only
  split_ifs with hshadow hcomplete hroot
  · rw [FWriteTreeRef.isSome_shadowing] at hshadow
    exact follows_of_covered hv hr hshadow
  · refine follows_applyServerOverwriteTo hv hw hr (hv.sane.server.getChild p) ?_ (.inl ?_)
    · rw [FNode.tree_getChild]
      exact hv.sane.within.sub p
    · rw [Bool.or_eq_true, Bool.and_eq_true, List.isEmpty_iff] at hcomplete
      cases hcomplete with
      | inl hand =>
        obtain ⟨rfl, hinit⟩ := hand
        simp [FCacheNode.isCompleteForPath, hinit, hv.sane.serverUnfiltered]
      | inr hcomplete => exact hcomplete
  · rw [List.isEmpty_iff] at hroot
    subst hroot
    rw [FWriteTreeRef.isSome_shadowing] at hshadow
    have hfollows : v.Follows w.overlay S := by
      refine ⟨hv.sane, fun hknown => ?_⟩
      cases hknown with
      | inl hinit => simp [hinit] at hcomplete
      | inr hcover => exact absurd hcover hshadow
    obtain ⟨hcanonical, hfits⟩ := fits_children hv.sane.server hv.sane.within
    exact follows_applyServerMergeTo hfollows hw hcanonical hfits
      fun q hq hne => absurd (List.prefix_nil.mp hq) hne
  · refine ⟨hv.sane, fun hknown => ?_⟩
    cases hknown with
    | inl hinit =>
      cases p with
      | nil => exact absurd rfl hroot
      | cons k rest =>
        simp [FCacheNode.isCompleteForPath, FCacheNode.isCompleteForChild, hinit,
          hv.sane.serverUnfiltered] at hcomplete
    | inr hcover =>
      rw [FWriteTreeRef.isSome_shadowing] at hshadow
      exact absurd (covered_of_root hcover p) hshadow

theorem canonical_revertedChildIn (hv : v.Sane S) (hw : w.Regular S) :
    (revertedChildIn v k rest w).Canonical := by
  rw [revertedChildIn.eq_def]
  cases hcalc : w.calculateCompleteChild k v.cachedServerSnap with
  | some m =>
    exact canonical_updateChildIn hv.event
      (FWriteTreeRef.canonical_completeChild hw hv.server hcalc)
  | none =>
    dsimp only
    split_ifs
    · exact canonical_updateChildIn hv.event (hv.event.getImmediateChild k)
    · exact canonical_updateChildIn hv.event FNode.canonical_emptyNode
    · exact hv.event

theorem sane_revertUserWriteOn (hv : v.Sane S) (hw : w.Regular S) :
    (revertUserWriteOn v p w).Sane S := by
  cases p with
  | nil =>
    rw [revertUserWriteOn]
    dsimp only
    split_ifs with hshadow hinit
    · exact hv
    · exact hv.withEvent (canonical_restored hv hw) _
    · exact hv.withEvent (FWriteTreeRef.canonical_completeEventChildren hw hv.server) _
  | cons k rest =>
    have hchild : (revertedChildIn v k rest w).Canonical := canonical_revertedChildIn hv hw
    rw [revertUserWriteOn]
    dsimp only
    split_ifs
    · exact hv
    · exact hv.withEvent (canonical_restored hv hw) _
    · exact hv.withEvent hchild _
    · exact hv.withEvent hchild _

theorem server_revertUserWriteOn :
    (revertUserWriteOn v p w).cachedServerSnap = v.cachedServerSnap := by
  rw [revertUserWriteOn.eq_def]
  split_ifs <;> rfl

/-- The child is worked out anew, and is the old one apart from the path of the write. -/
theorem tree_revertedChildIn (hv : v.Sane S) (hw : w.Regular S)
    (hinit : v.cachedServerSnap.isFullyInitialized = true) (hshows : v.Shows o)
    (hr : Retreats (k :: rest) o w.overlay) (hnone : w.overlay (k :: rest) = none) :
    (revertedChildIn v k rest w).tree = v.cachedServerSnap.node.tree.over w.overlay := by
  obtain ⟨n, hn, hcanonical, htree⟩ := FWriteTreeRef.completeChild_spec (k := k) hw hv.server
    hv.within hinit hv.serverUnfiltered
  have habove := uncovered_above hnone
  have hchild : n = (v.cachedEventSnap.node.getImmediateChild k).updateChild rest
      (n.getChild rest) := by
    have hold := hv.event.getImmediateChild k
    refine hcanonical.ext (hold.updateChild rest (hcanonical.getChild rest)) ?_
    rw [FNode.tree_updateChild, FNode.tree_getImmediateChild, hshows.tree, sub_over, htree]
    refine (over_update (S := S.sub [k]) ⟨fun _ _ _ => rfl, fun _ _ _ _ => rfl, ?_, ?_⟩
      (hv.within.sub [k]) (hv.within.sub [k]) (hw.fits.sub [k]) ?_
      ((hcanonical.getChild rest).null_iff _)).symm
    · exact fun q hq => hr.away (k :: q) fun h => hq (List.cons_prefix_cons.mp h).2
    · exact fun q hq hne => habove (k :: q) (List.cons_prefix_cons.mpr ⟨rfl, hq⟩) fun heq =>
        hne (List.cons.inj heq).2
    · change (n.getChild rest).tree = _
      rw [FNode.tree_getChild, htree]
      rfl
  have hnew : revertedChildIn v k rest w = v.cachedEventSnap.node.updateChild [k] n := by
    rw [revertedChildIn, hn]
    dsimp only
    rw [updateChildIn_eq hv.event hcanonical hchild, FNode.updateChild_cons]
    cases v.cachedEventSnap.node.getImmediateChild k <;> rfl
  have hbelow : [k] <+: k :: rest := ⟨rest, rfl⟩
  rw [hnew, FNode.tree_updateChild, hshows.tree]
  refine over_update ⟨fun _ _ _ => rfl, fun _ _ _ _ => rfl, ?_, ?_⟩ hv.within hv.within hw.fits
    htree (hcanonical.null_iff _)
  · exact fun q hq => hr.away q fun h => hq (hbelow.trans h)
  · intro q hq hne
    refine habove q (hq.trans hbelow) fun heq => hne ?_
    subst heq
    exact hq.eq_of_length (Nat.le_antisymm hq.length_le (Nat.le_add_left 1 rest.length))

/-- A write that is taken back uncovers what it hid. -/
theorem follows_revertUserWriteOn (hv : v.Follows o S) (hw : w.Regular S)
    (hr : Retreats p o w.overlay) : (revertUserWriteOn v p w).Follows w.overlay S := by
  by_cases hcover : (w.overlay p).isSome
  · rw [revertUserWriteOn.eq_def, FWriteTreeRef.isSome_shadowing, if_pos hcover]
    exact follows_of_covered hv hr hcover
  · refine ⟨sane_revertUserWriteOn hv.sane hw, fun hknown => ?_⟩
    rw [Known, server_revertUserWriteOn] at hknown
    have hinit : v.cachedServerSnap.isFullyInitialized = true := by
      cases hknown with
      | inl hinit => exact hinit
      | inr hroot => exact absurd (covered_of_root hroot p) hcover
    obtain ⟨m, hm, hcanonical, htree⟩ :=
      FWriteTreeRef.completeEventCache_spec hw hv.sane.server hv.sane.within
    have hrestored : (w.calculateCompleteEventCache v.completeServerSnap).getD .emptyNode = m := by
      rw [completeServerSnap, if_pos hinit, hm, Option.getD_some]
    cases p with
    | nil =>
      rw [revertUserWriteOn, FWriteTreeRef.isSome_shadowing, if_neg hcover]
      dsimp only
      rw [if_pos hinit, hrestored, hinit, Bool.true_or]
      exact ⟨rfl, htree⟩
    | cons k rest =>
      have hchild := tree_revertedChildIn hv.sane hw hinit (hv.shows (.inl hinit)) hr
        (Option.not_isSome_iff_eq_none.mp hcover)
      rw [revertUserWriteOn, FWriteTreeRef.isSome_shadowing, if_neg hcover]
      dsimp only
      rw [hrestored, hinit, Bool.true_or]
      refine ⟨rfl, ?_⟩
      change FNode.tree (ite _ _ _) = _
      split_ifs
      · exact htree
      · exact hchild
      · exact hchild

end FViewProcessor

end Pincushion.Snapshot
