import Pincushion.SyncTree

/-! How an operation goes through the tree of views. Seen from each view it is an operation on the
data below the view, and so it brings every view up to date. -/
namespace Pincushion.Snapshot
open KeyTree SortedDictionary
variable {κ α ρ : Type*} [LinearOrder κ]

namespace FCompoundWrite

/-- A child sees of a compound write what is below its key. -/
theorem overlay_childCompoundWrite (c : FCompoundWrite κ α) (k : κ) :
    (c.childCompoundWriteAtPath [k]).overlay = c.overlay.sub [k] := by
  cases hcomplete : c.completeNodeAtPath [k] with
  | none => exact overlay_child c hcomplete
  | some n =>
    funext q
    rw [childCompoundWriteAtPath]
    simp only [List.isEmpty_cons, Bool.false_eq_true, if_false, hcomplete]
    rw [Overlay.sub, overlay_of_complete c hcomplete q]
    exact FImmutableTree.overlay_value n

end FCompoundWrite

namespace FOperationType
variable {operation : FOperationType κ α} {path : List κ} {o o' : Overlay κ α} {S : Schema κ}
  {k : κ}

/-- The operation fits the schema, and says what it has made of the overlay of the writes. -/
def Applies (path : List κ) (o o' : Overlay κ α) (S : Schema κ) : FOperationType κ α → Prop
  | .overwrite true snap => snap.Canonical ∧ (∀ q, q <+: path → q ≠ path → ¬ S.leaf q) ∧
      o' = o.patch (FNode.toPatch path snap)
  | .overwrite false snap => snap.Canonical ∧ snap.tree.Within (S.sub path) ∧ o' = o
  | .merge children => children.writeTree.Canonical ∧ children.overlay.Fits (S.sub path) ∧
      (∀ q, q <+: path → q ≠ path → ¬ S.leaf q) ∧ o' = o
  | .ackUserWrite _ => Retreats path o o'
  | .listenComplete => o' = o

/-- For the child on the way to the path. -/
theorem Applies.forward (h : operation.Applies (k :: path) o o' S) :
    operation.Applies path (o.sub [k]) (o'.sub [k]) (S.sub [k]) := by
  have habove : (∀ q, q <+: k :: path → q ≠ k :: path → ¬ S.leaf q) →
      ∀ q, q <+: path → q ≠ path → ¬ (S.sub [k]).leaf q := fun h q hq hne =>
    h (k :: q) (List.cons_prefix_cons.mpr ⟨rfl, hq⟩) fun heq => hne (List.cons.inj heq).2
  cases operation with
  | overwrite fromUser snap =>
    cases fromUser with
    | true =>
      obtain ⟨hsnap, hpath, rfl⟩ := h
      refine ⟨hsnap, habove hpath, ?_⟩
      funext q
      exact FImmutableTree.act_cons snap k path q (o (k :: q))
    | false =>
      obtain ⟨hsnap, hwithin, rfl⟩ := h
      exact ⟨hsnap, hwithin, rfl⟩
  | merge children =>
    obtain ⟨hcanonical, hfits, hpath, rfl⟩ := h
    exact ⟨hcanonical, hfits, habove hpath, rfl⟩
  | ackUserWrite revert =>
    have hr : Retreats (k :: path) o o' := h
    exact ⟨fun q hq => hr.away (k :: q) fun hk => hq (List.cons_prefix_cons.mp hk).2,
      fun q hq => hr.covered (k :: q) hq⟩
  | listenComplete =>
    have heq : o' = o := h
    subst heq
    rfl

/-- For the other children nothing changes. -/
theorem Applies.apart {k' : κ} (h : operation.Applies (k :: path) o o' S) (hk : k' ≠ k) :
    o'.sub [k'] = o.sub [k'] := by
  have hnot : ∀ q, ¬ k :: path <+: k' :: q := fun q hq => hk (List.cons_prefix_cons.mp hq).1.symm
  cases operation with
  | overwrite fromUser snap =>
    cases fromUser with
    | true =>
      obtain ⟨-, -, rfl⟩ := h
      funext q
      exact Patch.act_of_apart (w := FNode.toPatch (k :: path) snap) (hnot q)
        (fun hq => hk (List.cons_prefix_cons.mp hq).1) _
    | false =>
      obtain ⟨-, -, rfl⟩ := h
      rfl
  | merge children =>
    obtain ⟨-, -, -, rfl⟩ := h
    rfl
  | ackUserWrite revert =>
    funext q
    exact Retreats.away h (k' :: q) (hnot q)
  | listenComplete =>
    have heq : o' = o := h
    rw [heq]

/-- For every child below the path, where the operation reaches it. -/
theorem Applies.below {childOperation : FOperationType κ α} (h : operation.Applies [] o o' S)
    (hchild : operation.operationForChild k = some childOperation) :
    childOperation.Applies [] (o.sub [k]) (o'.sub [k]) (S.sub [k]) := by
  cases operation with
  | overwrite fromUser snap =>
    cases hchild
    cases fromUser with
    | true =>
      obtain ⟨hsnap, -, rfl⟩ := h
      refine ⟨hsnap.getImmediateChild k, fun q hq hne => absurd (List.prefix_nil.mp hq) hne, ?_⟩
      funext q
      rw [Overlay.sub, Overlay.patch, Overlay.patch,
        Patch.act_of_prefix (w := FNode.toPatch [] snap) List.nil_prefix,
        Patch.act_of_prefix (w := FNode.toPatch [] (snap.getImmediateChild k)) List.nil_prefix]
      exact congrArg some (FNode.tree_cons snap k q)
    | false =>
      obtain ⟨hsnap, hwithin, rfl⟩ := h
      refine ⟨hsnap.getImmediateChild k, ?_, rfl⟩
      rw [FNode.tree_getImmediateChild]
      exact Tree.Within.sub (S := S) hwithin [k]
  | merge children =>
    obtain ⟨hcanonical, hfits, -, rfl⟩ := h
    have hcanonical' := FCompoundWrite.canonical_child hcanonical [k]
    have hfits' : (children.childCompoundWriteAtPath [k]).overlay.Fits (S.sub [k]) := by
      rw [FCompoundWrite.overlay_childCompoundWrite]
      exact Overlay.Fits.sub (S := S) hfits [k]
    rw [operationForChild] at hchild
    split_ifs at hchild
    generalize children.childCompoundWriteAtPath [k] = childTree at hchild hcanonical' hfits'
    cases hroot : childTree.rootWrite with
    | none =>
      rw [hroot] at hchild
      cases hchild
      exact ⟨hcanonical', hfits', fun q hq hne => absurd (List.prefix_nil.mp hq) hne, rfl⟩
    | some snap =>
      rw [hroot] at hchild
      cases hchild
      obtain ⟨t, ht⟩ := childTree
      cases hcanonical' with
      | @mk value cs written canonical =>
        refine ⟨written snap hroot, fun q a hq => ?_, rfl⟩
        refine hfits'.within q a ?_
        change (FImmutableTree.node value cs).overlay q = some (some a)
        rw [show value = some snap from hroot, FImmutableTree.overlay_value, hq]
  | ackUserWrite revert =>
    cases hchild
    exact ⟨fun q hq => absurd List.nil_prefix hq, fun q hq => Retreats.covered h (k :: q) hq⟩
  | listenComplete =>
    cases hchild
    have heq : o' = o := h
    subst heq
    rfl

theorem Applies.unreached (h : operation.Applies [] o o' S)
    (hchild : operation.operationForChild k = none) : o' = o := by
  cases operation with
  | merge children => exact h.2.2.2
  | overwrite fromUser snap => cases hchild
  | ackUserWrite revert => cases hchild
  | listenComplete => cases hchild

end FOperationType

namespace FWriteTreeRef
variable {w : FWriteTreeRef κ α} {S : Schema κ}

theorem overlay_childWriteTreeRef (w : FWriteTreeRef κ α) (k : κ) :
    (w.childWriteTreeRef k).overlay = w.overlay.sub [k] := by
  funext q
  simp only [overlay, childWriteTreeRef, Overlay.sub, List.append_assoc]

theorem Regular.child (h : w.Regular S) (k : κ) : (w.childWriteTreeRef k).Regular (S.sub [k]) where
  canonical := h.canonical
  fits := by
    rw [overlay_childWriteTreeRef]
    exact h.fits.sub [k]

end FWriteTreeRef

variable {S : Schema κ} {o : Overlay κ α} {w : FWriteTreeRef κ α} {k : κ} {path : List κ}
  {t : FImmutableTree κ (FView ρ κ α)} {view : FView ρ κ α} {m : FNode κ α}

/-- Every view of the tree shows the server's data that it has through the overlay. -/
inductive Follow : FImmutableTree κ (FView ρ κ α) → Overlay κ α → Schema κ → Prop
  | mk {value : Option (FView ρ κ α)} {cs : List (κ × FImmutableTree κ (FView ρ κ α))}
      {o : Overlay κ α} {S : Schema κ} (sorted : Sorted cs)
      (views : ∀ view ∈ value, view.viewCache.Follows o S)
      (children : ∀ e ∈ cs, Follow e.2 (o.sub [e.1]) (S.sub [e.1])) : Follow (.node value cs) o S

theorem follow_empty : Follow (.empty : FImmutableTree κ (FView ρ κ α)) o S :=
  .mk sorted_nil (fun view hview => by cases hview) fun e he => by cases he

theorem Follow.child {value : Option (FView ρ κ α)} {cs : List (κ × FImmutableTree κ (FView ρ κ α))}
    (h : Follow (.node value cs) o S) (k : κ) :
    Follow ((objectForKey k cs).getD .empty) (o.sub [k]) (S.sub [k]) := by
  cases h with
  | mk sorted views children =>
    cases hget : objectForKey k cs with
    | none => exact follow_empty
    | some child => exact children _ (mem_of_objectForKey hget)

theorem Follow.value (h : Follow t o S) (hview : t.value = some view) :
    view.viewCache.Follows o S := by
  cases h with
  | mk sorted views children => exact views view hview

theorem Follow.valueAtPath (h : Follow t o S) (hview : t.valueAtPath path = some view) :
    view.viewCache.Follows (o.sub path) (S.sub path) := by
  induction path generalizing t o S with
  | nil =>
    cases t with
    | node value cs => exact h.value hview
  | cons k path ih =>
    cases t with
    | node value cs =>
      have hchild := h.child k
      rw [FImmutableTree.valueAtPath] at hview
      cases hget : objectForKey k cs with
      | none =>
        rw [hget] at hview
        cases hview
      | some child =>
        rw [hget] at hview hchild
        exact ih hchild hview

theorem Follow.subtreeAtPath (h : Follow t o S) (path : List κ) :
    Follow (t.subtreeAtPath path) (o.sub path) (S.sub path) := by
  induction path generalizing t o S with
  | nil =>
    cases t with
    | node value cs => exact h
  | cons k path ih =>
    cases t with
    | node value cs =>
      have hchild := h.child k
      rw [FImmutableTree.subtreeAtPath]
      cases hget : objectForKey k cs with
      | none => exact follow_empty
      | some child =>
        rw [hget] at hchild
        exact ih hchild

/-- The entries for the other keys stay. -/
theorem mem_insertKey_ne {β : Type*} {d : List (κ × β)} {v : β} {e : κ × β} (hd : Sorted d)
    (he : e ∈ insertKey k v d) : e = (k, v) ∨ (e ∈ d ∧ e.1 ≠ k) := by
  by_cases hk : e.1 = k
  · refine .inl ?_
    have hget := objectForKey_of_mem (sorted_insertKey (k := k) v hd) he
    rw [hk, objectForKey_insertKey_self] at hget
    exact Prod.ext hk (Option.some.inj hget).symm
  · cases mem_insertKey he with
    | inl heq => exact .inl heq
    | inr hold => exact .inr ⟨hold, hk⟩

theorem Follow.insertKey {value : Option (FView ρ κ α)} {u : FImmutableTree κ (FView ρ κ α)}
    {cs : List (κ × FImmutableTree κ (FView ρ κ α))} (h : Follow (.node value cs) o S)
    (hu : Follow u (o.sub [k]) (S.sub [k])) : Follow (.node value (insertKey k u cs)) o S := by
  cases h with
  | mk sorted views children =>
    refine .mk (sorted_insertKey u sorted) views fun e he => ?_
    cases mem_insertKey he with
    | inl heq =>
      subst heq
      exact hu
    | inr hold => exact children e hold

theorem Follow.setValue (h : Follow t o S)
    (hview : view.viewCache.Follows (o.sub path) (S.sub path)) :
    Follow (t.setValue path view) o S := by
  induction path generalizing t o S with
  | nil =>
    cases h with
    | mk sorted views children =>
      exact .mk sorted (fun view' hview' => Option.some.inj hview' ▸ hview) children
  | cons k path ih =>
    cases t with
    | node value cs => exact h.insertKey (ih (h.child k) hview)

theorem Follow.removeValueAtPath (h : Follow t o S) (path : List κ) :
    Follow (t.removeValueAtPath path) o S := by
  induction path generalizing t o S with
  | nil =>
    cases t with
    | node value cs =>
      rw [FImmutableTree.removeValueAtPath]
      split_ifs
      · exact follow_empty
      · cases h with
        | mk sorted views children => exact .mk sorted (fun view hview => by cases hview) children
  | cons k path ih =>
    cases t with
    | node value cs =>
      have hchild := h.child k
      rw [FImmutableTree.removeValueAtPath]
      cases hget : objectForKey k cs with
      | none => exact h
      | some child =>
        rw [hget] at hchild
        have hnew : Follow (.node value (if (child.removeValueAtPath path).isEmpty then
            removeKey k cs else SortedDictionary.insertKey k (child.removeValueAtPath path) cs))
            o S := by
          split_ifs
          · cases h with
            | mk sorted views children =>
              exact .mk (sorted_removeKey k sorted) views fun e he => children e (mem_removeKey he)
          · exact h.insertKey (ih hchild)
        dsimp only
        split_ifs at hnew ⊢
        all_goals first
          | exact follow_empty
          | exact hnew

/-! What a view has of the server. -/
theorem completeServerCacheFor_spec (h : view.viewCache.Follows o S)
    (hm : view.completeServerCacheFor path = some m) :
    m.Canonical ∧ m.tree.Within (S.sub path) := by
  obtain ⟨s, hs, rfl⟩ := Option.map_eq_some_iff.mp hm
  rw [FViewCache.node_of_completeServerSnap hs]
  refine ⟨h.sane.server.getChild path, ?_⟩
  rw [FNode.tree_getChild]
  exact h.sane.within.sub path

theorem completeServerCacheOnPath_spec (h : Follow t o S)
    (hm : completeServerCacheOnPath t path = some m) :
    m.Canonical ∧ m.tree.Within (S.sub path) := by
  induction path generalizing t o S with
  | nil =>
    cases h with
    | mk sorted views children =>
      obtain ⟨view, hview, hcache⟩ := Option.bind_eq_some_iff.mp hm
      exact completeServerCacheFor_spec (views view hview) hcache
  | cons k path ih =>
    cases t with
    | node value cs =>
      have hchild := h.child k
      rw [completeServerCacheOnPath] at hm
      cases hcache : value.bind fun view => view.completeServerCacheFor (k :: path) with
      | some m' =>
        rw [hcache] at hm
        cases hm
        obtain ⟨view, hview, hcache⟩ := Option.bind_eq_some_iff.mp hcache
        cases h with
        | mk sorted views children => exact completeServerCacheFor_spec (views view hview) hcache
      | none =>
        rw [hcache] at hm
        cases hget : objectForKey k cs with
        | none =>
          rw [hget] at hm
          cases hm
        | some child =>
          rw [hget] at hm hchild
          exact ih hchild hm

theorem within_updateImmediateChild {n : FNode κ α} (hn : n.tree.Within S)
    (hm : m.tree.Within (S.sub [k])) : (n.updateImmediateChild k m).tree.Within S := by
  have htree := FNode.tree_updateChild n m [k]
  have hnil : (n.getImmediateChild k).updateChild [] m = m := by
    cases n.getImmediateChild k <;> rfl
  rw [FNode.updateChild_cons, hnil] at htree
  rw [htree]
  exact hn.patch hm

theorem completeServerChildren_spec (h : Follow t o S) :
    (completeServerChildren t).Canonical ∧ (completeServerChildren t).tree.Within S := by
  cases h with
  | @mk value cs _ _ sorted views children =>
    refine List.foldlRecOn cs _ (motive := fun n : FNode κ α => n.Canonical ∧
      n.tree.Within S) ⟨FNode.canonical_emptyNode, ?_⟩ fun n hn e he => ?_
    · rw [FNode.tree_emptyNode]
      exact within_empty S
    · obtain ⟨hn, hwithin⟩ := hn
      cases hcache : e.2.value.bind fun view => view.completeServerCacheFor [] with
      | none => exact ⟨hn, hwithin⟩
      | some m =>
        obtain ⟨view, hview, hcache⟩ := Option.bind_eq_some_iff.mp hcache
        obtain ⟨hm, hmwithin⟩ :=
          completeServerCacheFor_spec ((children e he).value hview) hcache
        exact ⟨hn.updateImmediateChild e.1 hm, within_updateImmediateChild hwithin hmwithin⟩

/-- A new view shows what there is to show. -/
theorem follows_initialViewCache {serverCache : FCacheNode κ α} (hw : w.Regular S)
    (hfilter : serverCache.isFiltered = false) (hcanonical : serverCache.node.Canonical)
    (hwithin : serverCache.node.tree.Within S) :
    (initialViewCache serverCache w).Follows w.overlay S := by
  rw [initialViewCache]
  cases hcalc : w.calculateCompleteEventCache
      (if serverCache.isFullyInitialized then some serverCache.node else none) with
  | some n =>
    refine ⟨⟨rfl, hfilter, ?_, hcanonical, hwithin⟩, fun hknown => ⟨rfl, ?_⟩⟩
    · refine FWriteTreeRef.canonical_completeEventCache hw (fun s hs => ?_) hcalc
      split_ifs at hs
      · cases hs
        exact hcanonical
      · cases hs
    · obtain ⟨n', hn', -, htree⟩ :=
        FWriteTreeRef.completeEventCache_known hw hcanonical hwithin hknown
      rw [hcalc] at hn'
      cases hn'
      exact htree
  | none =>
    refine ⟨⟨rfl, hfilter, FWriteTreeRef.canonical_completeEventChildren hw hcanonical,
      hcanonical, hwithin⟩, fun hknown => ?_⟩
    obtain ⟨n, hn, -⟩ := FWriteTreeRef.completeEventCache_known hw hcanonical hwithin hknown
    rw [hcalc] at hn
    cases hn

theorem canonical_resolved {serverCache : Option (FNode κ α)} {value : Option (FView ρ κ α)}
    (hcache : ∀ m ∈ serverCache, m.Canonical)
    (hviews : ∀ view ∈ value, view.viewCache.Follows o S) :
    ∀ m ∈ serverCache.or (value.bind fun view => view.completeServerCacheFor []), m.Canonical := by
  intro m hm
  cases serverCache with
  | some m' => exact hcache m hm
  | none =>
    obtain ⟨view, hview, hcomplete⟩ := Option.bind_eq_some_iff.mp hm
    exact (completeServerCacheFor_spec (hviews view hview) hcomplete).1

theorem canonical_childCache {serverCache : Option (FNode κ α)}
    (hcache : ∀ m ∈ serverCache, m.Canonical) (k : κ) :
    ∀ m ∈ serverCache.map fun cache => cache.getImmediateChild k, m.Canonical := by
  intro m hm
  obtain ⟨m', hm', rfl⟩ := Option.map_eq_some_iff.mp hm
  exact (hcache m' hm').getImmediateChild k

section Apply
variable [DecidableEq α] {operation : FOperationType κ α} {serverCache : Option (FNode κ α)}

theorem follows_applyOperation (hv : view.viewCache.Follows o S) (hw : w.Regular S)
    (hcache : ∀ m ∈ serverCache, m.Canonical) (h : operation.Applies path o w.overlay S) :
    (view.applyOperation path w serverCache operation).viewCache.Follows w.overlay S := by
  cases operation with
  | overwrite fromUser snap =>
    cases fromUser with
    | true =>
      obtain ⟨hsnap, habove, hadd⟩ := h
      exact FViewProcessor.follows_applyUserOverwriteTo hv hw hsnap hcache hadd habove
    | false =>
      obtain ⟨hsnap, hwithin, rfl⟩ := h
      exact FViewProcessor.follows_applyServerOverwriteTo hv hw (retreats_self _ _) hsnap hwithin
        (.inr hv)
  | merge children =>
    obtain ⟨hcanonical, hfits, habove, rfl⟩ := h
    exact FViewProcessor.follows_applyServerMergeTo hv hw hcanonical hfits habove
  | ackUserWrite revert =>
    cases revert with
    | true => exact FViewProcessor.follows_revertUserWriteOn hv hw h
    | false => exact FViewProcessor.follows_ackUserWriteOn hv hw h
  | listenComplete =>
    have heq : w.overlay = o := h
    subst heq
    exact FViewProcessor.follows_listenComplete hv hw

theorem keys_applyOperationChildren (cs : List (κ × FImmutableTree κ (FView ρ κ α))) :
    (applyOperationChildren operation serverCache w cs).map Prod.fst = cs.map Prod.fst := by
  induction cs with
  | nil => rfl
  | cons e rest ih => rw [applyOperationChildren, List.map_cons, ih, List.map_cons]

mutual
theorem follow_descendants {operation : FOperationType κ α} {serverCache : Option (FNode κ α)}
    {w : FWriteTreeRef κ α} {o : Overlay κ α} {S : Schema κ}
    (t : FImmutableTree κ (FView ρ κ α)) (ht : Follow t o S) (hw : w.Regular S)
    (hcache : ∀ m ∈ serverCache, m.Canonical) (h : operation.Applies [] o w.overlay S) :
    Follow (applyOperationDescendantsHelper operation serverCache w t) w.overlay S := by
  cases t with
  | node value cs =>
    cases ht with
    | mk sorted views children =>
      have hresolved := canonical_resolved hcache views
      rw [applyOperationDescendantsHelper]
      refine .mk ?_ (fun view hview => ?_) (follow_children cs children hw hresolved h)
      · have hkeys := List.pairwise_map.mpr sorted
        rw [← keys_applyOperationChildren] at hkeys
        exact List.pairwise_map.mp hkeys
      · obtain ⟨view', hview', rfl⟩ := Option.map_eq_some_iff.mp hview
        exact follows_applyOperation (views view' hview') hw hresolved h
theorem follow_children {operation : FOperationType κ α} {serverCache : Option (FNode κ α)}
    {w : FWriteTreeRef κ α} {o : Overlay κ α} {S : Schema κ}
    (cs : List (κ × FImmutableTree κ (FView ρ κ α)))
    (hcs : ∀ e ∈ cs, Follow e.2 (o.sub [e.1]) (S.sub [e.1])) (hw : w.Regular S)
    (hcache : ∀ m ∈ serverCache, m.Canonical) (h : operation.Applies [] o w.overlay S) :
    ∀ e ∈ applyOperationChildren operation serverCache w cs,
      Follow e.2 (w.overlay.sub [e.1]) (S.sub [e.1]) := by
  cases cs with
  | nil => exact fun e he => by cases he
  | cons e rest =>
    obtain ⟨k, child⟩ := e
    have hchild := hcs (k, child) (List.mem_cons_self ..)
    have hrest := follow_children rest (fun e he => hcs e (List.mem_cons_of_mem _ he)) hw hcache h
    rw [applyOperationChildren]
    intro e he
    cases List.mem_cons.mp he with
    | inr he => exact hrest e he
    | inl heq =>
      subst heq
      dsimp only
      cases hoperation : operation.operationForChild k with
      | none =>
        rw [h.unreached hoperation]
        exact hchild
      | some childOperation =>
        have hbelow := h.below hoperation
        rw [← FWriteTreeRef.overlay_childWriteTreeRef] at hbelow ⊢
        exact follow_descendants child hchild (hw.child k) (canonical_childCache hcache k) hbelow
end

/-- An operation brings every view up to date. -/
theorem follow_applyOperationHelper (ht : Follow t o S) (hw : w.Regular S)
    (hcache : ∀ m ∈ serverCache, m.Canonical) (h : operation.Applies path o w.overlay S) :
    Follow (applyOperationHelper operation path serverCache w t) w.overlay S := by
  induction path generalizing t serverCache w o S with
  | nil => exact follow_descendants t ht hw hcache h
  | cons k path ih =>
    cases t with
    | node value cs =>
      have hchild := ht.child k
      cases ht with
      | mk sorted views children =>
        have hresolved := canonical_resolved hcache views
        have hothers : ∀ e ∈ cs, e.1 ≠ k → Follow e.2 (w.overlay.sub [e.1]) (S.sub [e.1]) := by
          intro e he hk
          rw [h.apart hk]
          exact children e he
        rw [applyOperationHelper]
        have hviews : ∀ view ∈ value.map fun view => view.applyOperation (k :: path) w
            (serverCache.or (value.bind fun view => view.completeServerCacheFor [])) operation,
            view.viewCache.Follows w.overlay S := by
          intro view hview
          obtain ⟨view', hview', rfl⟩ := Option.map_eq_some_iff.mp hview
          exact follows_applyOperation (views view' hview') hw hresolved h
        cases hget : objectForKey k cs with
        | none =>
          refine .mk sorted hviews fun e he => hothers e he fun hk => ?_
          have hmem := objectForKey_of_mem sorted he
          rw [hk, hget] at hmem
          cases hmem
        | some child =>
          rw [hget] at hchild
          refine .mk (sorted_insertKey _ sorted) hviews fun e he => ?_
          cases mem_insertKey_ne sorted he with
          | inr hold => exact hothers e hold.1 hold.2
          | inl heq =>
            subst heq
            have hforward := h.forward
            rw [← FWriteTreeRef.overlay_childWriteTreeRef] at hforward ⊢
            exact ih hchild (hw.child k) (canonical_childCache hresolved k) hforward

end Apply

end Pincushion.Snapshot
