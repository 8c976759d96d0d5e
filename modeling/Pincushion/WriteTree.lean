import Pincushion.AppliedWrites
import Pincushion.Runs

/-! The writes of one device that the server has not acknowledged. They are kept
twice, as the list of all of them and as the compound write of the visible ones.
The view of the device is read off the compound write. -/
namespace Pincushion.Snapshot
open KeyTree SortedDictionary Runs
variable {κ α : Type*} [LinearOrder κ]

structure FCompoundWrite (κ α : Type*) [LinearOrder κ] where
  writeTree : FImmutableTree κ (FNode κ α)
  wellFormed : writeTree.WellFormed

namespace FCompoundWrite

def emptyWrite : FCompoundWrite κ α := ⟨.empty, FImmutableTree.wellFormed_empty⟩

def addWrite (c : FCompoundWrite κ α) (node : FNode κ α) (path : List κ) : FCompoundWrite κ α :=
  ⟨c.writeTree.addWrite node path, FImmutableTree.wellFormed_addWrite node path c.wellFormed⟩

def enumerateWrites (c : FCompoundWrite κ α) : List (List κ × FNode κ α) := c.writeTree.forEach

def addCompoundWrite (c compoundWrite : FCompoundWrite κ α) (path : List κ) :
    FCompoundWrite κ α :=
  compoundWrite.enumerateWrites.foldl (fun newWrite x => newWrite.addWrite x.2 (path ++ x.1)) c

def removeWriteAtPath (c : FCompoundWrite κ α) (path : List κ) : FCompoundWrite κ α :=
  if path.isEmpty then emptyWrite
  else ⟨c.writeTree.setTree path .empty, FImmutableTree.wellFormed_setTree_empty _ path c.wellFormed⟩

def completeNodeAtPath (c : FCompoundWrite κ α) (path : List κ) : Option (FNode κ α) :=
  c.writeTree.completeNodeAtPath path

def hasCompleteWriteAtPath (c : FCompoundWrite κ α) (path : List κ) : Bool :=
  (c.completeNodeAtPath path).isSome

def childCompoundWriteAtPath (c : FCompoundWrite κ α) (path : List κ) : FCompoundWrite κ α :=
  if path.isEmpty then c
  else match c.completeNodeAtPath path with
    | some shadowingNode => ⟨.ofValue shadowingNode, FImmutableTree.wellFormed_ofValue _⟩
    | none =>
      ⟨c.writeTree.subtreeAtPath path, FImmutableTree.wellFormed_subtreeAtPath path c.wellFormed⟩

def applyToNode (c : FCompoundWrite κ α) (node : FNode κ α) : FNode κ α :=
  c.writeTree.applySubtreeWrite [] node

def isEmpty (c : FCompoundWrite κ α) : Bool := c.writeTree.isEmpty

def overlay (c : FCompoundWrite κ α) : Overlay κ α := c.writeTree.overlay

variable (c : FCompoundWrite κ α)

theorem overlay_emptyWrite : (emptyWrite : FCompoundWrite κ α).overlay = Overlay.bare :=
  FImmutableTree.overlay_empty

theorem overlay_addWrite (node : FNode κ α) (path : List κ) :
    (c.addWrite node path).overlay = c.overlay.patch (FNode.toPatch path node) :=
  FImmutableTree.overlay_addWrite node path c.wellFormed

theorem overlay_addWrites (path : List κ) (ws : List (List κ × FNode κ α)) :
    (ws.foldl (fun newWrite x => newWrite.addWrite x.2 (path ++ x.1)) c).overlay =
      c.overlay.layer (ws.map fun x => FNode.toPatch (path ++ x.1) x.2) := by
  induction ws generalizing c with
  | nil => rfl
  | cons x ws ih =>
    rw [List.foldl_cons, ih, overlay_addWrite, List.map_cons, Overlay.layer_cons]

theorem overlay_removeWriteAtPath {path : List κ}
    (h : ∀ r, r <+: path → r ≠ path → c.overlay r = none) (q : List κ) :
    (c.removeWriteAtPath path).overlay q = if path <+: q then none else c.overlay q := by
  rw [removeWriteAtPath]
  split_ifs with hempty hq hq
  · rw [overlay_emptyWrite]
    rfl
  · rw [List.isEmpty_iff.mp hempty] at hq
    exact absurd List.nil_prefix hq
  · exact (FImmutableTree.overlay_setTree_empty h).trans (if_pos hq)
  · exact (FImmutableTree.overlay_setTree_empty h).trans (if_neg hq)

theorem overlay_eq_none {path : List κ} :
    c.overlay path = none ↔ c.completeNodeAtPath path = none := Option.map_eq_none_iff

theorem overlay_of_complete {path : List κ} {n : FNode κ α}
    (h : c.completeNodeAtPath path = some n) (q : List κ) :
    c.overlay (path ++ q) = some (n.tree q) := by
  have hcomplete := FImmutableTree.completeNodeAtPath_append c.writeTree h q
  exact congrArg (Option.map FNode.val?) hcomplete

/-- Below an uncovered path the child write says what the whole says. -/
theorem overlay_child {path : List κ} (h : c.completeNodeAtPath path = none) :
    (c.childCompoundWriteAtPath path).overlay = c.overlay.sub path := by
  rw [childCompoundWriteAtPath]
  split_ifs with hempty
  · rw [List.isEmpty_iff.mp hempty]
    rfl
  · simp only [h]
    exact FImmutableTree.overlay_subtreeAtPath ((overlay_eq_none c).mpr h)

theorem overlay_of_isEmpty (h : c.isEmpty = true) : c.overlay = Overlay.bare := by
  rw [overlay, FImmutableTree.eq_empty h]
  exact FImmutableTree.overlay_empty

theorem tree_applyToNode {node : FNode κ α} (h : node.tree.ClearOf c.overlay) :
    (c.applyToNode node).tree = node.tree.over c.overlay :=
  FImmutableTree.tree_apply c.wellFormed h

end FCompoundWrite

inductive FWrite (κ α : Type*) [LinearOrder κ] where
  | overwrite (node : FNode κ α)
  | merge (changedChildren : FCompoundWrite κ α)

structure FWriteRecord (κ α : Type*) [LinearOrder κ] where
  path : List κ
  write : FWrite κ α
  writeId : Int
  visible : Bool

namespace FWriteRecord

/-- The nodes that the write puts somewhere, with their paths from the root. -/
def writes (record : FWriteRecord κ α) : List (List κ × FNode κ α) := match record.write with
  | .overwrite node => [(record.path, node)]
  | .merge changedChildren =>
    changedChildren.enumerateWrites.map fun x => (record.path ++ x.1, x.2)

def containsPath (record : FWriteRecord κ α) (path : List κ) : Bool := match record.write with
  | .overwrite _ => decide (record.path <+: path)
  | .merge changedChildren =>
    changedChildren.enumerateWrites.any fun x => decide (record.path ++ x.1 <+: path)

/-- Make the write on a node. -/
def applyTo (n : FNode κ α) (record : FWriteRecord κ α) : FNode κ α :=
  record.writes.foldl (fun n x => n.updateChild x.1 x.2) n

theorem containsPath_iff (record : FWriteRecord κ α) (path : List κ) :
    record.containsPath path = true ↔ ∃ x ∈ record.writes, x.1 <+: path := by
  cases hw : record.write with
  | overwrite node => simp [containsPath, writes, hw]
  | merge changedChildren =>
    simp only [containsPath, writes, hw, List.any_eq_true, decide_eq_true_eq, List.mem_map]
    constructor
    · rintro ⟨x, hx, hpre⟩
      exact ⟨_, ⟨x, hx, rfl⟩, hpre⟩
    · rintro ⟨-, ⟨x, hx, rfl⟩, hpre⟩
      exact ⟨x, hx, hpre⟩

theorem prefix_of_mem_writes {record : FWriteRecord κ α} {x : List κ × FNode κ α}
    (hx : x ∈ record.writes) : record.path <+: x.1 := by
  cases hw : record.write with
  | overwrite node =>
    simp only [writes, hw, List.mem_singleton] at hx
    subst hx
    exact List.prefix_rfl
  | merge changedChildren =>
    simp only [writes, hw, List.mem_map] at hx
    obtain ⟨y, -, rfl⟩ := hx
    exact List.prefix_append ..

end FWriteRecord

structure FWriteTree (κ α : Type*) [LinearOrder κ] where
  visibleWrites : FCompoundWrite κ α
  allWrites : List (FWriteRecord κ α)
  lastWriteId : Int

namespace FWriteTree

def init : FWriteTree κ α := ⟨.emptyWrite, [], -1⟩

/-- One record laid over the compound write for the node at `treeRoot`. -/
def layerWrite (treeRoot : List κ) (compoundWrite : FCompoundWrite κ α)
    (record : FWriteRecord κ α) : FCompoundWrite κ α := match record.write with
  | .overwrite overwrite =>
    if treeRoot <+: record.path then
      compoundWrite.addWrite overwrite (record.path.drop treeRoot.length)
    else if record.path <+: treeRoot then
      compoundWrite.addWrite (overwrite.getChild (treeRoot.drop record.path.length)) []
    else compoundWrite
  | .merge merge =>
    if treeRoot <+: record.path then
      compoundWrite.addCompoundWrite merge (record.path.drop treeRoot.length)
    else if record.path <+: treeRoot then
      -- the path from the record to the root is not empty here, and the child is descended twice
      match merge.completeNodeAtPath (treeRoot.drop record.path.length) with
      | some child =>
        compoundWrite.addWrite (child.getChild (treeRoot.drop (record.path.length + 1))) []
      | none => compoundWrite
    else compoundWrite

def layerTreeFromWrites (writes : List (FWriteRecord κ α)) (filter : FWriteRecord κ α → Bool)
    (treeRoot : List κ) : FCompoundWrite κ α :=
  (writes.filter filter).foldl (layerWrite treeRoot) .emptyWrite

/-- The default filter keeps every record, also those that are not visible. -/
def defaultFilter : FWriteRecord κ α → Bool := fun _ => true

def resetTree (t : FWriteTree κ α) : FWriteTree κ α :=
  { t with
    visibleWrites := layerTreeFromWrites t.allWrites defaultFilter []
    lastWriteId := (t.allWrites.getLast?.map (·.writeId)).getD (-1) }

/-- A write id that is not above the last one fails an assertion. -/
def addOverwriteAtPath (t : FWriteTree κ α) (path : List κ) (newData : FNode κ α)
    (writeId : Int) (visible : Bool) : Option (FWriteTree κ α) :=
  if t.lastWriteId < writeId then
    some
      { allWrites := t.allWrites ++ [⟨path, .overwrite newData, writeId, visible⟩]
        visibleWrites :=
          if visible then t.visibleWrites.addWrite newData path else t.visibleWrites
        lastWriteId := writeId }
  else none

def addMergeAtPath (t : FWriteTree κ α) (path : List κ) (changedChildren : FCompoundWrite κ α)
    (writeId : Int) : Option (FWriteTree κ α) :=
  if t.lastWriteId < writeId then
    some
      { allWrites := t.allWrites ++ [⟨path, .merge changedChildren, writeId, true⟩]
        visibleWrites := t.visibleWrites.addCompoundWrite changedChildren path
        lastWriteId := writeId }
  else none

def writeForId (t : FWriteTree κ α) (writeId : Int) : Option (FWriteRecord κ α) :=
  t.allWrites.find? fun record => record.writeId == writeId

/-- The other records from the last to the first, each with its place. The result
says whether the removed write is still visible and whether it overlaps others. -/
def scan (writeToRemove : FWriteRecord κ α) (index : Nat) :
    List (FWriteRecord κ α × Nat) → Bool → Bool → Bool × Bool
  | [], visible, overlaps => (visible, overlaps)
  | (currentWrite, i) :: rest, visible, overlaps =>
    if visible then
      if currentWrite.visible then
        if index ≤ i ∧ currentWrite.containsPath writeToRemove.path then
          scan writeToRemove index rest false overlaps
        else if writeToRemove.path <+: currentWrite.path then
          scan writeToRemove index rest visible true
        else scan writeToRemove index rest visible overlaps
      else scan writeToRemove index rest visible overlaps
    else (visible, overlaps)

/-- The compound write without a record that nothing shadows. -/
def removeRecord (c : FCompoundWrite κ α) (record : FWriteRecord κ α) : FCompoundWrite κ α :=
  match record.write with
  | .overwrite _ => c.removeWriteAtPath record.path
  | .merge merge => merge.enumerateWrites.foldl
      (fun c x => c.removeWriteAtPath (record.path ++ x.1)) c

/-- The write leaves the list; the compound write is cut, rebuilt or kept. -/
def removeWriteId (t : FWriteTree κ α) (writeId : Int) : Option (FWriteTree κ α × Bool) :=
  match t.allWrites.findIdx? (fun record => record.writeId == writeId) with
  | none => none
  | some index => match t.allWrites[index]? with
    | none => none
    | some writeToRemove =>
      let allWrites := t.allWrites.eraseIdx index
      let t' := { t with allWrites := allWrites }
      let (visible, overlaps) :=
        scan writeToRemove index allWrites.zipIdx.reverse writeToRemove.visible false
      if !visible then some (t', false)
      else if overlaps then some (t'.resetTree, true)
      else some
        ({ t' with visibleWrites := removeRecord t.visibleWrites writeToRemove }, true)

def removeAllWrites (t : FWriteTree κ α) : FWriteTree κ α :=
  { t with visibleWrites := .emptyWrite, allWrites := [] }

/-- The view at a path, when no write is excluded and hidden ones are left out. -/
def calculateCompleteEventCacheAtPath (t : FWriteTree κ α) (treePath : List κ)
    (completeServerCache : Option (FNode κ α)) : Option (FNode κ α) :=
  match t.visibleWrites.completeNodeAtPath treePath with
  | some shadowingNode => some shadowingNode
  | none =>
    let subMerge := t.visibleWrites.childCompoundWriteAtPath treePath
    if subMerge.isEmpty then completeServerCache
    else if completeServerCache.isNone && !subMerge.hasCompleteWriteAtPath [] then none
    else some (subMerge.applyToNode (completeServerCache.getD .emptyNode))

/-- The view with some writes left out and, where asked for, the hidden ones as well. -/
def calculateExcluding (t : FWriteTree κ α) (treePath : List κ)
    (completeServerCache : Option (FNode κ α)) (writeIdsToExclude : List Int)
    (includeHiddenWrites : Bool) : Option (FNode κ α) :=
  let merge := t.visibleWrites.childCompoundWriteAtPath treePath
  if !includeHiddenWrites && merge.isEmpty then completeServerCache
  else if !includeHiddenWrites && completeServerCache.isNone &&
      !merge.hasCompleteWriteAtPath [] then none
  else
    let filter := fun record : FWriteRecord κ α =>
      (record.visible || includeHiddenWrites) && !writeIdsToExclude.contains record.writeId &&
        (decide (record.path <+: treePath) || decide (treePath <+: record.path))
    some ((layerTreeFromWrites t.allWrites filter treePath).applyToNode
      (completeServerCache.getD .emptyNode))

/-- The nodes that the waiting writes put somewhere, the oldest first. -/
def pending (t : FWriteTree κ α) : List (List κ × FNode κ α) :=
  t.allWrites.flatMap FWriteRecord.writes

/-- The compound write says what the waiting writes say, laid over each other in order. -/
def Layered (t : FWriteTree κ α) : Prop :=
  t.visibleWrites.overlay = Overlay.bare.layer (FImmutableTree.patches t.pending)

/-- A write of the list other than `w` that puts something below the path of `w` has its own
path there; an overwrite does. -/
def Anchored (w : FWriteRecord κ α) (rest : List (FWriteRecord κ α)) : Prop :=
  ∀ c ∈ rest, ∀ x ∈ c.writes, w.path <+: x.1 → w.path <+: c.path

theorem anchored_of_overwrites {w : FWriteRecord κ α} {rest : List (FWriteRecord κ α)}
    (h : ∀ c ∈ rest, ∃ node, c.write = .overwrite node) : Anchored w rest := by
  intro c hc x hx hwx
  obtain ⟨node, hnode⟩ := h c hc
  simp only [FWriteRecord.writes, hnode, List.mem_singleton] at hx
  subst hx
  exact hwx

theorem overlay_addRecord (c : FCompoundWrite κ α) (record : FWriteRecord κ α) :
    (layerWrite [] c record).overlay =
      c.overlay.layer (FImmutableTree.patches record.writes) := by
  cases hw : record.write with
  | overwrite node =>
    simp only [layerWrite, hw, List.nil_prefix, if_true, List.length_nil, List.drop_zero,
      FCompoundWrite.overlay_addWrite, FWriteRecord.writes]
    rfl
  | merge changedChildren =>
    simp only [layerWrite, hw, List.nil_prefix, if_true, List.length_nil, List.drop_zero,
      FCompoundWrite.addCompoundWrite, FCompoundWrite.overlay_addWrites, FWriteRecord.writes,
      FImmutableTree.patches, List.map_map]
    rfl

theorem overlay_layerTree (writes : List (FWriteRecord κ α)) (c : FCompoundWrite κ α) :
    (writes.foldl (layerWrite []) c).overlay =
      c.overlay.layer (FImmutableTree.patches (writes.flatMap FWriteRecord.writes)) := by
  induction writes generalizing c with
  | nil => rfl
  | cons record writes ih =>
    rw [List.foldl_cons, ih, overlay_addRecord, List.flatMap_cons, FImmutableTree.patches_append,
      Overlay.layer_append]

theorem layered_resetTree (t : FWriteTree κ α) : t.resetTree.Layered := by
  have hfilter : t.allWrites.filter defaultFilter = t.allWrites :=
    List.filter_eq_self.mpr fun _ _ => rfl
  rw [Layered, resetTree, layerTreeFromWrites, hfilter, overlay_layerTree,
    FCompoundWrite.overlay_emptyWrite]
  rfl

theorem layered_init : (init : FWriteTree κ α).Layered := FCompoundWrite.overlay_emptyWrite

/-- A record that joins the list and the compound write alike. -/
theorem Layered.append {t t' : FWriteTree κ α} {record : FWriteRecord κ α} (ht : t.Layered)
    (hall : t'.allWrites = t.allWrites ++ [record])
    (hvisible : t'.visibleWrites = layerWrite [] t.visibleWrites record) : t'.Layered := by
  rw [Layered, hvisible, overlay_addRecord, ht, pending, pending, hall, List.flatMap_append,
    FImmutableTree.patches_append, Overlay.layer_append, List.flatMap_singleton]

theorem layered_addOverwrite {t t' : FWriteTree κ α} {path : List κ} {newData : FNode κ α}
    {writeId : Int} (ht : t.Layered)
    (h : t.addOverwriteAtPath path newData writeId true = some t') : t'.Layered := by
  simp only [addOverwriteAtPath, if_true] at h
  split_ifs at h
  cases h
  refine ht.append rfl ?_
  simp [layerWrite]

theorem layered_addMerge {t t' : FWriteTree κ α} {path : List κ}
    {changedChildren : FCompoundWrite κ α} {writeId : Int} (ht : t.Layered)
    (h : t.addMergeAtPath path changedChildren writeId = some t') : t'.Layered := by
  simp only [addMergeAtPath] at h
  split_ifs at h
  cases h
  refine ht.append rfl ?_
  simp [layerWrite]

end FWriteTree

end Pincushion.Snapshot
