import Pincushion.WriteView
import Pincushion.WriteTree
import Pincushion.CanonicalView

/-! The caches of a view and how they are kept up to date. A view has the data that the server
has sent, and beside them what it shows; when data or writes change, only what has changed is
worked out again. The queries are those that load all data, so nothing is filtered. -/
namespace Pincushion.Snapshot
open KeyTree SortedDictionary
variable {κ α : Type*}

namespace FNode
variable [DecidableEq κ]

def isLeafNode : FNode κ α → Bool
  | .leaf _ => true
  | .children _ => false

def hasChild (n : FNode κ α) (childName : κ) : Bool := !(n.getImmediateChild childName).isEmpty

def enumerateChildren : FNode κ α → List (κ × FNode κ α)
  | .leaf _ => []
  | .children cs => cs

/-! Two nodes with children are compared by the number of the children and by each of them. -/
mutual
def isEqual [DecidableEq α] : FNode κ α → FNode κ α → Bool
  | .leaf value, other => other.val? = some value
  | .children _, .leaf _ => false
  | .children cs, .children cs' =>
    (cs.isEmpty && cs'.isEmpty) || (cs.length == cs'.length && isEqualChildren cs cs')
def isEqualChildren [DecidableEq α] : List (κ × FNode κ α) → List (κ × FNode κ α) → Bool
  | [], _ => true
  | (key, node) :: rest, cs' =>
    node.isEqual ((objectForKey key cs').getD emptyNode) && isEqualChildren rest cs'
end

end FNode

variable [LinearOrder κ]

namespace FCompoundWrite

def rootWrite (c : FCompoundWrite κ α) : Option (FNode κ α) := c.writeTree.value

def completeChildren (c : FCompoundWrite κ α) : List (κ × FNode κ α) :=
  match c.writeTree with
  | .node (some node) _ => node.enumerateChildren
  | .node none cs => cs.filterMap fun e => e.2.value.map fun node => (e.1, node)

def childCompoundWrites (c : FCompoundWrite κ α) : List (κ × FCompoundWrite κ α) :=
  match c.writeTree, c.wellFormed with
  | .node _ cs, h => cs.attach.map fun e =>
    (e.1.1, ⟨e.1.2, FImmutableTree.allWellFormed_iff.mp h.2.2 e.1 e.2⟩)

end FCompoundWrite

structure FCacheNode (κ α : Type*) where
  node : FNode κ α
  isFullyInitialized : Bool
  isFiltered : Bool

namespace FCacheNode

def isCompleteForChild (c : FCacheNode κ α) (childKey : κ) : Bool :=
  (c.isFullyInitialized && !c.isFiltered) || c.node.hasChild childKey

def isCompleteForPath (c : FCacheNode κ α) : List κ → Bool
  | [] => c.isFullyInitialized && !c.isFiltered
  | childKey :: _ => c.isCompleteForChild childKey

end FCacheNode

/-! What the write tree says about a path for a view that is updated. -/
namespace FWriteTree

def calculateCompleteEventChildrenAtPath (t : FWriteTree κ α) (treePath : List κ)
    (completeServerChildren : FNode κ α) : FNode κ α :=
  match t.visibleWrites.completeNodeAtPath treePath with
  | some topLevelSet => topLevelSet.enumerateChildren.foldl
      (fun completeChildren e => completeChildren.updateImmediateChild e.1 e.2) .emptyNode
  | none =>
    let merge := t.visibleWrites.childCompoundWriteAtPath treePath
    let completeChildren := completeServerChildren.enumerateChildren.foldl
      (fun completeChildren e => completeChildren.updateImmediateChild e.1
        ((merge.childCompoundWriteAtPath [e.1]).applyToNode e.2)) .emptyNode
    merge.completeChildren.foldl
      (fun completeChildren e => completeChildren.updateImmediateChild e.1 e.2) completeChildren

/-- Nothing where a write hides what the server says. -/
def calculateEventCacheAfterServerOverwriteAtPath (t : FWriteTree κ α) (treePath childPath : List κ)
    (existingServerSnap : FNode κ α) : Option (FNode κ α) :=
  let path := treePath ++ childPath
  if t.visibleWrites.hasCompleteWriteAtPath path then none
  else
    let childMerge := t.visibleWrites.childCompoundWriteAtPath path
    if childMerge.isEmpty then some (existingServerSnap.getChild childPath)
    else some (childMerge.applyToNode (existingServerSnap.getChild childPath))

def calculateCompleteChildAtPath (t : FWriteTree κ α) (treePath : List κ) (childKey : κ)
    (existingServerCache : FCacheNode κ α) : Option (FNode κ α) :=
  let path := treePath ++ [childKey]
  match t.visibleWrites.completeNodeAtPath path with
  | some shadowingNode => some shadowingNode
  | none =>
    if existingServerCache.isCompleteForChild childKey then
      some ((t.visibleWrites.childCompoundWriteAtPath path).applyToNode
        (existingServerCache.node.getImmediateChild childKey))
    else none

def shadowingWriteAtPath (t : FWriteTree κ α) (path : List κ) : Option (FNode κ α) :=
  t.visibleWrites.completeNodeAtPath path

end FWriteTree

/-- The writes as they are seen from a path. -/
structure FWriteTreeRef (κ α : Type*) [LinearOrder κ] where
  path : List κ
  writeTree : FWriteTree κ α

namespace FWriteTreeRef

def calculateCompleteEventCache (w : FWriteTreeRef κ α) (completeServerCache : Option (FNode κ α)) :
    Option (FNode κ α) :=
  w.writeTree.calculateCompleteEventCacheAtPath w.path completeServerCache

def calculateCompleteEventChildren (w : FWriteTreeRef κ α) (completeServerChildren : FNode κ α) :
    FNode κ α :=
  w.writeTree.calculateCompleteEventChildrenAtPath w.path completeServerChildren

def calculateEventCacheAfterServerOverwrite (w : FWriteTreeRef κ α) (childPath : List κ)
    (existingServerSnap : FNode κ α) : Option (FNode κ α) :=
  w.writeTree.calculateEventCacheAfterServerOverwriteAtPath w.path childPath existingServerSnap

def shadowingWriteAtPath (w : FWriteTreeRef κ α) (path : List κ) : Option (FNode κ α) :=
  w.writeTree.shadowingWriteAtPath (w.path ++ path)

def calculateCompleteChild (w : FWriteTreeRef κ α) (childKey : κ)
    (existingServerCache : FCacheNode κ α) : Option (FNode κ α) :=
  w.writeTree.calculateCompleteChildAtPath w.path childKey existingServerCache

def childWriteTreeRef (w : FWriteTreeRef κ α) (childKey : κ) : FWriteTreeRef κ α :=
  ⟨w.path ++ [childKey], w.writeTree⟩

end FWriteTreeRef

structure FViewCache (κ α : Type*) where
  cachedEventSnap : FCacheNode κ α
  cachedServerSnap : FCacheNode κ α

namespace FViewCache

def updateEventSnap (v : FViewCache κ α) (eventSnap : FNode κ α) (complete filtered : Bool) :
    FViewCache κ α :=
  { v with cachedEventSnap := ⟨eventSnap, complete, filtered⟩ }

def updateServerSnap (v : FViewCache κ α) (serverSnap : FNode κ α) (complete filtered : Bool) :
    FViewCache κ α :=
  { v with cachedServerSnap := ⟨serverSnap, complete, filtered⟩ }

def completeServerSnap (v : FViewCache κ α) : Option (FNode κ α) :=
  if v.cachedServerSnap.isFullyInitialized then some v.cachedServerSnap.node else none

end FViewCache

/-! The filter of a query that loads all data keeps every child. -/
namespace FIndexedFilter

def filtersNodes : Bool := false

def updateFullNode (_oldSnap newSnap : FNode κ α) : FNode κ α := newSnap

variable [DecidableEq α]

/-- A child that has not changed where it was affected is left as it is. -/
def updateChildIn (node : FNode κ α) (childKey : κ) (newChildSnap : FNode κ α)
    (affectedPath : List κ) : FNode κ α :=
  let oldChildSnap := node.getImmediateChild childKey
  if (oldChildSnap.getChild affectedPath).isEqual (newChildSnap.getChild affectedPath) &&
      oldChildSnap.isEmpty == newChildSnap.isEmpty then node
  else if node.isLeafNode && newChildSnap.isEmpty then node
  else node.updateImmediateChild childKey newChildSnap

end FIndexedFilter

namespace FViewProcessor
open FIndexedFilter
variable [DecidableEq α]

/-- `FWriteTreeCompleteChildSource` -/
def completeChild (writes : FWriteTreeRef κ α) (viewCache : FViewCache κ α)
    (optCompleteServerCache : Option (FNode κ α)) (childKey : κ) : Option (FNode κ α) :=
  if viewCache.cachedEventSnap.isCompleteForChild childKey then
    some (viewCache.cachedEventSnap.node.getImmediateChild childKey)
  else
    let serverNode := match optCompleteServerCache with
      | some node => ⟨node, true, false⟩
      | none => viewCache.cachedServerSnap
    writes.calculateCompleteChild childKey serverNode

def generateEventCacheAfterServerEvent (viewCache : FViewCache κ α) (changePath : List κ)
    (writesCache : FWriteTreeRef κ α) : FViewCache κ α :=
  let oldEventSnap := viewCache.cachedEventSnap
  if (writesCache.shadowingWriteAtPath changePath).isSome then viewCache
  else
    let newEventCache := match changePath with
      | [] =>
        let nodeWithLocalWrites :=
          if viewCache.cachedServerSnap.isFiltered then
            let serverCache := viewCache.completeServerSnap.getD .emptyNode
            writesCache.calculateCompleteEventChildren
              (if serverCache.isLeafNode then .emptyNode else serverCache)
          -- the data of the server are complete then, which is asserted
          else (writesCache.calculateCompleteEventCache viewCache.completeServerSnap).getD .emptyNode
        updateFullNode oldEventSnap.node nodeWithLocalWrites
      | childKey :: childChangePath =>
        let newEventChild :=
          if oldEventSnap.isCompleteForChild childKey then
            let oldEventChild := oldEventSnap.node.getImmediateChild childKey
            match writesCache.calculateEventCacheAfterServerOverwrite changePath
                viewCache.cachedServerSnap.node with
            | some eventChildUpdate =>
              some (oldEventChild.updateChild childChangePath eventChildUpdate)
            | none => some oldEventChild
          else writesCache.calculateCompleteChild childKey viewCache.cachedServerSnap
        match newEventChild with
        | some newEventChild =>
          updateChildIn oldEventSnap.node childKey newEventChild childChangePath
        | none => oldEventSnap.node
    viewCache.updateEventSnap newEventCache (oldEventSnap.isFullyInitialized || changePath.isEmpty)
      filtersNodes

def applyServerOverwriteTo (oldViewCache : FViewCache κ α) (changePath : List κ)
    (changedSnap : FNode κ α) (writesCache : FWriteTreeRef κ α) : FViewCache κ α :=
  let oldServerSnap := oldViewCache.cachedServerSnap
  match changePath with
  | [] =>
    generateEventCacheAfterServerEvent
      (oldViewCache.updateServerSnap (updateFullNode oldServerSnap.node changedSnap) true
        filtersNodes) [] writesCache
  | childKey :: childChangePath =>
    -- incomplete data are not updated by what is meant for other listeners
    if !oldServerSnap.isCompleteForPath (childKey :: childChangePath) &&
        !childChangePath.isEmpty then oldViewCache
    else
      let newChildNode := (oldServerSnap.node.getImmediateChild childKey).updateChild
        childChangePath changedSnap
      let newServerCache := updateChildIn oldServerSnap.node childKey newChildNode childChangePath
      generateEventCacheAfterServerEvent
        (oldViewCache.updateServerSnap newServerCache oldServerSnap.isFullyInitialized filtersNodes)
        (childKey :: childChangePath) writesCache

def applyUserOverwriteTo (oldViewCache : FViewCache κ α) (changePath : List κ)
    (changedSnap : FNode κ α) (writesCache : FWriteTreeRef κ α)
    (optCompleteCache : Option (FNode κ α)) : FViewCache κ α :=
  let oldEventSnap := oldViewCache.cachedEventSnap
  match changePath with
  | [] =>
    oldViewCache.updateEventSnap (updateFullNode oldEventSnap.node changedSnap) true filtersNodes
  | childKey :: childChangePath =>
    let oldChild := oldEventSnap.node.getImmediateChild childKey
    let newChild :=
      if childChangePath.isEmpty then changedSnap
      else match completeChild writesCache oldViewCache optCompleteCache childKey with
        | some childNode => childNode.updateChild childChangePath changedSnap
        | none => .emptyNode
    if oldChild.isEqual newChild then oldViewCache
    else
      oldViewCache.updateEventSnap
        (updateChildIn oldEventSnap.node childKey newChild childChangePath)
        oldEventSnap.isFullyInitialized filtersNodes

/-- Children that are there already come before those that are not. -/
def applyServerMergeTo (viewCache : FViewCache κ α) (path : List κ)
    (changedChildren : FCompoundWrite κ α) (writesCache : FWriteTreeRef κ α) : FViewCache κ α :=
  let serverSnap := viewCache.cachedServerSnap
  if serverSnap.node.isEmpty && !serverSnap.isFullyInitialized then viewCache
  else
    let actualMerge := if path.isEmpty then changedChildren
      else FCompoundWrite.emptyWrite.addCompoundWrite changedChildren path
    let applyChild := fun (curViewCache : FViewCache κ α) (e : κ × FCompoundWrite κ α) =>
      applyServerOverwriteTo curViewCache [e.1]
        (e.2.applyToNode (serverSnap.node.getImmediateChild e.1)) writesCache
    let childCompoundWrites := actualMerge.childCompoundWrites
    let present := childCompoundWrites.filter fun e => serverSnap.node.hasChild e.1
    let absent := childCompoundWrites.filter fun e => !serverSnap.node.hasChild e.1 &&
      !(!serverSnap.isCompleteForChild e.1 && e.2.rootWrite.isNone)
    absent.foldl applyChild (present.foldl applyChild viewCache)

/-- The write that goes is an overwrite. The data of the server under it are applied again, now
that it does not hide them any more. -/
def ackUserWriteOn (viewCache : FViewCache κ α) (ackPath : List κ)
    (writesCache : FWriteTreeRef κ α) : FViewCache κ α :=
  if (writesCache.shadowingWriteAtPath ackPath).isSome then viewCache
  else
    let serverCache := viewCache.cachedServerSnap
    if (ackPath.isEmpty && serverCache.isFullyInitialized) || serverCache.isCompleteForPath ackPath
    then applyServerOverwriteTo viewCache ackPath (serverCache.node.getChild ackPath) writesCache
    else if ackPath.isEmpty then
      let changedChildren := serverCache.node.enumerateChildren.foldl
        (fun changedChildren child => changedChildren.addWrite child.2 [child.1])
        FCompoundWrite.emptyWrite
      applyServerMergeTo viewCache ackPath changedChildren writesCache
    else viewCache

/-- The event cache after the revert of a write below the view. -/
def revertedChildIn (viewCache : FViewCache κ α) (childKey : κ) (childPath : List κ)
    (writesCache : FWriteTreeRef κ α) : FNode κ α :=
  let oldEventCache := viewCache.cachedEventSnap.node
  match writesCache.calculateCompleteChild childKey viewCache.cachedServerSnap with
  | some newChild => updateChildIn oldEventCache childKey newChild childPath
  | none =>
    if viewCache.cachedServerSnap.isCompleteForChild childKey then
      updateChildIn oldEventCache childKey (oldEventCache.getImmediateChild childKey) childPath
    else if oldEventCache.hasChild childKey then
      updateChildIn oldEventCache childKey .emptyNode childPath
    else oldEventCache

def revertUserWriteOn (viewCache : FViewCache κ α) (path : List κ)
    (writesCache : FWriteTreeRef κ α) : FViewCache κ α :=
  if (writesCache.shadowingWriteAtPath path).isSome then viewCache
  else
    let oldEventCache := viewCache.cachedEventSnap.node
    let serverSnap := viewCache.cachedServerSnap
    let newEventCache := match path with
      | [] =>
        let newNode :=
          if serverSnap.isFullyInitialized then
            (writesCache.calculateCompleteEventCache viewCache.completeServerSnap).getD .emptyNode
          else writesCache.calculateCompleteEventChildren serverSnap.node
        updateFullNode oldEventCache newNode
      | childKey :: childPath =>
        let newEventCache := revertedChildIn viewCache childKey childPath writesCache
        if newEventCache.isEmpty && serverSnap.isFullyInitialized then
          -- the old event may have been a leaf
          let complete :=
            (writesCache.calculateCompleteEventCache viewCache.completeServerSnap).getD .emptyNode
          if complete.isLeafNode then updateFullNode newEventCache complete else newEventCache
        else newEventCache
    viewCache.updateEventSnap newEventCache
      (serverSnap.isFullyInitialized || (writesCache.shadowingWriteAtPath []).isSome) filtersNodes

def listenCompleteOldCache (viewCache : FViewCache κ α) (path : List κ)
    (writesCache : FWriteTreeRef κ α) : FViewCache κ α :=
  let oldServerNode := viewCache.cachedServerSnap
  generateEventCacheAfterServerEvent
    (viewCache.updateServerSnap oldServerNode.node
      (oldServerNode.isFullyInitialized || path.isEmpty) oldServerNode.isFiltered) path writesCache

end FViewProcessor

end Pincushion.Snapshot
