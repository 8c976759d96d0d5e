import Pincushion.ViewOperations

/-! The tree of views. Data and writes come with a path, and every view above or below the path
is brought up to date. There is one view for a path, that of all its data; tagged queries, user
merges and the persistence are left out. -/
namespace Pincushion.Snapshot
open KeyTree SortedDictionary
variable {κ α ρ : Type*} [LinearOrder κ]

/-- What an operation does, apart from its path. -/
inductive FOperationType (κ α : Type*) [LinearOrder κ] where
  | overwrite (fromUser : Bool) (snap : FNode κ α)
  | merge (children : FCompoundWrite κ α)
  | ackUserWrite (revert : Bool)
  | listenComplete

/-- Seen from a child when the path is used up; nothing where a merge does not reach. -/
def FOperationType.operationForChild (childKey : κ) :
    FOperationType κ α → Option (FOperationType κ α)
  | .overwrite fromUser snap => some (.overwrite fromUser (snap.getImmediateChild childKey))
  | .merge children =>
    let childTree := children.childCompoundWriteAtPath [childKey]
    if childTree.isEmpty then none
    else match childTree.rootWrite with
      | some snap => some (.overwrite false snap)
      | none => some (.merge childTree)
  | .ackUserWrite revert => some (.ackUserWrite revert)
  | .listenComplete => some .listenComplete

/-- The registrations are those of the listeners for the view's events. -/
structure FView (ρ κ α : Type*) where
  viewCache : FViewCache κ α
  eventRegistrations : List ρ

namespace FView

def completeServerCacheFor (view : FView ρ κ α) (path : List κ) : Option (FNode κ α) :=
  view.viewCache.completeServerSnap.map fun cache => cache.getChild path

variable [DecidableEq α]

def applyOperation (view : FView ρ κ α) (path : List κ) (writesCache : FWriteTreeRef κ α)
    (optCompleteServerCache : Option (FNode κ α)) : FOperationType κ α → FView ρ κ α
  | .overwrite true snap => { view with
      viewCache := FViewProcessor.applyUserOverwriteTo view.viewCache path snap writesCache
        optCompleteServerCache }
  | .overwrite false snap => { view with
      viewCache := FViewProcessor.applyServerOverwriteTo view.viewCache path snap writesCache }
  | .merge children => { view with
      viewCache := FViewProcessor.applyServerMergeTo view.viewCache path children writesCache }
  | .ackUserWrite false => { view with
      viewCache := FViewProcessor.ackUserWriteOn view.viewCache path writesCache }
  | .ackUserWrite true => { view with
      viewCache := FViewProcessor.revertUserWriteOn view.viewCache path writesCache }
  | .listenComplete => { view with
      viewCache := FViewProcessor.listenCompleteOldCache view.viewCache path writesCache }

end FView

namespace FImmutableTree
variable {β : Type*}

def valueAtPath : FImmutableTree κ β → List κ → Option β
  | .node value _, [] => value
  | .node _ cs, front :: rest => match objectForKey front cs with
    | some child => child.valueAtPath rest
    | none => none

def removeValueAtPath : FImmutableTree κ β → List κ → FImmutableTree κ β
  | .node _ cs, [] => if cs.isEmpty then empty else .node none cs
  | .node value cs, front :: rest => match objectForKey front cs with
    | some child =>
      let newChild := child.removeValueAtPath rest
      let newChildren := if newChild.isEmpty then removeKey front cs
        else insertKey front newChild cs
      if value.isNone && newChildren.isEmpty then empty else .node value newChildren
    | none => .node value cs

end FImmutableTree

/-- The first complete server cache on the way down to the path. -/
def completeServerCacheOnPath : FImmutableTree κ (FView ρ κ α) → List κ → Option (FNode κ α)
  | .node value _, [] => value.bind fun view => view.completeServerCacheFor []
  | .node value cs, front :: rest =>
    match value.bind fun view => view.completeServerCacheFor (front :: rest) with
    | some serverCache => some serverCache
    | none => match objectForKey front cs with
      | some child => completeServerCacheOnPath child rest
      | none => none

/-- The complete server caches of the children that have a view. -/
def completeServerChildren : FImmutableTree κ (FView ρ κ α) → FNode κ α
  | .node _ cs => cs.foldl (fun serverCacheNode e =>
      match e.2.value.bind fun view => view.completeServerCacheFor [] with
      | some completeCache => serverCacheNode.updateImmediateChild e.1 completeCache
      | none => serverCacheNode) .emptyNode

section Apply
variable [DecidableEq α]

/-! Below the path of the operation every view is affected. -/
mutual
def applyOperationDescendantsHelper (operation : FOperationType κ α)
    (serverCache : Option (FNode κ α)) (writesCache : FWriteTreeRef κ α) :
    FImmutableTree κ (FView ρ κ α) → FImmutableTree κ (FView ρ κ α)
  | .node syncPoint children =>
    let resolvedServerCache := serverCache.or
      (syncPoint.bind fun view => view.completeServerCacheFor [])
    .node (syncPoint.map fun view => view.applyOperation [] writesCache resolvedServerCache operation)
      (applyOperationChildren operation resolvedServerCache writesCache children)
def applyOperationChildren (operation : FOperationType κ α) (serverCache : Option (FNode κ α))
    (writesCache : FWriteTreeRef κ α) :
    List (κ × FImmutableTree κ (FView ρ κ α)) → List (κ × FImmutableTree κ (FView ρ κ α))
  | [] => []
  | (childKey, childTree) :: rest =>
    (childKey, match operation.operationForChild childKey with
      | some childOperation => applyOperationDescendantsHelper childOperation
          (serverCache.map fun cache => cache.getImmediateChild childKey)
          (writesCache.childWriteTreeRef childKey) childTree
      | none => childTree) :: applyOperationChildren operation serverCache writesCache rest
end

/-- The views on the way to the path and those below it. -/
def applyOperationHelper (operation : FOperationType κ α) : List κ → Option (FNode κ α) →
    FWriteTreeRef κ α → FImmutableTree κ (FView ρ κ α) → FImmutableTree κ (FView ρ κ α)
  | [], serverCache, writesCache, syncPointTree =>
    applyOperationDescendantsHelper operation serverCache writesCache syncPointTree
  | childKey :: path, serverCache, writesCache, .node syncPoint children =>
    let serverCache := serverCache.or (syncPoint.bind fun view => view.completeServerCacheFor [])
    .node (syncPoint.map fun view =>
        view.applyOperation (childKey :: path) writesCache serverCache operation)
      (match objectForKey childKey children with
        | some childTree => insertKey childKey (applyOperationHelper operation path
            (serverCache.map fun cache => cache.getImmediateChild childKey)
            (writesCache.childWriteTreeRef childKey) childTree) children
        | none => children)

end Apply

/-- What a new view shows. -/
def initialViewCache (serverCache : FCacheNode κ α) (writesCache : FWriteTreeRef κ α) :
    FViewCache κ α :=
  match writesCache.calculateCompleteEventCache
      (if serverCache.isFullyInitialized then some serverCache.node else none) with
  | some eventCache => ⟨⟨eventCache, true, false⟩, serverCache⟩
  | none =>
    ⟨⟨writesCache.calculateCompleteEventChildren serverCache.node, false, false⟩, serverCache⟩

structure FSyncTree (ρ κ α : Type*) [LinearOrder κ] where
  syncPointTree : FImmutableTree κ (FView ρ κ α)
  pendingWriteTree : FWriteTree κ α

namespace FSyncTree

def init : FSyncTree ρ κ α := ⟨.empty, .init⟩

section Views
variable [DecidableEq α]

def applyOperationToSyncPoints (t : FSyncTree ρ κ α) (path : List κ)
    (operation : FOperationType κ α) : FSyncTree ρ κ α :=
  { t with syncPointTree :=
      applyOperationHelper operation path none ⟨[], t.pendingWriteTree⟩ t.syncPointTree }

def applyUserOverwriteAtPath (t : FSyncTree ρ κ α) (path : List κ) (newData : FNode κ α)
    (writeId : Int) : Option (FSyncTree ρ κ α) :=
  (t.pendingWriteTree.addOverwriteAtPath path newData writeId true).map fun pendingWriteTree =>
    { t with pendingWriteTree := pendingWriteTree }.applyOperationToSyncPoints path
      (.overwrite true newData)

/-- The write is an overwrite. A write that is not there fails an assertion. -/
def ackUserWriteWithWriteId (t : FSyncTree ρ κ α) (writeId : Int) (revert : Bool) :
    Option (FSyncTree ρ κ α) :=
  match t.pendingWriteTree.writeForId writeId, t.pendingWriteTree.removeWriteId writeId with
  | some write, some (pendingWriteTree, needToReevaluate) =>
    let t := { t with pendingWriteTree := pendingWriteTree }
    some (if needToReevaluate then
        t.applyOperationToSyncPoints write.path (.ackUserWrite revert)
      else t)
  | _, _ => none

end Views

def serverCacheForQuery (t : FSyncTree ρ κ α) (path : List κ) : FCacheNode κ α :=
  match completeServerCacheOnPath t.syncPointTree path with
  | some serverCacheNode => ⟨serverCacheNode, true, false⟩
  | none => ⟨completeServerChildren (t.syncPointTree.subtreeAtPath path), false, false⟩

/-- A view for a path that has none yet. -/
def newView (t : FSyncTree ρ κ α) (path : List κ) (registration : ρ) : FView ρ κ α :=
  ⟨initialViewCache (t.serverCacheForQuery path) ⟨path, t.pendingWriteTree⟩, [registration]⟩

def addEventRegistration (t : FSyncTree ρ κ α) (registration : ρ) (path : List κ) :
    FSyncTree ρ κ α :=
  let view := match t.syncPointTree.valueAtPath path with
    | some view => { view with eventRegistrations := view.eventRegistrations ++ [registration] }
    | none => t.newView path registration
  { t with syncPointTree := t.syncPointTree.setValue path view }

/-- The registrations that match go, and the view with the last of them. -/
def removeEventRegistration (t : FSyncTree ρ κ α) (isMatch : ρ → Bool) (path : List κ) :
    FSyncTree ρ κ α :=
  match t.syncPointTree.valueAtPath path with
  | some view =>
    let registrations := view.eventRegistrations.filter fun registration => !isMatch registration
    { t with syncPointTree :=
        if registrations.isEmpty then t.syncPointTree.removeValueAtPath path
        else t.syncPointTree.setValue path { view with eventRegistrations := registrations } }
  | none => t

inductive SyncEvent (ρ κ α : Type*) [LinearOrder κ] where
  | userOverwrite (path : List κ) (newData : FNode κ α) (writeId : Int)
  | ackUserWrite (writeId : Int) (revert : Bool)
  | serverOverwrite (path : List κ) (newData : FNode κ α)
  | serverMerge (path : List κ) (changedChildren : FCompoundWrite κ α)
  | listenComplete (path : List κ)
  | addEventRegistration (registration : ρ) (path : List κ)
  | removeEventRegistration (isMatch : ρ → Bool) (path : List κ)

def step [DecidableEq α] (t : FSyncTree ρ κ α) : SyncEvent ρ κ α → Option (FSyncTree ρ κ α)
  | .userOverwrite path newData writeId => t.applyUserOverwriteAtPath path newData writeId
  | .ackUserWrite writeId revert => t.ackUserWriteWithWriteId writeId revert
  | .serverOverwrite path newData =>
    some (t.applyOperationToSyncPoints path (.overwrite false newData))
  | .serverMerge path changedChildren =>
    some (t.applyOperationToSyncPoints path (.merge changedChildren))
  | .listenComplete path => some (t.applyOperationToSyncPoints path .listenComplete)
  | .addEventRegistration registration path => some (t.addEventRegistration registration path)
  | .removeEventRegistration isMatch path => some (t.removeEventRegistration isMatch path)

end FSyncTree

end Pincushion.Snapshot
