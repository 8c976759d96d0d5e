import Pincushion.WriteView

/-! One device and the server. Writes are numbered and kept until they are
acknowledged; whenever the connection is back they are all sent again in the
order of their numbers. What a connection carries is lost with it. The server is
taken to make every write it receives and to answer in order. -/
namespace Pincushion.Connection
open KeyTree SortedDictionary Snapshot Runs
variable {κ α : Type*} [LinearOrder κ]

inductive ConnectionState where
  | disconnected | gettingToken | connecting | authenticating | connected
  deriving DecidableEq

/-- A write to be sent, with the number that its block acknowledges to the write tree. -/
structure FOutstandingPut (κ α : Type*) where
  path : List κ
  data : FNode κ α
  writeId : Int

/-- A response names its request by a number that finds the block to run. Here it carries
what the block has captured. -/
inductive Request (κ α : Type*) where
  | auth
  | listen
  | unlisten
  | put (index : Nat) (data : FOutstandingPut κ α)

inductive Response where
  | auth (ok : Bool)
  | listen
  | put (index : Nat) (writeId : Int)
  deriving DecidableEq

/-- The write tree of the repo, its connection, the requests and the responses under way,
and the data of the server. -/
structure Client (κ α : Type*) [LinearOrder κ] where
  connectionState : ConnectionState
  authToken : Bool
  outstandingPuts : List (Nat × FOutstandingPut κ α)
  putCounter : Nat
  listens : List (List κ)
  unackedListensCount : Nat
  putsToAck : List Int
  writeIdCounter : Int
  pendingWriteTree : FWriteTree κ α
  up : List (Request κ α)
  down : List Response
  server : FNode κ α

namespace Client

def init (server : FNode κ α) : Client κ α where
  connectionState := .disconnected
  authToken := false
  outstandingPuts := []
  putCounter := 1
  listens := []
  unackedListensCount := 0
  putsToAck := []
  writeIdCounter := 0
  pendingWriteTree := FWriteTree.init
  up := []
  down := []
  server := server

def isConnected (c : Client κ α) : Bool :=
  c.connectionState = .authenticating ∨ c.connectionState = .connected

def canSendWrites (c : Client κ α) : Bool := c.connectionState = .connected

def sendPut (c : Client κ α) (e : Nat × FOutstandingPut κ α) : Client κ α :=
  { c with up := c.up ++ [.put e.1 e.2] }

def sendListen (c : Client κ α) : Client κ α :=
  { c with up := c.up ++ [.listen], unackedListensCount := c.unackedListensCount + 1 }

/-- All listens again, then all writes in the order of their numbers. -/
def restoreState (c : Client κ α) : Client κ α :=
  c.outstandingPuts.foldl sendPut (c.listens.foldl (fun c _ => c.sendListen) c)

def putInternal (c : Client κ α) (put : FOutstandingPut κ α) : Client κ α :=
  let index := c.putCounter
  let c' := { c with
    putCounter := index + 1
    outstandingPuts := insertKey index put c.outstandingPuts }
  if c'.canSendWrites then c'.sendPut (index, put) else c'

/-- `set:withNode:` of the repo; the write tree takes the write before it is sent. -/
def set (c : Client κ α) (path : List κ) (node : FNode κ α) : Option (Client κ α) :=
  let writeId := c.writeIdCounter
  match c.pendingWriteTree.addOverwriteAtPath path node writeId true with
  | some pendingWriteTree =>
    some ({ c with
      writeIdCounter := writeId + 1
      pendingWriteTree := pendingWriteTree }.putInternal ⟨path, node, writeId⟩)
  | none => none

def ackWrite (c : Client κ α) (writeId : Int) : Option (Client κ α) :=
  (c.pendingWriteTree.removeWriteId writeId).map fun x => { c with pendingWriteTree := x.1 }

/-- The blocks that were held back run in the order in which they came. -/
def ackPuts (c : Client κ α) : Option (Client κ α) :=
  (c.putsToAck.foldlM ackWrite c).map fun c => { c with putsToAck := [] }

def onDisconnect (c : Client κ α) : Client κ α :=
  { c with connectionState := .disconnected, up := [], down := [], unackedListensCount := 0 }

def onResponse (c : Client κ α) : Response → Option (Client κ α)
  | .auth ok =>
    if ok then some { c with connectionState := .connected }.restoreState
    else some { c with authToken := false }.onDisconnect
  | .listen =>
    if c.unackedListensCount = 0 then none
    else
      let c' := { c with unackedListensCount := c.unackedListensCount - 1 }
      if c'.unackedListensCount = 0 then c'.ackPuts else some c'
  | .put index writeId => match objectForKey index c.outstandingPuts with
    | some _ =>
      let c' := { c with outstandingPuts := removeKey index c.outstandingPuts }
      if c'.unackedListensCount = 0 then c'.ackWrite writeId
      else some { c' with putsToAck := c'.putsToAck ++ [writeId] }
    | none => some c

/-- What the server makes of a request, and its answer. -/
def onRequest (c : Client κ α) (ok : Bool) : Request κ α → Client κ α
  | .auth => { c with down := c.down ++ [.auth ok] }
  | .listen => { c with down := c.down ++ [.listen] }
  | .unlisten => c
  | .put index p =>
    { c with
      server := c.server.updateChild p.path p.data
      down := c.down ++ [.put index p.writeId] }

end Client

inductive Event (κ α : Type*) where
  | set (path : List κ) (node : FNode κ α)
  | listen (query : List κ)
  | unlisten (query : List κ)
  | retry
  | openNetworkConnection (token : Bool)
  | onReady
  | receive (ok : Bool)
  | onDataMessage
  | onDisconnect

def Client.step (c : Client κ α) : Event κ α → Option (Client κ α)
  | .set path node => c.set path node
  | .listen query =>
    if query ∈ c.listens then none
    else
      let c' := { c with listens := c.listens ++ [query] }
      some (if c'.isConnected then c'.sendListen else c')
  | .unlisten query =>
    if query ∈ c.listens then
      let c' := { c with listens := c.listens.erase query }
      some (if c'.isConnected then { c' with up := c'.up ++ [.unlisten] } else c')
    else some c
  | .retry =>
    if c.connectionState = .disconnected then some { c with connectionState := .gettingToken }
    else none
  | .openNetworkConnection token =>
    if c.connectionState = .gettingToken then
      some { c with connectionState := .connecting, authToken := token }
    else none
  | .onReady =>
    if c.connectionState = .connecting then
      if c.authToken then
        some { c with connectionState := .authenticating, up := c.up ++ [.auth] }
      else some { c with connectionState := .connected }.restoreState
    else none
  | .receive ok => match c.up with
    | request :: up => some ({ c with up := up }.onRequest ok request)
    | [] => none
  | .onDataMessage => match c.down with
    | response :: down => { c with down := down }.onResponse response
    | [] => none
  | .onDisconnect => some c.onDisconnect

end Pincushion.Connection
