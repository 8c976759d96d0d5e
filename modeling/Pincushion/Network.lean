import Pincushion.FirebaseHelpers
import Mathlib.Logic.Function.Basic

/-! The database as several devices share it. A device's writes reach the server
in the order it issued them; a read may see any of the device's own writes that
are still on their way. -/
namespace Pincushion.Network
open KeyTree Structs FirebaseHelpers
variable {D : Type*}

/-- A read that an append has issued, with the value it took. -/
structure PendingRead (D : Type*) where
  device : D
  append : ListAppend
  value : Option Node

structure Net (D : Type*) where
  server : Node
  keys : List String
  outbox : D → List Write
  reads : List (PendingRead D)

namespace Net

def initial : Net D := ⟨empty, [], fun _ => [], []⟩

/-- What a device sees that has its first `k` queued writes applied already. -/
def view (n : Net D) (d : D) (k : Nat) : Node :=
  ((n.outbox d).take k).foldl (fun db w => w.apply db) n.server

/-- `childByAutoId` returns keys that are not empty and new to everyone. -/
def Fresh (n : Net D) (newKeys : List String) : Prop :=
  newKeys.Nodup ∧ ∀ k ∈ newKeys, k ≠ "" ∧ k ∉ n.keys

instance (n : Net D) (newKeys : List String) : Decidable (n.Fresh newKeys) :=
  inferInstanceAs (Decidable (_ ∧ _))

def allocate (n : Net D) (newKeys : List String) : Net D :=
  { n with keys := n.keys ++ newKeys }

def observe (n : Net D) (d : D) (a : ListAppend) : Net D :=
  { n with reads := n.reads ++ [⟨d, a, none⟩] }

def take (n : Net D) (i k : Nat) : Option (Net D) := match n.reads[i]? with
  | some ⟨d, a, none⟩ =>
      some { n with reads := n.reads.set i ⟨d, a, some ((n.view d k).sub a.target.node)⟩ }
  | _ => none

variable [DecidableEq D]

def setValues (n : Net D) (d : D) (ws : List Write) : Net D :=
  { n with outbox := Function.update n.outbox d (n.outbox d ++ ws) }

/-- The callback of the read: its write joins the queue of its device. -/
def callback (n : Net D) (i : Nat) : Option (Net D) := match n.reads[i]? with
  | some ⟨d, a, some value⟩ =>
      some ({ n with reads := n.reads.eraseIdx i }.setValues d (a.callback value).toList)
  | _ => none

/-- The first queued write of a device reaches the server. -/
def deliver (n : Net D) (d : D) : Option (Net D) := match n.outbox d with
  | w :: ws =>
      some { n with server := w.apply n.server, outbox := Function.update n.outbox d ws }
  | [] => none

end Net

end Pincushion.Network
