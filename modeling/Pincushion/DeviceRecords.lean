import Pincushion.CanonicalView
import Pincushion.StoredRecords

/-! The application on a device. It sets values whenever it likes, the connection comes and
goes, and what the device decodes from its view are the records as they were written. -/
namespace Pincushion.FirebaseHelpers
open KeyTree SwiftNumber Structs Snapshot Connection Runs

/-- The application sets a value, or something else happens to the client. -/
inductive DeviceEvent where
  | setValue (w : Write)
  | client (e : {e : Event Key Atom // e.issued? = none})

namespace DeviceEvent

def write? : DeviceEvent → Option Write
  | .setValue w => some w
  | .client _ => none

def written (es : List DeviceEvent) : List Write := es.filterMap write?

theorem written_cons (e : DeviceEvent) (es : List DeviceEvent) :
    written (e :: es) = e.write?.toList ++ written es := by
  rw [written, List.filterMap_cons]
  cases e.write? <;> rfl

variable (isValidLeafValue : Atom → Bool)

/-- A value that is refused raises an exception. -/
def step (c : Client Key Atom) : DeviceEvent → Option (Client Key Atom)
  | .setValue w => (nodeFrom isValidLeafValue 0 w.box).bind fun node => c.set w.keys node
  | .client e => c.step e.1

/-- When all writes are sent again while acknowledgements are held back, a listen goes first. -/
def Listening (c : Client Key Atom) : DeviceEvent → Prop
  | .setValue _ => True
  | .client e => c.Listening e.1

instance (c : Client Key Atom) : (e : DeviceEvent) → Decidable (Listening c e)
  | .setValue _ => isTrue trivial
  | .client e => inferInstanceAs (Decidable (c.Listening e.1))

variable {isValidLeafValue} {decimalDigit : Char → Bool} {c c' : Client Key Atom} {db : Node}

/-- The node that is set at a path is that of a write. -/
def Sets (isValidLeafValue : Atom → Bool) (path : List Key) (node : FNode Key Atom) : Prop :=
  ∃ w : Write, w.Short ∧ path = w.keys ∧ nodeFrom isValidLeafValue 0 w.box = some node

/-- The nodes store some records. -/
def Keeps (n : FNode Key Atom) : Prop := ∃ db, Stored n db ∧ Flat db

theorem Sets.canonical (hdigit : AsciiDigits decimalDigit) {path : List Key}
    {node : FNode Key Atom} (h : Sets isValidLeafValue path node) : node.Canonical := by
  obtain ⟨w, hw, -, hnode⟩ := h
  exact (tree_nodeFrom (w.proper_box hdigit hw) hnode).1

theorem Keeps.updateChild (hdigit : AsciiDigits decimalDigit) {n node : FNode Key Atom}
    {path : List Key} (h : Keeps n) (hsets : Sets isValidLeafValue path node) :
    Keeps (n.updateChild path node) := by
  obtain ⟨db, hstored, hflat⟩ := h
  obtain ⟨w, hw, rfl, hnode⟩ := hsets
  exact ⟨w.apply db, hstored.updateChild hdigit hflat hw hnode, flat_apply hflat hw⟩

/-- All writes that wait go below leaves nowhere. -/
theorem clearFor_of_carries (h : c.Carries (Sets isValidLeafValue) Keeps) :
    c.pendingWriteTree.ClearFor c.server := by
  obtain ⟨db, hstored, hflat⟩ := h.server
  intro x hx
  obtain ⟨w, -, hpath, -⟩ := h.pending x hx
  rw [hpath, hstored.tree]
  exact clearAbove_expand (hflat.clearAbove w)

/-- The device shows the records `db`. -/
structure Shows (isValidLeafValue : Atom → Bool) (db : Node) (c : Client Key Atom) : Prop where
  carries : c.Carries (Sets isValidLeafValue) Keeps
  viewed : c.Viewed (expand db) []
  reliable : c.Reliable (expand db) []
  flat : Flat db

theorem shows_init {server : FNode Key Atom} (h : Stored server db) (hflat : Flat db) :
    Shows isValidLeafValue db (Client.init server) := by
  have htree := h.tree
  refine ⟨Client.carries_init ⟨db, h, hflat⟩, ?_, ?_, hflat⟩
  · rw [← htree]
    exact Client.viewed_init server
  · rw [← htree]
    exact Client.reliable_init server

theorem shows_step (hdigit : AsciiDigits decimalDigit) {e : DeviceEvent}
    (h : Shows isValidLeafValue db c) (he : ∀ w ∈ e.write?, w.Short) (hlisten : Listening c e)
    (hstep : step isValidLeafValue c e = some c') :
    Shows isValidLeafValue (e.write?.toList.foldl (fun db w => w.apply db) db) c' := by
  have hcarries : ∀ {e' : Event Key Atom}, Client.Issues (Sets isValidLeafValue) e' →
      c.step e' = some c' → c'.Carries (Sets isValidLeafValue) Keeps := fun hissues hstep' =>
    Client.carries_step (fun p v hv => hv.canonical hdigit)
      (fun n p v hn hv => hn.updateChild hdigit hv) h.carries hissues hstep'
  cases e with
  | setValue w =>
    have hw := he w rfl
    obtain ⟨node, hnode, hset⟩ := Option.bind_eq_some_iff.mp hstep
    have hstep' : c.step (.set w.keys node) = some c' := hset
    have hpatch := w.patch_expand hdigit h.flat hw hnode
    have hissues : Client.Issues (Sets isValidLeafValue) (.set w.keys node) := ⟨w, hw, rfl, hnode⟩
    refine ⟨hcarries hissues hstep', ?_, ?_, flat_apply h.flat hw⟩
    · exact (Client.viewed_step (e := .set w.keys node) h.viewed h.reliable trivial hstep').congr
        hpatch
    · exact (Client.reliable_step h.reliable hstep').congr hpatch
  | client e =>
    have hissues : Client.Issues (Sets isValidLeafValue) e.1 := by
      obtain ⟨e, hnone⟩ := e
      cases e with
      | set path node => cases hnone
      | _ => trivial
    have hviewed := Client.viewed_step h.viewed h.reliable hlisten hstep
    have hreliable := Client.reliable_step h.reliable hstep
    rw [e.2] at hviewed hreliable
    exact ⟨hcarries hissues hstep, hviewed, hreliable, h.flat⟩

theorem shows_run (hdigit : AsciiDigits decimalDigit) {es : List DeviceEvent}
    (h : Shows isValidLeafValue db c) (hshort : ∀ w ∈ written es, w.Short)
    (hrun : run (step isValidLeafValue) c es = some c')
    (hlisten : Along (step isValidLeafValue) Listening c es) :
    Shows isValidLeafValue ((written es).foldl (fun db w => w.apply db) db) c' := by
  induction es generalizing c db with
  | nil => exact run_nil_eq.mp hrun ▸ h
  | cons e es ih =>
    obtain ⟨m, he, hes⟩ := run_cons_eq.mp hrun
    rw [along_cons he] at hlisten
    rw [written_cons] at hshort ⊢
    rw [List.foldl_append]
    have hfirst : ∀ w ∈ e.write?, w.Short := fun w hw =>
      hshort w (List.mem_append_left _ (Option.mem_toList.mpr hw))
    exact ih (shows_step hdigit h hfirst hlisten.1 he)
      (fun w hw => hshort w (List.mem_append_right _ hw)) hes hlisten.2

/-- A bride is saved, the connection is lost before the acknowledgement comes, her list of
measurements is written, and the connection is back. -/
def savedWhileLost : List DeviceEvent :=
  [.client ⟨.listen [⟨"brides"⟩], rfl⟩, .client ⟨.retry, rfl⟩,
    .client ⟨.openNetworkConnection false, rfl⟩, .client ⟨.onReady, rfl⟩,
    .setValue (.bride "b" ⟨"Ada", "Lee", "a@b.c", "b", "s", ["-1"], ["-1"]⟩),
    .client ⟨.receive true, rfl⟩, .client ⟨.receive true, rfl⟩, .client ⟨.onDisconnect, rfl⟩,
    .setValue (.list (.measurements "b") ["-1", "m"]), .client ⟨.retry, rfl⟩,
    .client ⟨.openNetworkConnection false, rfl⟩, .client ⟨.onReady, rfl⟩,
    .client ⟨.receive true, rfl⟩]

def saved : Client Key Atom :=
  (run (step fun _ => true) (Client.init .emptyNode) savedWhileLost).getD (Client.init .emptyNode)

end DeviceEvent

end Pincushion.FirebaseHelpers
