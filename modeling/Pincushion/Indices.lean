import Pincushion.Integrity
import Pincushion.RecordScreens

/-! The lists that should hold every record of a parent. Adding a bride or a
measurement extends the list of its parent; creating a contract extends none. -/
namespace Pincushion.Indices
open KeyTree SwiftNumber Structs Singletons FirebaseHelpers AlterationScreens CreateContract
open Network Runs RecordScreens
open App (World Starts)
variable {D : Type*}

/-- A text of a record, also where the record as a whole does not decode. -/
def textAt (db : Node) (node : List String) (field : String) : Option String :=
  asString ((db.sub node).sub [field])

/-- Every record is in the list of the parent it names. -/
structure Indexed (db : Node) : Prop where
  measurements : ∀ m b, textAt db ["measurements", m] "bride" = some b →
    ∃ r, brideAt db b = some r ∧ m ∈ r.measurements
  dresses : ∀ d b, textAt db ["dresses", d] "brideUID" = some b →
    ∃ r, brideAt db b = some r ∧ d ∈ r.dresses
  brides : ∀ b s, textAt db ["brides", b] "specialist" = some s →
    ∃ r, specialistAt db s = some r ∧ b ∈ r.brides
  contracts : ∀ c s, textAt db ["contracts", c] "specialistUID" = some s →
    ∃ r, specialistAt db s = some r ∧ c ∈ r.contracts

/-- No callback is pending and no write on its way. -/
def Quiet (n : Net D) : Prop := n.reads = [] ∧ ∀ d, n.outbox d = []

/-- The list that a write sets, alone or with its record. -/
def listed : Write → Option (ListTarget × List String)
  | .specialist s r => some (.brides s, r.brides)
  | .bride b r => some (.measurements b, r.measurements)
  | .contract c r => some (.alterations c, r.alterations)
  | .list t l => some (t, l)
  | _ => none

/-- The list that the record of a write belongs on. -/
def child : Write → Option (ListTarget × String)
  | .measurement m r => some (.measurements r.bride, m)
  | .bride b r => some (.brides r.specialist, b)
  | _ => none

def Belongs (db : Node) : ListTarget → String → Prop
  | .measurements b, m => textAt db ["measurements", m] "bride" = some b
  | .brides s, b => textAt db ["brides", b] "specialist" = some s
  | .alterations _, _ => False

/-- The record that holds the list is there. -/
def Recorded (db : Node) (t : ListTarget) : Prop := ∃ u, textAt db t.node "uid" = some u

/-- A list is set only below a record, and no list is set empty. -/
def Grounded (db : Node) : Write → Prop
  | .specialist _ r => r.brides ≠ [] ∧ r.contracts ≠ []
  | .bride _ r => r.measurements ≠ [] ∧ r.dresses ≠ []
  | .contract _ r => r.alterations ≠ []
  | .list t l => Recorded db t ∧ l ≠ []
  | _ => True

def GroundedAll (db : Node) : List Write → Prop
  | [] => True
  | w :: ws => Grounded db w ∧ GroundedAll (w.apply db) ws

/-- The write has every uid of the list it replaces. -/
def Keeps (db : Node) (w : Write) : Prop :=
  ∀ p ∈ listed w, ∀ u ∈ (serverList db p.1).getD [], u ∈ p.2

instance (db : Node) (w : Write) : Decidable (Keeps db w) :=
  inferInstanceAs (Decidable (∀ p ∈ listed w, ∀ u ∈ (serverList db p.1).getD [], u ∈ p.2))

variable {db db' : Node} {w : Write} {ws : List Write} {t : ListTarget} {l : List String}
variable {u : String}

theorem node_of_listed (h : listed w = some (t, l)) : w.node = t.node := by
  cases w <;> simp_all only [listed, Option.some.injEq, Prod.mk.injEq, reduceCtorEq] <;>
  · obtain ⟨rfl, -⟩ := h
    rfl

theorem listed_of_node (h : w.node = t.node) : ∃ l, listed w = some (t, l) := by
  cases w with
  | list t' l =>
    obtain rfl : t' = t := ListTarget.node_injective h
    exact ⟨l, rfl⟩
  | _ => cases t <;> simp_all [Write.node, ListTarget.node, listed]

theorem serverList_of_not_listed (h : ∀ l, listed w ≠ some (t, l)) :
    serverList (w.apply db) t = serverList db t := by
  apply serverList_apply_ne
  intro hnode
  obtain ⟨l, hl⟩ := listed_of_node hnode
  exact h l hl

theorem serverList_of_listed (hw : Grounded db w)
    (hwhole : Recorded db t → ∃ l, serverList db t = some l) (h : listed w = some (t, l)) :
    serverList (w.apply db) t = some l := by
  have hnode := node_of_listed h
  cases w with
  | specialist s r =>
    cases h
    simp only [serverList, ← hnode, Write.apply, Write.path, sub_setValue_self, ListTarget.decode,
      Write.value, Specialist.decode_encode r hw.1 hw.2, Option.map_some]
  | bride b r =>
    cases h
    simp only [serverList, ← hnode, Write.apply, Write.path, sub_setValue_self, ListTarget.decode,
      Write.value, Bride.decode_encode r hw.1 hw.2, Option.map_some]
  | contract c r =>
    cases h
    simp only [serverList, ← hnode, Write.apply, Write.path, sub_setValue_self, ListTarget.decode,
      Write.value, Contract.decode_encode r hw, Option.map_some]
  | list t' l' =>
    cases h
    obtain ⟨l', hl'⟩ := hwhole hw.1
    exact serverList_apply_list hl' hw.2
  | _ => cases h

/-- Setting a list leaves the texts of its record. -/
theorem textAt_apply_list (db : Node) (t : ListTarget) (l : List String) {field : String}
    (h : field ≠ t.field) :
    textAt ((Write.list t l).apply db) t.node field = textAt db t.node field := by
  simp only [textAt, sub_apply_list]
  rw [sub_setValue_field (Ne.symm h)]

theorem textAt_apply_ne {c k field : String} (h : w.node ≠ [c, k]) :
    textAt (w.apply db) [c, k] field = textAt db [c, k] field := by
  rw [textAt, sub_apply_ne w db h, textAt]

theorem sub_node_apply_ne (h : w.node ≠ t.node) : (w.apply db).sub t.node = db.sub t.node := by
  cases t <;> exact sub_apply_ne w db h

/-- A write that stores the record of the list. -/
def Records (t : ListTarget) : Write → Prop
  | .list _ _ => False
  | w => w.node = t.node

theorem recorded_apply_iff : Recorded (w.apply db) t ↔ Recorded db t ∨ Records t w := by
  by_cases hnode : w.node = t.node
  · cases w with
    | list t' l =>
      obtain rfl : t' = t := ListTarget.node_injective hnode
      have hfield : "uid" ≠ t'.field := by cases t' <;> simp [ListTarget.field]
      simp only [Recorded, textAt_apply_list db t' l hfield, Records, or_false]
    | alteration v r | measurement v r | dress v r =>
      cases t <;> simp [Write.node, ListTarget.node] at hnode
    | specialist v r | bride v r | contract v r =>
      refine ⟨fun _ => Or.inr hnode, fun _ => ⟨r.uid, ?_⟩⟩
      simp only [textAt, ← hnode, Write.apply, Write.path, sub_setValue_self, Write.value]
      rfl
  · have hsame : Recorded (w.apply db) t ↔ Recorded db t := by
      simp only [Recorded, textAt, sub_node_apply_ne hnode]
    cases w <;> simp [hsame, Records, hnode]

theorem listed_of_records (h : Records t w) : ∃ l, listed w = some (t, l) := by
  cases w with
  | list t' l => exact absurd h id
  | _ => exact listed_of_node h

theorem recorded_foldl_iff :
    Recorded (ws.foldl (fun db w => w.apply db) db) t ↔ Recorded db t ∨ ∃ w ∈ ws, Records t w := by
  induction ws generalizing db with
  | nil => simp
  | cons w ws ih =>
    simp only [List.foldl_cons, ih, recorded_apply_iff, List.mem_cons, exists_eq_or_imp]
    exact or_assoc

theorem recorded_of_decode {value : Node} (h : t.decode value = some l) :
    ∃ u, asString (value.sub ["uid"]) = some u := by
  cases t <;>
  · simp only [ListTarget.decode, Contract.decode, Bride.decode, Specialist.decode,
      Option.bind_eq_bind, Option.map_eq_some_iff, Option.bind_eq_some_iff] at h
    grind

theorem belongs_apply (h : Belongs (w.apply db) t u) : Belongs db t u ∨ child w = some (t, u) := by
  cases t with
  | alterations c => exact Or.inl h
  | measurements b =>
    by_cases hnode : w.node = ["measurements", u]
    · cases w with
      | measurement m r =>
        right
        obtain rfl : m = u := by simpa [Write.node] using hnode
        simp only [Belongs, textAt, Write.apply, Write.path, Write.node, Write.value,
          sub_setValue_self, Measurement.encode, sub_keyed] at h
        obtain rfl : r.bride = b := Option.some.inj h
        rfl
      | list t l => cases t <;> simp [Write.node, ListTarget.node] at hnode
      | _ => simp [Write.node] at hnode
    · left
      rwa [Belongs, textAt_apply_ne hnode] at h
  | brides s =>
    by_cases hnode : w.node = ["brides", u]
    · cases w with
      | bride b r =>
        right
        obtain rfl : b = u := by simpa [Write.node] using hnode
        simp only [Belongs, textAt, Write.apply, Write.path, Write.node, Write.value,
          sub_setValue_self, Bride.encode, sub_keyed] at h
        obtain rfl : r.specialist = s := Option.some.inj h
        rfl
      | list t l =>
        left
        obtain rfl : t = .measurements u := ListTarget.node_injective hnode
        have hfield : "specialist" ≠ (ListTarget.measurements u).field := by simp [ListTarget.field]
        exact (textAt_apply_list db (.measurements u) l hfield).symm.trans h
      | _ => simp [Write.node] at hnode
    · left
      rwa [Belongs, textAt_apply_ne hnode] at h

theorem groundedAll_mono (hmono : ∀ t, Recorded db t → Recorded db' t) (h : GroundedAll db ws) :
    GroundedAll db' ws := by
  induction ws generalizing db db' with
  | nil => trivial
  | cons w ws ih =>
    refine ⟨?_, ih (fun t ht => ?_) h.2⟩
    · have hw := h.1
      cases w with
      | list t l => exact ⟨hmono t hw.1, hw.2⟩
      | _ => exact hw
    · rw [recorded_apply_iff] at ht ⊢
      exact ht.imp_left (hmono t)

theorem groundedAll_append {vs : List Write} : GroundedAll db (ws ++ vs) ↔
    GroundedAll db ws ∧ GroundedAll (ws.foldl (fun db w => w.apply db) db) vs := by
  induction ws generalizing db with
  | nil => simp [GroundedAll]
  | cons w ws ih => simp only [List.cons_append, GroundedAll, ih, List.foldl_cons, and_assoc]

/-- The uid is on the list, or a list or an append that has it is on its way. -/
def Covered (n : Net D) (t : ListTarget) (u : String) : Prop :=
  (∃ l, serverList n.server t = some l ∧ u ∈ l) ∨
  (∃ d l, Write.list t l ∈ n.outbox d ∧ u ∈ l) ∨
  ∃ a ∈ n.reads.map (·.append), a.target = t ∧ u ∈ a.new

def HasChild (n : Net D) (t : ListTarget) (u : String) : Prop :=
  Belongs n.server t u ∨ ∃ d, ∃ w ∈ n.outbox d, child w = some (t, u)

/-- A write that stores no dress and no contract. -/
def Unsewn : Write → Prop
  | .dress _ _ => False
  | .contract _ _ => False
  | _ => True

/-- What holds while no contract is created. -/
structure Kept (n : Net D) : Prop where
  whole : ∀ t, Recorded n.server t → ∃ l, serverList n.server t = some l
  grounded : ∀ d, GroundedAll n.server (n.outbox d)
  taken : ∀ p ∈ n.reads, ∀ value l, p.value = some value →
    p.append.target.decode value = some l → Recorded (n.settled p.device) p.append.target
  covered : ∀ t u, HasChild n t u → Covered n t u
  queued : ∀ d, ∀ w ∈ n.outbox d, Unsewn w
  dresses : ∀ d, textAt n.server ["dresses", d] "brideUID" = none
  contracts : ∀ c, textAt n.server ["contracts", c] "specialistUID" = none

theorem kept_initial : Kept (.initial : Net D) where
  whole t h := by obtain ⟨u, hu⟩ := h; cases hu
  grounded d := trivial
  taken p hp := by cases hp
  covered t u h := by
    rcases h with h | ⟨d, w, hw, -⟩
    · cases t <;> cases h
    · cases hw
  queued d w hw := by cases hw
  dresses d := rfl
  contracts c := rfl

/-- With nothing on its way every record is on its list. -/
theorem Kept.indexed {n : Net D} (h : Kept n) (hquiet : Quiet n) : Indexed n.server := by
  obtain ⟨hreads, houtbox⟩ := hquiet
  have hlisted : ∀ t u, Belongs n.server t u → ∃ l, serverList n.server t = some l ∧ u ∈ l := by
    intro t u hu
    rcases h.covered t u (Or.inl hu) with hl | ⟨d, l, hl, -⟩ | ⟨a, ha, -⟩
    · exact hl
    · rw [houtbox d] at hl
      cases hl
    · rw [hreads] at ha
      cases ha
  constructor
  · intro m b hm
    obtain ⟨l, hl, hmem⟩ := hlisted (.measurements b) m hm
    obtain ⟨r, hr, rfl⟩ := Option.map_eq_some_iff.mp hl
    exact ⟨r, hr, hmem⟩
  · intro d b hd
    rw [h.dresses d] at hd
    cases hd
  · intro b s hb
    obtain ⟨l, hl, hmem⟩ := hlisted (.brides s) b hb
    obtain ⟨r, hr, rfl⟩ := Option.map_eq_some_iff.mp hl
    exact ⟨r, hr, hmem⟩
  · intro c s hc
    rw [h.contracts c] at hc
    cases hc

variable {n n' : Net D} {d : D}

theorem kept_observe (h : Kept n) (d : D) (a : ListAppend) : Kept (n.observe d a) where
  whole := h.whole
  grounded := h.grounded
  taken p hp value l hvalue hl := by
    cases List.mem_append.mp hp with
    | inl hp => exact h.taken p hp value l hvalue hl
    | inr hp =>
      obtain rfl := List.mem_singleton.mp hp
      cases hvalue
  covered t u hu := by
    rcases h.covered t u hu with hl | hl | ⟨b, hb, hu⟩
    · exact Or.inl hl
    · exact Or.inr (Or.inl hl)
    · exact Or.inr (Or.inr ⟨b, by simpa [Net.observe] using Or.inl hb, hu⟩)
  queued := h.queued
  dresses := h.dresses
  contracts := h.contracts

theorem kept_allocate (h : Kept n) (newKeys : List String) : Kept (n.allocate newKeys) :=
  ⟨h.whole, h.grounded, h.taken, h.covered, h.queued, h.dresses, h.contracts⟩

/-- What a device sees, its settled store has. -/
theorem recorded_settled_of_view {k : Nat} (h : Recorded (n.view d k) t) :
    Recorded (n.settled d) t := by
  have hsplit := List.take_append_drop k (n.outbox d)
  rw [Net.settled, ← hsplit, List.foldl_append]
  exact recorded_foldl_iff.mpr (Or.inl h)

/-- A read that takes a record has it in its own view. -/
theorem kept_take {i k : Nat} (h : Kept n) (hstep : n.take i k = some n') : Kept n' := by
  obtain ⟨d, a, hi, rfl⟩ := Net.take_eq hstep
  refine ⟨h.whole, h.grounded, ?_, ?_, h.queued, h.dresses, h.contracts⟩
  · refine forall_mem_set h.taken fun value l hvalue hl => ?_
    cases hvalue
    have hview : Recorded (n.view d k) a.target := recorded_of_decode hl
    exact recorded_settled_of_view hview
  · intro t u hu
    have hcovered := h.covered t u hu
    have hsame := map_set_of_eq (fun p : PendingRead D => p.append)
      (b := ⟨d, a, some ((n.view d k).sub a.target.node)⟩) hi rfl
    simp only [Covered] at hcovered ⊢
    rwa [hsame]

/-- A read may go once lists on their way have what it was to add. -/
theorem kept_eraseRead {i : Nat} {p : PendingRead D} (h : Kept n) (hi : n.reads[i]? = some p)
    (hnew : ∀ u ∈ p.append.new, ∃ d l, Write.list p.append.target l ∈ n.outbox d ∧ u ∈ l) :
    Kept { n with reads := n.reads.eraseIdx i } where
  whole := h.whole
  grounded := h.grounded
  taken q hq := h.taken q (List.mem_of_mem_eraseIdx hq)
  covered t u hu := by
    rcases h.covered t u hu with hl | hl | ⟨a, ha, htarget, hu⟩
    · exact Or.inl hl
    · exact Or.inr (Or.inl hl)
    · obtain ⟨hlt, hget⟩ := List.getElem?_eq_some_iff.mp hi
      have hperm := (List.getElem_cons_eraseIdx_perm hlt).map fun p : PendingRead D => p.append
      rw [hget] at hperm
      cases List.mem_cons.mp (hperm.mem_iff.mpr ha) with
      | inl hp =>
        subst hp
        obtain ⟨d, l, hl, hul⟩ := hnew u hu
        exact Or.inr (Or.inl ⟨d, l, htarget ▸ hl, hul⟩)
      | inr ha => exact Or.inr (Or.inr ⟨a, ha, htarget, hu⟩)
  queued := h.queued
  dresses := h.dresses
  contracts := h.contracts

variable [DecidableEq D]

theorem covered_setValues (h : Covered n t u) (ws : List Write) :
    Covered (n.setValues d ws) t u := by
  rcases h with hl | ⟨d', l, hl, hu⟩ | ha
  · exact Or.inl hl
  · exact Or.inr (Or.inl ⟨d', l, Net.mem_outbox_setValues_of_mem hl, hu⟩)
  · exact Or.inr (Or.inr ha)

theorem grounded_setValues (h : ∀ d, GroundedAll n.server (n.outbox d))
    (hws : GroundedAll (n.settled d) ws) :
    ∀ d', GroundedAll n.server ((n.setValues d ws).outbox d') := by
  intro d'
  simp only [Net.setValues]
  by_cases hd : d' = d
  · subst hd
    rw [Function.update_self]
    exact groundedAll_append.mpr ⟨h d', hws⟩
  · rw [Function.update_of_ne hd]
    exact h d'

theorem recorded_settled_setValues {d' : D} (h : Recorded (n.settled d') t) :
    Recorded ((n.setValues d ws).settled d') t := by
  by_cases hd : d' = d
  · rw [hd, Net.settled_setValues]
    exact recorded_foldl_iff.mpr (Or.inl (hd ▸ h))
  · simpa only [Net.settled, Net.setValues, Function.update_of_ne hd] using h

theorem grounded_deliver (h : ∀ d, GroundedAll n.server (n.outbox d))
    (hstep : n.deliver d = some n') : ∀ d', GroundedAll n'.server (n'.outbox d') := by
  obtain ⟨w, ws, hd, rfl⟩ := Net.deliver_eq hstep
  have hfirst : GroundedAll n.server (w :: ws) := hd ▸ h d
  intro d'
  by_cases hd' : d' = d
  · subst hd'
    simpa using hfirst.2
  · simpa [hd'] using
      groundedAll_mono (fun t ht => recorded_apply_iff.mpr (Or.inl ht)) (h d')

theorem recorded_settled_deliver {d' : D} (h : Recorded (n.settled d') t)
    (hstep : n.deliver d = some n') : Recorded (n'.settled d') t := by
  by_cases hd' : d' = d
  · rw [hd', Net.settled_deliver hstep]
    exact hd' ▸ h
  · obtain ⟨w, ws, hd, rfl⟩ := Net.deliver_eq hstep
    simp only [Net.settled, Function.update_of_ne hd']
    exact recorded_foldl_iff.mpr ((recorded_foldl_iff.mp h).imp_left fun ht =>
      recorded_apply_iff.mpr (Or.inl ht))

/-- The children among new writes have to be covered already. -/
theorem kept_setValues (h : Kept n) (hgrounded : GroundedAll (n.settled d) ws)
    (hqueued : ∀ w ∈ ws, Unsewn w)
    (hcovered : ∀ w ∈ ws, ∀ t u, child w = some (t, u) → Covered n t u) :
    Kept (n.setValues d ws) where
  whole := h.whole
  grounded := grounded_setValues h.grounded hgrounded
  taken p hp value l hvalue hl := recorded_settled_setValues (h.taken p hp value l hvalue hl)
  covered t u hu := by
    apply covered_setValues
    rcases hu with hu | ⟨d', w, hw, hu⟩
    · exact h.covered t u (Or.inl hu)
    · cases Net.mem_outbox_setValues hw with
      | inl hw => exact h.covered t u (Or.inr ⟨d', w, hw, hu⟩)
      | inr hw => exact hcovered w hw t u hu
  queued d' w hw := by
    cases Net.mem_outbox_setValues hw with
    | inl hw => exact h.queued d' w hw
    | inr hw => exact hqueued w hw
  dresses := h.dresses
  contracts := h.contracts

theorem kept_setValue (h : Kept n) (hgrounded : Grounded (n.settled d) w) (hunsewn : Unsewn w)
    (hcovered : ∀ t u, child w = some (t, u) → Covered n t u) : Kept (n.setValues d [w]) := by
  refine kept_setValues h ⟨hgrounded, trivial⟩ ?_ ?_
  · intro w' hw'
    obtain rfl := List.mem_singleton.mp hw'
    exact hunsewn
  · intro w' hw'
    obtain rfl := List.mem_singleton.mp hw'
    exact hcovered

/-- The callback of a record that decodes trades its read for a list. -/
theorem kept_callback {i : Nat} (h : Kept n)
    (hdecodes : ∀ p ∈ n.reads[i]?, ∀ value ∈ p.value, (p.append.target.decode value).isSome)
    (hstep : n.callback i = some n') : Kept n' := by
  obtain ⟨d, a, value, hi, rfl⟩ := Net.callback_eq hstep
  obtain ⟨seen, hseen⟩ := Option.isSome_iff_exists.mp (hdecodes _ hi value rfl)
  have hcallback : a.callback value = some (.list a.target (seen ++ a.new)) := by
    simp only [ListAppend.callback, hseen]
  have hrecorded : Recorded (n.settled d) a.target :=
    h.taken _ (List.mem_of_getElem? hi) value seen rfl hseen
  rw [hcallback]
  have hqueued : Kept (n.setValues d [.list a.target (seen ++ a.new)]) := by
    refine kept_setValue h ⟨hrecorded, ?_⟩ trivial fun t u hu => by cases hu
    simp [decode_ne_nil hseen]
  refine kept_eraseRead hqueued hi fun u hu => ⟨d, _, ?_, List.mem_append_right seen hu⟩
  exact Net.mem_outbox_setValues_self (List.mem_singleton_self _)

theorem whole_apply (hwhole : ∀ t, Recorded db t → ∃ l, serverList db t = some l)
    (hw : Grounded db w) (ht : Recorded (w.apply db) t) :
    ∃ l, serverList (w.apply db) t = some l := by
  by_cases hlisted : ∃ l, listed w = some (t, l)
  · obtain ⟨l, hl⟩ := hlisted
    exact ⟨l, serverList_of_listed hw (hwhole t) hl⟩
  · have hnone : ∀ l, listed w ≠ some (t, l) := fun l hl => hlisted ⟨l, hl⟩
    rw [serverList_of_not_listed hnone]
    cases recorded_apply_iff.mp ht with
    | inl ht => exact hwhole t ht
    | inr hrecords => exact absurd (listed_of_records hrecords) hlisted

/-- A listed uid stays on the list when a write that keeps it arrives. -/
theorem mem_serverList_apply (hwhole : ∀ t, Recorded db t → ∃ l, serverList db t = some l)
    (hw : Grounded db w) (hkeeps : Keeps db w) (hl : serverList db t = some l) (hu : u ∈ l) :
    ∃ l', serverList (w.apply db) t = some l' ∧ u ∈ l' := by
  by_cases hlisted : ∃ l', listed w = some (t, l')
  · obtain ⟨l', hl'⟩ := hlisted
    refine ⟨l', serverList_of_listed hw (hwhole t) hl', hkeeps (t, l') hl' u ?_⟩
    rw [hl]
    exact hu
  · exact ⟨l, (serverList_of_not_listed fun l' hl' => hlisted ⟨l', hl'⟩).trans hl, hu⟩

theorem dresses_apply (hw : Unsewn w) (u : String) :
    textAt (w.apply db) ["dresses", u] "brideUID" = textAt db ["dresses", u] "brideUID" := by
  apply textAt_apply_ne
  cases w with
  | dress => exact absurd hw id
  | list t l => cases t <;> simp [Write.node, ListTarget.node]
  | _ => simp [Write.node]

theorem contracts_apply (hw : Unsewn w) (c : String) :
    textAt (w.apply db) ["contracts", c] "specialistUID" =
      textAt db ["contracts", c] "specialistUID" := by
  by_cases hnode : w.node = ["contracts", c]
  · cases w with
    | contract => exact absurd hw id
    | list t l =>
      obtain rfl : t = .alterations c := ListTarget.node_injective hnode
      exact textAt_apply_list db (.alterations c) l (by simp [ListTarget.field])
    | _ => simp [Write.node] at hnode
  · exact textAt_apply_ne hnode

theorem hasChild_deliver (hstep : n.deliver d = some n') (h : HasChild n' t u) :
    HasChild n t u := by
  obtain ⟨w, ws, hd, rfl⟩ := Net.deliver_eq hstep
  cases h with
  | inl h => exact (belongs_apply h).imp_right fun h => ⟨d, w, by simp [hd], h⟩
  | inr h =>
    obtain ⟨d', w', hw', h⟩ := h
    exact Or.inr ⟨d', w', Net.mem_outbox_deliver hd hw', h⟩

/-- A write that arrives keeps what is listed, and an arriving list is the list. -/
theorem kept_deliver (h : Kept n) (hkeeps : ∀ w ∈ (n.outbox d).head?, Keeps n.server w)
    (hstep : n.deliver d = some n') : Kept n' := by
  have hchild : ∀ t u, HasChild n' t u → HasChild n t u := fun t u => hasChild_deliver hstep
  have hgrounded := grounded_deliver h.grounded hstep
  have htaken : ∀ p ∈ n.reads, ∀ value l, p.value = some value →
      p.append.target.decode value = some l → Recorded (n'.settled p.device) p.append.target :=
    fun p hp value l hvalue hl => recorded_settled_deliver (h.taken p hp value l hvalue hl) hstep
  obtain ⟨w, ws, hd, rfl⟩ := Net.deliver_eq hstep
  have hfirst : GroundedAll n.server (w :: ws) := hd ▸ h.grounded d
  have hunsewn : Unsewn w := h.queued d w (by simp [hd])
  constructor
  · exact fun t ht => whole_apply h.whole hfirst.1 ht
  · exact hgrounded
  · exact htaken
  · intro t u hu
    rcases h.covered t u (hchild t u hu) with ⟨l, hl, hul⟩ | ⟨d', l, hl, hul⟩ | ha
    · exact Or.inl (mem_serverList_apply h.whole hfirst.1 (hkeeps w (by simp [hd])) hl hul)
    · cases Net.mem_outbox_or_first hd hl with
      | inl hw => exact Or.inl ⟨l, serverList_of_listed hfirst.1 (h.whole t) (hw ▸ rfl), hul⟩
      | inr hl => exact Or.inr (Or.inl ⟨d', l, hl, hul⟩)
    · exact Or.inr (Or.inr ha)
  · exact fun d' w' hw' => h.queued d' w' (Net.mem_outbox_deliver hd hw')
  · exact fun u => (dresses_apply hunsewn u).trans (h.dresses u)
  · exact fun c => (contracts_apply hunsewn c).trans (h.contracts c)

/-- No contract is created, every append reads a record that decodes below a key
that is not empty, and no write that arrives drops a uid of the list it replaces. -/
def Indexing (s : World D) : Event D → Prop
  | .app (.act _ (.createConfirmed _ _)) => False
  | .app (.callback i) =>
      ∀ p ∈ s.net.reads[i]?, ∀ value ∈ p.value, (p.append.target.decode value).isSome
  | .app (.deliver d) => ∀ w ∈ (s.net.outbox d).head?, Keeps s.net.server w
  | .addBride _ vc _ => vc.currentUserUID ≠ ""
  | .addMeasurement _ vc _ _ => vc.selectedBride ≠ ""
  | _ => True

instance (s : World D) (e : Event D) : Decidable (Indexing s e) := match e with
  | .app (.act _ (.createConfirmed _ _)) => isFalse id
  | .app (.callback i) => inferInstanceAs (Decidable
      (∀ p ∈ s.net.reads[i]?, ∀ value ∈ p.value, (p.append.target.decode value).isSome))
  | .app (.deliver d) =>
      inferInstanceAs (Decidable (∀ w ∈ (s.net.outbox d).head?, Keeps s.net.server w))
  | .addBride _ vc _ => inferInstanceAs (Decidable (vc.currentUserUID ≠ ""))
  | .addMeasurement _ vc _ _ => inferInstanceAs (Decidable (vc.selectedBride ≠ ""))
  | .app (.act _ (.create _)) | .app (.act _ (.authState _ _)) | .app (.act _ .signOutConfirmed)
  | .app (.act _ (.openAdd _)) | .app (.act _ (.add _)) | .app (.act _ (.addConfirmed _))
  | .app (.act _ (.load _ _)) | .app (.act _ (.openEdit _)) | .app (.act _ (.edit _))
  | .app (.act _ .editConfirmed) | .app (.act _ .back) | .app (.take _ _)
  | .createAccount _ _ _ => isTrue trivial

variable {s s' : World D} {e : Event D}

theorem kept_alteration (h : Kept n) (u : String) (r : AlterationStruct) :
    Kept (n.setValues d [.alteration u r]) :=
  kept_setValue h trivial trivial fun t u hu => by cases hu

theorem kept_app {e : App.Event D} (h : Kept s.net) (hindexing : Indexing s (.app e))
    (hstep : App.Steps s e s') : Kept s'.net := by
  cases hstep with
  | screens | load | editTrap => exact h
  | created => exact absurd hindexing id
  | addTrap d key => exact kept_alteration (kept_allocate h [key]) key _
  | added d key => exact kept_observe (kept_alteration (kept_allocate h [key]) key _) d _
  | edited d vc w hedit hpresented hw =>
    obtain ⟨r, rfl, -⟩ := EditAlterationVC.confirmHandler_eq hw
    exact kept_alteration h r.uid r
  | take i k net hnet => exact kept_take h hnet
  | callback i net hnet => exact kept_callback h hindexing hnet
  | deliver d net hnet => exact kept_deliver h hindexing hnet

/-- A record joins the queue together with the read that is to list it. -/
theorem kept_addRecord {key : String} {a : Addition} (h : Kept s.net)
    (hparent : parent a.append.target ≠ "") (hgrounded : ∀ db, Grounded db a.write)
    (hunsewn : Unsewn a.write)
    (hchild : ∀ t u, child a.write = some (t, u) → a.append.target = t ∧ u ∈ a.append.new) :
    Kept (addRecord s d key a).net := by
  have hread : Kept ((s.net.allocate [key]).observe d a.append) :=
    kept_observe (kept_allocate h [key]) d a.append
  simp only [addRecord, if_neg hparent]
  refine kept_setValue hread (hgrounded _) hunsewn fun t u hu => ?_
  exact Or.inr (Or.inr ⟨a.append, by simp [Net.observe], hchild t u hu⟩)

theorem kept_step (h : Kept s.net) (hindexing : Indexing s e) (hstep : RecordScreens.Steps s e s') :
    Kept s'.net := by
  cases hstep with
  | app e s' hstep => exact kept_app h hindexing hstep
  | welcomed d vc uid v hfresh =>
    exact kept_setValue (kept_allocate h [uid]) ⟨by simp, by simp⟩ trivial
      fun t u hu => by cases hu
  | bride d vc key hfresh =>
    refine kept_addRecord h hindexing (fun _ => ⟨by simp, by simp⟩) trivial fun t u hu => ?_
    cases hu
    exact ⟨rfl, List.mem_singleton_self key⟩
  | measurement d vc key now r hfresh hbride =>
    refine kept_addRecord h hindexing (fun _ => trivial) trivial fun t u hu => ?_
    cases hu
    exact ⟨by rw [hbride]; rfl, List.mem_singleton_self key⟩
  | trap d => exact h

/-- Where no contract is created and no append fails or is overtaken, every
record is on its list as soon as nothing is on its way. -/
theorem indexed_of_indexing {es : List (Event D)} (hstart : Starts s)
    (hrun : run RecordScreens.step s es = some s')
    (hindexing : Along RecordScreens.step Indexing s es) (hquiet : Quiet s'.net) :
    Indexed s'.net.server := by
  have hkept : Kept s'.net :=
    run_invariant_along (fun t : World D => Kept t.net)
      (fun _ _ _ h hi hstep => kept_step h hi (RecordScreens.steps_of_step hstep))
      (hstart.1 ▸ kept_initial) hindexing hrun
  exact hkept.indexed hquiet

/-- The writes of brides carry no dress, and no list of dresses is ever extended. -/
structure NoDresses (n : Net D) : Prop where
  queued : ∀ d, ∀ w ∈ n.outbox d, ∀ b r, w = .bride b r → r.dresses = ["-1"]
  stored : ∀ b l, asStrings ((n.server.sub ["brides", b]).sub ["dresses"]) = some l → l = ["-1"]

theorem noDresses_setValues (h : NoDresses n)
    (hws : ∀ w ∈ ws, ∀ b r, w = .bride b r → r.dresses = ["-1"]) :
    NoDresses (n.setValues d ws) := by
  refine ⟨fun d' w hw => ?_, h.stored⟩
  cases Net.mem_outbox_setValues hw with
  | inl hw => exact h.queued d' w hw
  | inr hw => exact hws w hw

theorem noDresses_setValue (h : NoDresses n) (hw : ∀ b r, w = .bride b r → r.dresses = ["-1"]) :
    NoDresses (n.setValues d [w]) := by
  refine noDresses_setValues h fun w' hw' => ?_
  obtain rfl := List.mem_singleton.mp hw'
  exact hw

theorem noDresses_alteration (h : NoDresses n) (u : String) (r : AlterationStruct) :
    NoDresses (n.setValues d [.alteration u r]) :=
  noDresses_setValue h fun _ _ hw => by cases hw

theorem noDresses_deliver (h : NoDresses n) (hstep : n.deliver d = some n') : NoDresses n' := by
  obtain ⟨w, ws, hd, rfl⟩ := Net.deliver_eq hstep
  refine ⟨fun d' w' hw' => h.queued d' w' (Net.mem_outbox_deliver hd hw'), fun b l hl => ?_⟩
  by_cases hnode : w.node = ["brides", b]
  · cases w with
    | bride b' r =>
      obtain rfl : b' = b := by simpa [Write.node] using hnode
      have hr := h.queued d (.bride b' r) (by simp [hd]) b' r rfl
      simp only [Write.apply, Write.path, Write.node, Write.value, sub_setValue_self, Bride.encode,
        sub_keyed, hr] at hl
      exact (Option.some.inj hl).symm
    | list t l' =>
      obtain rfl : t = .measurements b := ListTarget.node_injective hnode
      have hsub := sub_apply_list n.server (.measurements b) l'
      simp only [ListTarget.node, ListTarget.field] at hsub
      simp only [hsub] at hl
      rw [sub_setValue_field (by decide)] at hl
      exact h.stored b l hl
    | _ => simp [Write.node] at hnode
  · simp only [sub_apply_ne w n.server hnode] at hl
    exact h.stored b l hl

theorem noDresses_app {e : App.Event D} (h : NoDresses s.net) (hstep : App.Steps s e s') :
    NoDresses s'.net := by
  cases hstep with
  | screens | load | editTrap => exact h
  | created d keys now hpresented hfresh =>
    have hallocated : NoDresses (s.net.allocate keys.toList) := ⟨h.queued, h.stored⟩
    refine noDresses_setValues hallocated fun w hw b r hr => ?_
    subst hr
    simp only [CreateContractVC.createdWrites, CreateContractVC.makeDress, addDressToFBDB,
      CreateContractVC.makeContract, addContractToFBDB, addBrideToFBDB, addMeasurementToFBDB,
      List.mem_cons, List.not_mem_nil, reduceCtorEq, or_false, false_or, Write.bride.injEq] at hw
    rw [hw.2]
  | addTrap d key =>
    have hallocated : NoDresses (s.net.allocate [key]) := ⟨h.queued, h.stored⟩
    exact noDresses_alteration hallocated key _
  | added d key vc =>
    have hallocated : NoDresses (s.net.allocate [key]) := ⟨h.queued, h.stored⟩
    have hwritten := noDresses_alteration (d := d) hallocated key
      { vc.myAlterationStruct with
        contractUID := (s.device d).statics.contract.uid
        uid := key }
    exact ⟨hwritten.queued, hwritten.stored⟩
  | edited d vc w hedit hpresented hw =>
    obtain ⟨r, rfl, -⟩ := EditAlterationVC.confirmHandler_eq hw
    exact noDresses_alteration h r.uid r
  | take i k net hnet =>
    obtain ⟨d, a, -, rfl⟩ := Net.take_eq hnet
    exact ⟨h.queued, h.stored⟩
  | callback i net hnet =>
    obtain ⟨d, a, value, -, rfl⟩ := Net.callback_eq hnet
    have herased : NoDresses { s.net with reads := s.net.reads.eraseIdx i } :=
      ⟨h.queued, h.stored⟩
    refine noDresses_setValues herased fun w hw b r hr => ?_
    obtain ⟨seen, -, rfl⟩ := ListAppend.callback_eq (Option.mem_toList.mp hw)
    cases hr
  | deliver d net hnet => exact noDresses_deliver h hnet

theorem noDresses_addRecord {key : String} {a : Addition} (h : NoDresses s.net)
    (hw : ∀ b r, a.write = .bride b r → r.dresses = ["-1"]) :
    NoDresses (addRecord s d key a).net := by
  have hallocated : NoDresses (s.net.allocate [key]) := ⟨h.queued, h.stored⟩
  have hwritten := noDresses_setValue (d := d) hallocated hw
  simp only [addRecord]
  split
  · exact hwritten
  · exact ⟨hwritten.queued, hwritten.stored⟩

theorem noDresses_step (h : NoDresses s.net) (hstep : RecordScreens.Steps s e s') :
    NoDresses s'.net := by
  cases hstep with
  | app e s' hstep => exact noDresses_app h hstep
  | welcomed d vc uid v hfresh =>
    have hallocated : NoDresses (s.net.allocate [uid]) := ⟨h.queued, h.stored⟩
    exact noDresses_setValue hallocated fun _ _ hw => by cases hw
  | bride d vc key hfresh =>
    refine noDresses_addRecord h fun b r hr => ?_
    cases hr
    rfl
  | measurement d vc key now r hfresh hbride =>
    exact noDresses_addRecord h fun _ _ hw => by cases hw
  | trap d => exact h

/-- A stored dress is on no list, whatever happens after. -/
theorem not_indexed_of_dress (h : Reachable RecordScreens.step Starts s) {k b : String}
    (hstored : textAt s.net.server ["dresses", k] "brideUID" = some b) (hk : k ≠ "-1") :
    ¬ Indexed s.net.server := by
  have hstart : ∀ t : World D, Starts t → NoDresses t.net := by
    intro t ht
    rw [ht.1]
    exact ⟨fun _ _ hw => (by cases hw), fun _ _ hl => (by cases hl)⟩
  have hs : NoDresses s.net :=
    reachable_invariant (fun t : World D => NoDresses t.net) hstart
      (fun _ _ _ hn hstep => noDresses_step hn (RecordScreens.steps_of_step hstep)) h
  intro hindexed
  obtain ⟨r, hr, hmem⟩ := hindexed.dresses k b hstored
  have hdresses :
      asStrings ((s.net.server.sub ["brides", b]).sub ["dresses"]) = some r.dresses := by
    simp only [brideAt, Bride.decode, Option.bind_eq_bind, Option.bind_eq_some_iff,
      Option.pure_def, Option.some.injEq] at hr
    obtain ⟨first, -, last, -, email, -, uid, -, specialist, -, measurements, -, dresses, hd,
      rfl⟩ := hr
    exact hd
  rw [hs.stored b _ hdresses] at hmem
  exact hk (List.mem_singleton.mp hmem)

/-- Sue signs up, adds Ann and takes a measurement, each once the last is through. -/
def annMeasured : List (Event Unit) := [
  .createAccount () ⟨"Sue", "Seam", "sue@shop"⟩ "s", .app (.deliver ()),
  .addBride () ⟨"s", "Ann", "Lace", "ann@home"⟩ "b", .app (.deliver ()),
  .app (.take 0 0), .app (.callback 0), .app (.deliver ()),
  .addMeasurement () ⟨"b", "36", "26", "", some "35", some "25", some "38"⟩ "m" 0,
  .app (.deliver ()), .app (.take 0 0), .app (.callback 0), .app (.deliver ())]

theorem indexed_annMeasured : ∃ s,
    run RecordScreens.step Integrity.justOpened annMeasured = some s ∧
    textAt s.net.server ["measurements", "m"] "bride" = some "b" ∧ Indexed s.net.server := by
  have hindexing : Along RecordScreens.step Indexing Integrity.justOpened annMeasured := by
    decide +kernel
  have hdone : ∃ s ∈ run RecordScreens.step Integrity.justOpened annMeasured,
      s.net.reads.length = 0 ∧ s.net.outbox () = [] ∧
      textAt s.net.server ["measurements", "m"] "bride" = some "b" := by
    decide +kernel
  obtain ⟨s, hs, hreads, houtbox, hbride⟩ := hdone
  refine ⟨s, hs, hbride, indexed_of_indexing Integrity.starts_justOpened hs hindexing ?_⟩
  exact ⟨List.length_eq_zero_iff.mp hreads, fun _ => houtbox⟩

/-- Sue signs up and creates Ann's contract, and all of it reaches the server. -/
def annContracted : List (Event Unit) :=
  [.createAccount () ⟨"Sue", "Seam", "sue@shop"⟩ "s", .app (.deliver ()),
    .app (.act () (.authState "s" (some "Sue Seam")))] ++ Integrity.annCreated.map .app

/-- One creation, with nothing else under way, leaves its records off their lists. -/
theorem not_indexed_annContracted : ∃ s,
    run RecordScreens.step Integrity.justOpened annContracted = some s ∧ Quiet s.net ∧
    (measurementAt s.net.server "m").map (·.bride) = some "b" ∧
    (brideAt s.net.server "b").map (fun r => (r.specialist, r.measurements)) =
      some ("s", ["-1"]) ∧
    (contractAt s.net.server "c").map (·.specialistUID) = some "s" ∧
    (specialistAt s.net.server "s").map (fun r => (r.brides, r.contracts)) =
      some (["-1"], ["-1"]) ∧
    ¬ Indexed s.net.server := by
  have hdone : ∃ s ∈ run RecordScreens.step Integrity.justOpened annContracted,
      s.net.reads.length = 0 ∧ s.net.outbox () = [] ∧
      textAt s.net.server ["measurements", "m"] "bride" = some "b" ∧
      (measurementAt s.net.server "m").map (·.bride) = some "b" ∧
      (brideAt s.net.server "b").map (fun r => (r.specialist, r.measurements)) =
        some ("s", ["-1"]) ∧
      (contractAt s.net.server "c").map (·.specialistUID) = some "s" ∧
      (specialistAt s.net.server "s").map (fun r => (r.brides, r.contracts)) =
        some (["-1"], ["-1"]) := by
    decide +kernel
  obtain ⟨s, hs, hreads, houtbox, hnamed, hmeasured, hbride, hcontract, hspecialist⟩ := hdone
  refine ⟨s, hs, ⟨List.length_eq_zero_iff.mp hreads, fun _ => houtbox⟩, hmeasured, hbride,
    hcontract, hspecialist, fun hindexed => ?_⟩
  obtain ⟨r, hr, hmem⟩ := hindexed.measurements "m" "b" hnamed
  rw [hr] at hbride
  obtain ⟨-, hlist⟩ := Prod.mk.inj (Option.some.inj hbride)
  rw [hlist] at hmem
  exact absurd hmem (by decide)

end Pincushion.Indices
