import Pincushion.App
import Pincushion.NetworkValues
import Mathlib.Data.List.Nodup

/-! Referential integrity of contracts and alterations. Every alteration key
belongs to one contract from the moment it is allocated; the reads and writes on
their way are held to the same rules as the server. -/
namespace Pincushion.Integrity
open KeyTree Structs Singletons FirebaseHelpers AlterationScreens CreateContract Network Runs App
variable {D : Type*}

/-- A contract's list as the app may write it: after the sentinel, its own keys. -/
def OwnedList (owner : String → String) (keys : List String) (c : String) (l : List String) :
    Prop :=
  ∃ us, l = "-1" :: us ∧ us.Nodup ∧ ∀ u ∈ us, owner u = c ∧ u ∈ keys

/-- Every value anywhere respects the contract that each key belongs to. -/
structure Owned (owner : String → String) (n : Net D) : Prop where
  record : ∀ u r, n.RecordValue u r → r.uid = u ∧ r.contractUID = owner u ∧ u ∈ n.keys
  list : ∀ c l, n.ListValue c l → OwnedList owner n.keys c l
  pending : ∀ p ∈ n.reads, ∃ c u, p.append = updateAlterationsForContract c u ∧ owner u = c ∧
    u ∈ n.keys ∧ ∀ c' l, n.ListValue c' l → u ∉ l.tail
  apart : (n.reads.flatMap (·.append.new)).Nodup

variable {owner : String → String} {n n' : Net D} {d : D} {i k : Nat} {c u : String}

theorem owned_initial : Owned owner (Net.initial : Net D) := by
  constructor
  · rintro u r (h | ⟨d, w, hw, -⟩)
    · cases h
    · cases hw
  · rintro c l (h | ⟨d, w, hw, -⟩ | ⟨p, hp, -⟩)
    · cases h
    · cases hw
    · cases hp
  · intro p hp
    cases hp
  · exact List.nodup_nil

theorem owned_allocate (h : Owned owner n) (newKeys : List String) :
    Owned owner (n.allocate newKeys) := by
  have hkeys : ∀ u ∈ n.keys, u ∈ n.keys ++ newKeys := fun u hu => List.mem_append_left _ hu
  constructor
  · intro u r hr
    obtain ⟨huid, howner, hu⟩ := h.record u r hr
    exact ⟨huid, howner, hkeys u hu⟩
  · intro c l hl
    obtain ⟨us, hus, hnodup, hown⟩ := h.list c l hl
    exact ⟨us, hus, hnodup, fun u hu => ⟨(hown u hu).1, hkeys u (hown u hu).2⟩⟩
  · intro p hp
    obtain ⟨c, u, ha, hown, hu, hun⟩ := h.pending p hp
    exact ⟨c, u, ha, hown, hkeys u hu, hun⟩
  · exact h.apart

/-- A key that nobody has yet can be given to any contract. -/
theorem owned_update (h : Owned owner n) (hu : u ∉ n.keys) (c : String) :
    Owned (Function.update owner u c) n := by
  have hold : ∀ v ∈ n.keys, Function.update owner u c v = owner v := by
    intro v hv
    exact Function.update_of_ne (fun heq : v = u => hu (heq ▸ hv)) _ _
  constructor
  · intro v r hr
    obtain ⟨huid, howner, hv⟩ := h.record v r hr
    exact ⟨huid, by rw [hold v hv, howner], hv⟩
  · intro c' l hl
    obtain ⟨us, hus, hnodup, hown⟩ := h.list c' l hl
    exact ⟨us, hus, hnodup,
      fun v hv => ⟨by rw [hold v (hown v hv).2, (hown v hv).1], (hown v hv).2⟩⟩
  · intro p hp
    obtain ⟨c', v, ha, hown, hv, hun⟩ := h.pending p hp
    exact ⟨c', v, ha, by rw [hold v hv, hown], hv, hun⟩
  · exact h.apart

theorem owned_observe (h : Owned owner n) (hown : owner u = c) (hu : u ∈ n.keys)
    (hun : ∀ c' l, n.ListValue c' l → u ∉ l.tail)
    (hnew : ∀ p ∈ n.reads, u ∉ p.append.new) :
    Owned owner (n.observe d (updateAlterationsForContract c u)) := by
  have hlist : ∀ c' l, (n.observe d (updateAlterationsForContract c u)).ListValue c' l →
      n.ListValue c' l := fun _ _ => Net.listValue_observe
  constructor
  · exact h.record
  · exact fun c' l hl => h.list c' l (hlist c' l hl)
  · intro p hp
    cases List.mem_append.mp hp with
    | inl hp =>
      obtain ⟨c', v, ha, hown', hv, hun'⟩ := h.pending p hp
      exact ⟨c', v, ha, hown', hv, fun c' l hl => hun' c' l (hlist c' l hl)⟩
    | inr hp =>
      obtain rfl := List.mem_singleton.mp hp
      exact ⟨c, u, rfl, hown, hu, fun c' l hl => hun c' l (hlist c' l hl)⟩
  · have hapart := h.apart
    simp only [Net.observe, List.flatMap_append, List.flatMap_cons, List.flatMap_nil,
      List.append_nil, updateAlterationsForContract]
    refine List.Nodup.append hapart (List.nodup_singleton u) ?_
    intro v hv hvu
    obtain rfl := List.mem_singleton.mp hvu
    obtain ⟨p, hp, hmem⟩ := List.mem_flatMap.mp hv
    exact hnew p hp hmem

theorem owned_take (h : Owned owner n) (hstep : n.take i k = some n') : Owned owner n' := by
  have hlist := fun c l => Net.listValue_take (c := c) (l := l) hstep
  have hreads := fun p => Net.mem_reads_take (p := p) hstep
  obtain ⟨d, a, hi, rfl⟩ := Net.take_eq hstep
  constructor
  · exact h.record
  · exact fun c l hl => h.list c l (hlist c l hl)
  · intro p hp
    obtain ⟨q, hq, happend⟩ := hreads p hp
    obtain ⟨c, u, ha, hown, hu, hun⟩ := h.pending q hq
    exact ⟨c, u, happend ▸ ha, hown, hu, fun c' l hl => hun c' l (hlist c' l hl)⟩
  · have hnews := map_set_of_eq (fun p : PendingRead D => p.append.new)
      (b := ⟨d, a, some ((n.view d k).sub a.target.node)⟩) hi rfl
    have hapart := h.apart
    rwa [List.flatMap_def, ← hnews, ← List.flatMap_def] at hapart

def Stored (db : Node) (u : String) : Prop := ∃ r, alterationAt db u = some r

def Recorded (ws : List Write) (u : String) : Prop := ∃ w ∈ ws, ∃ r, w.recordFor u = some r

/-- By the time a list is written, the records of all its keys are. -/
def Backed : (String → Prop) → List Write → Prop
  | _, [] => True
  | has, w :: ws => (∀ c l, w.listFor c = some l → ∀ u ∈ l.tail, has u) ∧
      Backed (fun u => has u ∨ ∃ r, w.recordFor u = some r) ws

theorem recorded_cons {w : Write} {ws : List Write} :
    Recorded (w :: ws) u ↔ (∃ r, w.recordFor u = some r) ∨ Recorded ws u := by
  simp only [Recorded, List.mem_cons, exists_eq_or_imp]

theorem Backed.mono {has has' : String → Prop} {ws : List Write} (h : Backed has ws)
    (hle : ∀ u, has u → has' u) : Backed has' ws := by
  induction ws generalizing has has' with
  | nil => trivial
  | cons w ws ih =>
    exact ⟨fun c l hl u hu => hle u (h.1 c l hl u hu),
      ih h.2 fun u hu => hu.imp (hle u) id⟩

theorem Backed.append {has : String → Prop} {ws ws' : List Write} (h : Backed has ws)
    (h' : Backed (fun u => has u ∨ Recorded ws u) ws') : Backed has (ws ++ ws') := by
  induction ws generalizing has with
  | nil =>
    refine h'.mono fun u hu => hu.resolve_right ?_
    rintro ⟨w, hw, -⟩
    cases hw
  | cons w ws ih =>
    refine ⟨h.1, ih h.2 (h'.mono fun u hu => ?_)⟩
    rwa [recorded_cons, ← or_assoc] at hu

theorem Backed.mem {has : String → Prop} {ws : List Write} (h : Backed has ws) {w : Write}
    (hw : w ∈ ws) {l : List String} (hl : w.listFor c = some l) (hu : u ∈ l.tail) :
    has u ∨ Recorded ws u := by
  induction ws generalizing has with
  | nil => cases hw
  | cons w' ws ih =>
    rw [recorded_cons]
    rcases List.mem_cons.mp hw with rfl | hw
    · exact Or.inl (h.1 c l hl u hu)
    · rw [← or_assoc]
      exact ih h.2 hw

/-- Writes that list no keys ask for no records. -/
theorem backed_of_tail_nil {has : String → Prop} {ws : List Write}
    (h : ∀ w ∈ ws, ∀ c l, w.listFor c = some l → l.tail = []) : Backed has ws := by
  induction ws generalizing has with
  | nil => trivial
  | cons w ws ih =>
    refine ⟨fun c l hl u hu => ?_, ih fun w' hw' => h w' (List.mem_cons_of_mem _ hw')⟩
    rw [h w (List.mem_cons_self ..) c l hl] at hu
    cases hu

theorem backed_record {has : String → Prop} {r : AlterationStruct} :
    Backed has [.alteration u r] := by
  refine backed_of_tail_nil fun w hw c l hl => ?_
  obtain rfl := List.mem_singleton.mp hw
  cases hl

/-- The record is stored, or will be once the device's writes have arrived. -/
def Reaches (n : Net D) (d : D) (u : String) : Prop :=
  Stored n.server u ∨ Recorded (n.outbox d) u

/-- Whatever list arrives at the server, the records of its keys are there. -/
structure Closed (n : Net D) : Prop where
  server : ∀ c l, listAt n.server (.alterations c) = some l → ∀ u ∈ l.tail, Stored n.server u
  outbox : ∀ d, Backed (Stored n.server) (n.outbox d)
  reads : ∀ p ∈ n.reads, (∀ u ∈ p.append.new, Reaches n p.device u) ∧
    ∀ c l, p.list c = some l → ∀ u ∈ l.tail, Reaches n p.device u

theorem closed_initial : Closed (Net.initial : Net D) := by
  constructor
  · intro c l hl
    cases hl
  · intro d
    trivial
  · intro p hp
    cases hp

theorem closed_allocate (h : Closed n) (newKeys : List String) : Closed (n.allocate newKeys) :=
  ⟨h.server, h.outbox, h.reads⟩

theorem closed_observe (h : Closed n) {a : ListAppend} (hu : ∀ u ∈ a.new, Reaches n d u) :
    Closed (n.observe d a) := by
  refine ⟨h.server, h.outbox, fun p hp => ?_⟩
  cases List.mem_append.mp hp with
  | inl hp =>
    exact h.reads p hp
  | inr hp =>
    obtain rfl := List.mem_singleton.mp hp
    exact ⟨hu, by simp [PendingRead.list]⟩

theorem closed_take (h : Closed n) (hstep : n.take i k = some n') : Closed n' := by
  obtain ⟨d, a, hi, rfl⟩ := Net.take_eq hstep
  refine ⟨h.server, h.outbox, forall_mem_set h.reads ?_⟩
  refine ⟨(h.reads _ (List.mem_of_getElem? hi)).1, fun c l hl u hu => ?_⟩
  simp only [PendingRead.list] at hl
  split at hl
  · rename_i htarget
    have hview : listAt (n.view d k) (.alterations c) = some l := by
      rw [← hl, htarget]
      rfl
    rcases Net.listAt_view hview with hl | ⟨w, hw, hl⟩
    · exact Or.inl (h.server c l hl u hu)
    · exact (h.outbox d).mem hw hl hu
  · cases hl

theorem update_fresh (hfresh : n.Fresh [u]) :
    ∀ v ∈ n.keys, Function.update owner u c v = owner v ∧ v ∈ (n.allocate [u]).keys := by
  intro v hv
  have hne : v ≠ u := fun heq => (hfresh.2 u (by simp)).2 (heq ▸ hv)
  exact ⟨Function.update_of_ne hne _ _, List.mem_append_left _ hv⟩

/-- No list has a key that is new. -/
theorem Owned.not_mem_list (h : Owned owner n) (hu : u ∉ n.keys) {l : List String}
    (hl : n.ListValue c l) : u ∉ l.tail := by
  obtain ⟨us, rfl, -, hown⟩ := h.list c l hl
  exact fun hmem => hu (hown u hmem).2

theorem Owned.not_mem_new (h : Owned owner n) (hu : u ∉ n.keys) {p : PendingRead D}
    (hp : p ∈ n.reads) : u ∉ p.append.new := by
  obtain ⟨c, v, ha, -, hv, -⟩ := h.pending p hp
  rw [ha]
  exact fun hmem => hu (List.mem_singleton.mp hmem ▸ hv)

variable [DecidableEq D]

theorem owned_setValues {ws : List Write} (h : Owned owner n)
    (hrecord : ∀ w ∈ ws, ∀ u r, w.recordFor u = some r →
      r.uid = u ∧ r.contractUID = owner u ∧ u ∈ n.keys)
    (hlist : ∀ w ∈ ws, ∀ c l, w.listFor c = some l → OwnedList owner n.keys c l ∧
      ∀ p ∈ n.reads, ∀ u ∈ p.append.new, u ∉ l.tail) :
    Owned owner (n.setValues d ws) := by
  constructor
  · intro u r hr
    rcases Net.recordValue_setValues hr with hr | ⟨w, hw, hr⟩
    · exact h.record u r hr
    · exact hrecord w hw u r hr
  · intro c l hl
    rcases Net.listValue_setValues hl with hl | ⟨w, hw, hl⟩
    · exact h.list c l hl
    · exact (hlist w hw c l hl).1
  · intro p hp
    obtain ⟨c, u, ha, hown, hu, hun⟩ := h.pending p hp
    refine ⟨c, u, ha, hown, hu, fun c' l hl => ?_⟩
    rcases Net.listValue_setValues hl with hl | ⟨w, hw, hl⟩
    · exact hun c' l hl
    · exact (hlist w hw c' l hl).2 p hp u (by simp [ha, updateAlterationsForContract])
  · exact h.apart

theorem owned_deliver (h : Owned owner n) (hstep : n.deliver d = some n') : Owned owner n' := by
  have hrecord := fun u r => Net.recordValue_deliver (u := u) (r := r) hstep
  have hlist := fun c l => Net.listValue_deliver (c := c) (l := l) hstep
  obtain ⟨w, ws, hd, rfl⟩ := Net.deliver_eq hstep
  constructor
  · exact fun u r hr => h.record u r (hrecord u r hr)
  · exact fun c l hl => h.list c l (hlist c l hl)
  · intro p hp
    obtain ⟨c, u, ha, hown, hu, hun⟩ := h.pending p hp
    exact ⟨c, u, ha, hown, hu, fun c' l hl => hun c' l (hlist c' l hl)⟩
  · exact h.apart

theorem ownedList_append {keys us : List String} (hnodup : us.Nodup)
    (hall : ∀ v ∈ us, owner v = c ∧ v ∈ keys) (hnew : u ∉ us) (hown : owner u = c) (hu : u ∈ keys) :
    OwnedList owner keys c ("-1" :: us ++ [u]) := by
  refine ⟨us ++ [u], rfl, ?_, ?_⟩
  · refine List.Nodup.append hnodup (List.nodup_singleton u) ?_
    intro v hv hvu
    exact hnew (List.mem_singleton.mp hvu ▸ hv)
  · intro v hv
    cases List.mem_append.mp hv with
    | inl hv =>
      exact hall v hv
    | inr hv =>
      obtain rfl := List.mem_singleton.mp hv
      exact ⟨hown, hu⟩

/-- The callback writes the list it read with its own key after it. -/
theorem owned_callback (h : Owned owner n) (hstep : n.callback i = some n') : Owned owner n' := by
  obtain ⟨d, a, value, hi, rfl⟩ := Net.callback_eq hstep
  obtain ⟨c, u, rfl, hown, hu, hun⟩ := h.pending _ (List.mem_of_getElem? hi)
  obtain ⟨hlt, hget⟩ := List.getElem?_eq_some_iff.mp hi
  have happart : u ∉ (n.reads.eraseIdx i).flatMap (·.append.new) ∧
      ((n.reads.eraseIdx i).flatMap (·.append.new)).Nodup := by
    have hperm := (List.getElem_cons_eraseIdx_perm hlt).flatMap_right (·.append.new)
    have hnodup := hperm.nodup_iff.mpr h.apart
    rw [hget, List.flatMap_cons] at hnodup
    exact List.nodup_cons.mp hnodup
  have herase : Owned owner { n with reads := n.reads.eraseIdx i } := by
    constructor
    · exact h.record
    · exact fun c l hl => h.list c l (Net.listValue_eraseRead hl)
    · intro p hp
      obtain ⟨c, u, ha, hown, hu, hun⟩ := h.pending p (List.mem_of_mem_eraseIdx hp)
      exact ⟨c, u, ha, hown, hu, fun c' l hl => hun c' l (Net.listValue_eraseRead hl)⟩
    · exact happart.2
  refine owned_setValues herase ?_ ?_
  · intro w hw v r hr
    obtain ⟨seen, -, rfl⟩ := ListAppend.callback_eq (Option.mem_toList.mp hw)
    cases hr
  · intro w hw c' l hl
    obtain ⟨seen, hseen, rfl⟩ := ListAppend.callback_eq (Option.mem_toList.mp hw)
    have hvalue : n.ListValue c seen :=
      Or.inr (Or.inr ⟨_, List.mem_of_getElem? hi, PendingRead.list_eq hseen rfl⟩)
    obtain ⟨us, rfl, hnodup, hall⟩ := h.list c seen hvalue
    obtain ⟨hc, rfl⟩ := Write.listFor_list hl
    obtain rfl : c = c' := ListTarget.alterations.inj hc
    constructor
    · exact ownedList_append hnodup hall (hun c _ hvalue) hown hu
    · intro p hp v hv hmem
      obtain ⟨c', v', ha, -, -, hun'⟩ := h.pending p (List.mem_of_mem_eraseIdx hp)
      obtain rfl : v = v' := by simpa [ha, updateAlterationsForContract] using hv
      cases List.mem_append.mp hmem with
      | inl hmem =>
        exact hun' c _ hvalue hmem
      | inr hmem =>
        obtain rfl := List.mem_singleton.mp hmem
        exact happart.1 (List.mem_flatMap.mpr ⟨p, hp, hv⟩)

theorem reaches_setValues {ws : List Write} {d' : D} (h : Reaches n d' u) :
    Reaches (n.setValues d ws) d' u := by
  refine h.imp id ?_
  rintro ⟨w, hw, hr⟩
  refine ⟨w, ?_, hr⟩
  by_cases hd : d' = d
  · subst hd
    simp [Net.setValues, hw]
  · simpa [Net.setValues, hd] using hw

theorem closed_setValues {ws : List Write} (h : Closed n) (hw : Backed (Reaches n d) ws) :
    Closed (n.setValues d ws) := by
  refine ⟨h.server, fun d' => ?_, fun p hp => ?_⟩
  · by_cases hd : d' = d
    · subst hd
      simpa [Net.setValues] using (h.outbox d').append hw
    · simpa [Net.setValues, hd] using h.outbox d'
  · exact ⟨fun u hu => reaches_setValues ((h.reads p hp).1 u hu),
      fun c l hl u hu => reaches_setValues ((h.reads p hp).2 c l hl u hu)⟩

theorem closed_callback (h : Closed n) (hstep : n.callback i = some n') : Closed n' := by
  obtain ⟨d, a, value, hi, rfl⟩ := Net.callback_eq hstep
  obtain ⟨hnew, hlist⟩ := h.reads _ (List.mem_of_getElem? hi)
  have herase : Closed { n with reads := n.reads.eraseIdx i } :=
    ⟨h.server, h.outbox, fun p hp => h.reads p (List.mem_of_mem_eraseIdx hp)⟩
  refine closed_setValues herase ?_
  cases hw : a.callback value with
  | none => trivial
  | some w =>
    obtain ⟨seen, hseen, rfl⟩ := ListAppend.callback_eq hw
    refine ⟨fun c l hl u hu => ?_, trivial⟩
    obtain ⟨htarget, rfl⟩ := Write.listFor_list hl
    rw [List.tail_append_of_ne_nil (decode_ne_nil hseen)] at hu
    cases List.mem_append.mp hu with
    | inl hu =>
      exact hlist c seen (PendingRead.list_eq hseen htarget) u hu
    | inr hu =>
      exact hnew u hu

theorem stored_apply {db : Node} {w : Write} (h : Stored db u ∨ ∃ r, w.recordFor u = some r) :
    Stored (w.apply db) u := by
  simp only [Stored, alterationAt_apply]
  rcases h with ⟨r, hr⟩ | ⟨r, hr⟩
  · cases hw : w.recordFor u with
    | none => exact ⟨r, hr⟩
    | some r' => exact ⟨r', rfl⟩
  · exact ⟨r, by rw [hr]; rfl⟩

theorem closed_deliver (h : Closed n) (hstep : n.deliver d = some n') : Closed n' := by
  obtain ⟨w, ws, hd, rfl⟩ := Net.deliver_eq hstep
  have hbacked := h.outbox d
  rw [hd] at hbacked
  have hreaches : ∀ d' u, Reaches n d' u →
      Reaches { n with server := w.apply n.server, outbox := Function.update n.outbox d ws }
        d' u := by
    rintro d' u (hu | hu)
    · exact Or.inl (stored_apply (Or.inl hu))
    · by_cases hd' : d' = d
      · subst hd'
        rw [hd, recorded_cons] at hu
        cases hu with
        | inl hu =>
          exact Or.inl (stored_apply (Or.inr hu))
        | inr hu =>
          exact Or.inr (by simpa using hu)
      · exact Or.inr (by simpa [hd'] using hu)
  refine ⟨fun c l hl u hu => ?_, fun d' => ?_, fun p hp => ?_⟩
  · cases listAt_apply_cases hl with
    | inl hl =>
      exact stored_apply (Or.inl (h.server c l hl u hu))
    | inr hl =>
      exact stored_apply (Or.inl (hbacked.1 c l hl u hu))
  · by_cases hd' : d' = d
    · subst hd'
      simpa using hbacked.2.mono fun u hu => stored_apply hu
    · simpa [hd'] using (h.outbox d').mono fun u hu => stored_apply (Or.inl hu)
  · exact ⟨fun u hu => hreaches _ u ((h.reads p hp).1 u hu),
      fun c l hl u hu => hreaches _ u ((h.reads p hp).2 c l hl u hu)⟩

/-- The records that the screens of a device can hand on. -/
def shown (v : Device) : List AlterationStruct :=
  v.loaded ++ (v.edit.map (·.myAlterationStruct)).toList

theorem mem_shown_act {v v' : Device} {a : Action} (h : v.act a = some v') {r : AlterationStruct}
    (hr : r ∈ shown v') : ∃ r' ∈ shown v, r'.uid = r.uid ∧ r'.contractUID = r.contractUID := by
  cases acts_of_act h with
  | create | authState | signOutConfirmed | openAdd | add => exact ⟨r, hr, rfl, rfl⟩
  | openEdit row opened hopened =>
    simp only [shown, Option.map_some, Option.toList_some, List.mem_append,
      List.mem_singleton] at hr ⊢
    cases hr with
    | inl hr => exact ⟨r, Or.inl hr, rfl, rfl⟩
    | inr hr =>
      subst hr
      exact ⟨r, Or.inl (List.mem_of_getElem? hopened), rfl, rfl⟩
  | edit e vc vc' hvc hstep =>
    obtain ⟨huid, hcontract⟩ := EditAlterationVC.step_uid hstep
    simp only [shown, Option.map_some, Option.toList_some, List.mem_append,
      List.mem_singleton, hvc] at hr ⊢
    cases hr with
    | inl hr => exact ⟨r, Or.inl hr, rfl, rfl⟩
    | inr hr =>
      subst hr
      exact ⟨vc.myAlterationStruct, Or.inr rfl, huid.symm, hcontract.symm⟩
  | back =>
    refine ⟨r, ?_, rfl, rfl⟩
    simp only [shown, Option.map_none, Option.toList_none, List.append_nil] at hr
    exact List.mem_append_left _ hr

structure Intact (owner : String → String) (s : World D) : Prop where
  owned : Owned owner s.net
  closed : Closed s.net
  shown : ∀ d, ∀ r ∈ shown (s.device d), r.contractUID = owner r.uid ∧ r.uid ∈ s.net.keys

variable {s s' : World D} {e : Event D} {owner' : String → String} {net : Net D} {v : Device}

/-- A step of one device leaves what the others show as it was. -/
theorem intact_set (h : Intact owner s) (howned : Owned owner' net) (hclosed : Closed net)
    (hkeys : ∀ u ∈ s.net.keys, owner' u = owner u ∧ u ∈ net.keys)
    (hv : ∀ r ∈ shown v, (∃ r' ∈ shown (s.device d), r'.uid = r.uid ∧
      r'.contractUID = r.contractUID) ∨ r.contractUID = owner' r.uid ∧ r.uid ∈ net.keys) :
    Intact owner' (s.set net d v) := by
  have hold : ∀ d', ∀ r ∈ shown (s.device d'), r.contractUID = owner' r.uid ∧ r.uid ∈ net.keys := by
    intro d' r hr
    obtain ⟨hcontract, huid⟩ := h.shown d' r hr
    exact ⟨by rw [(hkeys _ huid).1, hcontract], (hkeys _ huid).2⟩
  have hnew : ∀ r ∈ shown v, r.contractUID = owner' r.uid ∧ r.uid ∈ net.keys := by
    intro r hr
    cases hv r hr with
    | inl hold' =>
      obtain ⟨r', hr', huid, hcontract⟩ := hold'
      rw [← huid, ← hcontract]
      exact hold d r' hr'
    | inr hr => exact hr
  exact ⟨howned, hclosed, forall_device_set
    (P := fun w => ∀ r ∈ shown w, r.contractUID = owner' r.uid ∧ r.uid ∈ net.keys) hold hnew⟩

theorem owned_record (h : Owned owner n) {r : AlterationStruct} (huid : r.uid = u)
    (hcontract : r.contractUID = owner u) (hu : u ∈ n.keys) :
    Owned owner (n.setValues d [.alteration u r]) := by
  refine owned_setValues h ?_ ?_
  · intro w hw v r' hr
    obtain rfl := List.mem_singleton.mp hw
    simp only [Write.recordFor] at hr
    split at hr
    · rename_i huv
      subst huv
      cases hr
      exact ⟨huid, hcontract, hu⟩
    · cases hr
  · intro w hw v l hl
    obtain rfl := List.mem_singleton.mp hw
    cases hl

/-- A new alteration is written under a key that its contract owns from then on. -/
theorem owned_added (h : Owned owner n) (hfresh : n.Fresh [u]) (r : AlterationStruct) :
    Owned (Function.update owner u c)
      ((n.allocate [u]).setValues d [(addAlterationToFBDB u c r).2]) := by
  have hu : u ∉ n.keys := (hfresh.2 u (by simp)).2
  exact owned_record (owned_allocate (owned_update h hu c) [u]) rfl
    (Function.update_self u c owner).symm (by simp [Net.allocate])

/-- And the read that is to list it is issued. -/
theorem owned_listing (h : Owned owner n) (hfresh : n.Fresh [u]) (r : AlterationStruct) :
    Owned (Function.update owner u c)
      (((n.allocate [u]).setValues d [(addAlterationToFBDB u c r).2]).observe d
        (updateAlterationsForContract c u)) := by
  have hu : u ∉ n.keys := (hfresh.2 u (by simp)).2
  refine owned_observe (owned_added h hfresh r) (Function.update_self ..)
    (by simp [Net.setValues, Net.allocate]) ?_ fun p hp => h.not_mem_new hu hp
  intro c' l hl
  cases Net.listValue_setValues hl with
  | inl hl => exact h.not_mem_list hu hl
  | inr hw =>
    obtain ⟨w, hw, hl⟩ := hw
    obtain rfl := List.mem_singleton.mp hw
    cases hl

theorem closed_listing (h : Closed n) (r : AlterationStruct) :
    Closed (((n.allocate [u]).setValues d [(addAlterationToFBDB u c r).2]).observe d
      (updateAlterationsForContract c u)) := by
  refine closed_observe (closed_setValues (closed_allocate h _) backed_record) fun v hv => ?_
  obtain rfl := List.mem_singleton.mp hv
  exact Or.inr ⟨_, Net.mem_outbox_setValues_self (List.mem_singleton_self _), _, if_pos rfl⟩

theorem owned_created {vc : CreateContractVC} {g : Statics} {keys : CreateContractVC.Keys}
    {now : Date} (h : Owned owner n) : Owned owner
      ((n.allocate keys.toList).setValues d (vc.createdWrites g keys now)) := by
  refine owned_setValues (owned_allocate h _) ?_ ?_
  · intro w hw u r hr
    rw [(CreateContractVC.createdWrites_cases hw).1 u] at hr
    cases hr
  · intro w hw c l hl
    obtain ⟨rfl, -⟩ := (CreateContractVC.createdWrites_cases hw).2 c l hl
    exact ⟨⟨[], rfl, List.nodup_nil, by simp⟩, by simp⟩

theorem closed_created {vc : CreateContractVC} {g : Statics} {keys : CreateContractVC.Keys}
    {now : Date} (h : Closed n) :
    Closed ((n.allocate keys.toList).setValues d (vc.createdWrites g keys now)) := by
  refine closed_setValues (closed_allocate h _) (backed_of_tail_nil fun w hw c l hl => ?_)
  rw [((CreateContractVC.createdWrites_cases hw).2 c l hl).1]
  rfl

omit [DecidableEq D] in
theorem intact_net (h : Intact owner s) (howned : Owned owner net) (hclosed : Closed net)
    (hkeys : net.keys = s.net.keys) : Intact owner { s with net } :=
  ⟨howned, hclosed, fun d r hr => hkeys ▸ h.shown d r hr⟩

omit [DecidableEq D] in
theorem intact_start (h : Starts s) : Intact owner s := by
  obtain ⟨hnet, hdevice⟩ := h
  refine ⟨hnet ▸ owned_initial, hnet ▸ closed_initial, fun d r hr => ?_⟩
  obtain ⟨pickerDate, now, currentDate, originalDate, hd⟩ := hdevice d
  rw [hd] at hr
  cases hr

theorem intact_step (h : Intact owner s) (hstep : Steps s e s') : ∃ owner', Intact owner' s' := by
  cases hstep with
  | screens d a v hact =>
    exact ⟨owner, intact_set h h.owned h.closed (fun u hu => ⟨rfl, hu⟩)
      fun r hr => Or.inl (mem_shown_act hact hr)⟩
  | load d u k r hload =>
    obtain ⟨huid, hcontract, hu⟩ := h.owned.record u r (Net.recordValue_view hload)
    refine ⟨owner, intact_set h h.owned h.closed (fun u hu => ⟨rfl, hu⟩) fun r' hr' => ?_⟩
    simp only [shown, List.append_assoc, List.mem_append, List.mem_singleton] at hr'
    rcases hr' with hr' | rfl | hr'
    · exact Or.inl ⟨r', List.mem_append_left _ hr', rfl, rfl⟩
    · exact Or.inr ⟨by rw [hcontract, huid], huid ▸ hu⟩
    · exact Or.inl ⟨r', List.mem_append_right _ hr', rfl, rfl⟩
  | created d keys now hpresented hfresh =>
    exact ⟨owner, intact_set h (owned_created h.owned) (closed_created h.closed)
      (fun u hu => ⟨rfl, List.mem_append_left _ hu⟩) fun r hr => Or.inl ⟨r, hr, rfl, rfl⟩⟩
  | addTrap d key vc hadd hpresented hfresh hempty =>
    exact ⟨Function.update owner key "", intact_set h (owned_added h.owned hfresh _)
      (closed_setValues (closed_allocate h.closed _) backed_record) (update_fresh hfresh)
      fun r hr => Or.inl ⟨r, hr, rfl, rfl⟩⟩
  | added d key vc hadd hpresented hfresh hcontract =>
    exact ⟨Function.update owner key (s.device d).statics.contract.uid,
      intact_set h (owned_listing h.owned hfresh _) (closed_listing h.closed _)
        (update_fresh hfresh) fun r hr => Or.inl ⟨r, hr, rfl, rfl⟩⟩
  | edited d vc w hedit hpresented hw =>
    obtain ⟨r, rfl, huid, hcontract, -⟩ := EditAlterationVC.confirmHandler_eq hw
    obtain ⟨howner, hkey⟩ := h.shown d vc.myAlterationStruct (by simp [shown, hedit])
    have howned : Owned owner (s.net.setValues d [.alteration r.uid r]) :=
      owned_record h.owned rfl (by rw [hcontract, huid, howner]) (huid ▸ hkey)
    refine ⟨owner, intact_set h howned (closed_setValues h.closed backed_record)
      (fun u hu => ⟨rfl, hu⟩) fun r hr => Or.inl ⟨r, ?_, rfl, rfl⟩⟩
    exact List.mem_append_left _ (by simpa [shown] using hr)
  | editTrap d =>
    exact ⟨owner, intact_set h h.owned h.closed (fun u hu => ⟨rfl, hu⟩)
      fun r hr => Or.inl ⟨r, hr, rfl, rfl⟩⟩
  | take i k net hnet =>
    refine ⟨owner, intact_net h (owned_take h.owned hnet) (closed_take h.closed hnet) ?_⟩
    obtain ⟨d, a, -, rfl⟩ := Net.take_eq hnet
    rfl
  | callback i net hnet =>
    refine ⟨owner, intact_net h (owned_callback h.owned hnet) (closed_callback h.closed hnet) ?_⟩
    obtain ⟨d, a, value, -, rfl⟩ := Net.callback_eq hnet
    rfl
  | deliver d net hnet =>
    refine ⟨owner, intact_net h (owned_deliver h.owned hnet) (closed_deliver h.closed hnet) ?_⟩
    obtain ⟨w, ws, -, rfl⟩ := Net.deliver_eq hnet
    rfl

theorem intact_of_reachable (h : Reachable step Starts s) : ∃ owner, Intact owner s := by
  refine reachable_of_steps (fun s => ∃ owner, Intact owner s) ?_ ?_ h
  · intro s hs
    exact ⟨fun _ => "", intact_start hs⟩
  · rintro s e s' ⟨owner, hs⟩ hstep
    exact intact_step hs hstep

/-- Every listed alteration is stored under its uid for the contract that lists
it, once, and no other contract lists it. -/
theorem listed_alteration_stored (h : Reachable step Starts s) {c : String} {l : List String}
    (hl : listAt s.net.server (.alterations c) = some l) {u : String} (hu : u ∈ l)
    (hne : u ≠ "-1") :
    (∃ r, alterationAt s.net.server u = some r ∧ r.uid = u ∧ r.contractUID = c) ∧ l.count u = 1 ∧
      ∀ c' l', listAt s.net.server (.alterations c') = some l' → u ∈ l' → c' = c := by
  obtain ⟨owner, hs⟩ := intact_of_reachable h
  obtain ⟨us, rfl, hnodup, hown⟩ := hs.owned.list c l (Or.inl hl)
  have hus : u ∈ us := (List.mem_cons.mp hu).resolve_left hne
  refine ⟨?_, ?_, fun c' l' hl' hu' => ?_⟩
  · obtain ⟨r, hr⟩ := hs.closed.server c _ hl u hus
    obtain ⟨huid, hcontract, -⟩ := hs.owned.record u r (Or.inl hr)
    exact ⟨r, hr, huid, by rw [hcontract, (hown u hus).1]⟩
  · rw [List.count_cons_of_ne (Ne.symm hne)]
    exact List.nodup_iff_count_eq_one.mp hnodup u hus
  · obtain ⟨us', rfl, -, hown'⟩ := hs.owned.list c' l' (Or.inl hl')
    have hus' : u ∈ us' := (List.mem_cons.mp hu').resolve_left hne
    rw [← (hown' u hus').1, (hown u hus).1]

def justOpened : World Unit :=
  ⟨.initial, fun _ => ⟨true, .initial 0 0, .new 0 0, none, none, []⟩⟩

def hem : AlterationType where
  name := "Hem"
  minCost := 20
  maxCost := 20
  actualCost := 20
  totalCost := 0
  costDetails := ""
  costUnit := ""
  units := 1
  secondaryCost := 0
  secondaryCostDetails := ""

/-- Ann's contract is created and its four records reach the server. -/
def annCreated : List (Event Unit) := [
  .act () (.create (.typeBust "36")), .act () (.create (.typeWaist "26")),
  .act () (.create (.typeHip "38")), .act () (.create (.typeBrideName "Ann")),
  .act () (.create .createContractAction), .act () (.createConfirmed ⟨"d", "c", "b", "m"⟩ 0),
  .deliver (), .deliver (), .deliver (), .deliver ()]

/-- A hem is added to it, and the two writes of that reach the server too. -/
def hemAdded : List (Event Unit) := annCreated ++ [
  .act () (.openAdd hem), .act () (.add .updateTotalAction),
  .act () (.add .addToContractAction), .act () (.addConfirmed "a"),
  .deliver (), .take 0 0, .callback 0, .deliver ()]

theorem starts_justOpened : Starts justOpened := ⟨rfl, fun _ => ⟨0, 0, 0, 0, rfl⟩⟩

theorem listed_hem_stored : ∃ s, run step justOpened hemAdded = some s ∧
    ∃ r, alterationAt s.net.server "a" = some r ∧ r.uid = "a" ∧ r.contractUID = "c" := by
  have hlist : (run step justOpened hemAdded).map
      (fun s => listAt s.net.server (.alterations "c")) = some (some ["-1", "a"]) := by
    decide +kernel
  obtain ⟨s, hs, hl⟩ := Option.map_eq_some_iff.mp hlist
  have hreach : Reachable step Starts s := ⟨justOpened, hemAdded, starts_justOpened, hs⟩
  exact ⟨s, hs, (listed_alteration_stored hreach hl (by simp) (by decide)).1⟩

end Pincushion.Integrity
