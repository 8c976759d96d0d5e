import Pincushion.Network

/-! The values that a record or a list has anywhere: on the server, in a write
on its way, or in a read that has taken it. Every step of the network only moves
them, so what holds of all values holds of the server at all times. -/
namespace Pincushion.Network
open KeyTree Structs FirebaseHelpers
variable {D : Type*}

theorem alterationAt_apply_cases {db : Node} {w : Write} {u : String} {r : AlterationStruct}
    (h : alterationAt (w.apply db) u = some r) :
    alterationAt db u = some r ∨ w.recordFor u = some r := by
  rw [alterationAt_apply] at h
  cases hw : w.recordFor u with
  | none =>
    rw [hw] at h
    exact Or.inl h
  | some r' =>
    rw [hw] at h
    exact Or.inr h

theorem alterationAt_foldl {db : Node} {ws : List Write} {u : String} {r : AlterationStruct}
    (h : alterationAt (ws.foldl (fun db w => w.apply db) db) u = some r) :
    alterationAt db u = some r ∨ ∃ w ∈ ws, w.recordFor u = some r := by
  induction ws generalizing db with
  | nil => exact Or.inl h
  | cons w ws ih =>
    rcases ih h with hdb | ⟨w', hw', hr⟩
    · cases alterationAt_apply_cases hdb with
      | inl hdb =>
        exact Or.inl hdb
      | inr hw =>
        exact Or.inr ⟨w, List.mem_cons_self .., hw⟩
    · exact Or.inr ⟨w', List.mem_cons_of_mem _ hw', hr⟩

theorem listAt_apply_cases {db : Node} {w : Write} {c : String} {l : List String}
    (h : listAt (w.apply db) (.alterations c) = some l) :
    listAt db (.alterations c) = some l ∨ w.listFor c = some l := by
  rw [listAt_apply_alterations] at h
  cases hw : w.listFor c with
  | none =>
    rw [hw] at h
    exact Or.inl h
  | some l' =>
    rw [hw] at h
    cases l' with
    | nil => cases h
    | cons head tail => exact Or.inr h

theorem listAt_foldl {db : Node} {ws : List Write} {c : String} {l : List String}
    (h : listAt (ws.foldl (fun db w => w.apply db) db) (.alterations c) = some l) :
    listAt db (.alterations c) = some l ∨ ∃ w ∈ ws, w.listFor c = some l := by
  induction ws generalizing db with
  | nil => exact Or.inl h
  | cons w ws ih =>
    rcases ih h with hdb | ⟨w', hw', hl⟩
    · cases listAt_apply_cases hdb with
      | inl hdb =>
        exact Or.inl hdb
      | inr hw =>
        exact Or.inr ⟨w, List.mem_cons_self .., hw⟩
    · exact Or.inr ⟨w', List.mem_cons_of_mem _ hw', hl⟩

/-- What a write makes of a record depends on that record alone. -/
theorem sub_apply_congr {db db' : Node} {c k : String} (w : Write)
    (h : db.sub [c, k] = db'.sub [c, k]) :
    (w.apply db).sub [c, k] = (w.apply db').sub [c, k] := by
  by_cases hnode : w.node = [c, k]
  · cases w with
    | list t l =>
      have ht : t.node = [c, k] := hnode
      have hdb := sub_apply_list db t l
      have hdb' := sub_apply_list db' t l
      rw [ht] at hdb hdb'
      rw [hdb, hdb', h]
    | _ =>
      rw [← hnode]
      simp only [Write.apply, Write.path, sub_setValue_self]
  · rw [sub_apply_ne w db hnode, sub_apply_ne w db' hnode, h]

theorem sub_foldl_congr {db db' : Node} {c k : String} (ws : List Write)
    (h : db.sub [c, k] = db'.sub [c, k]) :
    (ws.foldl (fun db w => w.apply db) db).sub [c, k] =
      (ws.foldl (fun db w => w.apply db) db').sub [c, k] := by
  induction ws generalizing db db' with
  | nil => exact h
  | cons w ws ih => exact ih (sub_apply_congr w h)

/-- Once a record is written whole, what was there before does not matter. -/
theorem sub_foldl_of_mem {db db' : Node} {c k : String} {ws : List Write} {w : Write}
    (hw : w ∈ ws) (hpath : w.path = [c, k]) :
    (ws.foldl (fun db w => w.apply db) db).sub [c, k] =
      (ws.foldl (fun db w => w.apply db) db').sub [c, k] := by
  induction ws generalizing db db' with
  | nil => cases hw
  | cons v ws ih =>
    cases List.mem_cons.mp hw with
    | inl hv =>
      subst hv
      refine sub_foldl_congr ws ?_
      simp only [Write.apply, hpath, sub_setValue_self]
    | inr hw => exact ih hw

theorem sub_foldl_ne {db : Node} {c k : String} {ws : List Write}
    (h : ∀ w ∈ ws, w.node ≠ [c, k]) :
    (ws.foldl (fun db w => w.apply db) db).sub [c, k] = db.sub [c, k] := by
  induction ws generalizing db with
  | nil => rfl
  | cons w ws ih =>
    rw [List.foldl_cons, ih fun w' hw' => h w' (List.mem_cons_of_mem w hw'),
      sub_apply_ne w db (h w (List.mem_cons_self ..))]

/-- The list that a read has taken. -/
def PendingRead.list (p : PendingRead D) (c : String) : Option (List String) :=
  if p.append.target = .alterations c then p.value.bind fun v => asStrings (v.sub ["alterations"])
  else none

theorem PendingRead.list_eq {d : D} {a : ListAppend} {value : Node} {seen : List String}
    {c : String} (h : a.target.decode value = some seen) (htarget : a.target = .alterations c) :
    (⟨d, a, some value⟩ : PendingRead D).list c = some seen := by
  have hseen := asStrings_of_decode h
  rw [htarget] at hseen
  simp only [PendingRead.list, htarget, if_true]
  exact hseen

namespace Net

def RecordValue (n : Net D) (u : String) (r : AlterationStruct) : Prop :=
  alterationAt n.server u = some r ∨ ∃ d, ∃ w ∈ n.outbox d, w.recordFor u = some r

def ListValue (n : Net D) (c : String) (l : List String) : Prop :=
  listAt n.server (.alterations c) = some l ∨ (∃ d, ∃ w ∈ n.outbox d, w.listFor c = some l) ∨
    ∃ p ∈ n.reads, p.list c = some l

variable {n n' : Net D} {d : D} {i k : Nat} {c u : String} {l : List String} {r : AlterationStruct}

theorem recordValue_view (h : alterationAt (n.view d k) u = some r) : n.RecordValue u r := by
  rcases alterationAt_foldl h with h | ⟨w, hw, hr⟩
  · exact Or.inl h
  · exact Or.inr ⟨d, w, List.mem_of_mem_take hw, hr⟩

theorem listAt_view (h : listAt (n.view d k) (.alterations c) = some l) :
    listAt n.server (.alterations c) = some l ∨ ∃ w ∈ n.outbox d, w.listFor c = some l := by
  rcases listAt_foldl h with h | ⟨w, hw, hl⟩
  · exact Or.inl h
  · exact Or.inr ⟨w, List.mem_of_mem_take hw, hl⟩

/-- The store as it is once the writes of a device have arrived. -/
def settled (n : Net D) (d : D) : Node := (n.outbox d).foldl (fun db w => w.apply db) n.server

theorem listValue_settled (h : listAt (n.settled d) (.alterations c) = some l) :
    n.ListValue c l := by
  cases listAt_foldl h with
  | inl h => exact Or.inl h
  | inr h => exact Or.inr (Or.inl ⟨d, h⟩)

theorem take_eq (h : n.take i k = some n') :
    ∃ d a, n.reads[i]? = some ⟨d, a, none⟩ ∧
      n' = { n with reads := n.reads.set i ⟨d, a, some ((n.view d k).sub a.target.node)⟩ } := by
  simp only [take] at h
  split at h
  · rename_i d a hi
    exact ⟨d, a, hi, (Option.some.inj h).symm⟩
  · cases h

/-- Taking a value leaves what each read is to append. -/
theorem mem_reads_take {p : PendingRead D} (h : n.take i k = some n') (hp : p ∈ n'.reads) :
    ∃ q ∈ n.reads, q.append = p.append := by
  obtain ⟨d, a, hi, rfl⟩ := take_eq h
  cases List.mem_or_eq_of_mem_set hp with
  | inl hp => exact ⟨p, hp, rfl⟩
  | inr hp => exact ⟨_, List.mem_of_getElem? hi, by rw [hp]⟩

/-- A read that has only been issued has no value yet. -/
theorem listValue_observe {a : ListAppend} (h : (n.observe d a).ListValue c l) :
    n.ListValue c l := by
  rcases h with h | h | ⟨p, hp, hl⟩
  · exact Or.inl h
  · exact Or.inr (Or.inl h)
  · cases List.mem_append.mp hp with
    | inl hp => exact Or.inr (Or.inr ⟨p, hp, hl⟩)
    | inr hp =>
      obtain rfl := List.mem_singleton.mp hp
      simp [PendingRead.list] at hl

/-- A read that takes its value takes one that is there already. -/
theorem listValue_take (h : n.take i k = some n') (hl : n'.ListValue c l) : n.ListValue c l := by
  obtain ⟨d, a, hi, rfl⟩ := take_eq h
  rcases hl with hl | hl | ⟨p, hp, hl⟩
  · exact Or.inl hl
  · exact Or.inr (Or.inl hl)
  · rcases List.mem_or_eq_of_mem_set hp with hp | rfl
    · exact Or.inr (Or.inr ⟨p, hp, hl⟩)
    · simp only [PendingRead.list] at hl
      split at hl
      · rename_i htarget
        have hview : listAt (n.view d k) (.alterations c) = some l := by
          rw [← hl, htarget]
          rfl
        cases listAt_view hview with
        | inl hl =>
          exact Or.inl hl
        | inr hl =>
          exact Or.inr (Or.inl ⟨d, hl⟩)
      · cases hl

/-- A read that is over leaves no value that was not there. -/
theorem listValue_eraseRead (h : ({ n with reads := n.reads.eraseIdx i } : Net D).ListValue c l) :
    n.ListValue c l := by
  rcases h with h | h | ⟨p, hp, hl⟩
  · exact Or.inl h
  · exact Or.inr (Or.inl h)
  · exact Or.inr (Or.inr ⟨p, List.mem_of_mem_eraseIdx hp, hl⟩)

variable [DecidableEq D]

theorem mem_outbox_setValues {ws : List Write} {d' : D} {w : Write}
    (h : w ∈ (n.setValues d ws).outbox d') : w ∈ n.outbox d' ∨ w ∈ ws := by
  simp only [setValues] at h
  by_cases hd : d' = d
  · subst hd
    rw [Function.update_self, List.mem_append] at h
    exact h
  · rw [Function.update_of_ne hd] at h
    exact Or.inl h

theorem mem_outbox_setValues_self {ws : List Write} {w : Write} (h : w ∈ ws) :
    w ∈ (n.setValues d ws).outbox d := by
  simp only [setValues, Function.update_self]
  exact List.mem_append_right _ h

theorem mem_outbox_setValues_of_mem {ws : List Write} {d' : D} {w : Write} (h : w ∈ n.outbox d') :
    w ∈ (n.setValues d ws).outbox d' := by
  simp only [setValues]
  by_cases hd : d' = d
  · subst hd
    rw [Function.update_self]
    exact List.mem_append_left _ h
  · rwa [Function.update_of_ne hd]

theorem recordValue_setValues {ws : List Write} (h : (n.setValues d ws).RecordValue u r) :
    n.RecordValue u r ∨ ∃ w ∈ ws, w.recordFor u = some r := by
  rcases h with h | ⟨d', w, hw, hr⟩
  · exact Or.inl (Or.inl h)
  · cases mem_outbox_setValues hw with
    | inl hw =>
      exact Or.inl (Or.inr ⟨d', w, hw, hr⟩)
    | inr hw =>
      exact Or.inr ⟨w, hw, hr⟩

theorem listValue_setValues {ws : List Write} (h : (n.setValues d ws).ListValue c l) :
    n.ListValue c l ∨ ∃ w ∈ ws, w.listFor c = some l := by
  rcases h with h | ⟨d', w, hw, hl⟩ | h
  · exact Or.inl (Or.inl h)
  · cases mem_outbox_setValues hw with
    | inl hw =>
      exact Or.inl (Or.inr (Or.inl ⟨d', w, hw, hl⟩))
    | inr hw =>
      exact Or.inr ⟨w, hw, hl⟩
  · exact Or.inl (Or.inr (Or.inr h))

theorem settled_setValues (n : Net D) (d : D) (ws : List Write) :
    (n.setValues d ws).settled d = ws.foldl (fun db w => w.apply db) (n.settled d) := by
  simp only [settled, setValues, Function.update_self, List.foldl_append]

theorem deliver_eq (h : n.deliver d = some n') :
    ∃ w ws, n.outbox d = w :: ws ∧
      n' = { n with server := w.apply n.server, outbox := Function.update n.outbox d ws } := by
  simp only [deliver] at h
  split at h
  · rename_i w ws hw
    exact ⟨w, ws, hw, (Option.some.inj h).symm⟩
  · cases h

theorem settled_deliver (h : n.deliver d = some n') : n'.settled d = n.settled d := by
  obtain ⟨w, ws, hd, rfl⟩ := deliver_eq h
  simp only [settled, Function.update_self, hd, List.foldl_cons]

/-- A write of one device that reaches the server changes no other record of another. -/
theorem sub_settled_deliver_ne {d' : D} {c k : String} (h : n.deliver d' = some n') (hd : d ≠ d')
    (hne : ∀ w ∈ n.outbox d', w.node ≠ [c, k]) :
    (n'.settled d).sub [c, k] = (n.settled d).sub [c, k] := by
  obtain ⟨w, ws, hd', rfl⟩ := deliver_eq h
  simp only [settled, Function.update_of_ne hd]
  exact sub_foldl_congr _ (sub_apply_ne w _ (hne w (by simp [hd'])))

theorem settled_setValues_ne {d' : D} (n : Net D) (hd : d ≠ d') (ws : List Write) :
    (n.setValues d' ws).settled d = n.settled d := by
  simp only [settled, setValues, Function.update_of_ne hd]

theorem mem_outbox_deliver {w w' : Write} {ws : List Write} {d' : D} (hd : n.outbox d = w :: ws)
    (h : w' ∈ Function.update n.outbox d ws d') : w' ∈ n.outbox d' := by
  by_cases hd' : d' = d
  · subst hd'
    rw [Function.update_self] at h
    rw [hd]
    exact List.mem_cons_of_mem _ h
  · rwa [Function.update_of_ne hd'] at h

theorem mem_outbox_or_first {w w' : Write} {ws : List Write} {d' : D} (hd : n.outbox d = w :: ws)
    (h : w' ∈ n.outbox d') : w' = w ∨ w' ∈ Function.update n.outbox d ws d' := by
  by_cases hd' : d' = d
  · subst hd'
    rw [Function.update_self]
    rw [hd] at h
    exact List.mem_cons.mp h
  · rw [Function.update_of_ne hd']
    exact Or.inr h

theorem recordValue_deliver (h : n.deliver d = some n') (hr : n'.RecordValue u r) :
    n.RecordValue u r := by
  obtain ⟨w, ws, hd, rfl⟩ := deliver_eq h
  rcases hr with hr | ⟨d', w', hw', hr⟩
  · cases alterationAt_apply_cases hr with
    | inl hr =>
      exact Or.inl hr
    | inr hr =>
      exact Or.inr ⟨d, w, by simp [hd], hr⟩
  · exact Or.inr ⟨d', w', mem_outbox_deliver hd hw', hr⟩

theorem listValue_deliver (h : n.deliver d = some n') (hl : n'.ListValue c l) :
    n.ListValue c l := by
  obtain ⟨w, ws, hd, rfl⟩ := deliver_eq h
  rcases hl with hl | ⟨d', w', hw', hl⟩ | hl
  · cases listAt_apply_cases hl with
    | inl hl =>
      exact Or.inl hl
    | inr hl =>
      exact Or.inr (Or.inl ⟨d, w, by simp [hd], hl⟩)
  · exact Or.inr (Or.inl ⟨d', w', mem_outbox_deliver hd hw', hl⟩)
  · exact Or.inr (Or.inr hl)

theorem callback_eq (h : n.callback i = some n') :
    ∃ d a value, n.reads[i]? = some ⟨d, a, some value⟩ ∧
      n' = { n with reads := n.reads.eraseIdx i }.setValues d (a.callback value).toList := by
  simp only [callback] at h
  split at h
  · rename_i d a value hi
    exact ⟨d, a, value, hi, (Option.some.inj h).symm⟩
  · cases h

end Net

end Pincushion.Network
