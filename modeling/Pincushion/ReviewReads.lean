import Pincushion.Navigation

/-! What the reads of a review screen lead to. From contracts of one kind, whose lists
hold uids of one kind, it asks for no other records, and shows no others. -/
namespace Pincushion.ReviewReads
open KeyTree Structs Singletons FirebaseHelpers Navigation
open ReviewContract (Message Request ReviewContractVC getAlterationUIDs getAlterationStructs)

/-- The uids of a list, the sentinel apart. -/
def ListOf (U : String → Prop) (l : List String) : Prop := ∀ u ∈ l, u ≠ "-1" → U u

section
variable (C U : String → Prop) (R : AlterationStruct → Prop)

/-- A read asks for something of its kind, and its value leads to nothing else. -/
def MessageOf : Message → Prop
  | ⟨.alterations c, value⟩ => C c ∧ ∀ n l, value = some n → asStrings n = some l → ListOf U l
  | ⟨.alteration u, value⟩ =>
    U u ∧ ∀ n a, value = some n → AlterationStruct.decode n = some a → R a

structure ReviewOf (r : Review) : Prop where
  rows : ∀ a ∈ r.vc.alterationStructArray, R a
  inFlight : ∀ m ∈ r.inFlight, MessageOf C U R m

/-- What a read of the store can bring. -/
structure StoreOf (db : Node) : Prop where
  lists : ∀ c l, C c → listAt db (.alterations c) = some l → ListOf U l
  records : ∀ u a, U u → alterationAt db u = some a → R a

end

variable {C U : String → Prop} {R : AlterationStruct → Prop} {r : Review} {db : Node}
variable {p : Phone}

/-- A list asks only for its own uids. -/
theorem messageOf_getAlterationStructs {uids : List String} (h : ListOf U uids) :
    ∀ m ∈ getAlterationStructs uids, MessageOf C U R m := by
  intro m hm
  obtain ⟨uid, huid, rfl⟩ := ReviewContract.mem_getAlterationStructs hm
  obtain ⟨hmem, hne⟩ := List.mem_filter.mp huid
  exact ⟨h uid hmem (by simpa using hne), fun _ _ hn => by cases hn⟩

theorem messageOf_getAlterationUIDs {g : Statics} (h : g.contract.uid ≠ "" → C g.contract.uid) :
    ∀ m ∈ getAlterationUIDs g, MessageOf C U R m := by
  intro m hm
  obtain ⟨hcontract, rfl⟩ := ReviewContract.mem_getAlterationUIDs hm
  exact ⟨h hcontract, fun _ _ hn => by cases hn⟩

theorem messageOf_take {request : Request} {value : Option Node}
    (h : MessageOf C U R ⟨request, value⟩) (hdb : StoreOf C U R db) :
    MessageOf C U R ⟨request, some (db.sub request.path)⟩ := by
  cases request with
  | alterations c =>
    refine ⟨h.1, fun n l hn hl => ?_⟩
    cases hn
    exact hdb.lists c l h.1 hl
  | alteration u =>
    refine ⟨h.1, fun n a hn ha => ?_⟩
    cases hn
    exact hdb.records u a h.1 ha

/-- What arrives fills the rows with records of the kind, and asks only for such. -/
theorem reviewOf_receive {vc : ReviewContractVC} {request : Request} {value : Node}
    (hrows : ∀ a ∈ vc.alterationStructArray, R a) (h : MessageOf C U R ⟨request, some value⟩) :
    (∀ a ∈ (vc.receive request value).1.alterationStructArray, R a) ∧
      ∀ m ∈ (vc.receive request value).2, MessageOf C U R m := by
  cases request with
  | alterations c =>
    simp only [ReviewContractVC.receive]
    split
    · rename_i uids huids
      exact ⟨fun a ha => (by cases ha), messageOf_getAlterationStructs (h.2 value uids rfl huids)⟩
    · exact ⟨hrows, fun m hm => (by cases hm)⟩
  | alteration u =>
    simp only [ReviewContractVC.receive]
    split
    · rename_i model hmodel
      refine ⟨fun a ha => ?_, fun m hm => (by cases hm)⟩
      cases List.mem_append.mp ha with
      | inl ha => exact hrows a ha
      | inr ha => exact List.mem_singleton.mp ha ▸ h.2 value model rfl hmodel
    · exact ⟨hrows, fun m hm => (by cases hm)⟩

theorem reviewOf_new : ReviewOf C U R .new where
  rows a ha := by cases ha
  inFlight m hm := by cases hm

theorem reviewOf_appear {g : Statics} (h : ReviewOf C U R r)
    (hcontract : g.contract.uid ≠ "" → C g.contract.uid) :
    ReviewOf C U R (r.viewWillAppear g) where
  rows := h.rows
  inFlight m hm := by
    cases List.mem_append.mp hm with
    | inl hm => exact h.inFlight m hm
    | inr hm => exact messageOf_getAlterationUIDs hcontract m hm

theorem reviewOf_take {i : Nat} {s : ReviewContract.State} (hdb : StoreOf C U R p.db)
    (h : ReviewOf C U R r) (hstep : ReviewContract.step (r.state p) (.take i) = some s) :
    ReviewOf C U R (r.set s) := by
  obtain ⟨request, hi, rfl⟩ := ReviewContract.take_eq.mp hstep
  have htaken := messageOf_take (h.inFlight _ (List.mem_of_getElem? hi)) hdb
  exact ⟨h.rows, Runs.forall_mem_set h.inFlight htaken⟩

theorem reviewOf_deliver {i : Nat} {s : ReviewContract.State} (h : ReviewOf C U R r)
    (hstep : ReviewContract.step (r.state p) (.deliver i) = some s) :
    ReviewOf C U R (r.set s) := by
  obtain ⟨request, value, hi, rfl⟩ := ReviewContract.deliver_eq.mp hstep
  obtain ⟨hrows, hasked⟩ : (∀ a ∈ (r.vc.receive request value).1.alterationStructArray, R a) ∧
      ∀ m ∈ (r.vc.receive request value).2, MessageOf C U R m :=
    reviewOf_receive h.rows (h.inFlight _ (List.mem_of_getElem? hi))
  refine ⟨hrows, fun m hm => ?_⟩
  cases List.mem_append.mp hm with
  | inl hm => exact h.inFlight m (List.mem_of_mem_eraseIdx hm)
  | inr hm => exact hasked m hm

end Pincushion.ReviewReads
