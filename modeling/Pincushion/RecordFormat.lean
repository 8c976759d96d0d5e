import Pincushion.SnapshotValue
import Pincushion.Structs

/-! The records as `FirebaseEncoder` boxes them and `FirebaseDecoder` unboxes them, and what
that has to do with their leaves: a list of strings is a leaf above, and an array of leaves in
the nodes of the database. -/
namespace Pincushion.Structs
open KeyTree SwiftNumber Snapshot SortedDictionary

inductive Atom where
  | string (s : String)
  | number (x : SwiftFloat)
deriving DecidableEq

abbrev Data := Value Atom

def boxString (s : String) : Data := .leaf (.string s)
def boxFloat (x : SwiftFloat) : Data := .leaf (.number x)
def boxInt (i : SwiftInt) : Data := boxFloat (.finite i.val)

/-- `Date` encodes itself as the seconds since the reference date. -/
def boxDate (date : Date) : Data := boxFloat (.finite date)

def boxStrings (l : List String) : Data := .array (l.map boxString)

def unboxString : Data → Option String
  | .leaf (.string s) => some s
  | _ => none

/-- A number must not be out of range. -/
def unboxFloat : Data → Option ℚ
  | .leaf (.number (.finite q)) => some q
  | _ => none

/-- The number must be the integer it is read as. -/
def unboxInt (value : Data) : Option SwiftInt := match unboxFloat value with
  | some q => if q.den = 1 then SwiftInt.ofInt? q.num else none
  | none => none

/-- The elements of an unkeyed container, one after the other. -/
def unboxStrings : Data → Option (List String)
  | .array container => container.mapM unboxString
  | _ => none

/-- The entry of a keyed container; a value that is no dictionary has none. -/
def entry : Data → String → Option Data
  | .dictionary container, key => objectForKey ⟨key⟩ container
  | _, _ => none

def Contract.box (c : Contract) : Data := .dictionary [
  (⟨"uid"⟩, boxString c.uid),
  (⟨"dressUID"⟩, boxString c.dressUID),
  (⟨"brideUID"⟩, boxString c.brideUID),
  (⟨"specialistUID"⟩, boxString c.specialistUID),
  (⟨"eventDate"⟩, boxDate c.eventDate),
  (⟨"alterations"⟩, boxStrings c.alterations)]

def Contract.unbox (v : Data) : Option Contract := do
  let uid ← (entry v "uid").bind unboxString
  let dressUID ← (entry v "dressUID").bind unboxString
  let brideUID ← (entry v "brideUID").bind unboxString
  let specialistUID ← (entry v "specialistUID").bind unboxString
  let eventDate ← (entry v "eventDate").bind unboxFloat
  let alterations ← (entry v "alterations").bind unboxStrings
  return { uid, dressUID, brideUID, specialistUID, eventDate, alterations }

def Bride.box (b : Bride) : Data := .dictionary [
  (⟨"firstName"⟩, boxString b.firstName),
  (⟨"lastName"⟩, boxString b.lastName),
  (⟨"email"⟩, boxString b.email),
  (⟨"uid"⟩, boxString b.uid),
  (⟨"specialist"⟩, boxString b.specialist),
  (⟨"measurements"⟩, boxStrings b.measurements),
  (⟨"dresses"⟩, boxStrings b.dresses)]

def Bride.unbox (v : Data) : Option Bride := do
  let firstName ← (entry v "firstName").bind unboxString
  let lastName ← (entry v "lastName").bind unboxString
  let email ← (entry v "email").bind unboxString
  let uid ← (entry v "uid").bind unboxString
  let specialist ← (entry v "specialist").bind unboxString
  let measurements ← (entry v "measurements").bind unboxStrings
  let dresses ← (entry v "dresses").bind unboxStrings
  return { firstName, lastName, email, uid, specialist, measurements, dresses }

def Specialist.box (s : Specialist) : Data := .dictionary [
  (⟨"firstName"⟩, boxString s.firstName),
  (⟨"lastName"⟩, boxString s.lastName),
  (⟨"email"⟩, boxString s.email),
  (⟨"uid"⟩, boxString s.uid),
  (⟨"brides"⟩, boxStrings s.brides),
  (⟨"contracts"⟩, boxStrings s.contracts)]

def Specialist.unbox (v : Data) : Option Specialist := do
  let firstName ← (entry v "firstName").bind unboxString
  let lastName ← (entry v "lastName").bind unboxString
  let email ← (entry v "email").bind unboxString
  let uid ← (entry v "uid").bind unboxString
  let brides ← (entry v "brides").bind unboxStrings
  let contracts ← (entry v "contracts").bind unboxStrings
  return { firstName, lastName, email, uid, brides, contracts }

def Dress.box (d : Dress) : Data := .dictionary [
  (⟨"uid"⟩, boxString d.uid),
  (⟨"invoiceNumber"⟩, boxInt d.invoiceNumber),
  (⟨"brideUID"⟩, boxString d.brideUID),
  (⟨"purchaseDate"⟩, boxDate d.purchaseDate)]

def Dress.unbox (v : Data) : Option Dress := do
  let uid ← (entry v "uid").bind unboxString
  let invoiceNumber ← (entry v "invoiceNumber").bind unboxInt
  let brideUID ← (entry v "brideUID").bind unboxString
  let purchaseDate ← (entry v "purchaseDate").bind unboxFloat
  return { uid, invoiceNumber, brideUID, purchaseDate }

def Measurement.box (m : Measurement) : Data := .dictionary [
  (⟨"bride"⟩, boxString m.bride),
  (⟨"uid"⟩, boxString m.uid),
  (⟨"date"⟩, boxDate m.date),
  (⟨"bust"⟩, boxFloat m.bust),
  (⟨"waist"⟩, boxFloat m.waist),
  (⟨"hip"⟩, boxFloat m.hip)]

def Measurement.unbox (v : Data) : Option Measurement := do
  let bride ← (entry v "bride").bind unboxString
  let uid ← (entry v "uid").bind unboxString
  let date ← (entry v "date").bind unboxFloat
  let bust ← (entry v "bust").bind unboxFloat
  let waist ← (entry v "waist").bind unboxFloat
  let hip ← (entry v "hip").bind unboxFloat
  return { bride, uid, date, bust := .finite bust, waist := .finite waist, hip := .finite hip }

def AlterationStruct.box (a : AlterationStruct) : Data := .dictionary [
  (⟨"name"⟩, boxString a.name),
  (⟨"minCost"⟩, boxFloat (.finite a.minCost)),
  (⟨"maxCost"⟩, boxFloat (.finite a.maxCost)),
  (⟨"actualCost"⟩, boxFloat (.finite a.actualCost)),
  (⟨"totalCost"⟩, boxFloat (.finite a.totalCost)),
  (⟨"costDetails"⟩, boxString a.costDetails),
  (⟨"costUnit"⟩, boxString a.costUnit),
  (⟨"units"⟩, boxInt a.units),
  (⟨"secondaryCost"⟩, boxFloat (.finite a.secondaryCost)),
  (⟨"secondaryCostDetails"⟩, boxString a.secondaryCostDetails),
  (⟨"uid"⟩, boxString a.uid),
  (⟨"contractUID"⟩, boxString a.contractUID),
  (⟨"status"⟩, boxFloat (.finite a.status))]

def AlterationStruct.unbox (v : Data) : Option AlterationStruct := do
  let name ← (entry v "name").bind unboxString
  let minCost ← (entry v "minCost").bind unboxFloat
  let maxCost ← (entry v "maxCost").bind unboxFloat
  let actualCost ← (entry v "actualCost").bind unboxFloat
  let totalCost ← (entry v "totalCost").bind unboxFloat
  let costDetails ← (entry v "costDetails").bind unboxString
  let costUnit ← (entry v "costUnit").bind unboxString
  let units ← (entry v "units").bind unboxInt
  let secondaryCost ← (entry v "secondaryCost").bind unboxFloat
  let secondaryCostDetails ← (entry v "secondaryCostDetails").bind unboxString
  let uid ← (entry v "uid").bind unboxString
  let contractUID ← (entry v "contractUID").bind unboxString
  let status ← (entry v "status").bind unboxFloat
  return ⟨name, minCost, maxCost, actualCost, totalCost, costDetails, costUnit, units,
    secondaryCost, secondaryCostDetails, uid, contractUID, status⟩

def Leaf.box : Leaf → Data
  | .string s => boxString s
  | .number x => boxFloat x
  | .strings head tail => boxStrings (head :: tail)

/-- The leaves with every list of strings taken apart. -/
def expand : Node → Tree Key Atom
  | t, [] => match t [] with
    | some a => a.box.tree []
    | none => none
  | t, k :: q => match t [] with
    | some a => a.box.tree (k :: q)
    | none => expand (t.sub [k.name]) q

theorem expand_of_leaf {t : Node} {a : Leaf} (h : t [] = some a) : expand t = a.box.tree := by
  funext q
  cases q <;> simp only [expand, h]

theorem expand_cons {t : Node} (h : t [] = none) (k : Key) (q : List Key) :
    expand t (k :: q) = expand (t.sub [k.name]) q := by simp only [expand, h]

theorem expand_nil {t : Node} (h : t [] = none) : expand t [] = none := by simp only [expand, h]

theorem expand_empty : expand KeyTree.empty = KeyTree.empty := by
  funext q
  induction q with
  | nil => rfl
  | cons k q ih =>
    rw [expand_cons rfl]
    exact ih

/-- With no leaf above a path, the leaves below it are taken apart where they are. -/
theorem expand_sub {t : Node} {p : List String} (h : t.ClearAbove p) :
    (expand t).sub (p.map Key.mk) = expand (t.sub p) := by
  induction p generalizing t with
  | nil => rfl
  | cons k p ih =>
    have hroot : t [] = none := h [] List.nil_prefix (by simp)
    have hrest : (t.sub [k]).ClearAbove p := by
      intro q hq hne
      exact h (k :: q) (List.cons_prefix_cons.mpr ⟨rfl, hq⟩) (by simpa using hne)
    funext q
    have hq := congrFun (ih hrest) q
    simp only [Tree.sub, List.map_cons, List.cons_append] at hq ⊢
    rw [expand_cons hroot]
    exact hq

theorem clearAbove_expand {t : Node} {p : List String} (h : t.ClearAbove p) :
    (expand t).ClearAbove (p.map Key.mk) := by
  intro q hq hne
  obtain ⟨r, hr⟩ := hq
  obtain ⟨p', r', rfl, rfl, rfl⟩ := List.append_eq_map_iff.mp hr
  have hp : p' <+: p' ++ r' := List.prefix_append ..
  have habove : p' ≠ p' ++ r' := fun heq => hne (congrArg (List.map Key.mk) heq)
  have hclear : t.ClearAbove p' := by
    intro q hq hne'
    refine h q (hq.trans hp) fun heq => hne' ?_
    subst heq
    exact hq.eq_of_length (Nat.le_antisymm hq.length_le hp.length_le)
  have hnil := congrFun (expand_sub hclear) []
  rw [expand_nil (t := t.sub p')] at hnil
  · rwa [Tree.sub, List.append_nil] at hnil
  · have hleaf := h p' hp habove
    rwa [← List.append_nil p'] at hleaf

theorem expand_setValue {t v : Node} {p : List String} (h : t.ClearAbove p) :
    expand (t.setValue p v) = (expand t).setValue (p.map Key.mk) (expand v) := by
  induction p generalizing t with
  | nil =>
    have hnil : t.setValue [] v = v := sub_setValue_self t v []
    have hnil' : (expand t).setValue [] (expand v) = expand v := sub_setValue_self _ _ []
    rw [hnil, List.map_nil, hnil']
  | cons k p ih =>
    have hroot : t [] = none := h [] List.nil_prefix (by simp)
    have hroot' : (t.setValue (k :: p) v) [] = none := by simp [Tree.setValue]
    have hrest : (t.sub [k]).ClearAbove p := by
      intro q hq hne
      exact h (k :: q) (List.cons_prefix_cons.mpr ⟨rfl, hq⟩) (by simpa using hne)
    have hbelow : (expand t).sub [⟨k⟩] = expand (t.sub [k]) :=
      funext fun q => expand_cons hroot ⟨k⟩ q
    funext q
    cases q with
    | nil =>
      rw [expand_nil hroot']
      simp [Tree.setValue]
    | cons k' q =>
      rw [expand_cons hroot']
      by_cases hk : k' = ⟨k⟩
      · subst hk
        have hsub := sub_setValue_below t v [k] p
        have hsub' := sub_setValue_below (expand t) (expand v) [⟨k⟩] (p.map Key.mk)
        rw [hbelow, ← ih hrest] at hsub'
        rw [List.singleton_append] at hsub hsub'
        rw [hsub]
        exact (congrFun hsub' q).symm
      · have hname : k'.name ≠ k := fun hname => hk (congrArg Key.mk hname)
        have hsub := sub_setValue_apart t v (p := k :: p) (q := [k'.name])
          (fun hp => hname (List.cons_prefix_cons.mp hp).1.symm)
          (fun hp => hname (List.cons_prefix_cons.mp hp).1)
        have hsub' := sub_setValue_apart (expand t) (expand v) (p := ⟨k⟩ :: p.map Key.mk)
          (q := [k']) (fun hp => hk (List.cons_prefix_cons.mp hp).1.symm)
          (fun hp => hk (List.cons_prefix_cons.mp hp).1)
        rw [hsub, ← expand_cons hroot]
        exact (congrFun hsub' q).symm

/-- A dictionary has the leaves of its fields. -/
theorem tree_dictionary {fields : List (String × Node)} {dval : List (Key × Data)}
    (h : List.Forall₂ (fun f e => e.1 = ⟨f.1⟩ ∧ e.2.tree = expand f.2) fields dval) :
    (Value.dictionary dval).tree = expand (keyed fields) := by
  funext q
  cases q with
  | nil => rfl
  | cons k q =>
    rw [expand_cons rfl, sub_keyed, Value.tree_cons, Value.entries]
    induction h with
    | nil => exact (congrFun Value.tree_null q).trans (congrFun expand_empty q).symm
    | @cons f e fields dval hfirst hrest ih =>
      rw [objectForKey, List.lookup_cons]
      by_cases hk : k = e.1
      · have hname : (k.name == f.1) = true := by rw [hk, hfirst.1, beq_self_eq_true]
        rw [if_pos hk, hname, Option.getD_some, Option.getD_some, hfirst.2]
      · have hname : (k.name == f.1) = false := by
          rw [beq_eq_false_iff_ne]
          intro hname
          exact hk ((congrArg Key.mk hname).trans hfirst.1.symm)
        rw [if_neg hk, hname]
        exact ih

@[simp] theorem tree_boxString (s : String) : (boxString s).tree = expand (encodeString s) :=
  (expand_of_leaf (a := .string s) rfl).symm

@[simp] theorem tree_boxFloat (x : SwiftFloat) : (boxFloat x).tree = expand (leaf (.number x)) :=
  (expand_of_leaf (a := .number x) rfl).symm

@[simp] theorem tree_boxDate (date : Date) : (boxDate date).tree = expand (encodeFloat date) :=
  tree_boxFloat _

@[simp] theorem tree_boxInt (i : SwiftInt) : (boxInt i).tree = expand (encodeInt i) :=
  tree_boxFloat _

@[simp] theorem tree_boxStrings (l : List String) :
    (boxStrings l).tree = expand (encodeStrings l) := by
  cases l with
  | nil =>
    have hnone : (boxStrings []).tree = KeyTree.empty := by
      funext q
      cases q <;> rfl
    exact hnone.trans expand_empty.symm
  | cons head tail => exact (expand_of_leaf (a := .strings head tail) rfl).symm

theorem Contract.tree_box (c : Contract) : c.box.tree = expand c.encode :=
  tree_dictionary (by simp)

theorem Bride.tree_box (b : Bride) : b.box.tree = expand b.encode := tree_dictionary (by simp)

theorem Specialist.tree_box (s : Specialist) : s.box.tree = expand s.encode :=
  tree_dictionary (by simp)

theorem Dress.tree_box (d : Dress) : d.box.tree = expand d.encode := tree_dictionary (by simp)

theorem Measurement.tree_box (m : Measurement) : m.box.tree = expand m.encode :=
  tree_dictionary (by simp)

theorem AlterationStruct.tree_box (a : AlterationStruct) : a.box.tree = expand a.encode :=
  tree_dictionary (by simp [encodeFloat])

/-- The name of a field is made of letters. -/
def Letters (field : String) : Prop := field ≠ "" ∧ ∀ c ∈ field.toList, c.isAlpha = true

instance (field : String) : Decidable (Letters field) :=
  decidable_of_iff (field ≠ "" ∧ field.toList.all Char.isAlpha = true) (by simp [Letters])

/-- An array has an integer number of elements. -/
def Leaf.Short : Leaf → Prop
  | .strings _ tail => tail.length < 2 ^ 63
  | .string _ | .number _ => True

/-- The leaves of a record are its fields. -/
def Fields (t : Node) : Prop := ∀ q a, t q = some a → ∃ f, q = [f] ∧ Letters f ∧ a.Short

/-- ASCII has the ten decimal digits and no others. -/
def AsciiDigits (decimalDigit : Char → Bool) : Prop :=
  ∀ c : Char, c.toNat < 128 → decimalDigit c = c.isDigit

section Read
variable {decimalDigit : Char → Bool} {t : Node} {n : FNode Key Atom}

theorem ascii_of_isAlpha {c : Char} (h : c.isAlpha = true) : c.toNat < 128 ∧ c.isDigit = false := by
  have hrange : 65 ≤ c.toNat ∧ c.toNat ≤ 122 := by
    have hcases : (c.isUpper || c.isLower) = true := h
    rw [Bool.or_eq_true] at hcases
    cases hcases with
    | inl hupper =>
      have hbounds : c.val ≥ 65 ∧ c.val ≤ 90 := of_decide_eq_true hupper
      have hlow : 65 ≤ c.toNat := hbounds.1
      have hhigh : c.toNat ≤ 90 := hbounds.2
      omega
    | inr hlower =>
      have hbounds : (decide (c.val ≥ 97) && decide (c.val ≤ 122)) = true := hlower
      rw [Bool.and_eq_true, decide_eq_true_eq, decide_eq_true_eq] at hbounds
      have hlow : 97 ≤ c.toNat := hbounds.1
      have hhigh : c.toNat ≤ 122 := hbounds.2
      omega
  refine ⟨by omega, Bool.eq_false_iff.mpr fun hdigit => ?_⟩
  rw [Char.isDigit, Bool.and_eq_true, decide_eq_true_eq, decide_eq_true_eq] at hdigit
  have hhigh : c.toNat ≤ 57 := hdigit.2
  omega

theorem keyAsInt_letters (hdigit : AsciiDigits decimalDigit) {f : String} (hf : Letters f) :
    keyAsInt decimalDigit ⟨f⟩ = none := by
  obtain ⟨c, rest, hlist⟩ := List.exists_cons_of_ne_nil (mt String.toList_eq_nil_iff.mp hf.1)
  obtain ⟨hascii, hno⟩ := ascii_of_isAlpha (hf.2 c (hlist ▸ List.mem_cons_self ..))
  rw [keyAsInt]
  split_ifs
  · rfl
  · rw [intForString, if_neg]
    intro hall
    have hc := List.all_eq_true.mp hall c (hlist ▸ List.mem_cons_self ..)
    rw [hdigit c hascii, hno] at hc
    cases hc

theorem maxKey_letters (hdigit : AsciiDigits decimalDigit) {cs : List (Key × FNode Key Atom)}
    {f : String} {c : FNode Key Atom} (hf : Letters f) (hmem : (⟨f⟩, c) ∈ cs) (m : Nat) :
    maxKey decimalDigit cs m = none := by
  cases hmax : maxKey decimalDigit cs m with
  | none => rfl
  | some m' =>
    obtain ⟨i, -, hkey⟩ := (le_maxKey hmax).2 _ hmem
    rw [keyAsInt_letters hdigit hf] at hkey
    cases hkey

/-- A field is read as it was boxed. -/
theorem Leaf.val_box (hdigit : AsciiDigits decimalDigit) {a : Leaf} (hn : n.Canonical)
    (htree : n.tree = a.box.tree) (ha : a.Short) : n.val decimalDigit = a.box := by
  have hatom : ∀ x : Atom, n.tree = (Value.leaf x : Data).tree → n.val decimalDigit = .leaf x := by
    intro x hx
    have hleaf : (Value.leaf x : Data).tree = (FNode.leaf x : FNode Key Atom).tree := by
      funext q
      cases q <;> rfl
    rw [hn.ext (.leaf x) (hx.trans hleaf), FNode.val]
  cases a with
  | string s => exact hatom _ htree
  | number x => exact hatom _ htree
  | strings head tail =>
    have hbox : (Leaf.strings head tail).box =
        .array (((head :: tail).map Atom.string).map .leaf) := by
      rw [Leaf.box, boxStrings, List.map_map]
      rfl
    rw [hbox] at htree ⊢
    have hlength : ((head :: tail).map Atom.string).length ≤ 2 ^ 63 := by
      rw [List.length_map, List.length_cons]
      exact ha
    refine val_leaves (fun c hc => ?_) hn htree (by simp) hlength
    have hascii : c.toNat < 128 := by
      rw [Char.isDigit, Bool.and_eq_true, decide_eq_true_eq, decide_eq_true_eq] at hc
      have hhigh : c.toNat ≤ 57 := hc.2
      omega
    rw [hdigit c hascii, hc]

theorem Fields.root (ht : Fields t) : t [] = none := by
  cases hleaf : t [] with
  | none => rfl
  | some a =>
    obtain ⟨f, hf, -⟩ := ht [] a hleaf
    cases hf

theorem Fields.below (ht : Fields t) {f : String} (hf : t [f] = none) :
    t.sub [f] = KeyTree.empty := by
  funext r
  cases r with
  | nil => exact hf
  | cons k r =>
    cases hleaf : t ([f] ++ k :: r) with
    | none => exact hleaf
    | some a =>
      obtain ⟨g, hg, -⟩ := ht _ a hleaf
      cases hg

/-- A decoded record is a value whose entries are the fields. -/
def Reads (v : Data) (t : Node) : Prop := ∀ f, entry v f = (t [f]).map Leaf.box

/-- The value of a node with the leaves of a record has its fields. -/
theorem Fields.reads_val (hdigit : AsciiDigits decimalDigit) (ht : Fields t) (hn : n.Canonical)
    (htree : n.tree = expand t) : Reads (n.val decimalDigit) t := by
  have hchild : ∀ f, (n.getImmediateChild ⟨f⟩).tree = expand (t.sub [f]) := by
    intro f
    funext q
    rw [← FNode.tree_cons, htree, expand_cons ht.root]
  have hsome : ∀ f a, t [f] = some a →
      Letters f ∧ (n.getImmediateChild ⟨f⟩).val decimalDigit = a.box := by
    intro f a hleaf
    obtain ⟨g, hg, hletters, hshort⟩ := ht _ _ hleaf
    cases hg
    refine ⟨hletters, Leaf.val_box hdigit (hn.getImmediateChild _) ?_ hshort⟩
    rw [hchild, expand_of_leaf hleaf]
  have hnone : ∀ f, t [f] = none → n.getImmediateChild ⟨f⟩ = .emptyNode := by
    intro f hleaf
    refine (hn.getImmediateChild _).ext FNode.canonical_emptyNode ?_
    rw [hchild, ht.below hleaf, expand_empty, FNode.tree_emptyNode]
  cases hn with
  | leaf value =>
    have hroot := congrFun htree []
    rw [expand_nil ht.root] at hroot
    cases hroot
  | @children cs sorted nonempty canonical =>
    have hget : ∀ f, (objectForKey ⟨f⟩ cs).map (FNode.val decimalDigit) =
        (t [f]).map Leaf.box := by
      intro f
      cases hleaf : t [f] with
      | none =>
        have hempty := hnone f hleaf
        rw [FNode.getImmediateChild] at hempty
        cases hcs : objectForKey ⟨f⟩ cs with
        | none => rfl
        | some c =>
          rw [hcs] at hempty
          cases hempty
          cases nonempty _ (mem_of_objectForKey hcs)
      | some a =>
        have hval := (hsome f a hleaf).2
        rw [FNode.getImmediateChild] at hval
        cases hcs : objectForKey ⟨f⟩ cs with
        | none =>
          rw [hcs] at hval
          cases a <;> cases hval
        | some c =>
          rw [hcs] at hval
          exact congrArg some hval
    intro f
    rw [← hget f]
    cases cs with
    | nil => rfl
    | cons e rest =>
      have hdictionary : maxKey decimalDigit (e :: rest) 0 = none := by
        cases hleaf : t [e.1.name] with
        | none =>
          have he := hget e.1.name
          rw [hleaf, objectForKey, if_pos rfl] at he
          cases he
        | some a =>
          exact maxKey_letters hdigit (hsome _ a hleaf).1 (c := e.2) (List.mem_cons_self ..) 0
      simp only [FNode.val, List.isEmpty_cons, Bool.false_eq_true, if_false, hdictionary]
      exact objectForKey_valEntries _ _

end Read

section Decode
variable {v : Data} {t : Node}

theorem Reads.unboxString (h : Reads v t) (f : String) :
    (entry v f).bind unboxString = asString (t.sub [f]) := by
  rw [h, asString, show (t.sub [f]).value = t [f] from rfl]
  cases t [f] with
  | none => rfl
  | some a => cases a <;> rfl

theorem Reads.unboxFloat (h : Reads v t) (f : String) :
    (entry v f).bind unboxFloat = asFloat (t.sub [f]) := by
  rw [h, asFloat, show (t.sub [f]).value = t [f] from rfl]
  cases t [f] with
  | none => rfl
  | some a =>
    cases a with
    | number x => cases x <;> rfl
    | _ => rfl

theorem Reads.unboxInt (h : Reads v t) (f : String) :
    (entry v f).bind unboxInt = asInt (t.sub [f]) := by
  rw [asInt, ← h.unboxFloat]
  cases entry v f <;> rfl

theorem Reads.unboxStrings (h : Reads v t) (f : String) :
    (entry v f).bind unboxStrings = asStrings (t.sub [f]) := by
  have hlist : ∀ l : List String, (l.map boxString).mapM Structs.unboxString = some l := by
    intro l
    induction l with
    | nil => rfl
    | cons s l ih => simp [ih, boxString, Structs.unboxString]
  rw [h, asStrings, show (t.sub [f]).value = t [f] from rfl]
  cases t [f] with
  | none => rfl
  | some a =>
    cases a with
    | strings head tail => exact hlist (head :: tail)
    | _ => rfl

end Decode

section Records
variable {v : Data} {t : Node}

theorem Reads.contract (h : Reads v t) : Contract.unbox v = Contract.decode t := by
  simp only [Contract.unbox, Contract.decode, h.unboxString, h.unboxFloat, h.unboxStrings]

theorem Reads.bride (h : Reads v t) : Bride.unbox v = Bride.decode t := by
  simp only [Bride.unbox, Bride.decode, h.unboxString, h.unboxStrings]

theorem Reads.specialist (h : Reads v t) : Specialist.unbox v = Specialist.decode t := by
  simp only [Specialist.unbox, Specialist.decode, h.unboxString, h.unboxStrings]

theorem Reads.dress (h : Reads v t) : Dress.unbox v = Dress.decode t := by
  simp only [Dress.unbox, Dress.decode, h.unboxString, h.unboxFloat, h.unboxInt]

theorem Reads.measurement (h : Reads v t) : Measurement.unbox v = Measurement.decode t := by
  simp only [Measurement.unbox, Measurement.decode, h.unboxString, h.unboxFloat]

theorem Reads.alterationStruct (h : Reads v t) :
    AlterationStruct.unbox v = AlterationStruct.decode t := by
  simp only [AlterationStruct.unbox, AlterationStruct.decode, h.unboxString, h.unboxFloat,
    h.unboxInt]

end Records

end Pincushion.Structs
