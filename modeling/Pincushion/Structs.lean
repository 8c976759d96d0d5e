import Pincushion.KeyTree
import Pincushion.SwiftNumber

/-! The records of the database and their encoding as named leaves. -/
namespace Pincushion.Structs
open KeyTree SwiftNumber

/-- A list of strings is written and read as one value. It is never empty: the
database stores an empty array as no value. -/
inductive Leaf where
  | string (s : String)
  | number (x : SwiftFloat)
  | strings (head : String) (tail : List String)
deriving DecidableEq

abbrev Node := Tree String Leaf

/-- Seconds since the reference date. -/
abbrev Date := ℚ

def encodeString (s : String) : Node := leaf (.string s)
def encodeFloat (q : ℚ) : Node := leaf (.number (.finite q))
def encodeInt (i : SwiftInt) : Node := encodeFloat i.val

def encodeStrings : List String → Node
  | [] => empty
  | head :: tail => leaf (.strings head tail)

def asString (n : Node) : Option String := match n.value with
  | some (.string s) => some s
  | _ => none

def asFloat (n : Node) : Option ℚ := match n.value with
  | some (.number (.finite q)) => some q
  | _ => none

def asInt (n : Node) : Option SwiftInt := match asFloat n with
  | some q => if q.den = 1 then SwiftInt.ofInt? q.num else none
  | none => none

/-- `value as? [String]` -/
def asStrings (n : Node) : Option (List String) := match n.value with
  | some (.strings head tail) => some (head :: tail)
  | _ => none

@[simp] theorem asString_encode (s : String) : asString (encodeString s) = some s := rfl
@[simp] theorem asFloat_encode (q : ℚ) : asFloat (encodeFloat q) = some q := rfl

@[simp] theorem asInt_encode (i : SwiftInt) : asInt (encodeInt i) = some i := by
  simp [asInt, encodeInt, SwiftInt.ofInt?_val]

theorem asStrings_encode {l : List String} (h : l ≠ []) : asStrings (encodeStrings l) = some l := by
  cases l with
  | nil => exact absurd rfl h
  | cons head tail => rfl

theorem asStrings_ne_nil {n : Node} {l : List String} (h : asStrings n = some l) : l ≠ [] := by
  unfold asStrings at h
  split at h
  · cases h
    simp
  · cases h

/-- A node whose children are the given fields. -/
def keyed (fields : List (String × Node)) : Node
  | [] => none
  | k :: q => match fields.lookup k with
    | some n => n q
    | none => none

theorem sub_keyed (fields : List (String × Node)) (k : String) :
    (keyed fields).sub [k] = (fields.lookup k).getD empty := by
  funext q
  simp only [Tree.sub, List.cons_append, List.nil_append, keyed]
  cases fields.lookup k <;> rfl

structure Contract where
  uid : String
  dressUID : String
  brideUID : String
  specialistUID : String
  eventDate : Date
  alterations : List String
deriving DecidableEq

def Contract.encode (c : Contract) : Node := keyed [
  ("uid", encodeString c.uid),
  ("dressUID", encodeString c.dressUID),
  ("brideUID", encodeString c.brideUID),
  ("specialistUID", encodeString c.specialistUID),
  ("eventDate", encodeFloat c.eventDate),
  ("alterations", encodeStrings c.alterations)]

def Contract.decode (n : Node) : Option Contract := do
  let uid ← asString (n.sub ["uid"])
  let dressUID ← asString (n.sub ["dressUID"])
  let brideUID ← asString (n.sub ["brideUID"])
  let specialistUID ← asString (n.sub ["specialistUID"])
  let eventDate ← asFloat (n.sub ["eventDate"])
  let alterations ← asStrings (n.sub ["alterations"])
  return { uid, dressUID, brideUID, specialistUID, eventDate, alterations }

structure Bride where
  firstName : String
  lastName : String
  email : String
  uid : String
  specialist : String
  measurements : List String
  dresses : List String
deriving DecidableEq

def Bride.encode (b : Bride) : Node := keyed [
  ("firstName", encodeString b.firstName),
  ("lastName", encodeString b.lastName),
  ("email", encodeString b.email),
  ("uid", encodeString b.uid),
  ("specialist", encodeString b.specialist),
  ("measurements", encodeStrings b.measurements),
  ("dresses", encodeStrings b.dresses)]

def Bride.decode (n : Node) : Option Bride := do
  let firstName ← asString (n.sub ["firstName"])
  let lastName ← asString (n.sub ["lastName"])
  let email ← asString (n.sub ["email"])
  let uid ← asString (n.sub ["uid"])
  let specialist ← asString (n.sub ["specialist"])
  let measurements ← asStrings (n.sub ["measurements"])
  let dresses ← asStrings (n.sub ["dresses"])
  return { firstName, lastName, email, uid, specialist, measurements, dresses }

structure Specialist where
  firstName : String
  lastName : String
  email : String
  uid : String
  brides : List String
  contracts : List String
deriving DecidableEq

def Specialist.encode (s : Specialist) : Node := keyed [
  ("firstName", encodeString s.firstName),
  ("lastName", encodeString s.lastName),
  ("email", encodeString s.email),
  ("uid", encodeString s.uid),
  ("brides", encodeStrings s.brides),
  ("contracts", encodeStrings s.contracts)]

def Specialist.decode (n : Node) : Option Specialist := do
  let firstName ← asString (n.sub ["firstName"])
  let lastName ← asString (n.sub ["lastName"])
  let email ← asString (n.sub ["email"])
  let uid ← asString (n.sub ["uid"])
  let brides ← asStrings (n.sub ["brides"])
  let contracts ← asStrings (n.sub ["contracts"])
  return { firstName, lastName, email, uid, brides, contracts }

/-- `invoiceNumber` is the constant 0001 wherever the app makes a dress. -/
structure Dress where
  uid : String
  invoiceNumber : SwiftInt
  brideUID : String
  purchaseDate : Date
deriving DecidableEq

def Dress.encode (d : Dress) : Node := keyed [
  ("uid", encodeString d.uid),
  ("invoiceNumber", encodeInt d.invoiceNumber),
  ("brideUID", encodeString d.brideUID),
  ("purchaseDate", encodeFloat d.purchaseDate)]

def Dress.decode (n : Node) : Option Dress := do
  let uid ← asString (n.sub ["uid"])
  let invoiceNumber ← asInt (n.sub ["invoiceNumber"])
  let brideUID ← asString (n.sub ["brideUID"])
  let purchaseDate ← asFloat (n.sub ["purchaseDate"])
  return { uid, invoiceNumber, brideUID, purchaseDate }

/-- The three sizes may be any `Float` a text denotes; decoding accepts only
finite ones, as the decoder's range check does. -/
structure Measurement where
  bride : String
  uid : String
  date : Date
  bust : SwiftFloat
  waist : SwiftFloat
  hip : SwiftFloat
deriving DecidableEq

def Measurement.encode (m : Measurement) : Node := keyed [
  ("bride", encodeString m.bride),
  ("uid", encodeString m.uid),
  ("date", encodeFloat m.date),
  ("bust", leaf (.number m.bust)),
  ("waist", leaf (.number m.waist)),
  ("hip", leaf (.number m.hip))]

def Measurement.decode (n : Node) : Option Measurement := do
  let bride ← asString (n.sub ["bride"])
  let uid ← asString (n.sub ["uid"])
  let date ← asFloat (n.sub ["date"])
  let bust ← asFloat (n.sub ["bust"])
  let waist ← asFloat (n.sub ["waist"])
  let hip ← asFloat (n.sub ["hip"])
  return { bride, uid, date, bust := .finite bust, waist := .finite waist, hip := .finite hip }

/-- What the catalogue objects offer to the screens. -/
structure AlterationType where
  name : String
  minCost : ℚ
  maxCost : ℚ
  actualCost : ℚ
  totalCost : ℚ
  costDetails : String
  costUnit : String
  units : SwiftInt
  secondaryCost : ℚ
  secondaryCostDetails : String
deriving DecidableEq

structure AlterationStruct where
  name : String
  minCost : ℚ
  maxCost : ℚ
  actualCost : ℚ
  totalCost : ℚ
  costDetails : String
  costUnit : String
  units : SwiftInt
  secondaryCost : ℚ
  secondaryCostDetails : String
  uid : String
  contractUID : String
  status : ℚ
deriving DecidableEq, Inhabited

def AlterationStruct.getTotalCost (a : AlterationStruct) : ℚ :=
  a.actualCost * a.units.val + a.secondaryCost

/-- The initialiser; its dressUID argument is not stored. -/
def AlterationStruct.init (object : AlterationType) (uid contractUID : String) (status : ℚ) :
    AlterationStruct where
  name := object.name
  minCost := object.minCost
  maxCost := object.maxCost
  actualCost := object.actualCost
  totalCost := 0
  costDetails := object.costDetails
  costUnit := object.costUnit
  units := object.units
  secondaryCost := object.secondaryCost
  secondaryCostDetails := object.secondaryCostDetails
  uid := uid
  contractUID := contractUID
  status := status

def AlterationStruct.encode (a : AlterationStruct) : Node := keyed [
  ("name", encodeString a.name),
  ("minCost", encodeFloat a.minCost),
  ("maxCost", encodeFloat a.maxCost),
  ("actualCost", encodeFloat a.actualCost),
  ("totalCost", encodeFloat a.totalCost),
  ("costDetails", encodeString a.costDetails),
  ("costUnit", encodeString a.costUnit),
  ("units", encodeInt a.units),
  ("secondaryCost", encodeFloat a.secondaryCost),
  ("secondaryCostDetails", encodeString a.secondaryCostDetails),
  ("uid", encodeString a.uid),
  ("contractUID", encodeString a.contractUID),
  ("status", encodeFloat a.status)]

def AlterationStruct.decode (n : Node) : Option AlterationStruct := do
  let name ← asString (n.sub ["name"])
  let minCost ← asFloat (n.sub ["minCost"])
  let maxCost ← asFloat (n.sub ["maxCost"])
  let actualCost ← asFloat (n.sub ["actualCost"])
  let totalCost ← asFloat (n.sub ["totalCost"])
  let costDetails ← asString (n.sub ["costDetails"])
  let costUnit ← asString (n.sub ["costUnit"])
  let units ← asInt (n.sub ["units"])
  let secondaryCost ← asFloat (n.sub ["secondaryCost"])
  let secondaryCostDetails ← asString (n.sub ["secondaryCostDetails"])
  let uid ← asString (n.sub ["uid"])
  let contractUID ← asString (n.sub ["contractUID"])
  let status ← asFloat (n.sub ["status"])
  return ⟨name, minCost, maxCost, actualCost, totalCost, costDetails, costUnit, units,
    secondaryCost, secondaryCostDetails, uid, contractUID, status⟩

theorem AlterationStruct.decode_encode (a : AlterationStruct) :
    AlterationStruct.decode a.encode = some a := by
  simp [AlterationStruct.decode, AlterationStruct.encode, sub_keyed, List.lookup_cons]

theorem Dress.decode_encode (d : Dress) : Dress.decode d.encode = some d := by
  simp [Dress.decode, Dress.encode, sub_keyed, List.lookup_cons]

theorem Contract.decode_encode (c : Contract) (h : c.alterations ≠ []) :
    Contract.decode c.encode = some c := by
  simp [Contract.decode, Contract.encode, sub_keyed, List.lookup_cons, asStrings_encode h]

theorem Bride.decode_encode (b : Bride) (hm : b.measurements ≠ []) (hd : b.dresses ≠ []) :
    Bride.decode b.encode = some b := by
  simp [Bride.decode, Bride.encode, sub_keyed, List.lookup_cons, asStrings_encode hm,
    asStrings_encode hd]

theorem Specialist.decode_encode (s : Specialist) (hb : s.brides ≠ []) (hc : s.contracts ≠ []) :
    Specialist.decode s.encode = some s := by
  simp [Specialist.decode, Specialist.encode, sub_keyed, List.lookup_cons, asStrings_encode hb,
    asStrings_encode hc]

theorem sub_setValue_field {n : Node} {l : List String} {f g : String} (h : f ≠ g) :
    (n.setValue [f] (encodeStrings l)).sub [g] = n.sub [g] :=
  sub_setValue_ne _ _ rfl (by simpa using h)

theorem Contract.decode_setAlterations {n : Node} {c : Contract} {l : List String}
    (h : Contract.decode n = some c) (hl : l ≠ []) :
    Contract.decode (n.setValue ["alterations"] (encodeStrings l)) =
      some { c with alterations := l } := by
  simp only [Contract.decode, Option.bind_eq_bind, Option.bind_eq_some_iff, Option.pure_def,
    Option.some.injEq] at h ⊢
  obtain ⟨uid, hu, dress, hd, bride, hb, specialist, hs, date, he, _, _, rfl⟩ := h
  refine ⟨uid, ?_, dress, ?_, bride, ?_, specialist, ?_, date, ?_, l, ?_, rfl⟩
  · rw [sub_setValue_field (by decide), hu]
  · rw [sub_setValue_field (by decide), hd]
  · rw [sub_setValue_field (by decide), hb]
  · rw [sub_setValue_field (by decide), hs]
  · rw [sub_setValue_field (by decide), he]
  · rw [sub_setValue_self, asStrings_encode hl]

theorem Bride.decode_setMeasurements {n : Node} {b : Bride} {l : List String}
    (h : Bride.decode n = some b) (hl : l ≠ []) :
    Bride.decode (n.setValue ["measurements"] (encodeStrings l)) =
      some { b with measurements := l } := by
  simp only [Bride.decode, Option.bind_eq_bind, Option.bind_eq_some_iff, Option.pure_def,
    Option.some.injEq] at h ⊢
  obtain ⟨first, hf, last, hla, email, he, uid, hu, specialist, hs, _, _, dresses, hd, rfl⟩ := h
  refine ⟨first, ?_, last, ?_, email, ?_, uid, ?_, specialist, ?_, l, ?_, dresses, ?_, rfl⟩
  · rw [sub_setValue_field (by decide), hf]
  · rw [sub_setValue_field (by decide), hla]
  · rw [sub_setValue_field (by decide), he]
  · rw [sub_setValue_field (by decide), hu]
  · rw [sub_setValue_field (by decide), hs]
  · rw [sub_setValue_self, asStrings_encode hl]
  · rw [sub_setValue_field (by decide), hd]

theorem Specialist.decode_setBrides {n : Node} {s : Specialist} {l : List String}
    (h : Specialist.decode n = some s) (hl : l ≠ []) :
    Specialist.decode (n.setValue ["brides"] (encodeStrings l)) = some { s with brides := l } := by
  simp only [Specialist.decode, Option.bind_eq_bind, Option.bind_eq_some_iff, Option.pure_def,
    Option.some.injEq] at h ⊢
  obtain ⟨first, hf, last, hla, email, he, uid, hu, _, _, contracts, hc, rfl⟩ := h
  refine ⟨first, ?_, last, ?_, email, ?_, uid, ?_, l, ?_, contracts, ?_, rfl⟩
  · rw [sub_setValue_field (by decide), hf]
  · rw [sub_setValue_field (by decide), hla]
  · rw [sub_setValue_field (by decide), he]
  · rw [sub_setValue_field (by decide), hu]
  · rw [sub_setValue_self, asStrings_encode hl]
  · rw [sub_setValue_field (by decide), hc]

end Pincushion.Structs
