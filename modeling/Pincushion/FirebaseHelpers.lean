import Pincushion.Structs

/-! The helper methods that write records and lists, as the writes they issue,
and what those writes do to the database. A helper that calls `childByAutoId`
takes the key it got as an argument. -/
namespace Pincushion.FirebaseHelpers
open KeyTree SwiftNumber Structs

/-- The lists of uids that are extended by reading their node and writing the
whole list back. -/
inductive ListTarget where
  | alterations (contractUID : String)
  | measurements (brideUID : String)
  | brides (specialistUID : String)
deriving DecidableEq

def ListTarget.node : ListTarget → List String
  | .alterations c => ["contracts", c]
  | .measurements b => ["brides", b]
  | .brides s => ["specialists", s]

def ListTarget.field : ListTarget → String
  | .alterations _ => "alterations"
  | .measurements _ => "measurements"
  | .brides _ => "brides"

/-- The list in the decoded record of the node. -/
def ListTarget.decode : ListTarget → Node → Option (List String)
  | .alterations _ => fun value => (Contract.decode value).map (·.alterations)
  | .measurements _ => fun value => (Bride.decode value).map (·.measurements)
  | .brides _ => fun value => (Specialist.decode value).map (·.brides)

/-- One form for each value the app sets. -/
inductive Write where
  | specialist (uid : String) (value : Specialist)
  | bride (uid : String) (value : Bride)
  | measurement (uid : String) (value : Measurement)
  | dress (uid : String) (value : Dress)
  | contract (uid : String) (value : Contract)
  | alteration (uid : String) (value : AlterationStruct)
  | list (target : ListTarget) (uids : List String)
deriving DecidableEq

/-- The record a write replaces or changes. -/
def Write.node : Write → List String
  | .specialist uid _ => ["specialists", uid]
  | .bride uid _ => ["brides", uid]
  | .measurement uid _ => ["measurements", uid]
  | .dress uid _ => ["dresses", uid]
  | .contract uid _ => ["contracts", uid]
  | .alteration uid _ => ["alterations", uid]
  | .list target _ => target.node

def Write.path : Write → List String
  | .list target _ => target.node ++ [target.field]
  | w => w.node

def Write.value : Write → Node
  | .specialist _ s => s.encode
  | .bride _ b => b.encode
  | .measurement _ m => m.encode
  | .dress _ d => d.encode
  | .contract _ c => c.encode
  | .alteration _ a => a.encode
  | .list _ uids => encodeStrings uids

def Write.apply (w : Write) (db : Node) : Node := db.setValue w.path w.value

def addSpecialistToFBDB (uid firstName lastName email : String) (brides : List String) : Write :=
  .specialist uid { firstName, lastName, email, uid, brides, contracts := ["-1"] }

def addBrideToFBDB (newBrideKey specialistUID firstName lastName email : String)
    (measurements : List String) : String × Write :=
  (newBrideKey, .bride newBrideKey {
    firstName, lastName, email
    uid := newBrideKey
    specialist := specialistUID
    measurements
    dresses := ["-1"] })

def addMeasurementToFBDB (newMeasurementKey brideUID : String) (date : Date)
    (bust waist hip : SwiftFloat) : String × Write :=
  (newMeasurementKey, .measurement newMeasurementKey {
    bride := brideUID
    uid := newMeasurementKey
    date, bust, waist, hip })

def addDressToFBDB (newDressKey : String) (invoiceNumber : SwiftInt) (brideUID : String)
    (purchaseDate : Date) : String × Write :=
  (newDressKey, .dress newDressKey { uid := newDressKey, invoiceNumber, brideUID, purchaseDate })

def addContractToFBDB (newContractKey dressUID brideUID specialistUID : String)
    (eventDate : Date) : String × Write :=
  (newContractKey, .contract newContractKey {
    uid := newContractKey
    dressUID, brideUID, specialistUID, eventDate
    alterations := ["-1"] })

def addAlterationToFBDB (newAlterationKey contractUID : String)
    (alterationStruct : AlterationStruct) : String × Write :=
  let result := { alterationStruct with contractUID := contractUID, uid := newAlterationKey }
  (newAlterationKey, .alteration newAlterationKey result)

def updateAlterationFBDB (alterationStruct : AlterationStruct) : Write :=
  .alteration alterationStruct.uid alterationStruct

/-- A read of the target's node has been issued, to append to its list. -/
structure ListAppend where
  target : ListTarget
  new : List String
deriving DecidableEq

def getBridesForSpecialist (uid : String) (newBrides : List String) : ListAppend :=
  ⟨.brides uid, newBrides⟩

def updateMesurementsFor (brideUID newMeasurementUID : String) : ListAppend :=
  ⟨.measurements brideUID, [newMeasurementUID]⟩

def updateAlterationsForContract (contractUID newAlterationUID : String) : ListAppend :=
  ⟨.alterations contractUID, [newAlterationUID]⟩

/-- The callback of the read: it sets the list it decoded with the new uids
added, or prints the decoding error and writes nothing. -/
def ListAppend.callback (a : ListAppend) (snapshot : Node) : Option Write :=
  match a.target.decode snapshot with
  | some server => some (.list a.target (server ++ a.new))
  | none => none

theorem ListAppend.callback_eq {a : ListAppend} {snapshot : Node} {w : Write}
    (h : a.callback snapshot = some w) :
    ∃ server, a.target.decode snapshot = some server ∧ w = .list a.target (server ++ a.new) := by
  simp only [ListAppend.callback] at h
  split at h
  · rename_i server hserver
    exact ⟨server, hserver, (Option.some.inj h).symm⟩
  · cases h

def alterationAt (db : Node) (u : String) : Option AlterationStruct :=
  AlterationStruct.decode (db.sub ["alterations", u])

def contractAt (db : Node) (c : String) : Option Contract :=
  Contract.decode (db.sub ["contracts", c])

def brideAt (db : Node) (b : String) : Option Bride := Bride.decode (db.sub ["brides", b])

def dressAt (db : Node) (d : String) : Option Dress := Dress.decode (db.sub ["dresses", d])

def measurementAt (db : Node) (m : String) : Option Measurement :=
  Measurement.decode (db.sub ["measurements", m])

def specialistAt (db : Node) (s : String) : Option Specialist :=
  Specialist.decode (db.sub ["specialists", s])

/-- The list itself, read without its record. -/
def listAt (db : Node) (t : ListTarget) : Option (List String) :=
  asStrings ((db.sub t.node).sub [t.field])

/-- The list as the append callbacks get it, from its whole record. -/
def serverList (db : Node) (t : ListTarget) : Option (List String) := t.decode (db.sub t.node)

theorem Write.length_node (w : Write) : w.node.length = 2 := by
  cases w with
  | list target uids => cases target <;> rfl
  | _ => rfl

theorem ListTarget.node_injective {t t' : ListTarget} (h : t.node = t'.node) : t = t' := by
  cases t <;> cases t' <;> simp_all [ListTarget.node]

/-- A write leaves every other record alone. -/
theorem sub_apply_ne (w : Write) (db : Node) {c k : String} (h : w.node ≠ [c, k]) :
    (w.apply db).sub [c, k] = db.sub [c, k] := by
  have hlen : w.node.length = [c, k].length := w.length_node
  cases w with
  | list target uids => exact sub_setValue_below_ne _ _ _ hlen h
  | _ => exact sub_setValue_ne _ _ hlen h

theorem sub_apply_list (db : Node) (t : ListTarget) (l : List String) :
    ((Write.list t l).apply db).sub t.node = (db.sub t.node).setValue [t.field] (encodeStrings l) :=
  sub_setValue_below _ _ _ _

/-- The record that a write stores under the alteration `u`. -/
def Write.recordFor (u : String) : Write → Option AlterationStruct
  | .alteration v r => if v = u then some r else none
  | _ => none

theorem alterationAt_apply (db : Node) (w : Write) (u : String) :
    alterationAt (w.apply db) u = (w.recordFor u).or (alterationAt db u) := by
  cases w with
  | alteration v r =>
    by_cases h : v = u
    · subst h
      simp only [alterationAt, Write.apply, Write.path, Write.node, sub_setValue_self,
        Write.recordFor, if_true, Option.some_or]
      exact r.decode_encode
    · simp only [alterationAt, Write.recordFor, if_neg h, Option.none_or]
      rw [sub_apply_ne _ _ (by simpa [Write.node] using h)]
  | list t l =>
    simp only [alterationAt, Write.recordFor, Option.none_or]
    rw [sub_apply_ne _ _ (by cases t <;> simp [Write.node, ListTarget.node])]
  | _ =>
    simp only [alterationAt, Write.recordFor, Option.none_or]
    rw [sub_apply_ne _ _ (by simp [Write.node])]

/-- A decoded record carries the list that stands below it. -/
theorem asStrings_of_decode {t : ListTarget} {value : Node} {l : List String}
    (h : t.decode value = some l) : asStrings (value.sub [t.field]) = some l := by
  cases t <;>
  · simp only [ListTarget.decode, Contract.decode, Bride.decode, Specialist.decode,
      Option.bind_eq_bind, Option.map_eq_some_iff, Option.bind_eq_some_iff] at h
    grind [ListTarget.field]

theorem decode_ne_nil {t : ListTarget} {value : Node} {l : List String}
    (h : t.decode value = some l) : l ≠ [] :=
  asStrings_ne_nil (asStrings_of_decode h)

/-- Setting the list of a record that decodes leaves one that decodes with it. -/
theorem serverList_apply_list {db : Node} {t : ListTarget} {l l' : List String}
    (h : serverList db t = some l) (hl : l' ≠ []) :
    serverList ((Write.list t l').apply db) t = some l' := by
  simp only [serverList, sub_apply_list] at h ⊢
  cases t with
  | alterations c =>
    obtain ⟨r, hr, -⟩ := Option.map_eq_some_iff.mp h
    simp only [ListTarget.decode, ListTarget.field, Contract.decode_setAlterations hr hl,
      Option.map_some]
  | measurements b =>
    obtain ⟨r, hr, -⟩ := Option.map_eq_some_iff.mp h
    simp only [ListTarget.decode, ListTarget.field, Bride.decode_setMeasurements hr hl,
      Option.map_some]
  | brides s =>
    obtain ⟨r, hr, -⟩ := Option.map_eq_some_iff.mp h
    simp only [ListTarget.decode, ListTarget.field, Specialist.decode_setBrides hr hl,
      Option.map_some]

theorem serverList_apply_ne (db : Node) (w : Write) {t : ListTarget} (h : w.node ≠ t.node) :
    serverList (w.apply db) t = serverList db t := by
  cases t <;>
  · simp only [serverList, ListTarget.node] at h ⊢
    rw [sub_apply_ne _ _ h]

theorem listAt_apply_ne (db : Node) (w : Write) {t : ListTarget} (h : w.node ≠ t.node) :
    listAt (w.apply db) t = listAt db t := by
  cases t <;>
  · simp only [listAt, ListTarget.node] at h ⊢
    rw [sub_apply_ne _ _ h]

theorem listAt_apply_list (db : Node) (t : ListTarget) (l : List String) :
    listAt ((Write.list t l).apply db) t = asStrings (encodeStrings l) := by
  simp only [listAt, sub_apply_list, sub_setValue_self]

/-- The list that a write stores for the contract `c`. -/
def Write.listFor (c : String) : Write → Option (List String)
  | .contract k r => if k = c then some r.alterations else none
  | .list (.alterations k) l => if k = c then some l else none
  | _ => none

theorem Write.listFor_list {t : ListTarget} {l l' : List String} {c : String}
    (h : (Write.list t l).listFor c = some l') : t = .alterations c ∧ l = l' := by
  cases t with
  | alterations k =>
    simp only [Write.listFor] at h
    split at h
    · rename_i hk
      exact ⟨congrArg _ hk, Option.some.inj h⟩
    · cases h
  | _ => cases h

theorem listAt_apply_alterations (db : Node) (w : Write) (c : String) :
    listAt (w.apply db) (.alterations c) = match w.listFor c with
      | some l => asStrings (encodeStrings l)
      | none => listAt db (.alterations c) := by
  cases w with
  | contract k r =>
    by_cases h : k = c
    · subst h
      simp only [Write.listFor, if_true]
      simp only [listAt, ListTarget.node, ListTarget.field, Write.apply, Write.path, Write.node,
        Write.value, sub_setValue_self, Contract.encode, sub_keyed]
      rfl
    · simp only [Write.listFor, if_neg h]
      exact listAt_apply_ne _ _ (by simpa [Write.node, ListTarget.node] using h)
  | list t l =>
    cases t with
    | alterations k =>
      by_cases h : k = c
      · subst h
        simp only [Write.listFor, if_true, listAt_apply_list]
      · simp only [Write.listFor, if_neg h]
        exact listAt_apply_ne _ _ (by simpa [Write.node, ListTarget.node] using h)
    | _ => exact listAt_apply_ne _ _ (by simp [Write.node, ListTarget.node])
  | _ => exact listAt_apply_ne _ _ (by simp [Write.node, ListTarget.node])

end Pincushion.FirebaseHelpers
