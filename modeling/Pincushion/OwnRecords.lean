import Pincushion.Header
import Pincushion.ReviewReads

/-! What a session on a phone owns: the contracts and alterations that it has made.
It reads, extends and shows no others, while what earlier sessions still have under
way touches none of them. -/
namespace Pincushion.OwnRecords
open KeyTree SwiftNumber Structs Singletons FirebaseHelpers AlterationScreens CreateContract
open Network Navigation ReviewReads

/-- The nodes that a step makes, as far as the device reads them again. -/
def made : Event → List (List String)
  | .createConfirmed keys _ => [["contracts", keys.contract]]
  | .addConfirmed key => [["alterations", key]]
  | _ => []

/-- What the current contract and the pending appends are about was made on the phone. -/
structure Known (p : Phone) : Prop where
  contract : p.statics.contract.uid = "" ∨ p.statics.contract.uid ∈ p.keys
  original : p.statics.originalValues.uid = ""
  appends : ∀ u a, p.appends u = some a → ∃ c, a.append = updateAlterationsForContract c u ∧
    u ∈ p.keys ∧ c ∈ p.keys

def OwnContract (own : List (List String)) (c : String) : Prop := ["contracts", c] ∈ own

def OwnAlteration (own : List (List String)) (u : String) : Prop := ["alterations", u] ∈ own

def ReviewOwned (own : List (List String)) (r : Review) : Prop :=
  ReviewOf (OwnContract own) (OwnAlteration own) (fun _ => True) r

def ScreenOwned (own : List (List String)) : Screen → Prop
  | .review r | .editAlteration r _ => ReviewOwned own r
  | _ => True

/-- An append is to an own contract when it is of an own alteration, and it has then
found an own list. -/
structure AppendOwned (own : List (List String)) (u : String) (a : PendingAppend) : Prop where
  contract : ∀ c, a.append.target = .alterations c → (OwnContract own c ↔ OwnAlteration own u)
  value : OwnAlteration own u → ∀ n l, a.value = some n → a.append.target.decode n = some l →
    ListOf (OwnAlteration own) l

structure Owned (own : List (List String)) (p : Phone) : Prop where
  contract : p.statics.contract.uid ≠ "" → OwnContract own p.statics.contract.uid
  lists : ∀ c l, OwnContract own c → listAt p.db (.alterations c) = some l →
    ListOf (OwnAlteration own) l
  appends : ∀ u a, p.appends u = some a → AppendOwned own u a
  screen : ScreenOwned own p.screen

/-- Nothing that is owned differs, and nothing that the screens show. -/
structure Untouched (own : List (List String)) (p p' : Phone) : Prop where
  rest : p' = { p with db := p'.db, appends := p'.appends }
  db : ∀ c k, [c, k] ∈ own → p'.db.sub [c, k] = p.db.sub [c, k]
  appends : ∀ u, OwnAlteration own u → p'.appends u = p.appends u

instance (own : List (List String)) (u : String) : Decidable (OwnAlteration own u) :=
  inferInstanceAs (Decidable (_ ∈ _))

variable {p p' : Phone} {e : Event} {own : List (List String)} {r : Review} {c u key : String}
variable {keys : CreateContractVC.Keys} {t : Date}

theorem keys_of_steps (h : Steps p e p') : p.keys ⊆ p'.keys := by
  cases h with
  | created | added | addTrap | remote => exact List.subset_append_left _ _
  | _ => exact List.Subset.refl _

theorem known_launched {pickerDate now currentDate originalDate : Date}
    (h : Launched pickerDate now currentDate originalDate p) : Known p := by
  obtain ⟨db, keys, user, huser, rfl⟩ := h
  exact ⟨Or.inl rfl, rfl, nofun⟩

theorem known_step (h : Known p) (hstep : Steps p e p') : Known p' := by
  have hkeys : ∀ k ∈ p.keys, k ∈ p'.keys := fun k hk => keys_of_steps hstep hk
  have happends : ∀ u a, p.appends u = some a → ∃ c, a.append = updateAlterationsForContract c u ∧
      u ∈ p'.keys ∧ c ∈ p'.keys := by
    intro u a ha
    obtain ⟨c, happend, hu, hc⟩ := h.appends u a ha
    exact ⟨c, happend, hkeys u hu, hkeys c hc⟩
  cases hstep with
  | created keys t =>
    refine ⟨Or.inr (List.mem_append_right _ ?_), h.original, happends⟩
    exact List.mem_cons_of_mem _ (List.mem_cons_self ..)
  | signedOut => exact ⟨Or.inl h.original, h.original, happends⟩
  | added key vc hfront hscreen hpresented hfresh hcontract =>
    refine ⟨h.contract.imp_right (hkeys _), h.original, forall_update happends fun a ha => ?_⟩
    cases ha
    exact ⟨_, rfl, List.mem_append_right _ (List.mem_singleton_self key),
      hkeys _ (h.contract.resolve_left hcontract)⟩
  | appendTake u b hb =>
    refine ⟨h.contract, h.original, forall_update happends fun a ha => ?_⟩
    cases ha
    exact (happends u _ hb :)
  | appendCallback u b value hb =>
    exact ⟨h.contract, h.original, forall_update happends fun a ha => (by cases ha)⟩
  | _ => exact ⟨h.contract.imp_right (hkeys _), h.original, happends⟩

theorem Known.target {a : PendingAppend} (h : Known p) (ha : p.appends u = some a)
    (htarget : a.append.target = .alterations c) : c ∈ p.keys ∧ u ∈ p.keys := by
  obtain ⟨c', happend, hu, hc⟩ := h.appends u a ha
  rw [happend] at htarget
  cases htarget
  exact ⟨hc, hu⟩

theorem Known.unasked (h : Known p) (hu : u ∉ p.keys) : p.appends u = none := by
  cases ha : p.appends u with
  | none => rfl
  | some a =>
    obtain ⟨c, -, hmem, -⟩ := h.appends u a ha
    exact absurd hmem hu

/-- A new contract takes no appends that are pending. -/
theorem ownContract_created (hfresh : p.Fresh keys.toList) (hc : c ∈ p.keys) :
    OwnContract (made (.createConfirmed keys t) ++ own) c ↔ OwnContract own c := by
  have hne : c ≠ keys.contract := by
    rintro rfl
    exact (hfresh.2 _ (List.mem_cons_of_mem _ (List.mem_cons_self ..))).2 hc
  simp [OwnContract, made, hne]

theorem ownAlteration_created :
    OwnAlteration (made (.createConfirmed keys t) ++ own) u ↔ OwnAlteration own u := by
  simp [OwnAlteration, made]

theorem ownContract_added :
    OwnContract (made (.addConfirmed key) ++ own) c ↔ OwnContract own c := by
  simp [OwnContract, made]

theorem ownAlteration_added (hne : u ≠ key) :
    OwnAlteration (made (.addConfirmed key) ++ own) u ↔ OwnAlteration own u := by
  simp [OwnAlteration, made, hne]

theorem own_mono {n : List String} (h : n ∈ own) : n ∈ made e ++ own := List.mem_append_right _ h

theorem listOf_mono {l : List String} (h : ListOf (OwnAlteration own) l) :
    ListOf (OwnAlteration (made e ++ own)) l :=
  fun u hu hne => own_mono (h u hu hne)

theorem AppendOwned.mono {a : PendingAppend} (h : AppendOwned own u a)
    (hcontract : ∀ c, a.append.target = .alterations c →
      (OwnContract (made e ++ own) c ↔ OwnContract own c))
    (halteration : OwnAlteration (made e ++ own) u ↔ OwnAlteration own u) :
    AppendOwned (made e ++ own) u a where
  contract c hc := by rw [hcontract c hc, h.contract c hc, halteration]
  value hu n l hn hl := listOf_mono (h.value (halteration.mp hu) n l hn hl)

theorem storeOf_owned (h : Owned own p) :
    StoreOf (OwnContract own) (OwnAlteration own) (fun _ => True) p.db :=
  ⟨h.lists, fun _ _ _ _ => trivial⟩

theorem listOf_sentinel {U : String → Prop} : ListOf U ["-1"] := by
  intro u hu hne
  exact absurd (List.mem_singleton.mp hu) hne

/-- A list that is written for an own contract is that of a new one, or an own list with
an own alteration behind it. -/
theorem listOf_issued {l : List String} {w : Write} (h : Owned own p) (hknown : Known p)
    (hw : w ∈ issued p e) (hc : OwnContract own c) (hl : w.listFor c = some l) :
    ListOf (OwnAlteration own) l := by
  cases issues_of_mem hw with
  | created keys t w hw =>
    rw [((CreateContractVC.createdWrites_cases hw).2 c l hl).1]
    exact listOf_sentinel
  | added => cases hl
  | edited r vc w hscreen hw =>
    obtain ⟨record, rfl, -⟩ := EditAlterationVC.confirmHandler_eq hw
    cases hl
  | appended u b value w hb hw =>
    obtain ⟨server, hserver, rfl⟩ := ListAppend.callback_eq hw
    obtain ⟨htarget, rfl⟩ := Write.listFor_list hl
    have hhere := h.appends u _ hb
    have hu := (hhere.contract c htarget).mp hc
    obtain ⟨c', rfl, -, -⟩ := hknown.appends u _ hb
    intro v hv hne
    cases List.mem_append.mp hv with
    | inl hv => exact hhere.value hu value server rfl hserver v hv hne
    | inr hv => exact List.mem_singleton.mp hv ▸ hu

theorem lists_step (h : Owned own p) (hknown : Known p) (he : e.foreign = false)
    (hstep : Steps p e p') : ∀ c l, OwnContract own c → listAt p'.db (.alterations c) = some l →
      ListOf (OwnAlteration own) l := by
  intro c l hc hl
  rw [db_of_steps hstep he] at hl
  cases listAt_foldl hl with
  | inl hl => exact h.lists c l hc hl
  | inr hl =>
    obtain ⟨w, hw, hl⟩ := hl
    exact listOf_issued h hknown hw hc hl

theorem owned_created (h : Owned own p) (hknown : Known p)
    (hstep : Steps p (.createConfirmed keys t) (p.createConfirmed keys t)) :
    Owned (made (.createConfirmed keys t) ++ own) (p.createConfirmed keys t) where
  contract _ := List.mem_append_left _ (List.mem_singleton_self _)
  lists c l hc hl := by
    cases List.mem_append.mp hc with
    | inl hc =>
      obtain rfl : c = keys.contract := by simpa [made] using hc
      have hdb : (p.createConfirmed keys t).db =
          Header.afterCreation p.create p.statics keys t p.db := rfl
      have hlist : listAt (p.createConfirmed keys t).db (.alterations keys.contract) =
          some ["-1"] := by
        refine asStrings_of_decode (t := .alterations keys.contract) ?_
        show (contractAt (p.createConfirmed keys t).db keys.contract).map (·.alterations) = _
        rw [hdb, Header.contractAt_created, Option.map_some]
      rw [hlist] at hl
      cases hl
      exact listOf_sentinel
    | inr hc => exact listOf_mono (lists_step h hknown rfl hstep c l hc hl)
  appends u a ha := (h.appends u a ha).mono
    (fun _ hc => ownContract_created (fresh_of_created hstep) (hknown.target ha hc).1)
    ownAlteration_created
  screen := trivial

/-- An alteration is made in the own contract, and its append goes there. -/
theorem appends_added (h : Owned own p) (hcontract : p.statics.contract.uid ≠ "") :
    ∀ u a, Function.update p.appends key
        (some ⟨updateAlterationsForContract p.statics.contract.uid key, none⟩) u = some a →
      AppendOwned (made (.addConfirmed key) ++ own) u a := by
  intro u a ha
  by_cases hu : u = key
  · subst hu
    rw [Function.update_self] at ha
    cases ha
    refine ⟨fun c hc => ?_, fun _ n l hn => (by cases hn)⟩
    cases hc
    exact iff_of_true (own_mono (h.contract hcontract))
      (List.mem_append_left _ (List.mem_singleton_self _))
  · rw [Function.update_of_ne hu] at ha
    exact (h.appends u a ha).mono (fun _ _ => ownContract_added) (ownAlteration_added hu)

/-- The value that an own append takes is an own list. -/
theorem appendOwned_take {b : ListAppend} (h : Owned own p) (hknown : Known p)
    (hb : p.appends u = some ⟨b, none⟩) :
    AppendOwned own u ⟨b, some (p.db.sub b.target.node)⟩ := by
  have hhere := h.appends u _ hb
  refine ⟨hhere.contract, fun hu n l hn hl => ?_⟩
  cases hn
  obtain ⟨c, rfl, -, -⟩ := hknown.appends u _ hb
  exact h.lists c l ((hhere.contract c rfl).mpr hu) (asStrings_of_decode hl)

/-- What a device does by itself keeps to its own records. -/
theorem owned_step (h : Owned own p) (hknown : Known p) (he : e.foreign = false)
    (hstep : Steps p e p') : Owned (made e ++ own) p' := by
  have hscreen' := h.screen
  have hsteps := hstep
  have hlists := lists_step h hknown he hstep
  cases hstep with
  | created => exact owned_created h hknown hsteps
  | signedOut => exact ⟨fun huid => absurd hknown.original huid, hlists, h.appends, h.screen⟩
  | added key vc hfront hscreen hpresented hfresh hcontract =>
    exact ⟨fun huid => own_mono (h.contract huid),
      fun c l hc hl => listOf_mono (hlists c l (ownContract_added.mp hc) hl),
      appends_added h hcontract, trivial⟩
  | addTrap key vc hfront hscreen hpresented hfresh hcontract =>
    refine ⟨fun huid => absurd hcontract huid,
      fun c l hc hl => listOf_mono (hlists c l (ownContract_added.mp hc) hl), fun u a ha => ?_,
      trivial⟩
    obtain ⟨c, -, hu, -⟩ := hknown.appends u a ha
    refine (h.appends u a ha).mono (fun _ _ => ownContract_added) (ownAlteration_added ?_)
    rintro rfl
    exact (hfresh.2 u (List.mem_singleton_self u)).2 hu
  | edited r vc w hfront hscreen =>
    rw [hscreen] at hscreen'
    exact ⟨h.contract, hlists, h.appends, reviewOf_appear hscreen' h.contract⟩
  | appendTake u b hb =>
    refine ⟨h.contract, hlists, forall_update h.appends fun a ha => ?_, h.screen⟩
    cases ha
    exact appendOwned_take h hknown hb
  | appendCallback u b value hb =>
    exact ⟨h.contract, hlists, forall_update h.appends fun a ha => (by cases ha), h.screen⟩
  | remote w => cases he
  | reviewContract =>
    exact ⟨h.contract, hlists, h.appends, reviewOf_appear reviewOf_new h.contract⟩
  | leaveEdit r vc hfront hscreen | reappear r hfront hscreen =>
    rw [hscreen] at hscreen'
    exact ⟨h.contract, hlists, h.appends, reviewOf_appear hscreen' h.contract⟩
  | take i r s hscreen htake | takeUnder i r vc s hscreen htake =>
    rw [hscreen] at hscreen'
    exact ⟨h.contract, hlists, h.appends, reviewOf_take (storeOf_owned h) hscreen' htake⟩
  | deliver i r s hscreen hdeliver | deliverUnder i r vc s hscreen hdeliver =>
    rw [hscreen] at hscreen'
    exact ⟨h.contract, hlists, h.appends, reviewOf_deliver hscreen' hdeliver⟩
  | tap row r a hfront hscreen | edit e r vc vc' hfront hscreen =>
    rw [hscreen] at hscreen'
    exact ⟨h.contract, hlists, h.appends, hscreen'⟩
  | loggedIn | loginDismissed | selectAlterations | okay | leave | leaveAdd | openAdd | add =>
    exact ⟨h.contract, hlists, h.appends, trivial⟩
  | _ => exact ⟨h.contract, hlists, h.appends, h.screen⟩

/-- A session starts with nothing. -/
theorem owned_start (hcontract : p.statics.contract.uid = "") (hscreen : p.screen = .create) :
    Owned [] p where
  contract huid := absurd hcontract huid
  lists c l hc := by cases hc
  appends u a ha := ⟨fun c hc => ⟨fun h => (by cases h), fun h => (by cases h)⟩,
    fun hu => (by cases hu)⟩
  screen := by rw [hscreen]; trivial

theorem update_own {f : String → Option PendingAppend} {v : Option PendingAppend}
    (hu : ¬ OwnAlteration own u) :
    ∀ u', OwnAlteration own u' → Function.update f u v u' = f u' := by
  intro u' hu'
  refine Function.update_of_ne ?_ _ _
  rintro rfl
  exact hu hu'

/-- The append of an alteration that is not owned goes to a contract that is not. -/
theorem node_of_unowned (h : Owned own p) (hknown : Known p) (hu : ¬ OwnAlteration own u) :
    ∀ w ∈ issued p (.appendCallback u), w.node ∉ own := by
  intro w hw hown
  cases issues_of_mem hw with
  | appended u b value w hb hw =>
    obtain ⟨server, -, rfl⟩ := ListAppend.callback_eq hw
    have hhere := h.appends u _ hb
    obtain ⟨c, rfl, -, -⟩ := hknown.appends u _ hb
    exact hu ((hhere.contract c rfl).mp hown)

theorem untouched_of_append (h : Owned own p) (hknown : Known p) (hu : ¬ OwnAlteration own u)
    (he : e = .appendTake u ∨ e = .appendCallback u) (hstep : Steps p e p') :
    Untouched own p p' := by
  have hdb : ∀ c k, [c, k] ∈ own →
      ((issued p (.appendCallback u)).foldl (fun db w => w.apply db) p.db).sub [c, k] =
        p.db.sub [c, k] := by
    intro c k hown
    exact sub_foldl_ne fun w hw hnode => node_of_unowned h hknown hu w hw (hnode ▸ hown)
  obtain rfl | rfl := he
  · cases hstep with
    | appendTake u b hb => exact ⟨rfl, fun _ _ _ => rfl, update_own hu⟩
    | takeIdle u hidle => exact ⟨rfl, fun _ _ _ => rfl, fun _ _ => rfl⟩
  · have hafter := db_of_steps hstep rfl
    rw [← hafter] at hdb
    cases hstep with
    | appendCallback u b value hb => exact ⟨rfl, hdb, update_own hu⟩
    | callbackIdle u hidle => exact ⟨rfl, fun _ _ _ => rfl, fun _ _ => rfl⟩

end Pincushion.OwnRecords
