import Pincushion.FixedPoint
import Mathlib.Data.List.Lex
import Mathlib.Data.Prod.Lex
import Mathlib.Order.Compare
import Mathlib.Data.String.Basic

/-! The order of the keys below one node: integers first, by value, then all other
keys by their code units. It is the order of ranks, and treats two different keys
as one only where both read as zero. -/
namespace Pincushion.Snapshot
open SwiftNumber Literals FixedPoint

/-- The UTF-16 code units of a character. -/
def utf16 (c : Char) : List Nat :=
  if c.toNat < 0x10000 then [c.toNat]
  else [0xD800 + (c.toNat - 0x10000) / 0x400, 0xDC00 + (c.toNat - 0x10000) % 0x400]

def units (s : String) : List Nat := s.toList.flatMap utf16

def maxName : String := "[MAX_NAME]"
def minName : String := "[MIN_NAME]"

/-- Whether a minus stands in front, and what comes behind it. -/
def minusSign : List Char → Bool × List Char
  | '-' :: ds => (true, ds)
  | ds => (false, ds)

/-- At most eleven units, all of them digits but for a sign, with a value of 32 bits. -/
def tryParseStringToInt (s : String) : Option Int :=
  let length := (units s).length
  if 11 < length ∨ length = 0 then none
  else
    let (negative, ds) := minusSign s.toList
    match number 10 ds with
    | some n =>
      let value : Int := if negative then -n else n
      if value < -2 ^ 31 ∨ 2 ^ 31 - 1 < value then none else some value
    | none => none

/-- A comparison unit by unit. -/
def literalCompare : List Nat → List Nat → Ordering
  | [], [] => .eq
  | [], _ :: _ => .lt
  | _ :: _, [] => .gt
  | a :: as, b :: bs => if a < b then .lt else if b < a then .gt else literalCompare as bs

def compareKey (a b : String) : Ordering :=
  if a = b then .eq
  else if a = minName ∨ b = maxName then .lt
  else if b = minName ∨ a = maxName then .gt
  else match tryParseStringToInt a, tryParseStringToInt b with
    | some aAsInt, some bAsInt =>
      if bAsInt < aAsInt then .gt
      else if aAsInt < bAsInt then .lt
      else if (units b).length < (units a).length then .gt
      else if (units a).length < (units b).length then .lt
      else .eq
    | some _, none => .lt
    | none, some _ => .gt
    | none, none => literalCompare (units a) (units b)

/-- The kind of a key, then its value and length, or its units. -/
def rank (a : String) : ℕ ×ₗ ℤ ×ₗ ℕ ×ₗ List ℕ :=
  if a = minName then toLex (0, toLex (0, toLex (0, [])))
  else if a = maxName then toLex (3, toLex (0, toLex (0, [])))
  else match tryParseStringToInt a with
    | some value => toLex (1, toLex (value, toLex ((units a).length, [])))
    | none => toLex (2, toLex (0, toLex (0, units a)))

theorem utf16_append_inj {c d : Char} {x y : List Nat} (h : utf16 c ++ x = utf16 d ++ y) :
    c = d ∧ x = y := by
  have hc := c.valid
  have hd := d.valid
  simp only [UInt32.isValidChar, Nat.isValidChar] at hc hd
  change c.toNat < _ ∨ _ < c.toNat ∧ c.toNat < _ at hc
  change d.toNat < _ ∨ _ < d.toNat ∧ d.toNat < _ at hd
  rw [← Char.toNat_inj]
  simp only [utf16] at h
  split_ifs at h with hcs hds hds <;> simp only [List.cons_append, List.nil_append, List.cons.injEq] at h
  · exact h
  · omega
  · omega
  · obtain ⟨hhigh, hlow, hrest⟩ := h
    exact ⟨by omega, hrest⟩

theorem units_injective : Function.Injective units := by
  have hflat : ∀ cs ds : List Char, cs.flatMap utf16 = ds.flatMap utf16 → cs = ds := by
    have hne : ∀ (c : Char) (x : List Nat), utf16 c ++ x ≠ [] := by
      intro c x
      rw [utf16]
      split_ifs <;> simp
    intro cs
    induction cs with
    | nil =>
      intro ds h
      cases ds with
      | nil => rfl
      | cons d ds => exact absurd h.symm (hne d _)
    | cons c cs ih =>
      intro ds h
      cases ds with
      | nil => exact absurd h (hne c _)
      | cons d ds =>
        obtain ⟨rfl, hrest⟩ := utf16_append_inj h
        rw [ih ds hrest]
  exact fun a b h => String.toList_inj.mp (hflat _ _ h)

theorem compares_literalCompare (as bs : List Nat) : (literalCompare as bs).Compares as bs := by
  induction as generalizing bs with
  | nil =>
    cases bs with
    | nil => rfl
    | cons b bs => exact List.nil_lt_cons b bs
  | cons a as ih =>
    cases bs with
    | nil => exact List.nil_lt_cons a as
    | cons b bs =>
      simp only [literalCompare]
      split_ifs with hlt hgt
      · exact List.cons_lt_cons_iff.mpr (Or.inl hlt)
      · exact List.cons_lt_cons_iff.mpr (Or.inl hgt)
      · obtain rfl : a = b := by omega
        have hrest := ih bs
        cases hcompare : literalCompare as bs with
        | lt => exact List.cons_lt_cons_iff.mpr (Or.inr ⟨rfl, hrest.eq_lt.mp hcompare⟩)
        | gt => exact List.cons_lt_cons_iff.mpr (Or.inr ⟨rfl, hrest.eq_gt.mp hcompare⟩)
        | eq => exact congrArg (a :: ·) (hrest.eq_eq.mp hcompare)

theorem rank_minName : rank minName = toLex (0, toLex (0, toLex (0, []))) := if_pos rfl

theorem rank_maxName : rank maxName = toLex (3, toLex (0, toLex (0, []))) := by
  rw [rank, if_neg (by decide), if_pos rfl]

theorem rank_of_int {a : String} {value : Int} (h : tryParseStringToInt a = some value) :
    rank a = toLex (1, toLex (value, toLex ((units a).length, []))) := by
  have hmin : a ≠ minName := by
    rintro rfl
    cases h
  have hmax : a ≠ maxName := by
    rintro rfl
    cases h
  rw [rank, if_neg hmin, if_neg hmax, h]

theorem rank_of_text {a : String} (hmin : a ≠ minName) (hmax : a ≠ maxName)
    (h : tryParseStringToInt a = none) : rank a = toLex (2, toLex (0, toLex (0, units a))) := by
  rw [rank, if_neg hmin, if_neg hmax, h]

section Lexicographic
variable {α β : Type*} [LT α] [LT β] {x y : α} {u v : β} {o : Ordering}

theorem toLex_lt_of_fst (u v : β) (h : x < y) : toLex (x, u) < toLex (y, v) :=
  Prod.Lex.toLex_lt_toLex.mpr (Or.inl h)

theorem compares_snd (x : α) (h : o.Compares u v) : o.Compares (toLex (x, u)) (toLex (x, v)) := by
  cases o with
  | lt => exact Prod.Lex.toLex_lt_toLex.mpr (Or.inr ⟨rfl, h⟩)
  | gt => exact Prod.Lex.toLex_lt_toLex.mpr (Or.inr ⟨rfl, h⟩)
  | eq => exact congrArg (fun w => toLex (x, w)) h

end Lexicographic

theorem rank_minName_lt {a : String} (h : a ≠ minName) : rank minName < rank a := by
  rw [rank_minName]
  by_cases hmax : a = maxName
  · rw [hmax, rank_maxName]
    exact toLex_lt_of_fst _ _ (by decide)
  · cases ha : tryParseStringToInt a with
    | some value =>
      rw [rank_of_int ha]
      exact toLex_lt_of_fst _ _ Nat.zero_lt_one
    | none =>
      rw [rank_of_text h hmax ha]
      exact toLex_lt_of_fst _ _ Nat.zero_lt_two

theorem rank_lt_maxName {a : String} (h : a ≠ maxName) : rank a < rank maxName := by
  rw [rank_maxName]
  by_cases hmin : a = minName
  · rw [hmin, rank_minName]
    exact toLex_lt_of_fst _ _ (by decide)
  · cases ha : tryParseStringToInt a with
    | some value =>
      rw [rank_of_int ha]
      exact toLex_lt_of_fst _ _ (by omega)
    | none =>
      rw [rank_of_text hmin h ha]
      exact toLex_lt_of_fst _ _ (by omega)

/-- The comparison of keys is the comparison of their ranks. -/
theorem compares_compareKey (a b : String) : (compareKey a b).Compares (rank a) (rank b) := by
  by_cases heq : a = b
  · rw [compareKey, if_pos heq]
    exact congrArg rank heq
  by_cases hlt : a = minName ∨ b = maxName
  · rw [compareKey, if_neg heq, if_pos hlt]
    cases hlt with
    | inl hmin =>
      subst hmin
      exact rank_minName_lt (Ne.symm heq)
    | inr hmax =>
      subst hmax
      exact rank_lt_maxName heq
  by_cases hgt : b = minName ∨ a = maxName
  · rw [compareKey, if_neg heq, if_neg hlt, if_pos hgt]
    cases hgt with
    | inl hmin =>
      subst hmin
      exact rank_minName_lt heq
    | inr hmax =>
      subst hmax
      exact rank_lt_maxName (Ne.symm heq)
  obtain ⟨hamin, hbmax⟩ := not_or.mp hlt
  obtain ⟨hbmin, hamax⟩ := not_or.mp hgt
  rw [compareKey, if_neg heq, if_neg hlt, if_neg hgt]
  cases ha : tryParseStringToInt a with
  | some value =>
    cases hb : tryParseStringToInt b with
    | some value' =>
      rw [rank_of_int ha, rank_of_int hb]
      dsimp only
      split_ifs with hgt hlt hlonger hshorter
      · exact compares_snd (o := .gt) 1 (toLex_lt_of_fst _ _ hgt)
      · exact compares_snd (o := .lt) 1 (toLex_lt_of_fst _ _ hlt)
      · obtain rfl : value = value' := by omega
        exact compares_snd (o := .gt) 1 (compares_snd _ (toLex_lt_of_fst _ _ hlonger))
      · obtain rfl : value = value' := by omega
        exact compares_snd (o := .lt) 1 (compares_snd _ (toLex_lt_of_fst _ _ hshorter))
      · obtain rfl : value = value' := by omega
        obtain hlength : (units a).length = (units b).length := by omega
        rw [hlength]
        rfl
    | none =>
      rw [rank_of_int ha, rank_of_text hbmin hbmax hb]
      exact toLex_lt_of_fst _ _ Nat.one_lt_two
  | none =>
    cases hb : tryParseStringToInt b with
    | some value' =>
      rw [rank_of_text hamin hamax ha, rank_of_int hb]
      exact toLex_lt_of_fst _ _ Nat.one_lt_two
    | none =>
      rw [rank_of_text hamin hamax ha, rank_of_text hbmin hbmax hb]
      exact compares_snd 2 (compares_snd 0 (compares_snd 0 (compares_literalCompare _ _)))

section Digits
variable {cs ds : List Char} {c : Char} {d n : Nat}

theorem digitChar_of_digit (h : digit 10 c = some d) : d < 10 ∧ c = d.digitChar := by
  have hall : ∀ c ∈ decimalDigits, ∃ d < 10, digit 10 c = some d ∧ c = d.digitChar := of_all rfl
  have hmem : c ∈ decimalDigits := (spells_decimal c).mp (Option.isSome_iff_exists.mpr ⟨d, h⟩)
  obtain ⟨d', hlt, hdigit, hchar⟩ := hall c hmem
  rw [h] at hdigit
  cases hdigit
  exact ⟨hlt, hchar⟩

/-- The first digit, and the value of the others. -/
theorem digits_cons (h : digits 10 0 (c :: cs) = some n) :
    ∃ d m, digit 10 c = some d ∧ digits 10 0 cs = some m ∧ n = d * 10 ^ cs.length + m := by
  simp only [digits] at h
  split at h
  · rename_i d hd
    have hrest : (digits 10 0 cs).isSome := by
      rw [digits_isSome_iff spells_decimal, ← digits_isSome_iff spells_decimal (10 * 0 + d), h]
      rfl
    obtain ⟨m, hm⟩ := Option.isSome_iff_exists.mp hrest
    rw [digits_from _ hm, Nat.mul_zero, Nat.zero_add] at h
    exact ⟨d, m, hd, hm, (Option.some.inj h).symm⟩
  · cases h

theorem digits_lt (h : digits 10 0 cs = some n) : n < 10 ^ cs.length := by
  induction cs generalizing n with
  | nil =>
    cases h
    decide
  | cons c cs ih =>
    obtain ⟨d, m, hd, hm, rfl⟩ := digits_cons h
    obtain ⟨hlt, -⟩ := digitChar_of_digit hd
    have hlow := ih hm
    rw [List.length_cons, Nat.pow_succ]
    have hhigh : d * 10 ^ cs.length ≤ 9 * 10 ^ cs.length := Nat.mul_le_mul_right _ (by omega)
    omega

/-- Digits of one length and one value are the same digits. -/
theorem digits_inj (hlen : cs.length = ds.length) (hcs : digits 10 0 cs = some n)
    (hds : digits 10 0 ds = some n) : cs = ds := by
  induction cs generalizing ds n with
  | nil => exact (List.length_eq_zero_iff.mp hlen.symm).symm
  | cons c cs ih =>
    cases ds with
    | nil => cases hlen
    | cons c' ds =>
      have hlen' : cs.length = ds.length := Nat.succ.inj hlen
      obtain ⟨d, m, hd, hm, rfl⟩ := digits_cons hcs
      obtain ⟨d', m', hd', hm', heq⟩ := digits_cons hds
      have hlow := digits_lt hm
      have hlow' := digits_lt hm'
      rw [← hlen'] at heq hlow'
      obtain ⟨-, rfl⟩ := digitChar_of_digit hd
      obtain ⟨-, rfl⟩ := digitChar_of_digit hd'
      obtain rfl : d = d' := by
        have hdiv : ∀ e k, k < 10 ^ cs.length →
            (e * 10 ^ cs.length + k) / 10 ^ cs.length = e := by
          intro e k hk
          rw [Nat.mul_comm, Nat.mul_add_div (by positivity), Nat.div_eq_of_lt hk, Nat.add_zero]
        rw [← hdiv d m hlow, heq, hdiv d' m' hlow']
      obtain rfl : m = m' := by omega
      rw [ih hlen' hm hm']

/-- Digits without a leading zero are those that the value is printed with. -/
theorem toDigits_of_digits (hcs : digits 10 0 cs = some n) (hne : cs ≠ [])
    (hzero : cs.head? = some '0' → cs.length ≤ 1) : cs = Nat.toDigits 10 n := by
  refine digits_inj ?_ hcs (digits_toDigits n)
  have hpos := List.length_pos_iff.mpr hne
  have hle : (Nat.toDigits 10 n).length ≤ cs.length :=
    (Nat.length_toDigits_le_iff (by decide) hpos).mpr (digits_lt hcs)
  have hpos' : 0 < (Nat.toDigits 10 n).length := List.length_pos_iff.mpr Nat.toDigits_ne_nil
  by_cases hone : cs.length = 1
  · omega
  · cases cs with
    | nil => exact absurd rfl hne
    | cons c rest =>
      obtain ⟨d, m, hd, hm, rfl⟩ := digits_cons hcs
      obtain ⟨-, rfl⟩ := digitChar_of_digit hd
      rw [List.length_cons] at hone hle ⊢
      have hd0 : d ≠ 0 := by
        rintro rfl
        have hshort := hzero rfl
        rw [List.length_cons] at hshort
        omega
      have hlarge : ¬ (Nat.toDigits 10 (d * 10 ^ rest.length + m)).length ≤ rest.length := by
        rw [Nat.length_toDigits_le_iff (by decide) (by omega)]
        have hle := Nat.le_mul_of_pos_left (10 ^ rest.length) (Nat.pos_of_ne_zero hd0)
        omega
      omega

end Digits

/-- Zeros, and one zero less behind a sign. -/
def zeros (n : Nat) : String := String.ofList (List.replicate n '0')

def signedZeros (n : Nat) : String := String.ofList ('-' :: List.replicate n '0')

/-- The keys with this many zeros behind a sign, and with one more and no sign, read as one
integer and have one length. -/
def ZeroTie (a b : String) : Prop :=
  ∃ n, 1 ≤ n ∧ n ≤ 10 ∧ (a = signedZeros n ∧ b = zeros (n + 1) ∨ a = zeros (n + 1) ∧ b = signedZeros n)

theorem length_units {a : String} (h : ∀ c ∈ a.toList, c.toNat < 0x10000) :
    (units a).length = a.toList.length := by
  have hflat : ∀ cs : List Char, (∀ c ∈ cs, c.toNat < 0x10000) →
      (cs.flatMap utf16).length = cs.length := by
    intro cs
    induction cs with
    | nil => exact fun _ => rfl
    | cons c cs ih =>
      intro hcs
      have hc : utf16 c = [c.toNat] := if_pos (hcs c (List.mem_cons_self ..))
      have hrest := ih fun d hd => hcs d (List.mem_cons_of_mem c hd)
      simp [hc, hrest]
  exact hflat a.toList h

theorem toNat_of_digits {ds : List Char} {n : Nat} (h : digits 10 0 ds = some n) :
    ∀ c ∈ ds, c.toNat < 0x10000 := by
  have hall : ∀ c ∈ decimalDigits, c.toNat < 0x10000 := of_all rfl
  have hsome : (digits 10 0 ds).isSome := by
    rw [h]
    rfl
  exact fun c hc => hall c ((digits_isSome_iff spells_decimal 0).mp hsome c hc)

theorem digits_of_number {ds : List Char} {n : Nat} (h : number 10 ds = some n) :
    ds ≠ [] ∧ digits 10 0 ds = some n := by
  rw [number] at h
  split_ifs at h with hds
  exact ⟨hds, h⟩

theorem minusSign_cases (cs : List Char) :
    (∃ ds, cs = '-' :: ds ∧ minusSign cs = (true, ds)) ∨ minusSign cs = (false, cs) := by
  rw [minusSign.eq_def]
  split
  · exact Or.inl ⟨_, rfl, rfl⟩
  · exact Or.inr rfl

/-- A key with a value is a sign, or none, and digits. -/
theorem int_cases {a : String} {value : Int} (h : tryParseStringToInt a = some value) :
    (units a).length ≤ 11 ∧ (units a).length = a.toList.length ∧ ∃ ds n,
      ds ≠ [] ∧ digits 10 0 ds = some n ∧
        (a.toList = ds ∧ value = n ∨ a.toList = '-' :: ds ∧ value = -n) := by
  rw [tryParseStringToInt] at h
  by_cases hlen : 11 < (units a).length ∨ (units a).length = 0
  · rw [if_pos hlen] at h
    cases h
  rw [if_neg hlen] at h
  refine ⟨by omega, ?_⟩
  cases minusSign_cases a.toList with
  | inl hminus =>
    obtain ⟨ds, hlist, hsign⟩ := hminus
    simp only [hsign, if_true] at h
    split at h
    · rename_i n hn
      obtain ⟨hds, hdigits⟩ := digits_of_number hn
      split_ifs at h with hrange
      cases h
      refine ⟨length_units ?_, ds, n, hds, hdigits, Or.inr ⟨hlist, rfl⟩⟩
      rw [hlist]
      exact List.forall_mem_cons.mpr ⟨by decide, toNat_of_digits hdigits⟩
    · cases h
  | inr hplain =>
    simp only [hplain, Bool.false_eq_true, if_false] at h
    split at h
    · rename_i n hn
      obtain ⟨hds, hdigits⟩ := digits_of_number hn
      split_ifs at h with hrange
      cases h
      exact ⟨length_units (toNat_of_digits hdigits), _, n, hds, hdigits, Or.inl ⟨rfl, rfl⟩⟩
    · cases h

theorem tryParse_zeros {n : Nat} (hpos : 1 ≤ n) (hle : n ≤ 11) :
    tryParseStringToInt (zeros n) = some 0 := by
  have hall : ∀ n ≤ 11, 1 ≤ n → tryParseStringToInt (zeros n) = some 0 := by decide
  exact hall n hle hpos

theorem tryParse_signedZeros {n : Nat} (hpos : 1 ≤ n) (hle : n ≤ 10) :
    tryParseStringToInt (signedZeros n) = some 0 := by
  have hall : ∀ n ≤ 10, 1 ≤ n → tryParseStringToInt (signedZeros n) = some 0 := by decide
  exact hall n hle hpos

theorem length_zeros {n : Nat} : (units (zeros n)).length = n := by
  rw [length_units, zeros, String.toList_ofList, List.length_replicate]
  intro c hc
  rw [zeros, String.toList_ofList] at hc
  rw [List.eq_of_mem_replicate hc]
  decide

theorem length_signedZeros {n : Nat} : (units (signedZeros n)).length = n + 1 := by
  rw [length_units, signedZeros, String.toList_ofList, List.length_cons, List.length_replicate]
  intro c hc
  rw [signedZeros, String.toList_ofList] at hc
  cases List.mem_cons.mp hc with
  | inl hc =>
    rw [hc]
    decide
  | inr hc =>
    rw [List.eq_of_mem_replicate hc]
    decide

theorem ZeroTie.rank_eq {a b : String} (h : ZeroTie a b) : rank a = rank b := by
  obtain ⟨n, hpos, hle, h⟩ := h
  have heq : rank (signedZeros n) = rank (zeros (n + 1)) := by
    rw [rank_of_int (tryParse_signedZeros hpos hle),
      rank_of_int (tryParse_zeros (by omega) (by omega)), length_zeros, length_signedZeros]
  cases h with
  | inl h => rw [h.1, h.2, heq]
  | inr h => rw [h.1, h.2, heq]

/-- A plain key and a signed one with one value and one length are zeros. -/
theorem zeroTie_of_signs {a b : String} {ds es : List Char} {m n : Nat} (ha : a.toList = ds)
    (hb : b.toList = '-' :: es) (hds : digits 10 0 ds = some m) (hes : digits 10 0 es = some n)
    (hne : es ≠ []) (hvalue : (m : Int) = -n) (hlen : ds.length = es.length + 1)
    (hle : ds.length ≤ 11) : ZeroTie b a := by
  obtain rfl : m = 0 := by omega
  obtain rfl : n = 0 := by omega
  have hzeros : ∀ {cs : List Char}, digits 10 0 cs = some 0 →
      cs = List.replicate cs.length '0' := by
    intro cs hcs
    refine digits_inj (by rw [List.length_replicate]) hcs ?_
    rw [digits_replicate_zero, Nat.zero_mul]
  have hpos := List.length_pos_iff.mpr hne
  refine ⟨es.length, by omega, by omega, Or.inl ⟨?_, ?_⟩⟩
  · rw [signedZeros, ← hzeros hes, ← hb, String.ofList_toList]
  · rw [zeros, ← hlen, ← hzeros hds, ← ha, String.ofList_toList]

theorem ZeroTie.symm {a b : String} (h : ZeroTie a b) : ZeroTie b a := by
  obtain ⟨n, hpos, hle, h⟩ := h
  exact ⟨n, hpos, hle, h.symm.imp And.symm And.symm⟩

theorem eq_or_zeroTie_of_int {a b : String} {value : Int} (ha : tryParseStringToInt a = some value)
    (hb : tryParseStringToInt b = some value) (hlength : (units a).length = (units b).length) :
    a = b ∨ ZeroTie a b := by
  obtain ⟨hle, hunits, ds, m, hds, hm, ha⟩ := int_cases ha
  obtain ⟨hle', hunits', es, n, hes, hn, hb⟩ := int_cases hb
  have hchars : a.toList.length = b.toList.length := by omega
  rcases ha with ⟨ha, hvalue⟩ | ⟨ha, hvalue⟩ <;> rcases hb with ⟨hb, hvalue'⟩ | ⟨hb, hvalue'⟩ <;>
    rw [ha, hb] at hchars <;> rw [hvalue] at hvalue'
  · obtain rfl : m = n := by omega
    exact Or.inl (String.toList_inj.mp (by rw [ha, hb, digits_inj hchars hm hn]))
  · exact Or.inr (zeroTie_of_signs ha hb hm hn hes hvalue' hchars (by rw [← ha]; omega)).symm
  · exact Or.inr (zeroTie_of_signs hb ha hn hm hds hvalue'.symm hchars.symm (by rw [← hb]; omega))
  · obtain rfl : m = n := by omega
    exact Or.inl (String.toList_inj.mp (by rw [ha, hb, digits_inj (Nat.succ.inj hchars) hm hn]))

theorem rank_eq_iff {a b : String} : rank a = rank b ↔ a = b ∨ ZeroTie a b := by
  constructor
  · intro h
    by_cases heq : a = b
    · exact Or.inl heq
    have hamin : a ≠ minName := by
      rintro rfl
      exact absurd h (rank_minName_lt (Ne.symm heq)).ne
    have hbmin : b ≠ minName := by
      rintro rfl
      exact absurd h.symm (rank_minName_lt heq).ne
    have hamax : a ≠ maxName := by
      rintro rfl
      exact absurd h.symm (rank_lt_maxName (Ne.symm heq)).ne
    have hbmax : b ≠ maxName := by
      rintro rfl
      exact absurd h (rank_lt_maxName heq).ne
    cases ha : tryParseStringToInt a with
    | some value =>
      cases hb : tryParseStringToInt b with
      | some value' =>
        rw [rank_of_int ha, rank_of_int hb] at h
        obtain ⟨rfl, hlength⟩ : value = value' ∧ (units a).length = (units b).length := by
          simpa using h
        exact eq_or_zeroTie_of_int ha hb hlength
      | none =>
        rw [rank_of_int ha, rank_of_text hbmin hbmax hb] at h
        cases h
    | none =>
      cases hb : tryParseStringToInt b with
      | some value' =>
        rw [rank_of_text hamin hamax ha, rank_of_int hb] at h
        cases h
      | none =>
        rw [rank_of_text hamin hamax ha, rank_of_text hbmin hbmax hb] at h
        have hunits : units a = units b := by simpa using h
        exact absurd (units_injective hunits) heq
  · rintro (rfl | h)
    · rfl
    · exact h.rank_eq

example : compareKey "-0" "00" = .eq ∧ compareKey "10" "9a" = .lt ∧ compareKey "9" "10" = .lt := by
  decide

/-- The keys below one node. No key is kept apart from its tie in the dictionary of the
source; here ties are broken by the texts. -/
structure Key where
  name : String

theorem Key.order_injective :
    Function.Injective fun k : Key => toLex (rank k.name, k.name) := by
  intro k k' h
  have hname : k.name = k'.name := congrArg (fun x => (ofLex x).2) h
  cases k
  cases k'
  exact congrArg Key.mk hname

instance : LinearOrder Key := LinearOrder.lift' _ Key.order_injective

/-- Keys that do not tie are in the order of the comparison. -/
theorem Key.lt_iff {k k' : Key} (h : ¬ ZeroTie k.name k'.name) :
    k < k' ↔ compareKey k.name k'.name = .lt := by
  rw [(compares_compareKey _ _).eq_lt]
  refine Prod.Lex.toLex_lt_toLex.trans ⟨fun hlt => ?_, Or.inl⟩
  cases hlt with
  | inl hlt => exact hlt
  | inr heq =>
    cases rank_eq_iff.mp heq.1 with
    | inl hname => exact absurd heq.2 (by rw [hname]; exact lt_irrefl _)
    | inr htie => exact absurd htie h

end Pincushion.Snapshot
