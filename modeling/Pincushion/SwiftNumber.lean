import Mathlib.Algebra.Order.Floor.Ring
import Mathlib.Data.List.TakeWhile
import Mathlib.Data.Rat.Floor
import Mathlib.Tactic.Linarith
import Mathlib.Tactic.NormNum

/-! The numbers of the standard library as the screens use them: `Int` is the
64-bit integer, `Float` is read as the exact rational its text denotes. Rounding
to binary and overflow to infinity are left aside. -/
namespace Pincushion.SwiftNumber

structure SwiftInt where
  val : Int
  min_le : -2 ^ 63 ≤ val
  lt_max : val < 2 ^ 63
deriving DecidableEq

instance : Inhabited SwiftInt := ⟨0, by decide, by decide⟩

instance : OfNat SwiftInt 1 := ⟨1, by decide, by decide⟩

def SwiftInt.ofInt? (i : Int) : Option SwiftInt :=
  if h : -2 ^ 63 ≤ i ∧ i < 2 ^ 63 then some ⟨i, h.1, h.2⟩ else none

theorem SwiftInt.ofInt?_val (i : SwiftInt) : SwiftInt.ofInt? i.val = some i := by
  simp only [SwiftInt.ofInt?, i.min_le, i.lt_max, and_self, dite_true]

/-- The values a `Float` text can denote. -/
inductive SwiftFloat where
  | finite (q : ℚ)
  | infinite (negative : Bool)
  | nan
deriving DecidableEq

def SwiftFloat.toRat? : SwiftFloat → Option ℚ
  | .finite q => some q
  | .infinite _ | .nan => none

def digit (base : Nat) (c : Char) : Option Nat :=
  let d := if c.isDigit then c.toNat - '0'.toNat
    else if 'a' ≤ c ∧ c ≤ 'f' then c.toNat - 'a'.toNat + 10
    else if 'A' ≤ c ∧ c ≤ 'F' then c.toNat - 'A'.toNat + 10
    else base
  if d < base then some d else none

def digits (base acc : Nat) : List Char → Option Nat
  | [] => some acc
  | c :: cs => match digit base c with
    | some d => digits base (base * acc + d) cs
    | none => none

/-- A number has at least one digit. -/
def number (base : Nat) (cs : List Char) : Option Nat :=
  if cs = [] then none else digits base 0 cs

def sign : List Char → Bool × List Char
  | '-' :: cs => (true, cs)
  | '+' :: cs => (false, cs)
  | cs => (false, cs)

/-- `Int(_: String)`: a sign and decimal digits that fit the width. -/
def SwiftInt.ofText (text : String) : Option SwiftInt :=
  let (negative, cs) := sign text.toList
  match number 10 cs with
  | some n => SwiftInt.ofInt? (if negative then -(n : Int) else n)
  | none => none

def significand (base : Nat) (cs : List Char) : Option ℚ :=
  let whole := cs.takeWhile (· ≠ '.')
  match cs.dropWhile (· ≠ '.') with
  | [] => (number base whole).map Nat.cast
  | _ :: fraction =>
    (number base (whole ++ fraction)).map fun n => (n : ℚ) / (base : ℚ) ^ fraction.length

def exponent (cs : List Char) : Option Int :=
  let (negative, ds) := sign cs
  (number 10 ds).map fun n => if negative then -(n : Int) else n

/-- A significand and an optional exponent after the mark, which scales by `radix`. -/
def literal (base : Nat) (isMark : Char → Bool) (radix : ℚ) (cs : List Char) : Option ℚ :=
  let q := significand base (cs.takeWhile fun c => !isMark c)
  match cs.dropWhile fun c => !isMark c with
  | [] => q
  | _ :: e => match q, exponent e with
    | some q, some k => some (q * radix ^ k)
    | _, _ => none

def isHexMark (c : Char) : Bool := c = 'x' || c = 'X'
def isDecimalExponent (c : Char) : Bool := c = 'e' || c = 'E'
def isHexExponent (c : Char) : Bool := c = 'p' || c = 'P'

def magnitude : List Char → Option ℚ
  | '0' :: x :: hex =>
    if isHexMark x then literal 16 isHexExponent 2 hex
    else literal 10 isDecimalExponent 10 ('0' :: x :: hex)
  | cs => literal 10 isDecimalExponent 10 cs

/-- `Float(_: String)`: an optional sign before a decimal literal, a hexadecimal
literal, or one of inf, infinity and nan in any case. -/
def SwiftFloat.ofText (text : String) : Option SwiftFloat :=
  let (negative, cs) := sign text.toList
  let lower := cs.map Char.toLower
  if lower = "inf".toList ∨ lower = "infinity".toList then some (.infinite negative)
  else if lower = "nan".toList then some .nan
  else (magnitude cs).map fun q => .finite (if negative then -q else q)

/-- `Float(_: String)` where floats are exact rationals: a text for an infinity
or for no number has none. -/
def floatOfText (text : String) : Option ℚ := (SwiftFloat.ofText text).bind SwiftFloat.toRat?

/-- The nearest integer, and the even one of two that are equally near. -/
def roundHalfEven (q : ℚ) : Int :=
  let r := q - ⌊q⌋
  if r < 1 / 2 then ⌊q⌋
  else if 1 / 2 < r then ⌊q⌋ + 1
  else if ⌊q⌋ % 2 = 0 then ⌊q⌋ else ⌊q⌋ + 1

def minus (negative : Bool) : List Char := if negative then ['-'] else []

/-- `String(_: Int)` -/
def SwiftInt.description (i : SwiftInt) : String :=
  String.ofList (minus (decide (i.val < 0)) ++ Nat.toDigits 10 i.val.natAbs)

/-- `String(format: "%.0f", _)` -/
def formatWhole (q : ℚ) : String :=
  String.ofList (minus (decide (q < 0)) ++ Nat.toDigits 10 (roundHalfEven |q|).natAbs)

/-- How many digits after the point a decimal fraction needs, at least one. -/
def fractionDigits (q : ℚ) : Nat :=
  let most := q.den.log2
  ((List.range most).find? fun k => (q * 10 ^ (k + 1)).den = 1).getD most + 1

/-- `String(_: Float)` for a decimal fraction: the shortest decimal that has a
digit after the point. -/
def floatDescription (q : ℚ) : String :=
  let k := fractionDigits q
  let n := (roundHalfEven (|q| * 10 ^ k)).natAbs
  let fraction := Nat.toDigits 10 (n % 10 ^ k)
  String.ofList (minus (decide (q < 0)) ++ Nat.toDigits 10 (n / 10 ^ k) ++
    '.' :: (List.replicate (k - fraction.length) '0' ++ fraction))

/-- `String(_: Float)` -/
def SwiftFloat.description : SwiftFloat → String
  | .finite q => floatDescription q
  | .infinite negative => if negative then "-inf" else "inf"
  | .nan => "nan"

theorem digits_append (base acc : Nat) (xs ys : List Char) :
    digits base acc (xs ++ ys) = (digits base acc xs).bind fun v => digits base v ys := by
  induction xs generalizing acc with
  | nil => rfl
  | cons c xs ih =>
    simp only [List.cons_append, digits]
    cases digit base c with
    | none => rfl
    | some d => exact ih _

theorem digit_digitChar {n : Nat} (h : n < 10) : digit 10 n.digitChar = some n := by
  simp [digit, h, Nat.toNat_digitChar_of_lt_ten h]

theorem digits_toDigits (n : Nat) : digits 10 0 (Nat.toDigits 10 n) = some n := by
  induction n using Nat.strong_induction_on with
  | _ n ih =>
    rw [Nat.toDigits_eq_if (by omega)]
    split
    · rename_i h
      simp [digits, digit_digitChar h]
    · have hmod : n % 10 < 10 := Nat.mod_lt n (by omega)
      rw [digits_append, ih (n / 10) (by omega)]
      simp only [Option.bind_some, digits, digit_digitChar hmod, Option.some.injEq]
      omega

theorem number_toDigits (n : Nat) : number 10 (Nat.toDigits 10 n) = some n := by
  simp [number, digits_toDigits]

theorem isDigit_toDigits (n : Nat) : ∀ c ∈ Nat.toDigits 10 n, c.isDigit :=
  fun _ hc => Nat.isDigit_of_mem_toDigits (by omega) (by omega) hc

theorem ne_of_isDigit {c d : Char} (hc : c.isDigit) (hd : d.isDigit = false) : c ≠ d := by
  rintro rfl
  rw [hd] at hc
  cases hc

theorem sign_of_digits {cs : List Char} (h : ∀ c ∈ cs, c.isDigit) : sign cs = (false, cs) := by
  unfold sign
  split
  · exact absurd rfl (ne_of_isDigit (h '-' (by simp)) (by decide))
  · exact absurd rfl (ne_of_isDigit (h '+' (by simp)) (by decide))
  · rfl

theorem sign_minus {cs : List Char} (negative : Bool) (h : ∀ c ∈ cs, c.isDigit) :
    sign (minus negative ++ cs) = (negative, cs) := by
  cases negative with
  | true => rfl
  | false => exact sign_of_digits h

/-- Reading what was printed gives the integer back. -/
theorem SwiftInt.ofText_description (i : SwiftInt) : SwiftInt.ofText i.description = some i := by
  have hval : (if decide (i.val < 0) then -(i.val.natAbs : Int) else i.val.natAbs) = i.val := by
    by_cases h : i.val < 0 <;> simp only [h, decide_true, decide_false, if_true] <;> grind
  simp only [SwiftInt.ofText, SwiftInt.description, String.toList_ofList,
    sign_minus _ (isDigit_toDigits _), number_toDigits, hval, SwiftInt.ofInt?_val]

theorem takeWhile_digits {cs : List Char} {p : Char → Bool} (h : ∀ c ∈ cs, c.isDigit)
    (hp : ∀ c, c.isDigit → p c) : cs.takeWhile p = cs :=
  List.takeWhile_eq_self_iff.mpr fun c hc => hp c (h c hc)

theorem dropWhile_digits {cs : List Char} {p : Char → Bool} (h : ∀ c ∈ cs, c.isDigit)
    (hp : ∀ c, c.isDigit → p c) : cs.dropWhile p = [] :=
  List.dropWhile_eq_nil_iff.mpr fun c hc => hp c (h c hc)

/-- Digits alone are a decimal literal without point or exponent. -/
theorem literal_of_digits {cs : List Char} (h : ∀ c ∈ cs, c.isDigit) :
    literal 10 isDecimalExponent 10 cs = (number 10 cs).map Nat.cast := by
  have hmark : ∀ c : Char, c.isDigit → (!isDecimalExponent c) = true := by
    intro c hc
    have he := ne_of_isDigit hc (d := 'e') (by decide)
    have hE := ne_of_isDigit hc (d := 'E') (by decide)
    simp [isDecimalExponent, he, hE]
  have hpoint : ∀ c : Char, c.isDigit → decide (c ≠ '.') = true := by
    intro c hc
    simp [ne_of_isDigit hc (d := '.') (by decide)]
  simp only [literal, takeWhile_digits h hmark, dropWhile_digits h hmark, significand,
    takeWhile_digits h hpoint, dropWhile_digits h hpoint]

theorem magnitude_of_digits {cs : List Char} (h : ∀ c ∈ cs, c.isDigit) :
    magnitude cs = (number 10 cs).map Nat.cast := by
  unfold magnitude
  split
  · rename_i x hex
    have hx : x.isDigit := h x (by simp)
    have hlow := ne_of_isDigit hx (d := 'x') (by decide)
    have hup := ne_of_isDigit hx (d := 'X') (by decide)
    simp [isHexMark, hlow, hup, literal_of_digits h]
  · exact literal_of_digits h

theorem lower_ne_word {cs : List Char} (word : String) (h : ∀ c ∈ cs, c.isDigit)
    (hword : ∃ d ds, word.toList = d :: ds ∧ d.isDigit = false) :
    cs.map Char.toLower ≠ word.toList := by
  obtain ⟨d, ds, hd, hnot⟩ := hword
  rw [hd]
  intro heq
  cases cs with
  | nil => cases heq
  | cons c cs =>
    have hc : c.isDigit := h c (by simp)
    have hupper : ¬ (c.val ≥ 'A'.val ∧ c.val ≤ 'Z'.val) := by
      simp only [Char.isDigit, Bool.and_eq_true, decide_eq_true_eq] at hc
      grind
    have hlow : c.toLower = c := dif_neg hupper
    simp only [List.map_cons, List.cons.injEq, hlow] at heq
    exact ne_of_isDigit hc hnot heq.1

/-- Digits after an optional minus denote their number. -/
theorem floatOfText_digits (negative : Bool) (n : Nat) :
    floatOfText (String.ofList (minus negative ++ Nat.toDigits 10 n)) =
      some (if negative then -(n : ℚ) else n) := by
  have h := isDigit_toDigits n
  have hinf := lower_ne_word "inf" h ⟨'i', ['n', 'f'], by decide, by decide⟩
  have hinfinity := lower_ne_word "infinity" h
    ⟨'i', ['n', 'f', 'i', 'n', 'i', 't', 'y'], by decide, by decide⟩
  have hnan := lower_ne_word "nan" h ⟨'n', ['a', 'n'], by decide, by decide⟩
  simp only [floatOfText, SwiftFloat.ofText, String.toList_ofList, sign_minus _ h,
    hinf, hinfinity, hnan, or_self, if_false, magnitude_of_digits h, number_toDigits,
    Option.map_some, Option.bind_some, SwiftFloat.toRat?]

theorem roundHalfEven_intCast (n : Int) : roundHalfEven (n : ℚ) = n := by
  simp [roundHalfEven]

theorem roundHalfEven_nonneg {q : ℚ} (h : 0 ≤ q) : 0 ≤ roundHalfEven q := by
  have hf : 0 ≤ ⌊q⌋ := Int.floor_nonneg.mpr h
  simp only [roundHalfEven]
  split_ifs <;> omega

/-- The whole number that `formatWhole` prints. -/
def wholeShown (q : ℚ) : Int :=
  if q < 0 then -roundHalfEven |q| else roundHalfEven |q|

theorem floatOfText_formatWhole (q : ℚ) :
    floatOfText (formatWhole q) = some (wholeShown q : ℚ) := by
  have habs : (((roundHalfEven |q|).natAbs : Nat) : ℚ) = (roundHalfEven |q| : ℚ) := by
    have hnn := roundHalfEven_nonneg (abs_nonneg q)
    have hcast : ((roundHalfEven |q|).natAbs : Int) = roundHalfEven |q| := by omega
    rw [← Int.cast_natCast, hcast]
  rw [formatWhole, floatOfText_digits, habs, wholeShown]
  by_cases h : q < 0 <;> simp [h]

/-- Printing without decimals and reading again keeps whole numbers only. -/
theorem wholeShown_eq_iff (q : ℚ) : (wholeShown q : ℚ) = q ↔ q.den = 1 := by
  constructor
  · intro h
    rw [← h]
    exact Rat.den_intCast _
  · intro h
    have hq : ((q.num : Int) : ℚ) = q := Rat.den_eq_one_iff q |>.mp h
    rw [← hq]
    unfold wholeShown
    split
    · rename_i hneg
      rw [abs_of_neg hneg, ← Int.cast_neg, roundHalfEven_intCast]
      simp
    · rename_i hpos
      rw [abs_of_nonneg (not_lt.mp hpos), roundHalfEven_intCast]

end Pincushion.SwiftNumber
