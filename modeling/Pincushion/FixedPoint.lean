import Mathlib.Data.Nat.GCD.Basic
import Mathlib.Data.Nat.Prime.Basic
import Pincushion.Literals

/-! Decimal texts with a fixed number of digits after the point: how a number is
rounded to them, what they are read as, and how they grow by one more digit. -/
namespace Pincushion.FixedPoint
open SwiftNumber Literals

/-- An integer at most half away from the number, and even where it is half away. -/
def Nearest (q : ℚ) (n : ℤ) : Prop := |q - n| < 1 / 2 ∨ |q - n| = 1 / 2 ∧ Even n

variable {q s t : ℚ} {m n : ℤ}

theorem nearest_roundHalfEven (q : ℚ) : Nearest q (roundHalfEven q) := by
  have hlow := Int.floor_le q
  have hhigh := Int.lt_floor_add_one q
  simp only [roundHalfEven]
  split_ifs with hless hmore heven
  · left
    rw [abs_of_nonneg] <;> linarith
  · left
    push_cast
    rw [abs_of_neg] <;> linarith
  · right
    refine ⟨?_, Int.even_iff.mpr heven⟩
    rw [abs_of_nonneg] <;> linarith
  · right
    refine ⟨?_, Int.even_iff.mpr (by omega)⟩
    push_cast
    rw [abs_of_neg] <;> linarith

theorem Nearest.unique (hm : Nearest q m) (hn : Nearest q n) : m = n := by
  have hdist : |(m : ℚ) - n| ≤ |q - m| + |q - n| := by
    have h := abs_sub_le (m : ℚ) q n
    rwa [abs_sub_comm (m : ℚ) q] at h
  have hle : |q - m| ≤ 1 / 2 ∧ |q - n| ≤ 1 / 2 :=
    ⟨hm.elim le_of_lt fun h => h.1.le, hn.elim le_of_lt fun h => h.1.le⟩
  by_cases hboth : Even m ∧ Even n
  · obtain ⟨⟨i, rfl⟩, ⟨j, rfl⟩⟩ := hboth
    have hone : |((i + i : ℤ) : ℚ) - (j + j : ℤ)| ≤ 1 := by linarith
    have hint : |(i + i) - (j + j)| ≤ 1 := by exact_mod_cast hone
    have hlow := (abs_le.mp hint).1
    have hhigh := (abs_le.mp hint).2
    omega
  · have hstrict : |q - m| < 1 / 2 ∨ |q - n| < 1 / 2 := by
      cases hm with
      | inl h => exact Or.inl h
      | inr h => exact Or.inr (hn.resolve_right fun h' => hboth ⟨h.2, h'.2⟩)
    have hone : |(m : ℚ) - n| < 1 := by
      cases hstrict with
      | inl h => linarith
      | inr h => linarith
    have hint : |m - n| < 1 := by exact_mod_cast hone
    have hzero := Int.abs_lt_one_iff.mp hint
    omega

theorem roundHalfEven_eq_iff : roundHalfEven q = n ↔ Nearest q n := by
  constructor
  · intro h
    rw [← h]
    exact nearest_roundHalfEven q
  · exact (nearest_roundHalfEven q).unique

theorem Nearest.neg (h : Nearest q n) : Nearest (-q) (-n) := by
  have hdist : |-q - ((-n : ℤ) : ℚ)| = |q - n| := by
    rw [← abs_neg]
    push_cast
    congr 1
    ring
  simpa only [Nearest, hdist, even_neg] using h

theorem roundHalfEven_neg (q : ℚ) : roundHalfEven (-q) = -roundHalfEven q :=
  roundHalfEven_eq_iff.mpr (nearest_roundHalfEven q).neg

/-- How far a number lies above or below the integer it is rounded to. -/
def offset (q : ℚ) : ℚ :=
  if Int.fract q < 1 / 2 ∨ Int.fract q = 1 / 2 ∧ Even ⌊q⌋ then Int.fract q else Int.fract q - 1

theorem sub_roundHalfEven (q : ℚ) : q - roundHalfEven q = offset q := by
  have hfract : q - ⌊q⌋ = Int.fract q := rfl
  simp only [roundHalfEven, offset, hfract, ← Int.even_iff]
  split_ifs with hless htie hmore heven <;> grind

/-- The offsets of two numbers add up to less than a half, or to exactly a half
where the two nearest integers have an even sum. -/
def OffsetsCancel (s t : ℚ) : Prop :=
  |offset s + offset t| < 1 / 2 ∨
    |offset s + offset t| = 1 / 2 ∧ ∃ k : ℤ, s + t = offset s + offset t + 2 * k

/-- Rounding apart and rounding together agree for such numbers alone. -/
theorem roundHalfEven_add_iff :
    roundHalfEven s + roundHalfEven t = roundHalfEven (s + t) ↔ OffsetsCancel s t := by
  have hoff : s + t - ((roundHalfEven s + roundHalfEven t : ℤ) : ℚ) = offset s + offset t := by
    rw [← sub_roundHalfEven, ← sub_roundHalfEven]
    push_cast
    ring
  have heven : Even (roundHalfEven s + roundHalfEven t) ↔
      ∃ k : ℤ, s + t = offset s + offset t + 2 * k := by
    rw [← hoff]
    constructor
    · rintro ⟨k, hk⟩
      refine ⟨k, ?_⟩
      rw [hk]
      push_cast
      ring
    · rintro ⟨k, hk⟩
      refine ⟨k, ?_⟩
      have hq : ((roundHalfEven s + roundHalfEven t : ℤ) : ℚ) = ((k + k : ℤ) : ℚ) := by
        push_cast at hk ⊢
        linarith
      exact_mod_cast hq
  rw [eq_comm, roundHalfEven_eq_iff, Nearest, hoff, heven, OffsetsCancel]

variable {places k : Nat}

/-- `k` divided by `10 ^ places`, with that many digits after the point. -/
def fixed (places k : Nat) : List Char :=
  let fraction := Nat.toDigits 10 (k % 10 ^ places)
  Nat.toDigits 10 (k / 10 ^ places) ++
    '.' :: (List.replicate (places - fraction.length) '0' ++ fraction)

/-- `String(format: "%.2f", _)` and its like for any number of digits. -/
def formatFixed (places : Nat) (q : ℚ) : String :=
  String.ofList (minus (decide (q < 0)) ++ fixed places (roundHalfEven (|q| * 10 ^ places)).natAbs)

theorem floatDescription_eq (q : ℚ) : floatDescription q = formatFixed (fractionDigits q) q := by
  simp [floatDescription, formatFixed, fixed]

theorem digits_replicate_zero (z acc : Nat) :
    digits 10 acc (List.replicate z '0') = some (acc * 10 ^ z) := by
  induction z generalizing acc with
  | zero => simp [digits]
  | succ z ih =>
    have hzero : digit 10 '0' = some 0 := by decide
    simp only [List.replicate_succ, digits, hzero, ih, Option.some.injEq]
    ring

theorem digits_from {cs : List Char} {v : Nat} (acc : Nat) (h : digits 10 0 cs = some v) :
    digits 10 acc cs = some (acc * 10 ^ cs.length + v) := by
  have hall : ∀ (cs : List Char) (v a b : Nat), digits 10 a cs = some v →
      digits 10 (a + b) cs = some (b * 10 ^ cs.length + v) := by
    intro cs
    induction cs with
    | nil =>
      intro v a b h
      obtain rfl := Option.some.inj h
      simp [digits, Nat.add_comm]
    | cons c cs ih =>
      intro v a b h
      simp only [digits] at h ⊢
      split at h
      · rename_i d hd
        have hstep := ih v (10 * a + d) (10 * b) h
        rw [show 10 * (a + b) + d = 10 * a + d + 10 * b by ring, hstep, List.length_cons]
        congr 1
        ring
      · cases h
  simpa using hall cs v 0 acc h

theorem length_fraction (hplaces : 0 < places) :
    (Nat.toDigits 10 (k % 10 ^ places)).length ≤ places :=
  (Nat.length_toDigits_le_iff (by decide) hplaces).mpr (Nat.mod_lt k (by positivity))

theorem number_fixed (hplaces : 0 < places) :
    number 10 (Nat.toDigits 10 (k / 10 ^ places) ++
      (List.replicate (places - (Nat.toDigits 10 (k % 10 ^ places)).length) '0' ++
        Nat.toDigits 10 (k % 10 ^ places))) = some k := by
  have hlength := length_fraction (k := k) hplaces
  have hpow : 10 ^ places = 10 ^ (places - (Nat.toDigits 10 (k % 10 ^ places)).length) *
      10 ^ (Nat.toDigits 10 (k % 10 ^ places)).length := by
    rw [← pow_add, Nat.sub_add_cancel hlength]
  simp only [number, List.append_eq_nil_iff, Nat.toDigits_ne_nil, false_and, if_false]
  rw [digits_append, digits_toDigits, Option.bind_some, digits_append, digits_replicate_zero,
    Option.bind_some, digits_from _ (digits_toDigits _), mul_assoc, ← hpow, mul_comm,
    Nat.div_add_mod]

theorem significand_fixed (hplaces : 0 < places) :
    significand 10 (fixed places k) = some ((k : ℚ) / 10 ^ places) := by
  have hwhole : ∀ c ∈ Nat.toDigits 10 (k / 10 ^ places), decide (c ≠ '.') = true := by
    intro c hc
    simp [ne_of_isDigit (isDigit_toDigits _ c hc) (d := '.') (by decide)]
  have hsplit := takeWhile_exact (p := fun c => decide (c ≠ '.')) hwhole
    (r := '.' :: (List.replicate (places - (Nat.toDigits 10 (k % 10 ^ places)).length) '0' ++
      Nat.toDigits 10 (k % 10 ^ places))) (by simp)
  have hlength := length_fraction (k := k) hplaces
  simp only [significand, fixed, hsplit.1, hsplit.2, number_fixed hplaces]
  simp [hlength]

theorem mem_fixed {c : Char} (h : c ∈ fixed places k) : c.isDigit ∨ c = '.' := by
  simp only [fixed, List.mem_append, List.mem_cons, List.mem_replicate] at h
  rcases h with h | rfl | ⟨-, rfl⟩ | h
  · exact Or.inl (isDigit_toDigits _ c h)
  · exact Or.inr rfl
  · exact Or.inl (by decide)
  · exact Or.inl (isDigit_toDigits _ c h)

theorem magnitude_fixed (hplaces : 0 < places) :
    magnitude (fixed places k) = some ((k : ℚ) / 10 ^ places) := by
  have hnot : ∀ c ∈ fixed places k, c ∉ ['x', 'X', 'e', 'E'] := by
    intro c hc hmark
    have hnone : ∀ d ∈ ['x', 'X', 'e', 'E'], ¬ (d.isDigit ∨ d = '.') := of_all rfl
    exact hnone c hmark (mem_fixed hc)
  have hdecimal : literal 10 isDecimalExponent 10 (fixed places k) =
      some ((k : ℚ) / 10 ^ places) := by
    have hbody : ∀ c ∈ fixed places k, (!isDecimalExponent c) = true := by
      intro c hc
      have hc := hnot c hc
      simp only [List.mem_cons, List.not_mem_nil, or_false, not_or] at hc
      simp [isDecimalExponent, hc.2.2.1, hc.2.2.2]
    have hsplit := takeWhile_exact (r := []) hbody (by simp)
    rw [List.append_nil] at hsplit
    simp only [literal, hsplit.1, hsplit.2, significand_fixed hplaces]
  unfold magnitude
  split
  · rename_i x hex heq
    have hx := hnot x (by rw [heq]; simp)
    simp only [List.mem_cons, List.not_mem_nil, or_false, not_or] at hx
    simp only [isHexMark, hx.1, hx.2.1, decide_false, Bool.or_self, Bool.false_eq_true, if_false]
    rw [← heq, hdecimal]
  · exact hdecimal

theorem sign_of_unsigned {cs : List Char} (h : ∀ c ∈ cs, c.isDigit ∨ c = '.') :
    sign cs = (false, cs) := by
  have hnone : ∀ d ∈ ['-', '+'], ¬ (d.isDigit ∨ d = '.') := of_all rfl
  unfold sign
  split
  · exact absurd (h '-' (by simp)) (hnone '-' (by simp))
  · exact absurd (h '+' (by simp)) (hnone '+' (by simp))
  · rfl

theorem sign_fixed (negative : Bool) :
    sign (minus negative ++ fixed places k) = (negative, fixed places k) := by
  cases negative with
  | true => rfl
  | false => exact sign_of_unsigned fun c => mem_fixed

theorem floatOfText_fixed (hplaces : 0 < places) (negative : Bool) :
    floatOfText (String.ofList (minus negative ++ fixed places k)) =
      some (if negative then -((k : ℚ) / 10 ^ places) else (k : ℚ) / 10 ^ places) := by
  have hnumeral : Numeral (fixed places k) :=
    magnitude_isSome_iff.mp (by rw [magnitude_fixed hplaces]; rfl)
  have hword : (sign (String.ofList (minus negative ++ fixed places k)).toList).2.map
      Char.toLower ∉ words := by
    rw [String.toList_ofList, sign_fixed]
    exact hnumeral.not_word
  rw [floatOfText, ofText_of_not_word hword, String.toList_ofList, sign_fixed,
    magnitude_fixed hplaces]
  rfl

/-- What the text of a number is read as: the number, rounded to its places. -/
theorem floatOfText_formatFixed (hplaces : 0 < places) (q : ℚ) :
    floatOfText (formatFixed places q) =
      some ((roundHalfEven (q * 10 ^ places) : ℚ) / 10 ^ places) := by
  have hnat : ∀ x : ℚ, 0 ≤ x → (((roundHalfEven x).natAbs : Nat) : ℚ) = roundHalfEven x := by
    intro x hx
    have hcast : ((roundHalfEven x).natAbs : ℤ) = roundHalfEven x := by
      have := roundHalfEven_nonneg hx
      omega
    rw [← Int.cast_natCast, hcast]
  rw [formatFixed, floatOfText_fixed hplaces, hnat _ (by positivity)]
  by_cases h : q < 0
  · simp only [h, decide_true, if_true, abs_of_neg h, neg_mul, roundHalfEven_neg]
    push_cast
    congr 1
    ring
  · simp [h, abs_of_nonneg (not_lt.mp h)]

theorem toDigits_mul_ten {m : Nat} (h : 0 < m) :
    Nat.toDigits 10 (10 * m) = Nat.toDigits 10 m ++ ['0'] := by
  rw [Nat.toDigits_of_base_le (by decide) (by omega)]
  simp

/-- Another place adds a zero. -/
theorem fixed_succ (hplaces : 0 < places) :
    fixed (places + 1) (10 * k) = fixed places k ++ ['0'] := by
  have hpow : 10 ^ (places + 1) = 10 * 10 ^ places := by ring
  have hlength := length_fraction (k := k) hplaces
  simp only [fixed, hpow, Nat.mul_div_mul_left _ _ (show 0 < 10 by decide), Nat.mul_mod_mul_left,
    List.append_assoc, List.cons_append]
  congr 2
  by_cases hzero : k % 10 ^ places = 0
  · obtain ⟨p, rfl⟩ := Nat.exists_eq_succ_of_ne_zero hplaces.ne'
    simp only [hzero, Nat.mul_zero, Nat.toDigits_zero, List.length_singleton,
      Nat.succ_eq_add_one, Nat.add_sub_cancel]
    rw [List.replicate_succ', List.append_assoc]
  · rw [toDigits_mul_ten (Nat.pos_of_ne_zero hzero)]
    simp

theorem den_abs (q : ℚ) : |q|.den = q.den := by
  by_cases h : q < 0
  · rw [abs_of_neg h, Rat.neg_den]
  · rw [abs_of_nonneg (not_lt.mp h)]

theorem roundHalfEven_of_den {q : ℚ} (h : q.den = 1) : (roundHalfEven q : ℚ) = q := by
  have hq : ((q.num : ℤ) : ℚ) = q := Rat.den_eq_one_iff q |>.mp h
  rw [← hq, roundHalfEven_intCast]

theorem den_abs_mul (q : ℚ) (places : Nat) : (|q| * 10 ^ places).den = (q * 10 ^ places).den := by
  rw [← den_abs (q * 10 ^ places), abs_mul, abs_of_nonneg (a := (10 : ℚ) ^ places) (by positivity)]

/-- One place more than a number needs is a zero at the end of its text. -/
theorem formatFixed_succ (hplaces : 0 < places) (h : (q * 10 ^ places).den = 1) :
    formatFixed (places + 1) q = formatFixed places q ++ "0" := by
  have hint := roundHalfEven_of_den (q := |q| * 10 ^ places) (by rw [den_abs_mul, h])
  have hmore : roundHalfEven (|q| * 10 ^ (places + 1)) =
      10 * roundHalfEven (|q| * 10 ^ places) := by
    have hcast : |q| * 10 ^ (places + 1) = ((10 * roundHalfEven (|q| * 10 ^ places) : ℤ) : ℚ) := by
      push_cast
      rw [hint]
      ring
    rw [hcast, roundHalfEven_intCast]
  have habs : (10 * roundHalfEven (|q| * 10 ^ places)).natAbs =
      10 * (roundHalfEven (|q| * 10 ^ places)).natAbs := by
    rw [Int.natAbs_mul]
    rfl
  rw [formatFixed, hmore, habs, fixed_succ hplaces, ← List.append_assoc, String.ofList_append]
  rfl

/-- A text cannot be another one with a zero more. -/
theorem append_zero_ne (text : String) : text ++ "0" ≠ text := by
  intro h
  have hlength := congrArg String.length h
  simp at hlength

theorem den_mul_pow_iff : (q * 10 ^ places).den = 1 ↔ q.den ∣ 10 ^ places := by
  have hden : (q.den : ℤ) ≠ 0 := by exact_mod_cast q.den_nz
  have hq : q * 10 ^ places = ((q.num * 10 ^ places : ℤ) : ℚ) / (q.den : ℤ) := by
    push_cast
    conv_lhs => rw [← Rat.num_div_den q]
    ring
  rw [hq, Rat.den_div_intCast_eq_one_iff _ _ hden, Int.natCast_dvd, Int.natAbs_mul,
    Nat.Coprime.dvd_mul_left q.reduced.symm, Int.natAbs_pow]
  rfl

theorem lt_log2_of_dvd {d : Nat} (h : d ∣ 10 ^ (k + 1)) (hnot : ¬ d ∣ 10 ^ k) : k < d.log2 := by
  have hpow : ∀ n, (10 : Nat) ^ n = 2 ^ n * 5 ^ n := fun n => Nat.mul_pow 2 5 n
  rw [hpow] at h hnot
  obtain ⟨x, y, hx, hy, rfl⟩ := Nat.dvd_mul.mp h
  obtain ⟨a, ha, rfl⟩ := (Nat.dvd_prime_pow Nat.prime_two).mp hx
  obtain ⟨b, hb, rfl⟩ := (Nat.dvd_prime_pow Nat.prime_five).mp hy
  have hlarge : 2 ^ (k + 1) ≤ 2 ^ a * 5 ^ b := by
    by_cases hak : a = k + 1
    · subst hak
      exact Nat.le_mul_of_pos_right _ (by positivity)
    · have hbk : b = k + 1 := by
        by_contra hbk
        exact hnot (Nat.mul_dvd_mul (pow_dvd_pow 2 (by omega)) (pow_dvd_pow 5 (by omega)))
      subst hbk
      calc 2 ^ (k + 1) ≤ 5 ^ (k + 1) := Nat.pow_le_pow_left (by decide) _
        _ ≤ 2 ^ a * 5 ^ (k + 1) := Nat.le_mul_of_pos_left _ (by positivity)
  exact (Nat.le_log2 (by positivity)).mpr hlarge

/-- A decimal fraction is described with the least number of places, at least one,
that it has. -/
theorem fractionDigits_eq (h : (q * 10 ^ (k + 1)).den = 1)
    (hleast : ∀ j < k, (q * 10 ^ (j + 1)).den ≠ 1) : fractionDigits q = k + 1 := by
  have hfind : (List.range q.den.log2).find? (fun j => (q * 10 ^ (j + 1)).den = 1) = some k ∨
      q.den.log2 = k := by
    cases k with
    | zero =>
      by_cases hzero : q.den.log2 = 0
      · exact Or.inr hzero
      · left
        simp only [List.find?_range_eq_some, List.mem_range]
        refine ⟨by simpa using h, Nat.pos_of_ne_zero hzero, ?_⟩
        exact fun j hj => absurd hj (Nat.not_lt_zero j)
    | succ k =>
      left
      have hlog := lt_log2_of_dvd (den_mul_pow_iff.mp h)
        (fun hdvd => hleast k (Nat.lt_succ_self k) (den_mul_pow_iff.mpr hdvd))
      simp only [List.find?_range_eq_some, List.mem_range]
      exact ⟨by simpa using h, hlog, fun j hj => by simpa using hleast j hj⟩
  simp only [fractionDigits]
  cases hfind with
  | inl hfind => rw [hfind, Option.getD_some]
  | inr hmost =>
    have hnone : (List.range k).find? (fun j => (q * 10 ^ (j + 1)).den = 1) = none := by
      rw [List.find?_range_eq_none]
      intro j hj
      simpa using hleast j hj
    rw [hmost, hnone, Option.getD_none]

/-- A number of hundredths is described, up to a zero, as it is printed with two
places exactly where it is a number of tenths. -/
theorem description_zero_eq_iff {q : ℚ} (hhundredths : (q * 100).den = 1) :
    floatDescription q ++ "0" = formatFixed 2 q ↔ (q * 10).den = 1 := by
  constructor
  · intro h
    by_contra htenths
    have htwo : fractionDigits q = 2 := by
      refine fractionDigits_eq (k := 1) (by norm_num [hhundredths]) fun j hj => ?_
      obtain rfl : j = 0 := by omega
      simpa using htenths
    rw [floatDescription_eq, htwo] at h
    exact append_zero_ne _ h
  · intro htenths
    have hone : fractionDigits q = 1 :=
      fractionDigits_eq (k := 0) (by simpa using htenths) fun j hj => absurd hj (Nat.not_lt_zero j)
    have hmore : formatFixed 2 q = formatFixed 1 q ++ "0" :=
      formatFixed_succ (by decide) (by simpa using htenths)
    rw [floatDescription_eq, hone, hmore]

end Pincushion.FixedPoint
