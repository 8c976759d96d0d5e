import Pincushion.SwiftNumber

/-! The texts that denote numbers, by their form. What the parsers accept is
exactly this; that a number is negative or not finite shows in its characters. -/
namespace Pincushion.Literals
open SwiftNumber

def decimalDigits : List Char := "0123456789".toList
def hexDigits : List Char := "0123456789abcdefABCDEF".toList

def Whole (cs : List Char) : Prop := cs ≠ [] ∧ ∀ c ∈ cs, c ∈ decimalDigits

/-- Digits, at least one, with a point somewhere or none. -/
def Significand (alphabet cs : List Char) : Prop :=
  ∃ whole fraction, (cs = whole ++ fraction ∨ cs = whole ++ '.' :: fraction) ∧
    whole ++ fraction ≠ [] ∧ ∀ c ∈ whole ++ fraction, c ∈ alphabet

/-- A sign may stand before what `P` allows. -/
def Signed (P : List Char → Prop) (cs : List Char) : Prop :=
  P cs ∨ ∃ ds, (cs = '+' :: ds ∨ cs = '-' :: ds) ∧ P ds

/-- An exponent may stand behind the significand and a mark. -/
def Scaled (alphabet marks cs : List Char) : Prop :=
  Significand alphabet cs ∨
    ∃ q mark e, cs = q ++ mark :: e ∧ mark ∈ marks ∧ Significand alphabet q ∧ Signed Whole e

def Numeral (cs : List Char) : Prop :=
  Scaled decimalDigits ['e', 'E'] cs ∨
    ∃ x hex, cs = '0' :: x :: hex ∧ x ∈ ['x', 'X'] ∧ Scaled hexDigits ['p', 'P'] hex

/-- The text of a finite `Float`. -/
def FloatText (text : String) : Prop := Signed Numeral text.toList

def decimalValue (ds : List Char) : Nat :=
  ds.foldl (fun n c => 10 * n + (c.toNat - '0'.toNat)) 0

/-- The text of an `Int`: the number fits 64 bits. -/
def IntText (text : String) : Prop :=
  ∃ ds, Whole ds ∧
    ((text.toList = ds ∨ text.toList = '+' :: ds) ∧ decimalValue ds < 2 ^ 63 ∨
      text.toList = '-' :: ds ∧ decimalValue ds ≤ 2 ^ 63)

/-- A fact about the characters of an alphabet, from its computation. -/
theorem of_all {p : Char → Prop} [DecidablePred p] {cs : List Char}
    (h : cs.all (fun c => decide (p c)) = true) : ∀ c ∈ cs, p c := by
  simpa using h

/-- What holds of every ASCII character and of none beyond. -/
theorem iff_of_ascii {p q : Char → Prop} (h : ∀ n < 128, p (Char.ofNat n) ↔ q (Char.ofNat n))
    (hp : ∀ c, p c → c.toNat < 128) (hq : ∀ c, q c → c.toNat < 128) (c : Char) : p c ↔ q c := by
  by_cases hc : c.toNat < 128
  · have hn := h c.toNat hc
    rwa [Char.ofNat_toNat] at hn
  · exact iff_of_false (fun hpc => hc (hp c hpc)) (fun hqc => hc (hq c hqc))

theorem isDigit_lt {c : Char} (h : c.isDigit) : c.toNat < 128 := by
  simp only [Char.isDigit, Bool.and_eq_true, decide_eq_true_eq] at h
  have hhigh : c.toNat ≤ 57 := h.2
  omega

theorem mem_decimalDigits_iff {c : Char} : c ∈ decimalDigits ↔ c.isDigit := by
  refine iff_of_ascii (p := (· ∈ decimalDigits)) (q := fun c => c.isDigit = true) ?_ ?_ ?_ c
  · decide
  · intro c hc
    have hall : ∀ d ∈ decimalDigits, d.toNat < 128 := of_all rfl
    exact hall c hc
  · exact fun c => isDigit_lt

theorem digit_lt {base : Nat} {c : Char} (h : (digit base c).isSome) : c.toNat < 128 := by
  by_contra hc
  have hdigit : c.isDigit = false := by
    by_contra hd
    exact hc (isDigit_lt (by simpa using hd))
  have hlow : ¬ ('a' ≤ c ∧ c ≤ 'f') := by
    rintro ⟨-, hle⟩
    have hle : c.toNat ≤ 102 := hle
    omega
  have hup : ¬ ('A' ≤ c ∧ c ≤ 'F') := by
    rintro ⟨-, hle⟩
    have hle : c.toNat ≤ 70 := hle
    omega
  simp [digit, hdigit, hlow, hup] at h

/-- The characters of an alphabet are the digits of a base. -/
def Spells (alphabet : List Char) (base : Nat) : Prop :=
  ∀ c, (digit base c).isSome ↔ c ∈ alphabet

theorem spells_decimal : Spells decimalDigits 10 := by
  intro c
  refine iff_of_ascii (p := fun c => (digit 10 c).isSome = true) (q := (· ∈ decimalDigits)) ?_
    (fun c => digit_lt) ?_ c
  · decide
  · intro c hc
    exact isDigit_lt (mem_decimalDigits_iff.mp hc)

theorem spells_hex : Spells hexDigits 16 := by
  intro c
  refine iff_of_ascii (p := fun c => (digit 16 c).isSome = true) (q := (· ∈ hexDigits)) ?_
    (fun c => digit_lt) ?_ c
  · decide +kernel
  · intro c hc
    have hall : ∀ d ∈ hexDigits, d.toNat < 128 := of_all rfl
    exact hall c hc

variable {alphabet marks cs : List Char} {base : Nat}

theorem digits_isSome_iff (h : Spells alphabet base) (acc : Nat) :
    (digits base acc cs).isSome ↔ ∀ c ∈ cs, c ∈ alphabet := by
  induction cs generalizing acc with
  | nil => simp [digits]
  | cons c cs ih =>
    rw [List.forall_mem_cons, ← h c]
    cases hc : digit base c with
    | none => simp [digits, hc]
    | some d => simp [digits, hc, ih]

theorem number_isSome_iff (h : Spells alphabet base) :
    (number base cs).isSome ↔ cs ≠ [] ∧ ∀ c ∈ cs, c ∈ alphabet := by
  by_cases hcs : cs = []
  · simp [number, hcs]
  · simp [number, hcs, digits_isSome_iff h]

/-- The list up to the first element that fails `p`. -/
theorem takeWhile_exact {α : Type*} {p : α → Bool} {body r : List α}
    (hbody : ∀ a ∈ body, p a) (hrest : ∀ a ∈ r.head?, p a = false) :
    (body ++ r).takeWhile p = body ∧ (body ++ r).dropWhile p = r := by
  rw [List.takeWhile_append_of_pos hbody, List.dropWhile_append_of_pos hbody]
  cases r with
  | nil => simp
  | cons a r =>
    have ha : p a = false := hrest a (by simp)
    simp [ha]

theorem isSome_cast (n : Option Nat) : (do let a ← n; pure (a : ℚ)).isSome = n.isSome := by
  cases n <;> rfl

theorem significand_isSome_iff (h : Spells alphabet base) (hpoint : '.' ∉ alphabet) :
    (significand base cs).isSome ↔ Significand alphabet cs := by
  constructor
  · intro hsome
    simp only [significand] at hsome
    split at hsome
    · rename_i hdrop
      have hcs := List.takeWhile_append_dropWhile (p := (· ≠ '.')) (l := cs)
      rw [hdrop, List.append_nil] at hcs
      rw [Option.isSome_map, number_isSome_iff h, hcs] at hsome
      exact ⟨cs, [], Or.inl (by simp), by simpa using hsome.1, by simpa using hsome.2⟩
    · rename_i c fraction hdrop
      have hcs := List.takeWhile_append_dropWhile (p := (· ≠ '.')) (l := cs)
      have hc : c = '.' := by
        have hhead := List.head?_dropWhile_not (p := (· ≠ '.')) cs
        rw [hdrop] at hhead
        simpa using hhead
      rw [Option.isSome_map, isSome_cast, number_isSome_iff h] at hsome
      rw [hdrop, hc] at hcs
      exact ⟨_, fraction, Or.inr hcs.symm, hsome.1, hsome.2⟩
  · rintro ⟨whole, fraction, hcs, hne, hall⟩
    have hnot : ∀ c ∈ whole ++ fraction, decide (c ≠ '.') = true := by
      intro c hc
      rw [decide_eq_true_eq]
      rintro rfl
      exact hpoint (hall _ hc)
    rcases hcs with rfl | rfl
    · obtain ⟨htake, hdrop⟩ := takeWhile_exact (r := []) hnot (by simp)
      rw [List.append_nil] at htake hdrop
      simp only [significand, htake, hdrop, Option.isSome_map]
      exact (number_isSome_iff h).mpr ⟨hne, hall⟩
    · obtain ⟨htake, hdrop⟩ := takeWhile_exact (r := '.' :: fraction)
        (fun c hc => hnot c (List.mem_append_left _ hc)) (by simp)
      simp only [significand, htake, hdrop, Option.isSome_map, isSome_cast]
      exact (number_isSome_iff h).mpr ⟨hne, hall⟩

theorem sign_cases (cs : List Char) :
    (∃ ds, cs = '-' :: ds ∧ sign cs = (true, ds)) ∨ (∃ ds, cs = '+' :: ds ∧ sign cs = (false, ds)) ∨
      cs.head? ≠ some '-' ∧ cs.head? ≠ some '+' ∧ sign cs = (false, cs) := by
  unfold sign
  split
  · rename_i ds
    exact Or.inl ⟨ds, rfl, rfl⟩
  · rename_i ds
    exact Or.inr (Or.inl ⟨ds, rfl, rfl⟩)
  · rename_i hminus hplus
    refine Or.inr (Or.inr ⟨fun h => ?_, fun h => ?_, rfl⟩)
    · obtain ⟨ds, rfl⟩ := List.head?_eq_some_iff.mp h
      exact hminus ds rfl
    · obtain ⟨ds, rfl⟩ := List.head?_eq_some_iff.mp h
      exact hplus ds rfl

/-- What has no sign of its own is behind the sign that is read. -/
theorem signed_iff {P : List Char → Prop} (hminus : ∀ ds, ¬ P ('-' :: ds))
    (hplus : ∀ ds, ¬ P ('+' :: ds)) : Signed P cs ↔ P (sign cs).2 := by
  rcases sign_cases cs with ⟨ds, rfl, hsign⟩ | ⟨ds, rfl, hsign⟩ | ⟨hm, hp, hsign⟩
  · simp [Signed, hsign, hminus]
  · simp [Signed, hsign, hplus]
  · rw [hsign]
    constructor
    · rintro (h | ⟨ds, rfl | rfl, -⟩)
      · exact h
      · exact absurd rfl hp
      · exact absurd rfl hm
    · exact Or.inl

theorem signed_whole_iff : Signed Whole cs ↔ Whole (sign cs).2 := by
  refine signed_iff (fun ds h => ?_) (fun ds h => ?_)
  · exact absurd (h.2 '-' (by simp)) (by decide)
  · exact absurd (h.2 '+' (by simp)) (by decide)

theorem whole_iff : Whole cs ↔ (number 10 cs).isSome := (number_isSome_iff spells_decimal).symm

theorem exponent_isSome_iff : (exponent cs).isSome ↔ Signed Whole cs := by
  rw [signed_whole_iff, whole_iff]
  simp only [exponent]
  cases number 10 (sign cs).2 <;> simp

theorem Significand.mem {c : Char} (h : Significand alphabet cs) (hc : c ∈ cs) :
    c ∈ alphabet ∨ c = '.' := by
  obtain ⟨whole, fraction, rfl | rfl, -, hall⟩ := h
  · exact Or.inl (hall c hc)
  · cases List.mem_append.mp hc with
    | inl hc =>
      exact Or.inl (hall c (List.mem_append_left _ hc))
    | inr hc =>
      rcases List.mem_cons.mp hc with rfl | hc
      · exact Or.inr rfl
      · exact Or.inl (hall c (List.mem_append_right _ hc))

theorem Significand.ne_nil (h : Significand alphabet cs) : cs ≠ [] := by
  obtain ⟨whole, fraction, rfl | rfl, hne, -⟩ := h
  · exact hne
  · simp

theorem literal_isSome_iff {isMark : Char → Bool} {radix : ℚ} (h : Spells alphabet base)
    (hpoint : '.' ∉ alphabet) (hmarks : ∀ c, isMark c ↔ c ∈ marks)
    (hapart : ∀ c ∈ marks, c ∉ alphabet ∧ c ≠ '.') :
    (literal base isMark radix cs).isSome ↔ Scaled alphabet marks cs := by
  have hinside : ∀ q, Significand alphabet q → ∀ c ∈ q, (!isMark c) = true := by
    intro q hq c hc
    rw [Bool.not_eq_true', Bool.eq_false_iff]
    intro hmark
    obtain ⟨hnot, hne⟩ := hapart c ((hmarks c).mp hmark)
    cases hq.mem hc with
    | inl hmem =>
      exact hnot hmem
    | inr heq =>
      exact hne heq
  constructor
  · intro hsome
    have hcs := List.takeWhile_append_dropWhile (p := fun c => !isMark c) (l := cs)
    simp only [literal] at hsome
    split at hsome
    · rename_i hdrop
      rw [hdrop, List.append_nil] at hcs
      rw [hcs, significand_isSome_iff h hpoint] at hsome
      exact Or.inl hsome
    · rename_i mark e hdrop
      have hmark : isMark mark = true := by
        have hhead := List.head?_dropWhile_not (p := fun c => !isMark c) cs
        rw [hdrop] at hhead
        simpa using hhead
      rw [hdrop] at hcs
      split at hsome
      · rename_i q k hq hk
        refine Or.inr ⟨_, mark, e, hcs.symm, (hmarks mark).mp hmark, ?_, ?_⟩
        · exact (significand_isSome_iff h hpoint).mp (Option.isSome_of_mem hq)
        · exact exponent_isSome_iff.mp (Option.isSome_of_mem hk)
      · cases hsome
  · rintro (hq | ⟨q, mark, e, rfl, hmark, hq, he⟩)
    · obtain ⟨htake, hdrop⟩ := takeWhile_exact (r := []) (hinside cs hq) (by simp)
      rw [List.append_nil] at htake hdrop
      simp only [literal, htake, hdrop]
      exact (significand_isSome_iff h hpoint).mpr hq
    · obtain ⟨htake, hdrop⟩ := takeWhile_exact (r := mark :: e) (hinside q hq)
        (by simpa using (hmarks mark).mpr hmark)
      obtain ⟨x, hx⟩ := Option.isSome_iff_exists.mp ((significand_isSome_iff h hpoint).mpr hq)
      obtain ⟨k, hk⟩ := Option.isSome_iff_exists.mp (exponent_isSome_iff.mpr he)
      simp only [literal, htake, hdrop, hx, hk, Option.isSome_some]

theorem Signed.mem {c : Char} (h : Signed Whole cs) (hc : c ∈ cs) :
    c ∈ decimalDigits ∨ c ∈ ['+', '-'] := by
  rcases h with h | ⟨ds, rfl | rfl, h⟩
  · exact Or.inl (h.2 c hc)
  · rcases List.mem_cons.mp hc with rfl | hc
    · exact Or.inr (by simp)
    · exact Or.inl (h.2 c hc)
  · rcases List.mem_cons.mp hc with rfl | hc
    · exact Or.inr (by simp)
    · exact Or.inl (h.2 c hc)

theorem Scaled.mem {c : Char} (h : Scaled alphabet marks cs) (hc : c ∈ cs) :
    c ∈ alphabet ∨ c ∈ marks ∨ c ∈ decimalDigits ∨ c ∈ ['.', '+', '-'] := by
  rcases h with h | ⟨q, mark, e, rfl, hmark, hq, he⟩
  · rcases h.mem hc with hc | rfl
    · exact Or.inl hc
    · simp
  · cases List.mem_append.mp hc with
    | inl hc =>
      rcases hq.mem hc with hc | rfl
      · exact Or.inl hc
      · simp
    | inr hc =>
      rcases List.mem_cons.mp hc with rfl | hc
      · exact Or.inr (Or.inl hmark)
      · cases he.mem hc with
        | inl hc =>
          exact Or.inr (Or.inr (Or.inl hc))
        | inr hc =>
          simp only [List.mem_cons, List.not_mem_nil, or_false] at hc ⊢
          tauto

theorem literal_decimal_iff :
    (literal 10 isDecimalExponent 10 cs).isSome ↔ Scaled decimalDigits ['e', 'E'] cs := by
  refine literal_isSome_iff spells_decimal (by decide) (fun c => ?_) (of_all rfl)
  simp [isDecimalExponent]

theorem literal_hex_iff :
    (literal 16 isHexExponent 2 cs).isSome ↔ Scaled hexDigits ['p', 'P'] cs := by
  refine literal_isSome_iff spells_hex (by decide) (fun c => ?_) (of_all rfl)
  simp [isHexExponent]

/-- The mark of a hexadecimal literal is in no decimal one. -/
theorem not_decimal_of_hexMark {x : Char} {hex : List Char} (hx : x ∈ ['x', 'X']) :
    ¬ Scaled decimalDigits ['e', 'E'] ('0' :: x :: hex) := by
  intro h
  have hmem := h.mem (c := x) (by simp)
  have hnone : ∀ c ∈ ['x', 'X'],
      ¬ (c ∈ decimalDigits ∨ c ∈ ['e', 'E'] ∨ c ∈ decimalDigits ∨ c ∈ ['.', '+', '-']) :=
    of_all rfl
  exact hnone x hx hmem

theorem magnitude_isSome_iff : (magnitude cs).isSome ↔ Numeral cs := by
  unfold magnitude
  split
  · rename_i x hex
    split
    · rename_i hmark
      have hx : x ∈ ['x', 'X'] := by simpa [isHexMark] using hmark
      rw [literal_hex_iff]
      constructor
      · exact fun h => Or.inr ⟨x, hex, rfl, hx, h⟩
      · rintro (h | ⟨x', hex', heq, -, h⟩)
        · exact absurd h (not_decimal_of_hexMark hx)
        · cases heq
          exact h
    · rename_i hmark
      have hx : x ∉ ['x', 'X'] := by simpa [isHexMark] using hmark
      rw [literal_decimal_iff]
      constructor
      · exact Or.inl
      · rintro (h | ⟨x', hex', heq, hx', -⟩)
        · exact h
        · cases heq
          exact absurd hx' hx
  · rename_i hnot
    rw [literal_decimal_iff]
    constructor
    · exact Or.inl
    · rintro (h | ⟨x, hex, rfl, -, -⟩)
      · exact h
      · exact absurd rfl (hnot x hex)

/-- A significand starts with a digit or a point. -/
theorem Significand.head_mem {c : Char} (h : Significand alphabet (c :: cs)) :
    c ∈ alphabet ∨ c = '.' := h.mem (by simp)

theorem Scaled.head_mem {c : Char} (h : Scaled alphabet marks (c :: cs)) :
    c ∈ alphabet ∨ c = '.' := by
  rcases h with h | ⟨q, mark, e, heq, -, hq, -⟩
  · exact h.head_mem
  · cases q with
    | nil => exact absurd rfl hq.ne_nil
    | cons d q =>
      cases heq
      exact hq.head_mem

theorem Numeral.head_mem {c : Char} (h : Numeral (c :: cs)) : c ∈ '.' :: decimalDigits := by
  rcases h with h | ⟨x, hex, heq, -, -⟩
  · rcases h.head_mem with h | rfl
    · exact List.mem_cons_of_mem _ h
    · simp
  · cases heq
    decide

theorem signed_numeral_iff : Signed Numeral cs ↔ Numeral (sign cs).2 := by
  refine signed_iff (fun ds h => ?_) (fun ds h => ?_)
  · exact absurd h.head_mem (by decide)
  · exact absurd h.head_mem (by decide)

theorem Numeral.ne_nil (h : Numeral cs) : cs ≠ [] := by
  rintro rfl
  rcases h with (h | ⟨q, mark, e, heq, -⟩) | ⟨x, hex, heq, -⟩
  · exact h.ne_nil rfl
  · cases q <;> cases heq
  · cases heq

/-- The words for an infinity and for no number. -/
def words : List (List Char) := ["inf".toList, "infinity".toList, "nan".toList]

theorem head_of_mem_words {w : List Char} (h : w ∈ words) :
    ∃ d ds, w = d :: ds ∧ d ∈ ['i', 'n'] := by
  simp only [words, List.mem_cons, List.not_mem_nil, or_false] at h
  rcases h with rfl | rfl | rfl
  · exact ⟨'i', ['n', 'f'], by decide, by decide⟩
  · exact ⟨'i', ['n', 'f', 'i', 'n', 'i', 't', 'y'], by decide, by decide⟩
  · exact ⟨'n', ['a', 'n'], by decide, by decide⟩

/-- No word of either kind without a character that is one of these in lower case. -/
theorem not_word_of_lower (h : ∀ c ∈ cs, c.toLower ∉ ['i', 'n']) :
    cs.map Char.toLower ∉ words := by
  intro hword
  obtain ⟨d, ds, hd, hmem⟩ := head_of_mem_words hword
  cases cs with
  | nil => cases hd
  | cons c cs =>
    obtain ⟨hhead, -⟩ := List.cons.inj hd
    exact h c (List.mem_cons_self ..) (hhead ▸ hmem)

theorem Numeral.not_word (h : Numeral cs) : cs.map Char.toLower ∉ words := by
  intro hword
  obtain ⟨d, ds, hd, hmem⟩ := head_of_mem_words hword
  cases cs with
  | nil => cases hd
  | cons c cs =>
    have hall : ∀ d ∈ '.' :: decimalDigits, d.toLower ∉ ['i', 'n'] := of_all rfl
    obtain ⟨hhead, -⟩ := List.cons.inj hd
    exact hall c h.head_mem (hhead ▸ hmem)

theorem ofText_of_not_word {text : String}
    (h : (sign text.toList).2.map Char.toLower ∉ words) :
    SwiftFloat.ofText text = (magnitude (sign text.toList).2).map fun q =>
      .finite (if (sign text.toList).1 then -q else q) := by
  simp only [words, List.mem_cons, List.not_mem_nil, or_false, not_or] at h
  simp only [SwiftFloat.ofText]
  rw [if_neg (not_or.mpr ⟨h.1, h.2.1⟩), if_neg h.2.2]

theorem ofText_of_word {text : String} (h : (sign text.toList).2.map Char.toLower ∈ words) :
    floatOfText text = none := by
  simp only [words, List.mem_cons, List.not_mem_nil, or_false] at h
  simp only [floatOfText, SwiftFloat.ofText]
  rw [← or_assoc] at h
  cases h with
  | inl h =>
    rw [if_pos h]
    rfl
  | inr h =>
    have hfinite : ¬ ("nan".toList = "inf".toList ∨ "nan".toList = "infinity".toList) := by decide
    rw [h, if_neg hfinite, if_pos rfl]
    rfl

/-- A text denotes a finite number exactly when it has the form of one. -/
theorem floatOfText_isSome_iff {text : String} : (floatOfText text).isSome ↔ FloatText text := by
  rw [FloatText, signed_numeral_iff, ← magnitude_isSome_iff]
  by_cases h : (sign text.toList).2.map Char.toLower ∈ words
  · rw [ofText_of_word h]
    refine iff_of_false (by simp) fun hsome => ?_
    exact (magnitude_isSome_iff.mp hsome).not_word h
  · simp only [floatOfText, ofText_of_not_word h]
    cases magnitude (sign text.toList).2 <;> simp [SwiftFloat.toRat?]

theorem digits_decimal (h : ∀ c ∈ cs, c ∈ decimalDigits) (acc : Nat) :
    digits 10 acc cs = some (cs.foldl (fun n c => 10 * n + (c.toNat - '0'.toNat)) acc) := by
  induction cs generalizing acc with
  | nil => rfl
  | cons c cs ih =>
    have hall : ∀ d ∈ decimalDigits, digit 10 d = some (d.toNat - '0'.toNat) := of_all rfl
    have hc := hall c (h c (List.mem_cons_self ..))
    simp only [digits, hc, List.foldl_cons]
    exact ih (fun d hd => h d (List.mem_cons_of_mem c hd)) _

theorem number_decimal (h : Whole cs) : number 10 cs = some (decimalValue cs) := by
  simp only [number, h.1, if_false, digits_decimal h.2, decimalValue]

theorem ofInt?_isSome_iff {i : Int} : (SwiftInt.ofInt? i).isSome ↔ -2 ^ 63 ≤ i ∧ i < 2 ^ 63 := by
  simp [SwiftInt.ofInt?]

theorem sign_whole (h : Whole cs) : sign cs = (false, cs) := by
  rcases sign_cases cs with ⟨ds, rfl, -⟩ | ⟨ds, rfl, -⟩ | ⟨-, -, hsign⟩
  · exact absurd (h.2 '-' (by simp)) (by decide)
  · exact absurd (h.2 '+' (by simp)) (by decide)
  · exact hsign

/-- How a text of digits with a sign is taken apart. -/
theorem signed_whole_cases (h : Signed Whole cs) : ∃ ds, Whole ds ∧
    ((cs = ds ∨ cs = '+' :: ds) ∧ sign cs = (false, ds) ∨
      cs = '-' :: ds ∧ sign cs = (true, ds)) := by
  rcases h with h | ⟨ds, rfl | rfl, h⟩
  · exact ⟨cs, h, Or.inl ⟨Or.inl rfl, sign_whole h⟩⟩
  · exact ⟨ds, h, Or.inl ⟨Or.inr rfl, rfl⟩⟩
  · exact ⟨ds, h, Or.inr ⟨rfl, rfl⟩⟩

theorem ofText_of_sign {text : String} {negative : Bool} {ds : List Char}
    (hsign : sign text.toList = (negative, ds)) (h : Whole ds) :
    SwiftInt.ofText text =
      SwiftInt.ofInt? (if negative then -(decimalValue ds : Int) else decimalValue ds) := by
  simp only [SwiftInt.ofText, hsign, number_decimal h]

/-- A text denotes an `Int` exactly when it has the form of one and fits. -/
theorem ofText_isSome_iff {text : String} : (SwiftInt.ofText text).isSome ↔ IntText text := by
  constructor
  · intro hsome
    have hnumber : (number 10 (sign text.toList).2).isSome := by
      simp only [SwiftInt.ofText] at hsome
      split at hsome
      · rename_i n hn
        rw [hn]
        rfl
      · cases hsome
    rw [← whole_iff, ← signed_whole_iff] at hnumber
    obtain ⟨ds, h, ⟨hcs, hsign⟩ | ⟨hcs, hsign⟩⟩ := signed_whole_cases hnumber
    · rw [ofText_of_sign hsign h, ofInt?_isSome_iff] at hsome
      simp only [Bool.false_eq_true, if_false] at hsome
      exact ⟨ds, h, Or.inl ⟨hcs, by omega⟩⟩
    · rw [ofText_of_sign hsign h, ofInt?_isSome_iff] at hsome
      simp only [if_true] at hsome
      exact ⟨ds, h, Or.inr ⟨hcs, by omega⟩⟩
  · rintro ⟨ds, h, ⟨hcs | hcs, hfit⟩ | ⟨hcs, hfit⟩⟩
    · have hsign : sign text.toList = (false, ds) := by rw [hcs, sign_whole h]
      rw [ofText_of_sign hsign h, ofInt?_isSome_iff, if_neg (by simp)]
      omega
    · have hsign : sign text.toList = (false, ds) := by rw [hcs]; rfl
      rw [ofText_of_sign hsign h, ofInt?_isSome_iff, if_neg (by simp)]
      omega
    · have hsign : sign text.toList = (true, ds) := by rw [hcs]; rfl
      rw [ofText_of_sign hsign h, ofInt?_isSome_iff, if_pos rfl]
      omega

theorem cast_nonneg_of_eq {n : Option Nat} {q : ℚ}
    (h : (do let a ← n; pure (a : ℚ)) = some q) : 0 ≤ q := by
  cases n with
  | none => cases h
  | some a =>
    obtain rfl := Option.some.inj h
    exact Nat.cast_nonneg a

theorem significand_nonneg {q : ℚ} (h : significand base cs = some q) : 0 ≤ q := by
  simp only [significand] at h
  split at h
  · obtain ⟨n, -, rfl⟩ := Option.map_eq_some_iff.mp h
    exact Nat.cast_nonneg n
  · obtain ⟨n, hn, rfl⟩ := Option.map_eq_some_iff.mp h
    exact div_nonneg (cast_nonneg_of_eq hn) (by positivity)

theorem literal_nonneg {isMark : Char → Bool} {radix q : ℚ} (hradix : 0 ≤ radix)
    (h : literal base isMark radix cs = some q) : 0 ≤ q := by
  simp only [literal] at h
  split at h
  · exact significand_nonneg h
  · split at h
    · rename_i x k hx hk
      cases h
      exact mul_nonneg (significand_nonneg hx) (zpow_nonneg hradix k)
    · cases h

theorem magnitude_nonneg {q : ℚ} (h : magnitude cs = some q) : 0 ≤ q := by
  unfold magnitude at h
  split at h
  · split at h
    · exact literal_nonneg (by norm_num) h
    · exact literal_nonneg (by norm_num) h
  · exact literal_nonneg (by norm_num) h

theorem sign_nonneg (h : '-' ∉ cs) : (sign cs).1 = false := by
  rcases sign_cases cs with ⟨ds, rfl, -⟩ | ⟨ds, rfl, hsign⟩ | ⟨-, -, hsign⟩
  · exact absurd (by simp) h
  · rw [hsign]
  · rw [hsign]

theorem finite_of_not_word {text : String} {x : SwiftFloat}
    (hword : (sign text.toList).2.map Char.toLower ∉ words) (hminus : '-' ∉ text.toList)
    (hx : SwiftFloat.ofText text = some x) : ∃ q, x = .finite q ∧ 0 ≤ q := by
  rw [ofText_of_not_word hword, sign_nonneg hminus] at hx
  obtain ⟨q, hq, rfl⟩ := Option.map_eq_some_iff.mp hx
  exact ⟨q, rfl, magnitude_nonneg hq⟩

/-- What a text denotes is not negative where no minus sign is in it. -/
theorem floatOfText_nonneg {text : String} {q : ℚ} (h : '-' ∉ text.toList)
    (hq : floatOfText text = some q) : 0 ≤ q := by
  have hword : (sign text.toList).2.map Char.toLower ∉ words := by
    intro hword
    rw [ofText_of_word hword] at hq
    cases hq
  obtain ⟨x, hx, hrat⟩ := Option.bind_eq_some_iff.mp hq
  obtain ⟨q', rfl, hnonneg⟩ := finite_of_not_word hword h hx
  obtain rfl : q' = q := Option.some.inj hrat
  exact hnonneg

/-- Only a letter is in lower case what the words for no finite number start with. -/
theorem isAlpha_of_toLower {c : Char} (h : c.toLower ∈ ['i', 'n']) : c.isAlpha = true := by
  unfold Char.toLower at h
  split at h
  · rename_i hupper
    have hletter : (c.isUpper || c.isLower) = true := by
      rw [show c.isUpper = true from decide_eq_true hupper, Bool.true_or]
    exact hletter
  · simp only [List.mem_cons, List.not_mem_nil, or_false] at h
    cases h with
    | inl h => rw [h]; decide
    | inr h => rw [h]; decide

/-- Behind the sign stand characters of the text. -/
theorem sign_suffix (cs : List Char) : (sign cs).2 <:+ cs := by
  unfold sign
  split
  · exact List.suffix_cons _ _
  · exact List.suffix_cons _ _
  · exact List.suffix_refl _

/-- Without a letter and a minus a text is that of no infinity and no negative number. -/
theorem finite_of_no_letter {text : String} {x : SwiftFloat}
    (h : ∀ c ∈ text.toList, c.isAlpha = false) (hminus : '-' ∉ text.toList)
    (hx : SwiftFloat.ofText text = some x) : ∃ q, x = .finite q ∧ 0 ≤ q := by
  have hlower : ∀ c ∈ (sign text.toList).2, c.toLower ∉ ['i', 'n'] := by
    intro c hc hlow
    have hletter := isAlpha_of_toLower hlow
    rw [h c ((sign_suffix _).subset hc)] at hletter
    cases hletter
  exact finite_of_not_word (not_word_of_lower hlower) hminus hx

theorem ofText_nonneg {text : String} {i : SwiftInt} (h : '-' ∉ text.toList)
    (hi : SwiftInt.ofText text = some i) : 0 ≤ i.val := by
  obtain ⟨ds, hds, hcs⟩ := ofText_isSome_iff.mp (Option.isSome_of_mem hi)
  have hsigned : Signed Whole text.toList := by
    rcases hcs with ⟨hcs | hcs, -⟩ | ⟨hcs, -⟩
    · exact Or.inl (hcs ▸ hds)
    · exact Or.inr ⟨ds, Or.inl hcs, hds⟩
    · exact Or.inr ⟨ds, Or.inr hcs, hds⟩
  obtain ⟨ds', hds', ⟨-, hsign⟩ | ⟨hcs', -⟩⟩ := signed_whole_cases hsigned
  · rw [ofText_of_sign hsign hds'] at hi
    simp only [Bool.false_eq_true, if_false, SwiftInt.ofInt?] at hi
    split at hi
    · cases hi
      simp
    · cases hi
  · exact absurd (by rw [hcs']; simp) h

end Pincushion.Literals
