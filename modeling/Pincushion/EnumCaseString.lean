import Mathlib

/-! The words of a camel-case name, as the playground makes them. Two nested loops
count the letters of each word and a third cuts the name by the counts. A count is
appended when the next capital comes, or when the list runs out on a small letter;
for a capital at the end none is, and the name loses it. -/
namespace Pincushion.EnumCaseString

/-- Of `uppercased` and `lowercased` this is the ASCII part. -/
def isUpperCase (c : Char) : Bool := c == c.toUpper

def capitalizingFirstLetter (s : List Char) : List Char :=
  (s.take 1).map Char.toUpper ++ (s.map Char.toLower).drop 1

/-- The inner loop: a zero at the head is removed and counted. -/
def countZeros : List Nat → Nat → List Nat × Nat
  | 0 :: list, count => countZeros list (count + 1)
  | list, count => (list, count)

/-- All zeros at the head are removed, and they are what is counted. -/
theorem countZeros_cases {list rest : List Nat} {count counted : Nat}
    (h : countZeros list count = (rest, counted)) :
    ∃ k, list = List.replicate k 0 ++ rest ∧ counted = count + k ∧ rest.head? ≠ some 0 := by
  induction list generalizing count with
  | nil =>
    cases h
    exact ⟨0, rfl, rfl, by simp⟩
  | cons x list ih =>
    cases x with
    | zero =>
      obtain ⟨k, hlist, hcounted, hhead⟩ := ih h
      refine ⟨k + 1, ?_, by omega, hhead⟩
      rw [List.replicate_succ, List.cons_append, hlist]
    | succ n =>
      cases h
      exact ⟨0, rfl, rfl, by simp⟩

theorem length_lt_of_countZeros {list rest : List Nat} {count counted x : Nat}
    (h : countZeros list count = (x :: rest, counted)) : rest.length < list.length := by
  obtain ⟨k, hlist, -, -⟩ := countZeros_cases h
  rw [hlist, List.length_append, List.length_cons]
  omega

/-- The outer loop, whose second branch is taken when the zeros were all there was. -/
def countLoop (list : List Nat) (count : Nat) (substringCounts : List Nat) : List Nat :=
  if _ : list.length > 0 then
    match hrest : countZeros list count with
    | (_ :: rest, counted) =>
      have := length_lt_of_countZeros hrest
      countLoop rest 1 (substringCounts ++ [counted])
    | ([], counted) => countLoop [] counted (substringCounts ++ [counted])
  else substringCounts
termination_by list.length

def makeSubstringCounts (intArray : List Nat) : List Nat := countLoop intArray 0 []

/-- `removeFirst(_:)`, which traps when there are fewer. -/
def removeFirst (string : List Char) (item : Nat) : Option (List Char) :=
  if item ≤ string.length then some (string.drop item) else none

/-- The loop that cuts a word off the string for each count. -/
def cutLoop : List Nat → List Char → List (List Char) → Option (List (List Char))
  | [], _, result => some result
  | item :: substringCounts, string, result =>
    if string.length > 0 then
      match removeFirst string item with
      | some rest => cutLoop substringCounts rest (result ++ [string.take item])
      | none => none
    else cutLoop substringCounts string (result ++ [string.take item])

def makeReadableString (inputString : List Char) (substringCounts : List Nat) :
    Option (List Char) :=
  (cutLoop substringCounts inputString []).map fun result =>
    capitalizingFirstLetter ([' '].intercalate result)

def positions (array : List Char) : List Nat :=
  array.map fun c => if isUpperCase c then 1 else 0

/-- No value where a `removeFirst` traps. -/
def enumCaseToString (string : String) : Option String :=
  let subCounts := makeSubstringCounts (positions string.toList)
  (makeReadableString string.toList subCounts).map String.ofList

/-- The lengths of the words, with that of the word the list runs out in. -/
def wordLengths : Nat → List Nat → List Nat
  | count, [] => [count]
  | count, 0 :: list => wordLengths (count + 1) list
  | count, (_ + 1) :: list => count :: wordLengths 1 list

theorem sum_wordLengths (count : Nat) (list : List Nat) :
    (wordLengths count list).sum = count + list.length := by
  induction list generalizing count with
  | nil => simp [wordLengths]
  | cons x list ih =>
    cases x with
    | zero =>
      rw [wordLengths, ih, List.length_cons]
      omega
    | succ n =>
      rw [wordLengths, List.sum_cons, ih, List.length_cons]
      omega

theorem wordLengths_replicate (count k : Nat) (list : List Nat) :
    wordLengths count (List.replicate k 0 ++ list) = wordLengths (count + k) list := by
  induction k generalizing count with
  | zero => rfl
  | succ k ih =>
    rw [List.replicate_succ, List.cons_append, wordLengths, ih]
    congr 1
    omega

theorem wordLengths_zeros (count k : Nat) :
    wordLengths count (List.replicate k 0) = [count + k] := by
  have hword := wordLengths_replicate count k []
  rwa [List.append_nil] at hword

/-- What the counts account for: all but a capital at the end. -/
def closed (list : List Nat) : List Nat :=
  if list.getLast? = some 0 then list else list.dropLast

theorem closed_replicate {k : Nat} (hk : 0 < k) :
    closed (List.replicate k 0) = List.replicate k 0 := by
  have hlast : (List.replicate k 0).getLast? = some 0 := by
    rw [List.getLast?_replicate, if_neg (Nat.ne_of_gt hk)]
  rw [closed, if_pos hlast]

theorem closed_append_singleton (list : List Nat) {x : Nat} (hx : x ≠ 0) :
    closed (list ++ [x]) = list := by
  simp [closed, hx]

theorem closed_append {list rest : List Nat} (hrest : rest ≠ []) :
    closed (list ++ rest) = list ++ closed rest := by
  simp only [closed, List.getLast?_append_of_ne_nil list hrest]
  split
  · rfl
  · exact List.dropLast_append_of_ne_nil hrest

/-- Each turn of the outer loop closes one word, the last only where it ends on a
small letter. -/
theorem countLoop_eq {list : List Nat} (hne : list ≠ []) (count : Nat)
    (substringCounts : List Nat) :
    countLoop list count substringCounts = substringCounts ++ wordLengths count (closed list) := by
  fun_induction countLoop list count substringCounts with
  | case1 list count substringCounts hlen x rest counted hrest hlt ih =>
    obtain ⟨k, rfl, rfl, hx⟩ := countZeros_cases hrest
    obtain ⟨n, rfl⟩ : ∃ n, x = n + 1 := Nat.exists_eq_succ_of_ne_zero (by simpa using hx)
    by_cases hend : rest = []
    · -- the capital at the end opens a word that nothing closes
      subst hend
      rw [closed_append_singleton _ (Nat.succ_ne_zero n), wordLengths_zeros, countLoop]
      rfl
    · have happend : closed (List.replicate k 0 ++ (n + 1) :: rest) =
          List.replicate k 0 ++ (n + 1) :: closed rest := by
        have hhead : closed ([n + 1] ++ rest) = [n + 1] ++ closed rest := closed_append hend
        rw [closed_append (by simp)]
        exact congrArg (List.replicate k 0 ++ ·) hhead
      rw [ih hend, happend, wordLengths_replicate, wordLengths, List.append_assoc]
      rfl
  | case2 list count substringCounts hlen counted hrest ih =>
    obtain ⟨k, rfl, rfl, -⟩ := countZeros_cases hrest
    rw [List.append_nil] at hlen ⊢
    rw [closed_replicate (by simpa using hlen), wordLengths_zeros, countLoop]
    rfl
  | case3 list count substringCounts hlen =>
    exact absurd (List.length_pos_of_ne_nil hne) hlen

/-- The counts add up to the length of the list without a capital at its end. -/
theorem sum_makeSubstringCounts (intArray : List Nat) :
    (makeSubstringCounts intArray).sum = (closed intArray).length := by
  by_cases hne : intArray = []
  · rw [hne, makeSubstringCounts, countLoop]
    rfl
  · rw [makeSubstringCounts, countLoop_eq hne, List.nil_append, sum_wordLengths, Nat.zero_add]

theorem length_closed_le (list : List Nat) : (closed list).length ≤ list.length := by
  rw [closed]
  split
  · exact Nat.le_refl _
  · rw [List.length_dropLast]
    omega

/-- Nothing traps that is not cut short, and each word is as long as its count. -/
theorem cutLoop_eq {substringCounts : List Nat} {string : List Char}
    (h : substringCounts.sum ≤ string.length) (result : List (List Char)) :
    cutLoop substringCounts string result =
      some (result ++ substringCounts.splitLengths string) := by
  induction substringCounts generalizing string result with
  | nil => simp [cutLoop]
  | cons item substringCounts ih =>
    rw [List.sum_cons] at h
    have hrest : substringCounts.sum ≤ (string.drop item).length := by
      rw [List.length_drop]
      omega
    have hstring : cutLoop (item :: substringCounts) string result =
        cutLoop substringCounts (string.drop item) (result ++ [string.take item]) := by
      rw [cutLoop]
      split
      · rw [removeFirst, if_pos (by omega)]
      · have hempty : string = [] := List.length_eq_zero_iff.mp (by omega)
        rw [hempty, List.drop_nil]
    rw [hstring, ih hrest, List.splitLengths_cons, List.append_assoc, List.singleton_append]

theorem flatten_splitLengths_eq_take (substringCounts : List Nat) (string : List Char) :
    (substringCounts.splitLengths string).flatten = string.take substringCounts.sum := by
  induction substringCounts generalizing string with
  | nil => simp
  | cons item substringCounts ih =>
    rw [List.splitLengths_cons, List.flatten_cons, ih, List.sum_cons, List.take_add]

/-- A text without its spaces, and without the difference of capitals. -/
def letters (s : List Char) : List Char := (s.filter (· ≠ ' ')).map Char.toLower

theorem letters_append (s t : List Char) : letters (s ++ t) = letters s ++ letters t := by
  simp [letters]

theorem letters_intercalate (words : List (List Char)) :
    letters ([' '].intercalate words) = letters words.flatten := by
  induction words with
  | nil => rfl
  | cons word words ih =>
    cases words with
    | nil => simp
    | cons next words =>
      rw [List.intercalate_cons_cons, letters_append, letters_append, ih, List.flatten_cons,
        letters_append]
      simp [letters]

theorem toLower_eq_space_iff {c : Char} : c.toLower = ' ' ↔ c = ' ' := by
  by_cases h : c.isUpper = true
  · have hlower : c.toLower.isLower = true := by
      rw [Char.isLower_toLower_eq_isAlpha]
      show (c.isUpper || c.isLower) = true
      rw [h, Bool.true_or]
    constructor
    · intro hc
      rw [hc] at hlower
      exact absurd hlower (by decide)
    · intro hc
      rw [hc] at h
      exact absurd h (by decide)
  · rw [Char.toLower_eq_of_not_isUpper h]

theorem toUpper_eq_space_iff {c : Char} : c.toUpper = ' ' ↔ c = ' ' := by
  rw [← toLower_eq_space_iff, Char.toLower_toUpper_eq_toLower, toLower_eq_space_iff]

theorem letters_capitalizingFirstLetter (s : List Char) :
    letters (capitalizingFirstLetter s) = letters s := by
  have hlower : ∀ t : List Char, letters (t.map Char.toLower) = letters t := by
    intro t
    simp [letters, List.filter_map, Function.comp_def, toLower_eq_space_iff]
  have hupper : ∀ t : List Char, letters (t.map Char.toUpper) = letters t := by
    intro t
    simp [letters, List.filter_map, Function.comp_def, toUpper_eq_space_iff]
  rw [capitalizingFirstLetter, ← List.map_drop, letters_append, hlower, hupper, ← letters_append,
    List.take_append_drop]

theorem letters_of_no_space {s : List Char} (h : ' ' ∉ s) : letters s = s.map Char.toLower := by
  have hfilter : s.filter (· ≠ ' ') = s := by
    rw [List.filter_eq_self]
    intro c hc
    simpa using ne_of_mem_of_not_mem hc h
  rw [letters, hfilter]

/-- A capital is what the name ends in. -/
def endsInCapital (string : String) : Bool := string.toList.getLast?.any isUpperCase

/-- The part of the name that the counts account for. -/
def counted (string : String) : List Char :=
  if endsInCapital string then string.toList.dropLast else string.toList

theorem take_closed (string : String) :
    string.toList.take (closed (positions string.toList)).length = counted string := by
  have hlast : (positions string.toList).getLast? =
      string.toList.getLast?.map fun c => if isUpperCase c then 1 else 0 := List.getLast?_map
  have hlength : (positions string.toList).length = string.toList.length := List.length_map _
  rw [closed, counted, endsInCapital, hlast]
  cases hc : string.toList.getLast? with
  | none => simp [List.getLast?_eq_none_iff.mp hc]
  | some c =>
    cases hupper : isUpperCase c with
    | false => simp [hupper, hlength]
    | true =>
      simp only [Option.map_some, hupper, if_true, Option.any_some]
      rw [if_neg (by decide), List.length_dropLast, hlength, List.dropLast_eq_take]

/-- The words are the letters of the name in order, without a capital at its end. -/
theorem letters_enumCaseToString (string : String) :
    ∃ result, enumCaseToString string = some result ∧
      letters result.toList = letters (counted string) := by
  have hsum := sum_makeSubstringCounts (positions string.toList)
  have hle : (makeSubstringCounts (positions string.toList)).sum ≤ string.toList.length := by
    rw [hsum]
    simpa [positions] using length_closed_le (positions string.toList)
  refine ⟨_, by rw [enumCaseToString, makeReadableString, cutLoop_eq hle]; rfl, ?_⟩
  rw [String.toList_ofList, letters_capitalizingFirstLetter, letters_intercalate, List.nil_append,
    flatten_splitLengths_eq_take, hsum, take_closed]

/-- The words without their spaces are the name, up to capitals. -/
def KeepsLetters (string : String) : Prop :=
  ∃ result, enumCaseToString string = some result ∧
    (result.toList.filter (· ≠ ' ')).map Char.toLower = string.toList.map Char.toLower

theorem keepsLetters_iff_of_no_space {string : String} (h : ' ' ∉ string.toList) :
    KeepsLetters string ↔ endsInCapital string = false := by
  obtain ⟨result, hresult, hletters⟩ := letters_enumCaseToString string
  have hcounted : ' ' ∉ counted string := by
    rw [counted]
    split
    · exact fun hspace => h (List.mem_of_mem_dropLast hspace)
    · exact h
  rw [letters_of_no_space hcounted, letters] at hletters
  have hkeeps : KeepsLetters string ↔
      (counted string).map Char.toLower = string.toList.map Char.toLower := by
    rw [← hletters]
    constructor
    · rintro ⟨result', hresult', hkept⟩
      obtain rfl := Option.some.inj (hresult'.symm.trans hresult)
      exact hkept
    · intro hkept
      exact ⟨result, hresult, hkept⟩
  rw [hkeeps, counted]
  cases hend : endsInCapital string with
  | false => simp
  | true =>
    -- a letter too few, so not the name
    have hpos : 0 < string.toList.length := by
      cases hs : string.toList with
      | nil => simp [endsInCapital, hs] at hend
      | cons c cs => exact Nat.succ_pos _
    refine iff_of_false (fun heq => ?_) (by simp)
    have hlen := congrArg List.length heq
    simp only [if_true, List.length_map, List.length_dropLast] at hlen
    omega

/-- Of a name in ASCII letters no loop traps, and all letters are kept unless the
last is a capital. -/
theorem keepsLetters_iff (string : String) (h : ∀ c ∈ string.toList, c.isAlpha = true) :
    (enumCaseToString string).isSome = true ∧
      (KeepsLetters string ↔ endsInCapital string = false) := by
  constructor
  · obtain ⟨result, hresult, -⟩ := letters_enumCaseToString string
    rw [hresult, Option.isSome_some]
  · refine keepsLetters_iff_of_no_space fun hspace => ?_
    exact absurd (h ' ' hspace) (by decide)

theorem keepsLetters_adjustUpPriceFor : KeepsLetters "adjustUpPriceFor" := by
  have hletters : ∀ c ∈ "adjustUpPriceFor".toList, c.isAlpha = true :=
    List.all_eq_true.mp (by decide)
  exact (keepsLetters_iff "adjustUpPriceFor" hletters).2.mpr (by decide)

/-- The plan loses its letter. -/
theorem not_keepsLetters_planB :
    "planB".toList.all Char.isAlpha = true ∧ enumCaseToString "planB" = some "Plan" ∧
      ¬ KeepsLetters "planB" := by
  have hplan : enumCaseToString "planB" = some "Plan" := by decide +kernel
  refine ⟨by decide, hplan, ?_⟩
  rintro ⟨result, hresult, hkept⟩
  obtain rfl := Option.some.inj (hresult.symm.trans hplan)
  exact absurd hkept (by decide)

/-- The enumeration whose names the playground makes readable. -/
inductive Hem where
  | adjustUpPriceForBallGown
  | cutEdgeTulleEtc
  | satinOrSilkRolledHem
  | horsehairStitchedOn
  | horsehairEnclosed
  | liftAndReplaceLaceApplique
  | removeCrinoline
  | liningSergerRolledHem
  | shortenFromWaistlineAndReshapeSkirt
  | addHemLace
  | cutAndReplaceHem
  | doubleLayerPressedEnclosedHemNoHorsehair
  | pressedHemSergeEdgePressSew
  | detachedLaceHemSubtract20OfLiftAndReplacedHem

def Hem.describing : Hem → String
  | .adjustUpPriceForBallGown => "adjustUpPriceForBallGown"
  | .cutEdgeTulleEtc => "cutEdgeTulleEtc"
  | .satinOrSilkRolledHem => "satinOrSilkRolledHem"
  | .horsehairStitchedOn => "horsehairStitchedOn"
  | .horsehairEnclosed => "horsehairEnclosed"
  | .liftAndReplaceLaceApplique => "liftAndReplaceLaceApplique"
  | .removeCrinoline => "removeCrinoline"
  | .liningSergerRolledHem => "liningSergerRolledHem"
  | .shortenFromWaistlineAndReshapeSkirt => "shortenFromWaistlineAndReshapeSkirt"
  | .addHemLace => "addHemLace"
  | .cutAndReplaceHem => "cutAndReplaceHem"
  | .doubleLayerPressedEnclosedHemNoHorsehair => "doubleLayerPressedEnclosedHemNoHorsehair"
  | .pressedHemSergeEdgePressSew => "pressedHemSergeEdgePressSew"
  | .detachedLaceHemSubtract20OfLiftAndReplacedHem =>
    "detachedLaceHemSubtract$20OfLiftAndReplacedHem"

def Hem.readable (hem : Hem) : Option String := enumCaseToString hem.describing

/-- No hem ends in a capital, so each can be read whole, the one with a price too. -/
theorem Hem.readable_keepsLetters (hem : Hem) :
    ∃ result, hem.readable = some result ∧
      (result.toList.filter (· ≠ ' ')).map Char.toLower =
        hem.describing.toList.map Char.toLower := by
  have hspace : ' ' ∉ hem.describing.toList := by cases hem <;> decide
  have hend : endsInCapital hem.describing = false := by cases hem <;> decide
  exact (keepsLetters_iff_of_no_space hspace).mpr hend

example : Hem.cutEdgeTulleEtc.readable = some "Cut edge tulle etc" := by decide +kernel

end Pincushion.EnumCaseString
