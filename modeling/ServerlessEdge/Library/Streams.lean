import Mathlib.Data.Rat.Floor
import ServerlessEdge.Library.Checks

/-! Formatted input from a text: its lines, the words of a line, and decimal numbers, each
of which is read up to the first character that cannot belong to it. -/
namespace ServerlessEdge.Library.Streams

/-- The lines that can be got one after the other. -/
def getlines : List Char → List (List Char)
  | [] => []
  | c :: cs =>
    if c = '\n' then [] :: getlines cs
    else match getlines cs with
      | [] => [[c]]
      | l :: ls => (c :: l) :: ls

/-- Blanks, tabs, ends of lines and of pages. -/
def isSpace (c : Char) : Bool := c = ' ' ∨ 9 ≤ c.toNat ∧ c.toNat ≤ 13

/-- The next word, and what is left behind it. -/
def readWord (cs : List Char) : Option (List Char × List Char) :=
  match cs.dropWhile isSpace with
  | [] => none
  | d :: ds => some ((d :: ds).takeWhile fun c => !isSpace c, (d :: ds).dropWhile fun c => !isSpace c)

/-- All words of a line. -/
def words (cs : List Char) : List (List Char) := (cs.splitOnP isSpace).filter (· ≠ [])

/-- The parts of a decimal number: a sign, the digits in front of the point and behind it,
and an exponent with its sign. -/
structure Numeral where
  negative : Bool
  whole : List Char
  fraction : List Char
  exponent : Option (Bool × List Char)
  deriving DecidableEq, Repr

def readSign : List Char → Bool × List Char
  | '+' :: cs => (false, cs)
  | '-' :: cs => (true, cs)
  | cs => (false, cs)

def readDigits (cs : List Char) : List Char × List Char :=
  (cs.takeWhile Char.isDigit, cs.dropWhile Char.isDigit)

def readFraction : List Char → List Char × List Char
  | '.' :: cs => readDigits cs
  | cs => ([], cs)

/-- An exponent may follow a digit only. -/
def readExponent (mantissa : List Char) : List Char → Option (Bool × List Char) × List Char
  | [] => (none, [])
  | c :: cs =>
    if (c = 'e' ∨ c = 'E') ∧ mantissa ≠ [] then
      (some ((readSign cs).1, (readDigits (readSign cs).2).1), (readDigits (readSign cs).2).2)
    else (none, c :: cs)

/-- The longest beginning that may be that of a number. -/
def readNumeral (cs : List Char) : Numeral × List Char :=
  let sign := readSign cs
  let whole := readDigits sign.2
  let fraction := readFraction whole.2
  let exponent := readExponent (whole.1 ++ fraction.1) fraction.2
  (⟨sign.1, whole.1, fraction.1, exponent.1⟩, exponent.2)

section Doubles

/-- The exponent of the greatest power of two that is not above a positive number. -/
def floorLog2 (q : ℚ) : ℤ :=
  let k : ℤ := q.num.toNat.log2 - q.den.log2
  if 2 ^ k ≤ q then k else k - 1

/-- The nearest integer, the even one of two. -/
def roundEven (q : ℚ) : ℤ :=
  if q - ⌊q⌋ < 1 / 2 ∨ q - ⌊q⌋ = 1 / 2 ∧ ⌊q⌋ % 2 = 0 then ⌊q⌋ else ⌊q⌋ + 1

/-- The double next to a number that is not negative, unless it is too great. -/
def nearestDouble (q : ℚ) : Option ℚ :=
  let ulp : ℚ := 2 ^ max (floorLog2 q - 52) (-1074)
  if roundEven (q / ulp) * ulp < 2 ^ 1024 then some (roundEven (q / ulp) * ulp) else none

def ofDigits (cs : List Char) : ℕ := cs.foldl (fun n c => 10 * n + (c.toNat - 48)) 0

/-- The value of a number, if it is complete and not too great. -/
def Numeral.value (n : Numeral) : Option ℚ :=
  if n.whole ++ n.fraction = [] ∨ n.exponent.map Prod.snd = some [] then none
  else
    let exponent : ℤ := match n.exponent with
      | none => 0
      | some (negative, digits) => if negative then -ofDigits digits else ofDigits digits
    (nearestDouble (ofDigits (n.whole ++ n.fraction) * 10 ^ (exponent - n.fraction.length))).map
      fun q => if n.negative then -q else q

end Doubles

/-- The next number, and what is left behind it. -/
def readNumber (cs : List Char) : Option (ℚ × List Char) :=
  (readNumeral (cs.dropWhile isSpace)).1.value.map fun q =>
    (q, (readNumeral (cs.dropWhile isSpace)).2)

/-- At most as many numbers as given. -/
def readNumbersUpTo : ℕ → List Char → List ℚ
  | 0, _ => []
  | n + 1, cs =>
    match readNumber cs with
    | none => []
    | some (q, rest) => q :: readNumbersUpTo n rest

/-- The numbers that can be read one after the other. -/
def readNumbers (cs : List Char) : List ℚ := readNumbersUpTo cs.length cs

/-- A word that is a number as a whole. -/
def number (w : List Char) : Option ℚ :=
  match readNumber w with
  | some (q, []) => some q
  | _ => none

section Lines

/-- Behind the last end of a line is nothing that can be got. -/
theorem splitOn_eq_getlines (cs : List Char) :
    ∃ e, (e = [] ∨ e = [[]]) ∧ cs.splitOn '\n' = getlines cs ++ e := by
  induction cs with
  | nil => exact ⟨[[]], .inr rfl, rfl⟩
  | cons c cs ih =>
    obtain ⟨e, he, hsplit⟩ := ih
    rw [List.splitOn_eq_splitOnP] at hsplit
    rw [List.splitOn_eq_splitOnP, List.splitOnP_cons_eq_if_modifyHead, getlines, hsplit]
    by_cases hc : c = '\n'
    · exact ⟨e, he, by rw [if_pos (beq_iff_eq.mpr hc), if_pos hc, List.cons_append]⟩
    · rw [if_neg (by simpa using hc), if_neg hc]
      cases hlines : getlines cs with
      | nil =>
        rw [hlines, List.nil_append] at hsplit
        rcases he with rfl | rfl
        · exact absurd hsplit (List.splitOnP_ne_nil _ cs)
        · exact ⟨[], .inl rfl, rfl⟩
      | cons l ls => exact ⟨e, he, rfl⟩

theorem filter_getlines {p : List Char → Bool} (hp : p [] = false) (cs : List Char) :
    (getlines cs).filter p = (cs.splitOn '\n').filter p := by
  obtain ⟨e, rfl | rfl, hsplit⟩ := splitOn_eq_getlines cs
  · rw [hsplit, List.append_nil]
  · rw [hsplit, List.filter_append, List.filter_cons_of_neg (by simp [hp]), List.filter_nil,
      List.append_nil]

end Lines

section Words

private theorem isSpace_of_dropWhile {cs r : List Char} {c : Char} {p : Char → Bool}
    (h : cs.dropWhile p = c :: r) : p c = false := by
  have hhead := List.head?_dropWhile_not p cs
  rw [h] at hhead
  simpa using hhead

theorem words_cons_of_isSpace {c : Char} (hc : isSpace c = true) (cs : List Char) :
    words (c :: cs) = words cs := by
  rw [words, List.splitOnP_cons_eq_if_modifyHead, if_pos hc, List.filter_cons_of_neg (by simp)]
  rfl

theorem words_dropWhile (cs : List Char) : words (cs.dropWhile isSpace) = words cs := by
  induction cs with
  | nil => rfl
  | cons c cs ih =>
    cases hc : isSpace c with
    | true => rw [List.dropWhile_cons_of_pos hc, ih, words_cons_of_isSpace hc]
    | false => rw [List.dropWhile_cons_of_neg (by simp [hc])]

/-- What stands behind a word: nothing, or a blank. -/
def Ended (rest : List Char) : Prop := rest = [] ∨ ∃ c r, rest = c :: r ∧ isSpace c = true

theorem words_append {w rest : List Char} (hne : w ≠ []) (hw : ∀ c ∈ w, isSpace c = false)
    (hrest : Ended rest) : words (w ++ rest) = w :: words rest := by
  rcases hrest with rfl | ⟨c, r, rfl, hc⟩
  · rw [List.append_nil, words, List.splitOnP_eq_singleton hw]
    simp [words, hne]
  · rw [words_cons_of_isSpace hc, words, List.splitOnP_append_cons_of_forall_mem hw c hc,
      List.filter_cons_of_pos (by simpa using hne)]
    rfl

/-- A line has no words, or else the first one is read and the others are left. -/
theorem words_cases (cs : List Char) :
    (cs.dropWhile isSpace = [] ∧ readWord cs = none ∧ words cs = []) ∨
    ∃ w rest, w ≠ [] ∧ (∀ c ∈ w, isSpace c = false) ∧ Ended rest ∧
      cs.dropWhile isSpace = w ++ rest ∧ readWord cs = some (w, rest) ∧
      words cs = w :: words rest := by
  cases hcs : cs.dropWhile isSpace with
  | nil => exact .inl ⟨rfl, by rw [readWord, hcs], by rw [← words_dropWhile, hcs]; rfl⟩
  | cons d ds =>
    have hd : isSpace d = false := isSpace_of_dropWhile hcs
    let w := (d :: ds).takeWhile fun c => !isSpace c
    let rest := (d :: ds).dropWhile fun c => !isSpace c
    have happend : w ++ rest = d :: ds := List.takeWhile_append_dropWhile
    have hne : w ≠ [] := by simp [w, hd]
    have hw : ∀ c ∈ w, isSpace c = false := by
      intro c hc
      simpa using List.all_eq_true.mp List.all_takeWhile c hc
    have hrest : Ended rest := by
      cases hr : rest with
      | nil => exact .inl rfl
      | cons c r => exact .inr ⟨c, r, rfl, by simpa using isSpace_of_dropWhile hr⟩
    refine .inr ⟨w, rest, hne, hw, hrest, happend.symm, by rw [readWord, hcs], ?_⟩
    rw [← words_dropWhile, hcs, ← happend, words_append hne hw hrest]

end Words

section Numbers

private theorem ne_of_isSpace {c : Char} (hc : isSpace c = true) :
    c ≠ '+' ∧ c ≠ '-' ∧ c ≠ '.' ∧ c ≠ 'e' ∧ c ≠ 'E' ∧ c.isDigit = false := by
  refine ⟨?_, ?_, ?_, ?_, ?_, ?_⟩
  any_goals
    rintro rfl
    revert hc
    decide
  rw [isSpace, decide_eq_true_eq] at hc
  rcases hc with rfl | hc
  · rfl
  · rw [Bool.eq_false_iff]
    intro hdigit
    have hzero : '0'.toNat = 48 := rfl
    rw [Char.isDigit_iff_toNat] at hdigit
    omega

variable {c : Char} (hc : isSpace c = true) (w rest : List Char)

theorem readSign_of_ne {a : Char} (hplus : a ≠ '+') (hminus : a ≠ '-') (cs : List Char) :
    readSign (a :: cs) = (false, a :: cs) := by
  simp [readSign, hplus, hminus]

theorem readFraction_of_ne {a : Char} (h : a ≠ '.') (cs : List Char) :
    readFraction (a :: cs) = ([], a :: cs) := by
  simp [readFraction, h]

section Append

include hc

theorem readSign_append :
    readSign (w ++ c :: rest) = ((readSign w).1, (readSign w).2 ++ c :: rest) := by
  obtain ⟨hplus, hminus, -⟩ := ne_of_isSpace hc
  cases w with
  | nil => exact readSign_of_ne hplus hminus rest
  | cons a w =>
    by_cases hp : a = '+'
    · rw [hp]
      rfl
    by_cases hm : a = '-'
    · rw [hm]
      rfl
    rw [List.cons_append, readSign_of_ne hp hm, readSign_of_ne hp hm]
    rfl

theorem readDigits_append :
    readDigits (w ++ c :: rest) = ((readDigits w).1, (readDigits w).2 ++ c :: rest) := by
  obtain ⟨-, -, -, -, -, hdigit⟩ := ne_of_isSpace hc
  induction w with
  | nil => simp [readDigits, hdigit]
  | cons a w ih =>
    simp only [readDigits, Prod.mk.injEq] at ih ⊢
    cases ha : a.isDigit with
    | true => simp [ha, ih]
    | false => simp [ha]

theorem readFraction_append :
    readFraction (w ++ c :: rest) = ((readFraction w).1, (readFraction w).2 ++ c :: rest) := by
  obtain ⟨-, -, hpoint, -⟩ := ne_of_isSpace hc
  cases w with
  | nil => exact readFraction_of_ne hpoint rest
  | cons a w =>
    by_cases ha : a = '.'
    · rw [ha]
      exact readDigits_append hc w rest
    · rw [List.cons_append, readFraction_of_ne ha, readFraction_of_ne ha]
      rfl

theorem readExponent_append (mantissa : List Char) : readExponent mantissa (w ++ c :: rest) =
    ((readExponent mantissa w).1, (readExponent mantissa w).2 ++ c :: rest) := by
  obtain ⟨-, -, -, he, hE, -⟩ := ne_of_isSpace hc
  cases w with
  | nil =>
    have hnone : readExponent mantissa (c :: rest) = (none, c :: rest) := by
      rw [readExponent, if_neg (by simp [he, hE])]
    exact hnone
  | cons a w =>
    rw [List.cons_append, readExponent, readExponent]
    split
    · rw [readSign_append hc, readDigits_append hc]
    · rfl

/-- A blank ends a number. -/
theorem readNumeral_append :
    readNumeral (w ++ c :: rest) = ((readNumeral w).1, (readNumeral w).2 ++ c :: rest) := by
  simp only [readNumeral, readSign_append hc, readDigits_append hc, readFraction_append hc,
    readExponent_append hc]

end Append

section Lengths

theorem length_readSign (cs : List Char) : (readSign cs).2.length ≤ cs.length := by
  unfold readSign
  split <;> simp

theorem length_readDigits (cs : List Char) :
    (readDigits cs).1.length + (readDigits cs).2.length = cs.length := by
  rw [← List.length_append, readDigits, List.takeWhile_append_dropWhile]

theorem length_readFraction (cs : List Char) :
    (readFraction cs).1.length + (readFraction cs).2.length ≤ cs.length := by
  unfold readFraction
  split
  · next cs =>
    have h := length_readDigits cs
    rw [List.length_cons]
    omega
  · simp

theorem length_readExponent (mantissa cs : List Char) :
    (readExponent mantissa cs).2.length ≤ cs.length := by
  cases cs with
  | nil => exact le_rfl
  | cons a cs =>
    rw [readExponent, List.length_cons]
    split
    · have hsign := length_readSign cs
      have hdigits := length_readDigits (readSign cs).2
      dsimp only
      omega
    · exact le_rfl

/-- A complete number has a digit. -/
theorem length_readNumeral {cs : List Char} (h : (readNumeral cs).1.value ≠ none) :
    (readNumeral cs).2.length < cs.length := by
  have hdigits : (readNumeral cs).1.whole ++ (readNumeral cs).1.fraction ≠ [] := by
    intro hnil
    exact h (by rw [Numeral.value, if_pos (.inl hnil)])
  have hlength := List.length_pos_iff.mpr hdigits
  rw [List.length_append] at hlength
  simp only [readNumeral] at hlength ⊢
  have hsign := length_readSign cs
  have hwhole := length_readDigits (readSign cs).2
  have hfraction := length_readFraction (readDigits (readSign cs).2).2
  have hexponent := length_readExponent ((readDigits (readSign cs).2).1 ++
    (readFraction (readDigits (readSign cs).2).2).1) (readFraction (readDigits (readSign cs).2).2).2
  omega

end Lengths

theorem readNumber_length {cs rest : List Char} {q : ℚ} (h : readNumber cs = some (q, rest)) :
    rest.length < cs.length := by
  obtain ⟨v, hv, heq⟩ := Option.map_eq_some_iff.mp h
  cases heq
  have hvalue : (readNumeral (cs.dropWhile isSpace)).1.value ≠ none := by
    rw [hv]
    exact Option.some_ne_none _
  have hread := length_readNumeral hvalue
  exact hread.trans_le (List.dropWhile_sublist _).length_le

theorem readNumber_of_blank {cs : List Char} (h : cs.dropWhile isSpace = []) :
    readNumber cs = none := by
  rw [readNumber, h]
  rfl

private theorem readNumbersUpTo_eq {n m : ℕ} {cs : List Char} (hn : cs.length ≤ n)
    (hm : cs.length ≤ m) : readNumbersUpTo n cs = readNumbersUpTo m cs := by
  induction n generalizing m cs with
  | zero =>
    have hnil : cs = [] := List.length_eq_zero_iff.mp (Nat.le_zero.mp hn)
    subst hnil
    cases m <;> rfl
  | succ n ih =>
    cases m with
    | zero =>
      have hnil : cs = [] := List.length_eq_zero_iff.mp (Nat.le_zero.mp hm)
      subst hnil
      rfl
    | succ m =>
      rw [readNumbersUpTo, readNumbersUpTo]
      cases hread : readNumber cs with
      | none => rfl
      | some qr =>
        have hlength := readNumber_length hread
        simp only [List.cons.injEq, true_and]
        exact ih (by omega) (by omega)

/-- Numbers are read until that fails for the first time. -/
theorem readNumbers_eq (cs : List Char) : readNumbers cs = match readNumber cs with
    | none => []
    | some (q, rest) => q :: readNumbers rest := by
  have hone : readNumbers cs = readNumbersUpTo (cs.length + 1) cs :=
    readNumbersUpTo_eq le_rfl (Nat.le_succ _)
  rw [hone, readNumbersUpTo]
  cases hread : readNumber cs with
  | none => rfl
  | some qr =>
    have hlength := readNumber_length hread
    simp only [List.cons.injEq, true_and, readNumbers]
    exact readNumbersUpTo_eq (by omega) le_rfl

/-- A word that is a number is read as that number. -/
theorem readNumber_of_number {cs w rest : List Char} {q : ℚ} (hne : w ≠ [])
    (hw : ∀ c ∈ w, isSpace c = false) (hrest : Ended rest) (hcs : cs.dropWhile isSpace = w ++ rest)
    (h : number w = some q) : readNumber cs = some (q, rest) := by
  have hskip : w.dropWhile isSpace = w := by
    cases w with
    | nil => rfl
    | cons a w => exact List.dropWhile_cons_of_neg (by simp [hw a List.mem_cons_self])
  have hword : readNumber w = some (q, []) := by
    rw [number] at h
    split at h
    · next hread =>
      rw [hread, Option.some.inj h]
    · cases h
  rw [readNumber, hskip] at hword
  obtain ⟨v, hv, heq⟩ := Option.map_eq_some_iff.mp hword
  obtain ⟨rfl, hleft⟩ := Prod.mk.inj heq
  rw [readNumber, hcs]
  rcases hrest with rfl | ⟨c, r, rfl, hc⟩
  · rw [List.append_nil, hv, hleft]
    rfl
  · rw [readNumeral_append hc, hv, hleft]
    rfl

/-- Where all words are numbers, these are the numbers that are read. -/
theorem readNumbers_of_words {cs : List Char} {qs : List ℚ}
    (h : (words cs).mapM number = some qs) : readNumbers cs = qs := by
  generalize hws : words cs = ws at h
  induction ws generalizing cs qs with
  | nil =>
    rcases words_cases cs with ⟨hblank, -, -⟩ | ⟨w, rest, -, -, -, -, -, hwords⟩
    · cases h
      rw [readNumbers_eq, readNumber_of_blank hblank]
      rfl
    · rw [hws] at hwords
      cases hwords
  | cons w ws ih =>
    rcases words_cases cs with ⟨-, -, hnone⟩ | ⟨w', rest, hne, hw, hrest, hcs, -, hwords⟩
    · rw [hws] at hnone
      cases hnone
    · rw [hws] at hwords
      obtain ⟨rfl, rfl⟩ := List.cons.inj hwords
      obtain ⟨q, qs', hq, hqs, rfl⟩ := Checks.mapM_cons_some.mp h
      rw [readNumbers_eq, readNumber_of_number hne hw hrest hcs hq]
      exact congrArg (q :: ·) (ih rfl hqs)

end Numbers

end ServerlessEdge.Library.Streams
