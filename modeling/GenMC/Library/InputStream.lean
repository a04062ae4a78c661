import Mathlib.Data.List.TakeWhile
import Mathlib.Data.Nat.Digits.Defs
import Mathlib.Logic.Basic

/-!
# Formatted input

An input stream has the characters that are left and two flags, for the end of the input and for
failures.  Nothing is read from a stream one of whose flags is set.

The operations are those of the standard library: formatted input skips white space and reads a word
or a number; a number that does not fit its type is a failure; `ignoreLine`, `getLine` and `peek`
read characters as they are.  For each of them there is a lemma that says what it reads from a
stream that starts with a text printed for it.

`readVector` reads a number of elements and then the elements, and `readVector_println` says that it
reads what `printlnVector` prints, for any elements that are read back by their reader (`Reads`).
-/

set_option autoImplicit false

namespace GenMC

/-- White space. -/
def isSpace (c : Char) : Bool :=
  c = ' ' || c = '\t' || c = '\n' || c = '\x0b' || c = '\x0c' || c = '\r'

/-- An input stream. -/
@[ext] structure IStream where
  rest : List Char
  eof : Bool := false
  fail : Bool := false
deriving DecidableEq

namespace IStream

/-- A stream in a good state. -/
def of (rest : List Char) : IStream := { rest := rest }

def good (s : IStream) : Bool := !s.eof && !s.fail

@[simp] theorem good_of (l : List Char) : (of l).good = true := rfl

@[simp] theorem eof_of (l : List Char) : (of l).eof = false := rfl

@[simp] theorem rest_of (l : List Char) : (of l).rest = l := rfl

/-! ## Operations -/

/-- What formatted input begins with: it skips white space. -/
def skipWs (s : IStream) : IStream :=
  if s.good then
    match s.rest.dropWhile isSpace with
    | [] => { rest := [], eof := true, fail := true }
    | rest => { s with rest := rest }
  else { s with fail := true }

/-- `operator>>` for a string. -/
def readWord (s : IStream) : List Char × IStream :=
  let s := s.skipWs
  if s.good then
    let rest := s.rest.dropWhile fun c => !isSpace c
    (s.rest.takeWhile fun c => !isSpace c, { s with rest := rest, eof := rest.isEmpty })
  else ([], s)

/-- The sign of a number. -/
def readSign : List Char → Bool × List Char
  | '-' :: rest => (true, rest)
  | '+' :: rest => (false, rest)
  | rest => (false, rest)

/-- The sign and the digits of a number. -/
def readDigits (s : IStream) : Bool × List Char × IStream :=
  let s := s.skipWs
  if s.good then
    let (neg, rest) := readSign s.rest
    let digits := rest.takeWhile Char.isDigit
    let rest := rest.dropWhile Char.isDigit
    (neg, digits, { rest := rest, eof := rest.isEmpty, fail := digits.isEmpty })
  else (false, [], s)

/-- `operator>>` for an unsigned number of some width. -/
def readUnsigned (width : ℕ) (s : IStream) : ℕ × IStream :=
  let (neg, digits, s) := s.readDigits
  let n := Nat.ofDigitChars 10 digits 0
  if n < 2 ^ width then (if neg then (2 ^ width - n) % 2 ^ width else n, s)
  else (2 ^ width - 1, { s with fail := true })

/-- `operator>>` for an `int`. -/
def readInt (s : IStream) : ℤ × IStream :=
  let (neg, digits, s) := s.readDigits
  let n : ℤ := Nat.ofDigitChars 10 digits 0
  let n := if neg then -n else n
  if n < -2 ^ 31 then (-2 ^ 31, { s with fail := true })
  else if 2 ^ 31 ≤ n then (2 ^ 31 - 1, { s with fail := true })
  else (n, s)

/-- `ignore`, up to the end of the line. -/
def ignoreLine (s : IStream) : IStream :=
  if s.good then
    match s.rest.dropWhile (· ≠ '\n') with
    | [] => { s with rest := [], eof := true }
    | _ :: rest => { s with rest := rest }
  else { s with fail := true }

/-- `getline`, without the line. -/
def getLine (s : IStream) : IStream :=
  if s.good then
    if s.rest.isEmpty then { s with eof := true, fail := true } else s.ignoreLine
  else { s with fail := true }

theorem length_ignoreLine (l : List Char) : (ignoreLine (of l)).rest.length ≤ l.length - 1 := by
  have hlen := (List.dropWhile_suffix (l := l) fun c => decide (c ≠ '\n')).length_le
  rw [ignoreLine, good_of, if_pos rfl]
  split
  · exact Nat.zero_le _
  · rename_i heq
    rw [rest_of] at heq
    rw [heq, List.length_cons] at hlen
    exact Nat.le_sub_one_of_lt hlen

theorem length_getLine (c : Char) (l : List Char) :
    (getLine (of (c :: l))).rest.length < (c :: l).length :=
  Nat.lt_of_le_of_lt (length_ignoreLine (c :: l)) (Nat.lt_succ_self l.length)

/-- Skips lines that start with a character.  `peek` notices the end of the input. -/
def skipLines (start : Char) (s : IStream) : IStream :=
  match s with
  | ⟨[], false, false⟩ => { rest := [], eof := true }
  | ⟨c :: rest, false, false⟩ =>
    if c = start then skipLines start (getLine (of (c :: rest))) else s
  | _ => s
termination_by s.rest.length
decreasing_by exact length_getLine c rest

/-! ## What is read from printed text -/

theorem skipWs_of {ws l : List Char} (hws : ws.all isSpace) {c : Char} (hc : isSpace c = false) :
    skipWs (of (ws ++ c :: l)) = of (c :: l) := by
  have hdrop : (ws ++ c :: l).dropWhile isSpace = c :: l := by
    rw [List.dropWhile_append_of_pos (List.all_eq_true.1 hws),
      List.dropWhile_cons_of_neg (by simp [hc])]
  rw [skipWs, good_of, if_pos rfl, rest_of, hdrop]
  rfl

theorem readWord_of {ws word l : List Char} {c : Char} (hws : ws.all isSpace) (hne : word ≠ [])
    (hword : word.all fun c => !isSpace c) (hc : isSpace c = true) :
    readWord (of (ws ++ (word ++ c :: l))) = (word, of (c :: l)) := by
  obtain ⟨d, word, rfl⟩ := List.exists_cons_of_ne_nil hne
  have hall : ∀ a ∈ d :: word, (!isSpace a) = true := List.all_eq_true.1 hword
  have hd : isSpace d = false := by simpa using hall d List.mem_cons_self
  rw [readWord, List.cons_append, skipWs_of hws hd, ← List.cons_append]
  simp only [good_of, rest_of, if_true]
  rw [List.takeWhile_append_of_pos hall, List.dropWhile_append_of_pos hall,
    List.takeWhile_cons_of_neg (by simp [hc]), List.dropWhile_cons_of_neg (by simp [hc]),
    List.append_nil]
  rfl

/-- A digit is neither white space nor a sign. -/
theorem digit_ne {c : Char} (h : c.isDigit = true) : isSpace c = false ∧ c ≠ '-' ∧ c ≠ '+' := by
  refine ⟨?_, ?_, ?_⟩
  · rw [Bool.eq_false_iff]
    intro hs
    simp only [isSpace, Bool.or_eq_true, decide_eq_true_eq] at hs
    rcases hs with ((((rfl | rfl) | rfl) | rfl) | rfl) | rfl <;> revert h <;> decide
  · rintro rfl
    revert h
    decide
  · rintro rfl
    revert h
    decide

theorem not_isDigit_of_isSpace {c : Char} (h : isSpace c = true) : c.isDigit = false := by
  rw [Bool.eq_false_iff]
  exact fun hd => Bool.eq_false_iff.1 (digit_ne hd).1 h

theorem readSign_digit {c : Char} {l : List Char} (h : c.isDigit = true) :
    readSign (c :: l) = (false, c :: l) := by
  obtain ⟨-, h1, h2⟩ := digit_ne h
  rw [readSign.eq_3]
  · rintro rest h
    exact h1 (List.cons.inj h).1
  · rintro rest h
    exact h2 (List.cons.inj h).1

/-- The decimal digits of a number. -/
def natText (n : ℕ) : List Char := Nat.toDigits 10 n

/-- A number with its sign. -/
def intText (n : ℤ) : List Char := if n < 0 then '-' :: natText n.natAbs else natText n.natAbs

theorem natText_eq_cons (n : ℕ) :
    ∃ d ds, natText n = d :: ds ∧ ∀ c ∈ d :: ds, c.isDigit = true := by
  obtain ⟨d, ds, h⟩ := List.exists_cons_of_ne_nil (Nat.toDigits_ne_nil (n := n) (b := 10))
  exact ⟨d, ds, h, fun c hc => Nat.isDigit_of_mem_toDigits (by decide) (by decide) (h ▸ hc)⟩

/-- What is left after the sign. -/
theorem digits_of {n : ℕ} {l : List Char} {c : Char} (hc : c.isDigit = false) :
    (natText n ++ c :: l).takeWhile Char.isDigit = natText n ∧
      (natText n ++ c :: l).dropWhile Char.isDigit = c :: l := by
  obtain ⟨d, ds, heq, hall⟩ := natText_eq_cons n
  rw [heq, List.takeWhile_append_of_pos hall, List.dropWhile_append_of_pos hall,
    List.takeWhile_cons_of_neg (by simp [hc]), List.dropWhile_cons_of_neg (by simp [hc]),
    List.append_nil]
  exact ⟨rfl, rfl⟩

theorem readDigits_natText {ws l : List Char} {c : Char} (hws : ws.all isSpace) (n : ℕ)
    (hc : c.isDigit = false) :
    readDigits (of (ws ++ (natText n ++ c :: l))) = (false, natText n, of (c :: l)) := by
  obtain ⟨h1, h2⟩ := digits_of (n := n) (l := l) hc
  obtain ⟨d, ds, heq, hall⟩ := natText_eq_cons n
  have hd := hall d List.mem_cons_self
  rw [readDigits, heq, List.cons_append, skipWs_of hws (digit_ne hd).1]
  simp only [good_of, rest_of, if_true, readSign_digit hd]
  rw [← List.cons_append, ← heq, h1, h2, heq]
  rfl

theorem readDigits_neg {ws l : List Char} {c : Char} (hws : ws.all isSpace) (n : ℕ)
    (hc : c.isDigit = false) :
    readDigits (of (ws ++ ('-' :: (natText n ++ c :: l)))) = (true, natText n, of (c :: l)) := by
  obtain ⟨h1, h2⟩ := digits_of (n := n) (l := l) hc
  obtain ⟨d, ds, heq, -⟩ := natText_eq_cons n
  rw [readDigits, skipWs_of hws (by decide)]
  simp only [good_of, rest_of, if_true, readSign, h1, h2]
  rw [heq]
  rfl

/-- **An unsigned number is read back.** -/
theorem readUnsigned_of {ws l : List Char} {c : Char} {width n : ℕ} (hws : ws.all isSpace)
    (hn : n < 2 ^ width) (hc : c.isDigit = false) :
    readUnsigned width (of (ws ++ (natText n ++ c :: l))) = (n, of (c :: l)) := by
  rw [readUnsigned, readDigits_natText hws n hc]
  simp only [natText, Nat.ofDigitChars_ten_toDigits, if_pos hn]
  rfl

/-- **An `int` is read back.** -/
theorem readInt_of {ws l : List Char} {c : Char} {n : ℤ} (hws : ws.all isSpace)
    (hlo : -2 ^ 31 ≤ n) (hhi : n < 2 ^ 31) (hc : c.isDigit = false) :
    readInt (of (ws ++ (intText n ++ c :: l))) = (n, of (c :: l)) := by
  rw [readInt, intText]
  by_cases hneg : n < 0
  · rw [if_pos hneg, List.cons_append, readDigits_neg hws _ hc]
    have habs : -(n.natAbs : ℤ) = n := by omega
    simp only [natText, Nat.ofDigitChars_ten_toDigits, if_true, habs]
    rw [if_neg (by omega), if_neg (by omega)]
  · rw [if_neg hneg, readDigits_natText hws _ hc]
    have habs : (n.natAbs : ℤ) = n := by omega
    simp only [natText, Nat.ofDigitChars_ten_toDigits, Bool.false_eq_true, if_false, habs]
    rw [if_neg (by omega), if_neg (by omega)]

theorem ignoreLine_of {line l : List Char} (h : '\n' ∉ line) :
    ignoreLine (of (line ++ '\n' :: l)) = of l := by
  have hdrop : (line ++ '\n' :: l).dropWhile (fun c => decide (c ≠ '\n')) = '\n' :: l := by
    rw [List.dropWhile_append_of_pos, List.dropWhile_cons_of_neg (by simp)]
    intro c hc
    exact decide_eq_true fun heq => h (heq ▸ hc)
  rw [ignoreLine, good_of, if_pos rfl, rest_of, hdrop]
  rfl

theorem skipLines_line {start : Char} {line l : List Char} (h : '\n' ∉ start :: line) :
    skipLines start (of (start :: line ++ '\n' :: l)) = skipLines start (of l) := by
  have hline : getLine (of (start :: (line ++ '\n' :: l))) = of l := ignoreLine_of h
  rw [List.cons_append, of, skipLines, if_pos rfl, hline]

theorem skipLines_other {start c : Char} {l : List Char} (h : c ≠ start) :
    skipLines start (of (c :: l)) = of (c :: l) := by
  rw [of, skipLines, if_neg h]

/-! ## Vectors -/

section Vector

variable {α : Type*}

/-- Reads some elements. -/
def readElems (readElem : IStream → α × IStream) : ℕ → IStream → List α × IStream
  | 0, s => ([], s)
  | n + 1, s =>
    let (a, s) := readElem s
    let (v, s) := readElems readElem n s
    (a :: v, s)

/-- Reads the number of elements, the elements and the rest of the line. -/
def readVector (readElem : IStream → α × IStream) (s : IStream) : List α × IStream :=
  let (size, s) := s.readUnsigned 64
  if s.fail then ([], s)
  else
    let (v, s) := readElems readElem size s
    (v, s.ignoreLine)

/-- Prints the number of elements and the elements. -/
def printlnVector (v : List α) (printElem : α → List Char) (sep sizeSep : List Char) : List Char :=
  natText v.length ++
    (if v.isEmpty then [] else sizeSep ++ sep.intercalate (v.map printElem)) ++ ['\n']

theorem printlnVector_eq_cons (v : List α) (printElem : α → List Char) (sep sizeSep : List Char) :
    ∃ d ds, printlnVector v printElem sep sizeSep = d :: ds ∧ d.isDigit = true := by
  obtain ⟨d, ds, h, hall⟩ := natText_eq_cons v.length
  exact ⟨d, _, by rw [printlnVector, h, List.append_assoc, List.cons_append],
    hall d List.mem_cons_self⟩

/-- An element is read back, after any white space and before what may follow it. -/
def Reads (readElem : IStream → α × IStream) (printElem : α → List Char)
    (follows : List Char → Prop) (a : α) : Prop :=
  ∀ ws l, ws.all isSpace → follows l → readElem (of (ws ++ (printElem a ++ l))) = (a, of l)

variable {readElem : IStream → α × IStream} {printElem : α → List Char}
  {follows : List Char → Prop} {v : List α} {sep sizeSep : List Char}

theorem readElems_of (hv : v ≠ []) (hreads : ∀ a ∈ v, Reads readElem printElem follows a)
    (hsep : sep.all isSpace) (hfollows : ∀ l, follows (sep ++ l)) {ws l : List Char}
    (hws : ws.all isSpace) (hl : follows l) :
    readElems readElem v.length (of (ws ++ (sep.intercalate (v.map printElem) ++ l))) =
      (v, of l) := by
  induction v generalizing ws with
  | nil => exact absurd rfl hv
  | cons a v ih =>
    rw [List.length_cons, readElems]
    cases v with
    | nil =>
      rw [List.map_singleton, List.intercalate_singleton, hreads a List.mem_cons_self ws l hws hl]
      rfl
    | cons b v =>
      rw [List.map_cons, List.map_cons, List.intercalate_cons_cons, List.append_assoc,
        List.append_assoc, hreads a List.mem_cons_self ws _ hws (hfollows _), ← List.map_cons]
      simp only
      rw [ih (List.cons_ne_nil b v) (fun c hc => hreads c (List.mem_cons_of_mem a hc)) hsep]

/-- **A vector is read back**, with anything after it. -/
theorem readVector_println (hlen : v.length < 2 ^ 64)
    (hreads : ∀ a ∈ v, Reads readElem printElem follows a) (hsep : sep.all isSpace)
    (hsize : sizeSep.all isSpace) (hne : sizeSep ≠ []) (hfollows : ∀ l, follows (sep ++ l))
    (hend : ∀ l, follows ('\n' :: l)) :
    Reads (readVector readElem) (fun v => printlnVector v printElem sep sizeSep)
      (fun _ => True) v := by
  intro ws l hws _
  have hnl : ignoreLine (of ('\n' :: l)) = of l := @ignoreLine_of [] l List.not_mem_nil
  change readVector readElem (of (ws ++ (printlnVector v printElem sep sizeSep ++ l))) = _
  rw [printlnVector, readVector, List.append_assoc, List.append_assoc, List.singleton_append]
  by_cases hv : v = []
  · subst hv
    rw [List.isEmpty_nil, if_pos rfl, List.nil_append, List.length_nil,
      readUnsigned_of hws (by decide) (by decide)]
    simp only [of, Bool.false_eq_true, if_false, readElems]
    exact Prod.ext rfl hnl
  · obtain ⟨c, sizeSep, rfl⟩ := List.exists_cons_of_ne_nil hne
    have hc : isSpace c = true := List.all_eq_true.1 hsize c List.mem_cons_self
    have hempty : v.isEmpty = false := by rwa [Bool.eq_false_iff, ne_eq, List.isEmpty_iff]
    rw [hempty, if_neg Bool.false_ne_true, List.append_assoc, List.cons_append,
      readUnsigned_of hws hlen (not_isDigit_of_isSpace hc), ← List.cons_append]
    simp only [of, Bool.false_eq_true, if_false]
    rw [← of, readElems_of hv hreads hsep hfollows hsize (hend l)]
    exact Prod.ext rfl hnl

end Vector

end IStream
end GenMC
