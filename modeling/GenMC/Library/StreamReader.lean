import GenMC.Library.InputStream
import Mathlib.Order.Filter.AtTopBot.Basic

/-!
# Readers of any text

What readers do with texts that were not printed for them.  A reader may throw an exception, and a
loop in it may go on forever, so that readers get a number that bounds their loops.  A stream that
is not good stays so, and nothing is read from it.

A grammar says what can happen with a text: it starts with a complete item (`full`), it ends within
the item (`ends`), or there is an exception (`throws`).  The remaining texts have something else in
them, and reading fails before the end.  `Follows` says that a reader does what a grammar says.
`Follows.bind` puts readers one after the other, and `follows_token`, `follows_ignoreLine` and
`follows_skipLines` are about the operations of streams.
-/

set_option autoImplicit false

namespace GenMC
namespace IStream

open Filter

/-! ## Readers -/

/-- What comes of reading. -/
inductive Outcome (α : Type) where
  /-- A loop took longer than it may. -/
  | unfinished
  | exception
  | done (a : α) (s : IStream)

def Reader (α : Type) := IStream → Outcome α

namespace Reader

variable {α β : Type}

/-- Goes on after something was read. -/
def andThen (r : Reader α) (k : α → Reader β) : Reader β := fun s =>
  match r s with
  | .unfinished => .unfinished
  | .exception => .exception
  | .done a s => k a s

instance : Monad Reader where
  pure a := fun s => .done a s
  bind := andThen

/-- An operation of streams. -/
def lift (f : IStream → α × IStream) : Reader α := fun s => .done (f s).1 (f s).2

/-- The stream. -/
def get : Reader IStream := fun s => .done s s

def throw : Reader α := fun _ => .exception

/-- A loop that is not done. -/
def outOfFuel : Reader α := fun _ => .unfinished

variable {r : Reader α} {k : α → Reader β} {s s' : IStream} {a : α}

theorem bind_done (h : r s = .done a s') : (r >>= k) s = k a s' := by
  change andThen r k s = _
  rw [andThen, h]

theorem bind_exception (h : r s = .exception) : (r >>= k) s = .exception := by
  change andThen r k s = _
  rw [andThen, h]

theorem bind_unfinished (h : r s = .unfinished) : (r >>= k) s = .unfinished := by
  change andThen r k s = _
  rw [andThen, h]

/-- What is done was done by both readers. -/
theorem exists_of_bind {b : β} (h : (r >>= k) s = .done b s') :
    ∃ a s₁, r s = .done a s₁ ∧ k a s₁ = .done b s' := by
  cases hr : r s with
  | unfinished =>
    rw [bind_unfinished hr] at h
    cases h
  | exception =>
    rw [bind_exception hr] at h
    cases h
  | done a s₁ =>
    rw [bind_done hr] at h
    exact ⟨a, s₁, rfl, h⟩

/-- An exception comes from one of the readers. -/
theorem exception_of_bind (h : (r >>= k) s = .exception) :
    r s = .exception ∨ ∃ a s₁, r s = .done a s₁ ∧ k a s₁ = .exception := by
  cases hr : r s with
  | unfinished =>
    rw [bind_unfinished hr] at h
    cases h
  | exception => exact .inl rfl
  | done a s₁ =>
    rw [bind_done hr] at h
    exact .inr ⟨a, s₁, rfl, h⟩

theorem bind_congr {r' : Reader α} (h : r s = r' s) : (r >>= k) s = (r' >>= k) s := by
  change andThen r k s = andThen r' k s
  rw [andThen, andThen, h]

theorem lift_bind (f : IStream → α × IStream) (k : α → Reader β) (s : IStream) :
    (lift f >>= k) s = k (f s).1 (f s).2 := rfl

theorem get_bind (k : IStream → Reader β) (s : IStream) : (get >>= k) s = k s s := rfl

@[simp] theorem pure_apply (a : α) (s : IStream) : (pure a : Reader α) s = .done a s := rfl

@[simp] theorem lift_apply (f : IStream → α × IStream) (s : IStream) :
    lift f s = .done (f s).1 (f s).2 := rfl

end Reader

/-- If the reader gets to its end, it does the same as an operation of streams. -/
def Refines {α : Type} (r : Reader α) (f : IStream → α × IStream) : Prop :=
  ∀ s a s', r s = .done a s' → f s = (a, s')

section Refines

variable {α β : Type} {r : Reader α} {f : IStream → α × IStream} {k : α → Reader β}
  {f' : α → IStream → β × IStream}

theorem Refines.lift (f : IStream → α × IStream) : Refines (.lift f) f := by
  intro s a s' h
  rw [Reader.lift_apply] at h
  injection h with ha hs
  exact Prod.ext ha hs

theorem Refines.pure (a : α) : Refines (Pure.pure a) fun s => (a, s) := by
  intro s b s' h
  cases h
  rfl

theorem Refines.bind (hr : Refines r f) (hk : ∀ a, Refines (k a) (f' a)) :
    Refines (r >>= k) fun s => f' (f s).1 (f s).2 := by
  intro s b s' h
  obtain ⟨a, s₁, hr', hk'⟩ := Reader.exists_of_bind h
  change f' (f s).1 (f s).2 = (b, s')
  rw [hr s a s₁ hr']
  exact hk a s₁ b s' hk'

end Refines

/-! ## Grammars -/

/-- What can happen with a text: an item is complete and something is left, or the text ends in the
item, or there is an exception. -/
structure Grammar where
  full : List Char → List Char → Prop
  ends : List Char → Prop
  throws : List Char → Prop

namespace Grammar

/-- Nothing. -/
def empty : Grammar where
  full l l' := l = l'
  ends _ := False
  throws _ := False

/-- An item after another one. -/
def seq (g h : Grammar) : Grammar where
  full l l'' := ∃ l', g.full l l' ∧ h.full l' l''
  ends l := g.ends l ∨ ∃ l', g.full l l' ∧ h.ends l'
  throws l := g.throws l ∨ ∃ l', g.full l l' ∧ h.throws l'

/-- A number of items. -/
def times (g : Grammar) : ℕ → Grammar
  | 0 => empty
  | n + 1 => g.seq (g.times n)

/-- A word or number, as a function that splits a text and says whether it found one. -/
def token {α : Type} (split : List Char → Option α × List Char) : Grammar where
  full l l' := (split l).1.isSome = true ∧ (split l).2 = l' ∧ l' ≠ []
  ends l := (split l).2 = []
  throws _ := False

/-- The rest of a line. -/
def line : Grammar where
  full l l' := ∃ pre, '\n' ∉ pre ∧ l = pre ++ '\n' :: l'
  ends l := '\n' ∉ l
  throws _ := False

/-- What is left after lines that start with a character. -/
inductive AfterLines (start : Char) : List Char → List Char → Prop
  | none {c : Char} {l : List Char} : c ≠ start → AfterLines start (c :: l) (c :: l)
  | line {pre l l' : List Char} : '\n' ∉ pre → AfterLines start l l' →
      AfterLines start (start :: pre ++ '\n' :: l) l'

/-- There is nothing after lines that start with a character. -/
inductive OnlyLines (start : Char) : List Char → Prop
  | nil : OnlyLines start []
  | last {pre : List Char} : '\n' ∉ pre → OnlyLines start (start :: pre)
  | line {pre l : List Char} : '\n' ∉ pre → OnlyLines start l →
      OnlyLines start (start :: pre ++ '\n' :: l)

/-- Lines that start with a character. -/
def lines (start : Char) : Grammar where
  full := AfterLines start
  ends := OnlyLines start
  throws _ := False

end Grammar

/-! ## What readers do -/

/-- A reader does what a grammar says, if its loops may be long enough. -/
structure Follows {α : Type} (g : Grammar) (r : ℕ → Reader α) : Prop where
  full : ∀ l l', g.full l l' → ∃ a, ∀ᶠ fuel in atTop, r fuel (of l) = .done a (of l')
  ends : ∀ l, g.ends l → ∀ᶠ fuel in atTop, ∃ a s, r fuel (of l) = .done a s ∧ s.eof = true
  throws : ∀ l, g.throws l → ∀ᶠ fuel in atTop, r fuel (of l) = .exception
  of_done : ∀ fuel l a l', r fuel (of l) = .done a (of l') → g.full l l'
  of_eof : ∀ fuel l a s, r fuel (of l) = .done a s → s.eof = true → g.ends l
  of_exception : ∀ fuel l, r fuel (of l) = .exception → g.throws l
  bad : ∀ fuel s, s.good = false →
    ∃ a s', r fuel s = .done a s' ∧ s'.eof = s.eof ∧ s'.good = false

section Follows

variable {α β : Type} {g h : Grammar} {r : ℕ → Reader α}

/-- A stream that is not at the end and has not failed is good. -/
theorem eq_of_rest {s : IStream} (h : s.good = true) : s = of s.rest := by
  obtain ⟨rest, eof, fail⟩ := s
  rw [good, Bool.and_eq_true, Bool.not_eq_true', Bool.not_eq_true'] at h
  obtain ⟨rfl, rfl⟩ := h
  rfl

theorem good_eq_false_of_eof {s : IStream} (h : s.eof = true) : s.good = false := by
  rw [good, h]
  rfl

theorem Follows.pure (a : α) : Follows .empty fun _ => (Pure.pure a : Reader α) where
  full := by
    rintro l _ rfl
    exact ⟨a, .of_forall fun _ => rfl⟩
  ends := fun l h => h.elim
  throws := fun l h => h.elim
  of_done := by
    intro fuel l b l' h
    cases h
    rfl
  of_eof := by
    intro fuel l b s h hs
    cases h
    cases hs
  of_exception := by
    intro fuel l h
    cases h
  bad := fun fuel s hs => ⟨a, s, rfl, rfl, hs⟩

/-- What two readers have done: the second one went on with what the first one left, or it found a
stream that is not good. -/
theorem Follows.of_bind_done (hr : Follows g r) {k : ℕ → α → Reader β}
    (hk : ∀ a, Follows h fun fuel => k fuel a) {fuel : ℕ} {l : List Char} {b : β} {s : IStream}
    (hdone : (r fuel >>= k fuel) (of l) = .done b s) :
    (s.good = false ∧ (s.eof = true → g.ends l)) ∨
      ∃ a l', g.full l l' ∧ k fuel a (of l') = .done b s := by
  obtain ⟨a, s₁, hr', hk'⟩ := Reader.exists_of_bind hdone
  cases hs : s₁.good with
  | false =>
    obtain ⟨b', s', hdone', heof, hbad⟩ := (hk a).bad fuel s₁ hs
    rw [hk'] at hdone'
    cases hdone'
    exact .inl ⟨hbad, fun h => hr.of_eof fuel l a s₁ hr' (heof.symm.trans h)⟩
  | true =>
    rw [eq_of_rest hs] at hr' hk'
    exact .inr ⟨a, s₁.rest, hr.of_done fuel l a _ hr', hk'⟩

theorem Follows.of_bind_exception (hr : Follows g r) {k : ℕ → α → Reader β}
    (hk : ∀ a, Follows h fun fuel => k fuel a) {fuel : ℕ} {l : List Char}
    (hthrows : (r fuel >>= k fuel) (of l) = .exception) :
    g.throws l ∨ ∃ a l', g.full l l' ∧ k fuel a (of l') = .exception := by
  rcases Reader.exception_of_bind hthrows with hr' | ⟨a, s₁, hr', hk'⟩
  · exact .inl (hr.of_exception fuel l hr')
  · cases hs : s₁.good with
    | false =>
      obtain ⟨b, s', hdone, -⟩ := (hk a).bad fuel s₁ hs
      rw [hk'] at hdone
      cases hdone
    | true =>
      rw [eq_of_rest hs] at hr' hk'
      exact .inr ⟨a, s₁.rest, hr.of_done fuel l a _ hr', hk'⟩

/-- **One reader after the other.** -/
theorem Follows.bind (hr : Follows g r) {k : ℕ → α → Reader β}
    (hk : ∀ a, Follows h fun fuel => k fuel a) :
    Follows (g.seq h) fun fuel => r fuel >>= k fuel where
  full := by
    rintro l l'' ⟨l', hfull, hfull'⟩
    obtain ⟨a, ha⟩ := hr.full l l' hfull
    obtain ⟨b, hb⟩ := (hk a).full l' l'' hfull'
    refine ⟨b, (ha.and hb).mono fun fuel hfuel => ?_⟩
    rw [Reader.bind_done hfuel.1]
    exact hfuel.2
  ends := by
    rintro l (hends | ⟨l', hfull, hends⟩)
    · refine (hr.ends l hends).mono fun fuel hfuel => ?_
      obtain ⟨a, s, hdone, heof⟩ := hfuel
      obtain ⟨b, s', hdone', heof', -⟩ := (hk a).bad fuel s (good_eq_false_of_eof heof)
      exact ⟨b, s', (Reader.bind_done hdone).trans hdone', heof'.trans heof⟩
    · obtain ⟨a, ha⟩ := hr.full l l' hfull
      refine (ha.and ((hk a).ends l' hends)).mono fun fuel hfuel => ?_
      rw [Reader.bind_done hfuel.1]
      exact hfuel.2
  throws := by
    rintro l (hthrows | ⟨l', hfull, hthrows⟩)
    · exact (hr.throws l hthrows).mono fun fuel hfuel => Reader.bind_exception hfuel
    · obtain ⟨a, ha⟩ := hr.full l l' hfull
      refine (ha.and ((hk a).throws l' hthrows)).mono fun fuel hfuel => ?_
      rw [Reader.bind_done hfuel.1]
      exact hfuel.2
  of_done := by
    intro fuel l b l'' hdone
    rcases hr.of_bind_done hk hdone with ⟨hbad, -⟩ | ⟨a, l', hfull, hdone'⟩
    · cases hbad
    · exact ⟨l', hfull, (hk a).of_done fuel l' b l'' hdone'⟩
  of_eof := by
    intro fuel l b s hdone heof
    rcases hr.of_bind_done hk hdone with ⟨-, hends⟩ | ⟨a, l', hfull, hdone'⟩
    · exact .inl (hends heof)
    · exact .inr ⟨l', hfull, (hk a).of_eof fuel l' b s hdone' heof⟩
  of_exception := by
    intro fuel l hthrows
    rcases hr.of_bind_exception hk hthrows with h | ⟨a, l', hfull, h⟩
    · exact .inl h
    · exact .inr ⟨l', hfull, (hk a).of_exception fuel l' h⟩
  bad := by
    intro fuel s hs
    obtain ⟨a, s', hdone, heof, hbad⟩ := hr.bad fuel s hs
    obtain ⟨b, s'', hdone', heof', hbad'⟩ := (hk a).bad fuel s' hbad
    exact ⟨b, s'', (Reader.bind_done hdone).trans hdone', heof'.trans heof, hbad'⟩

theorem Follows.map (hr : Follows g r) (f : α → β) :
    Follows g fun fuel => r fuel >>= fun a => (Pure.pure (f a) : Reader β) := by
  have hseq := hr.bind (k := fun _ a => (Pure.pure (f a) : Reader β)) fun a => .pure (f a)
  have hempty : g.seq .empty = g := by
    rw [Grammar.seq, Grammar.empty]
    simp
  rwa [hempty] at hseq

theorem Follows.lift {f : IStream → α × IStream}
    (hfull : ∀ l l', g.full l l' ↔ (f (of l)).2 = of l')
    (hends : ∀ l, g.ends l ↔ (f (of l)).2.eof = true) (hthrows : ∀ l, ¬ g.throws l)
    (hbad : ∀ s, s.good = false → (f s).2.eof = s.eof ∧ (f s).2.good = false) :
    Follows g fun _ => Reader.lift f where
  full := by
    intro l l' h
    refine ⟨(f (of l)).1, .of_forall fun fuel => ?_⟩
    rw [Reader.lift_apply, (hfull l l').1 h]
  ends := fun l h => .of_forall fun fuel => ⟨_, _, rfl, (hends l).1 h⟩
  throws := fun l h => absurd h (hthrows l)
  of_done := by
    intro fuel l a l' h
    rw [Reader.lift_apply] at h
    injection h with _ hs
    exact (hfull l l').2 hs
  of_eof := by
    intro fuel l a s h heof
    rw [Reader.lift_apply] at h
    injection h with _ hs
    rw [← hs] at heof
    exact (hends l).2 heof
  of_exception := by
    intro fuel l h
    cases h
  bad := fun fuel s hs => ⟨_, _, rfl, hbad s hs⟩

end Follows

/-! ## Words and numbers -/

section Tokens

variable {α : Type} {s : IStream}

/-- The first word of a text. -/
def splitWord (l : List Char) : Option (List Char) × List Char :=
  let l := l.dropWhile isSpace
  (if l = [] then none else some (l.takeWhile fun c => !isSpace c),
    l.dropWhile fun c => !isSpace c)

/-- A sign and digits, after white space. -/
def splitDigits (l : List Char) : Bool × List Char × List Char :=
  let (neg, l) := readSign (l.dropWhile isSpace)
  (neg, l.takeWhile Char.isDigit, l.dropWhile Char.isDigit)

/-- The unsigned number a text starts with, if it fits. -/
def splitUnsigned (width : ℕ) (l : List Char) : Option ℕ × List Char :=
  let (neg, digits, l) := splitDigits l
  let n := Nat.ofDigitChars 10 digits 0
  (if digits = [] ∨ 2 ^ width ≤ n then none
    else some (if neg then (2 ^ width - n) % 2 ^ width else n), l)

/-- The `int` a text starts with, if it fits. -/
def splitInt (l : List Char) : Option ℤ × List Char :=
  let (neg, digits, l) := splitDigits l
  let n : ℤ := Nat.ofDigitChars 10 digits 0
  let n := if neg then -n else n
  (if digits = [] ∨ n < -2 ^ 31 ∨ 2 ^ 31 ≤ n then none else some n, l)

/-- What is left of a stream after a word or number. -/
def afterToken (found : Bool) (rest : List Char) : IStream :=
  { rest := rest, eof := rest.isEmpty, fail := !found }

theorem follows_token {f : IStream → α × IStream} {γ : Type}
    {split : List Char → Option γ × List Char}
    (h : ∀ l, (f (of l)).2 = afterToken (split l).1.isSome (split l).2)
    (hbad : ∀ s, s.good = false → (f s).2 = { s with fail := true }) :
    Follows (.token split) fun _ => Reader.lift f := by
  refine .lift (fun l l' => ?_) (fun l => ?_) (fun l => not_false) fun s hs => ?_
  · rw [h, afterToken, of, IStream.mk.injEq, Grammar.token]
    refine ⟨?_, ?_⟩
    · rintro ⟨hsome, rfl, hne⟩
      exact ⟨rfl, List.isEmpty_eq_false_iff.2 hne, by rw [hsome]; rfl⟩
    · rintro ⟨rfl, hne, hsome⟩
      exact ⟨by simpa using hsome, rfl, List.isEmpty_eq_false_iff.1 hne⟩
  · rw [h, afterToken, Grammar.token]
    exact List.isEmpty_iff.symm
  · rw [hbad s hs]
    exact ⟨rfl, by simp [good]⟩

theorem readDigits_eq (l : List Char) :
    readDigits (of l) = ((splitDigits l).1, (splitDigits l).2.1,
      afterToken (!(splitDigits l).2.1.isEmpty) (splitDigits l).2.2) := by
  rw [readDigits, skipWs, good_of, if_pos rfl, splitDigits, rest_of]
  cases l.dropWhile isSpace with
  | nil => rfl
  | cons c rest => simp [of, good, afterToken]

theorem readWord_eq (l : List Char) :
    (readWord (of l)).2 = afterToken (splitWord l).1.isSome (splitWord l).2 := by
  rw [readWord, skipWs, good_of, if_pos rfl, splitWord, rest_of]
  cases l.dropWhile isSpace with
  | nil => rfl
  | cons c rest => simp [of, good, afterToken]

theorem readUnsigned_eq (width : ℕ) (l : List Char) :
    (readUnsigned width (of l)).2 =
      afterToken (splitUnsigned width l).1.isSome (splitUnsigned width l).2 := by
  rw [readUnsigned, readDigits_eq, splitUnsigned]
  obtain ⟨neg, digits, rest⟩ := splitDigits l
  simp only
  by_cases hsize : Nat.ofDigitChars 10 digits 0 < 2 ^ width
  · rw [if_pos hsize]
    cases digits with
    | nil => simp [afterToken]
    | cons d digits => simp [afterToken, hsize]
  · rw [if_neg hsize]
    simp [afterToken, not_lt.1 hsize]

theorem readInt_eq (l : List Char) :
    (readInt (of l)).2 = afterToken (splitInt l).1.isSome (splitInt l).2 := by
  rw [readInt, readDigits_eq, splitInt]
  obtain ⟨neg, digits, rest⟩ := splitDigits l
  simp only
  generalize (if neg = true then -((Nat.ofDigitChars 10 digits 0 : ℕ) : ℤ)
    else (Nat.ofDigitChars 10 digits 0 : ℕ)) = n
  by_cases hlo : n < -2 ^ 31
  · rw [if_pos hlo, if_pos (.inr (.inl hlo))]
    rfl
  · rw [if_neg hlo]
    by_cases hhi : 2 ^ 31 ≤ n
    · rw [if_pos hhi, if_pos (.inr (.inr hhi))]
      rfl
    · rw [if_neg hhi]
      cases digits with
      | nil => simp [afterToken]
      | cons d digits =>
        rw [if_neg (by simp [not_or]; omega)]
        rfl

/-! Nothing is read from a stream that is not good. -/

theorem skipWs_bad (h : s.good = false) : s.skipWs = { s with fail := true } := by
  rw [skipWs, h, if_neg Bool.false_ne_true]

theorem readDigits_bad (h : s.good = false) :
    s.readDigits = (false, [], { s with fail := true }) := by
  rw [readDigits, skipWs_bad h]
  simp [good]

theorem readWord_bad (h : s.good = false) : s.readWord.2 = { s with fail := true } := by
  rw [readWord, skipWs_bad h]
  simp [good]

theorem readUnsigned_bad (width : ℕ) (h : s.good = false) :
    (s.readUnsigned width).2 = { s with fail := true } := by
  rw [readUnsigned, readDigits_bad h]
  simp

theorem readInt_bad (h : s.good = false) : s.readInt.2 = { s with fail := true } := by
  rw [readInt, readDigits_bad h]
  simp

theorem ignoreLine_bad (h : s.good = false) : s.ignoreLine = { s with fail := true } := by
  rw [ignoreLine, h, if_neg Bool.false_ne_true]

theorem skipLines_bad (start : Char) (h : s.good = false) : s.skipLines start = s := by
  obtain ⟨rest, eof, fail⟩ := s
  rw [skipLines.eq_def]
  cases eof with
  | true => cases rest <;> rfl
  | false =>
    cases fail with
    | true => cases rest <;> rfl
    | false => cases h

theorem follows_readWord : Follows (.token splitWord) fun _ => Reader.lift readWord :=
  follows_token readWord_eq fun _ => readWord_bad

theorem follows_readUnsigned (width : ℕ) :
    Follows (.token (splitUnsigned width)) fun _ => Reader.lift (readUnsigned width) :=
  follows_token (readUnsigned_eq width) fun _ => readUnsigned_bad width

theorem follows_readInt : Follows (.token splitInt) fun _ => Reader.lift readInt :=
  follows_token readInt_eq fun _ => readInt_bad

/-! ## Lines -/

theorem ignoreLine_eof {l : List Char} (h : '\n' ∉ l) :
    ignoreLine (of l) = { rest := [], eof := true } := by
  have hdrop : l.dropWhile (fun c => decide (c ≠ '\n')) = [] := by
    rw [List.dropWhile_eq_nil_iff]
    exact fun c hc => decide_eq_true fun heq => h (heq ▸ hc)
  rw [ignoreLine, good_of, if_pos rfl, rest_of, hdrop]
  rfl

theorem follows_ignoreLine : Follows .line fun _ => Reader.lift fun s => ((), s.ignoreLine) := by
  refine .lift (fun l l' => ?_) (fun l => ?_) (fun l => not_false) fun s hs => ?_
  · refine ⟨?_, fun hline => ?_⟩
    · rintro ⟨pre, hpre, rfl⟩
      exact ignoreLine_of hpre
    · by_cases hnl : '\n' ∈ l
      · obtain ⟨pre, l'', rfl, hpre⟩ := List.eq_append_cons_of_mem hnl
        rw [ignoreLine_of hpre, of, of, IStream.mk.injEq] at hline
        exact ⟨pre, hpre, by rw [hline.1]⟩
      · rw [ignoreLine_eof hnl] at hline
        cases hline
  · refine ⟨?_, fun heof hnl => ?_⟩
    · exact fun hnl => by rw [ignoreLine_eof hnl]
    · obtain ⟨pre, l', rfl, hpre⟩ := List.eq_append_cons_of_mem hnl
      rw [ignoreLine_of hpre] at heof
      cases heof
  · rw [ignoreLine_bad hs]
    exact ⟨rfl, by simp [good]⟩

theorem notMem_line {start : Char} (hstart : start ≠ '\n') {pre : List Char} (h : '\n' ∉ pre) :
    '\n' ∉ start :: pre := by
  rw [List.mem_cons, not_or]
  exact ⟨hstart.symm, h⟩

theorem skipLines_of_afterLines {start : Char} (hstart : start ≠ '\n') {l l' : List Char}
    (h : Grammar.AfterLines start l l') : skipLines start (of l) = of l' := by
  induction h with
  | none hc => exact skipLines_other hc
  | line hpre _ ih => rw [skipLines_line (notMem_line hstart hpre), ih]

theorem eof_of_onlyLines {start : Char} (hstart : start ≠ '\n') {l : List Char}
    (h : Grammar.OnlyLines start l) : (skipLines start (of l)).eof = true := by
  induction h with
  | nil => rw [of, skipLines]
  | @last pre hpre =>
    have hline : getLine (of (start :: pre)) = { rest := [], eof := true } :=
      ignoreLine_eof (notMem_line hstart hpre)
    rw [of, skipLines, if_pos rfl, hline, skipLines_bad start rfl]
  | line hpre _ ih => rw [skipLines_line (notMem_line hstart hpre), ih]

/-- Lines end somewhere. -/
theorem afterLines_or_onlyLines (start : Char) (l : List Char) :
    (∃ l', Grammar.AfterLines start l l') ∨ Grammar.OnlyLines start l := by
  induction hn : l.length using Nat.strong_induction_on generalizing l with
  | h n ih =>
    cases l with
    | nil => exact .inr .nil
    | cons c l =>
      by_cases hc : c = start
      · subst hc
        by_cases hnl : '\n' ∈ l
        · obtain ⟨pre, l', rfl, hpre⟩ := List.eq_append_cons_of_mem hnl
          have hlen : l'.length < n := by
            rw [← hn]
            simp
            omega
          rcases ih _ hlen l' rfl with ⟨l'', h⟩ | h
          · exact .inl ⟨l'', .line hpre h⟩
          · exact .inr (.line hpre h)
        · exact .inr (.last hnl)
      · exact .inl ⟨c :: l, .none hc⟩

theorem follows_skipLines {start : Char} (hstart : start ≠ '\n') :
    Follows (.lines start) fun _ => Reader.lift fun s => ((), s.skipLines start) := by
  refine .lift (fun l l' => ⟨skipLines_of_afterLines hstart, ?_⟩)
    (fun l => ⟨eof_of_onlyLines hstart, ?_⟩) (fun l => not_false) fun s hs => ?_
  · intro (h : skipLines start (of l) = of l')
    rcases afterLines_or_onlyLines start l with ⟨l'', hafter⟩ | honly
    · rw [skipLines_of_afterLines hstart hafter, of, of, IStream.mk.injEq] at h
      exact h.1 ▸ hafter
    · have heof := eof_of_onlyLines hstart honly
      rw [h] at heof
      cases heof
  · intro (h : (skipLines start (of l)).eof = true)
    rcases afterLines_or_onlyLines start l with ⟨l'', hafter⟩ | honly
    · rw [skipLines_of_afterLines hstart hafter] at h
      cases h
    · exact honly
  · rw [skipLines_bad start hs]
    exact ⟨rfl, hs⟩

end Tokens

end IStream
end GenMC
