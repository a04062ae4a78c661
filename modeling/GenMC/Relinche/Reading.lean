import GenMC.Library.StreamReader
import GenMC.Relinche.Serialization

/-!
# Reading any text

`deserialize` of `GenMC.Relinche.Serialization` is about texts that were written by `serialize`.
This is the reader on all texts, with what it does besides: the counter of the loop over the
elements of a vector is an `unsigned` while its size has 64 bits, `resize` may throw an exception,
and the loop over the blocks looks for the end of the input but not for failures.

* `follows_readObservation`: what is read of a block, by the grammar of blocks (`block`).
* `deserialize_ends_iff`: **reading ends if and only if the text is a number of blocks and the begin
  of another one** (`EndsInBlock`), or there is an exception.  Where anything else is found, reading
  goes on forever, and so it does with a vector of 2^32 elements.
* `deserialize_letter`: the text `x` is one of those.
* `deserialize_refines`: what is read, if reading ends, is what the simpler reader reads.
-/

set_option autoImplicit false

namespace GenMC

open IStream Filter

namespace Reading

/-! ## The code -/

section Vector

variable {α : Type}

/-- The loop over the elements.  The counter is an `unsigned`. -/
def readElems (readElem : Reader α) (size : ℕ) : ℕ → ℕ → List α → Reader (List α)
  | 0, _, _ => .outOfFuel
  | fuel + 1, i, v =>
    if i < size then do
      let a ← readElem
      readElems readElem size fuel ((i + 1) % 2 ^ 32) (v.set i a)
    else return v

/-- `readVector`.  Whether there is memory for a vector may depend on when it is read. -/
def readVector [Inhabited α] (resizes : List Char → ℕ → Bool) (readElem : Reader α) (fuel : ℕ) :
    Reader (List α) := do
  let size ← .lift (readUnsigned 64)
  let s ← .get
  if s.fail then return []
  else if resizes s.rest size then do
    let v ← readElems readElem size fuel 0 (List.replicate size default)
    .lift fun s => ((), s.ignoreLine)
    return v
  else .throw

end Vector

def readEdge : Reader (Pair ℤ ℤ) := do
  let first ← .lift readInt
  let second ← .lift readInt
  return ⟨first, second⟩

def readIdEdge : Reader CallEdge := do
  let first ← .lift (readUnsigned 32)
  let second ← .lift (readUnsigned 32)
  return ⟨first, second⟩

def readCall : Reader MethodCall := do
  let name ← .lift readWord
  let argVal ← .lift readInt
  let retVal ← .lift readInt
  return { name := String.ofList name, argVal := argVal, retVal := retVal }

def skipComments : Reader Unit := .lift fun s => ((), s.skipLines '#')

section Deserialize

variable (resizes : List Char → ℕ → Bool) (fuel : ℕ)

def readHint : Reader Hint := do
  let edges ← readVector resizes readIdEdge fuel
  return ⟨edges⟩

/-- The body of the loop: a block, and the rest of a line. -/
def readObservation : Reader (Observation × List Hint) := do
  skipComments
  let ops ← readVector resizes readCall fuel
  skipComments
  let rf ← readVector resizes readEdge fuel
  skipComments
  let hb ← readVector resizes readIdEdge fuel
  skipComments
  let hints ← readVector resizes (readHint resizes fuel) fuel
  .lift fun s => ((), s.ignoreLine)
  return ({ ops := ops, rfs := VSet.ofVector rf, hb := VSet.ofVector hb }, hints)

/-- The loop, which ends at the end of the input. -/
def deserializeLoop : ℕ → Specification → Reader Specification
  | 0, _ => .outOfFuel
  | n + 1, result => do
    let s ← .get
    if s.eof then return result
    else do
      let (obs, hints) ← readObservation resizes fuel
      deserializeLoop n (result.addHints obs hints)

/-- `deserialize`. -/
def deserialize (text : List Char) : Outcome Specification :=
  deserializeLoop resizes fuel fuel {} (IStream.of text)

end Deserialize

/-! ## Grammars -/

section Grammars

variable (resizes : List Char → ℕ → Bool)

/-- A vector: its size, its elements and the rest of the line.  An exception comes from `resize`,
for the vector or for a vector among its elements.  There is no end to the elements if the size is
too large for the counter. -/
def vector (g : Grammar) : Grammar where
  full l l'' := ∃ size l', splitUnsigned 64 l = (some size, l') ∧ l' ≠ [] ∧ resizes l' size = true ∧
    size < 2 ^ 32 ∧ ((g.times size).seq .line).full l' l''
  ends l := splitUnsigned 64 l = (none, []) ∨ ∃ size l', splitUnsigned 64 l = (some size, l') ∧
    resizes l' size = true ∧ size < 2 ^ 32 ∧ (l' = [] ∨ ((g.times size).seq .line).ends l')
  throws l := ∃ size l', splitUnsigned 64 l = (some size, l') ∧
    (resizes l' size = false ∨
      (l' ≠ [] ∧ ∃ k, (size < 2 ^ 32 → k ≤ size) ∧ (g.times k).throws l'))

def edge : Grammar := .seq (.token splitInt) (.token splitInt)

def idEdge : Grammar := .seq (.token (splitUnsigned 32)) (.token (splitUnsigned 32))

def call : Grammar := .seq (.token splitWord) (.seq (.token splitInt) (.token splitInt))

/-- What is read for one observation. -/
def block : Grammar :=
  .seq (.lines '#') <| .seq (vector resizes call) <| .seq (.lines '#') <|
    .seq (vector resizes edge) <| .seq (.lines '#') <| .seq (vector resizes idEdge) <|
      .seq (.lines '#') <| .seq (vector resizes (vector resizes idEdge)) .line

/-- Blocks, and then the begin of a block up to the end of the text or to an exception. -/
inductive EndsInBlock : List Char → Prop
  | ends {l : List Char} : (block resizes).ends l → EndsInBlock l
  | throws {l : List Char} : (block resizes).throws l → EndsInBlock l
  | block {l l' : List Char} : (block resizes).full l l' → EndsInBlock l' → EndsInBlock l

end Grammars

/-! ## Vectors -/

section Vector

variable {α : Type} {g : Grammar}

/-- The elements that are left to read, if the size is not too large for the counter. -/
def readRest (readElem : Reader α) : ℕ → ℕ → List α → Reader (List α)
  | 0, _, v => return v
  | n + 1, i, v => do
    let a ← readElem
    readRest readElem n (i + 1) (v.set i a)

theorem follows_readRest {r : ℕ → Reader α} (hr : Follows g r) (n i : ℕ) (v : List α) :
    Follows (g.times n) fun fuel => readRest (r fuel) n i v := by
  induction n generalizing i v with
  | zero => exact .pure v
  | succ n ih => exact hr.bind fun a => ih (i + 1) (v.set i a)

theorem readElems_eq {readElem : Reader α} {size fuel n i : ℕ} (hsize : size < 2 ^ 32)
    (hn : i + n = size) (hfuel : n < fuel) (v : List α) :
    readElems readElem size fuel i v = readRest readElem n i v := by
  induction n generalizing fuel i v with
  | zero =>
    obtain ⟨fuel, rfl⟩ := Nat.exists_eq_succ_of_ne_zero (Nat.ne_of_gt hfuel)
    rw [readElems, if_neg (by omega), readRest]
  | succ n ih =>
    obtain ⟨fuel, rfl⟩ := Nat.exists_eq_succ_of_ne_zero (Nat.ne_zero_of_lt hfuel)
    rw [readElems, if_pos (by omega), readRest, Nat.mod_eq_of_lt (by omega)]
    exact congrArg (readElem >>= ·) (funext fun a => ih (by omega) (by omega) (v.set i a))

/-- The loop may be stopped before it is done. -/
theorem readElems_unfinished_or (readElem : Reader α) {size n i : ℕ} (fuel : ℕ)
    (hsize : size < 2 ^ 32) (hn : i + n = size) (v : List α) (s : IStream) :
    readElems readElem size fuel i v s = .unfinished ∨
      readElems readElem size fuel i v s = readRest readElem n i v s := by
  induction fuel generalizing n i v s with
  | zero => exact .inl rfl
  | succ fuel ih =>
    rw [readElems]
    cases n with
    | zero =>
      rw [if_neg (by omega)]
      exact .inr rfl
    | succ n =>
      rw [if_pos (by omega), readRest, Nat.mod_eq_of_lt (by omega)]
      cases hr : readElem s with
      | unfinished => exact .inl (Reader.bind_unfinished hr)
      | exception =>
        rw [Reader.bind_exception hr, Reader.bind_exception hr]
        exact .inr rfl
      | done a s' =>
        rw [Reader.bind_done hr, Reader.bind_done hr]
        exact ih (by omega) (v.set i a) s'

/-- **A vector that is too large is never done.** -/
theorem readElems_ne_done {readElem : Reader α} {size i : ℕ} (fuel : ℕ) (hsize : 2 ^ 32 ≤ size)
    (hi : i < 2 ^ 32) (v : List α) (s : IStream) (w : List α) (s' : IStream) :
    readElems readElem size fuel i v s ≠ .done w s' := by
  induction fuel generalizing i v s with
  | zero => exact nofun
  | succ fuel ih =>
    rw [readElems, if_pos (by omega)]
    intro h
    obtain ⟨a, s₁, -, h⟩ := Reader.exists_of_bind h
    exact ih (Nat.mod_lt _ (by decide)) (v.set i a) s₁ h

theorem throws_times_mono {m n : ℕ} (hmn : m ≤ n) {l : List Char} (h : (g.times m).throws l) :
    (g.times n).throws l := by
  induction m generalizing n l with
  | zero => exact h.elim
  | succ m ih =>
    obtain ⟨n, rfl⟩ := Nat.exists_eq_succ_of_ne_zero (n := n) (by omega)
    rcases h with h | ⟨l', hfull, h⟩
    · exact .inl h
    · exact .inr ⟨l', hfull, ih (Nat.le_of_succ_le_succ hmn) h⟩

/-- Nothing is thrown at elements that are not read. -/
theorem readElems_bad_ne_exception {r : ℕ → Reader α} (hr : Follows g r) {size : ℕ} (fuel n i : ℕ)
    (v : List α) {s : IStream} (hs : s.good = false) :
    readElems (r fuel) size n i v s ≠ .exception := by
  induction n generalizing i v s with
  | zero => exact nofun
  | succ n ih =>
    rw [readElems]
    split
    · obtain ⟨a, s', hdone, -, hs'⟩ := hr.bad fuel s hs
      rw [Reader.bind_done hdone]
      exact ih ((i + 1) % 2 ^ 32) (v.set i a) hs'
    · exact nofun

theorem throws_of_readElems {r : ℕ → Reader α} (hr : Follows g r) {size : ℕ} (fuel n i : ℕ)
    (v : List α) {l : List Char} (h : readElems (r fuel) size n i v (of l) = .exception) :
    ∃ k, (g.times k).throws l := by
  induction n generalizing i v l with
  | zero => cases h
  | succ n ih =>
    rw [readElems] at h
    split at h
    · rcases Reader.exception_of_bind h with hrun | ⟨a, s, hrun, h⟩
      · exact ⟨1, .inl (hr.of_exception fuel l hrun)⟩
      · cases hs : s.good with
        | false => exact absurd h (readElems_bad_ne_exception hr fuel n _ _ hs)
        | true =>
          rw [eq_of_rest hs] at hrun h
          obtain ⟨k, hk⟩ := ih _ _ h
          exact ⟨k + 1, .inr ⟨s.rest, hr.of_done fuel l a _ hrun, hk⟩⟩
    · cases h

theorem readElems_throws {r : ℕ → Reader α} (hr : Follows g r) {size k : ℕ} {l : List Char}
    (h : (g.times k).throws l) (hsize : 2 ^ 32 ≤ size) (i : ℕ) (hi : i < 2 ^ 32) (v : List α) :
    ∀ᶠ fuel in atTop, ∀ n, k ≤ n → readElems (r fuel) size n i v (of l) = .exception := by
  induction k generalizing l i v with
  | zero => exact h.elim
  | succ k ih =>
    rcases h with h | ⟨l', hfull, h⟩
    · refine (hr.throws l h).mono fun fuel hthrows n hn => ?_
      obtain ⟨n, rfl⟩ := Nat.exists_eq_succ_of_ne_zero (n := n) (by omega)
      rw [readElems, if_pos (by omega)]
      exact Reader.bind_exception hthrows
    · obtain ⟨a, ha⟩ := hr.full l l' hfull
      have hrest := ih h ((i + 1) % 2 ^ 32) (Nat.mod_lt _ (by decide)) (v.set i a)
      refine (ha.and hrest).mono fun fuel hfuel n hn => ?_
      obtain ⟨n, rfl⟩ := Nat.exists_eq_succ_of_ne_zero (n := n) (by omega)
      rw [readElems, if_pos (by omega), Reader.bind_done hfuel.1]
      exact hfuel.2 n (Nat.le_of_succ_le_succ hn)

variable [Inhabited α] {resizes : List Char → ℕ → Bool} {r : ℕ → Reader α}

/-- What comes after the size. -/
def readSized (readElem : Reader α) (size fuel : ℕ) : Reader (List α) := do
  let v ← readElems readElem size fuel 0 (List.replicate size default)
  .lift fun s => ((), s.ignoreLine)
  return v

theorem readUnsigned_some {l l' : List Char} {size : ℕ}
    (h : splitUnsigned 64 l = (some size, l')) :
    readUnsigned 64 (of l) = (size, afterToken true l') := by
  rw [splitUnsigned] at h
  rw [readUnsigned, readDigits_eq]
  generalize splitDigits l = p at h ⊢
  obtain ⟨neg, digits, rest⟩ := p
  simp only at h ⊢
  obtain ⟨hsome, rfl⟩ := Prod.mk.inj h
  by_cases hvalid : digits = [] ∨ 2 ^ 64 ≤ Nat.ofDigitChars 10 digits 0
  · rw [if_pos hvalid] at hsome
    cases hsome
  · rw [if_neg hvalid] at hsome
    obtain ⟨hdigits, hlt⟩ := not_or.1 hvalid
    rw [if_pos (not_le.1 hlt), Option.some.inj hsome, List.isEmpty_eq_false_iff.2 hdigits]
    rfl

theorem readVector_fail {s : IStream} (h : (readUnsigned 64 s).2.fail = true)
    (readElem : Reader α) (fuel : ℕ) :
    readVector resizes readElem fuel s = .done [] (readUnsigned 64 s).2 := by
  rw [readVector, Reader.lift_bind, Reader.get_bind, if_pos h, Reader.pure_apply]

theorem readVector_none {l l' : List Char} (h : splitUnsigned 64 l = (none, l'))
    (readElem : Reader α) (fuel : ℕ) :
    readVector resizes readElem fuel (of l) = .done [] (afterToken false l') := by
  have hread := readUnsigned_eq 64 l
  rw [h] at hread
  rw [readVector_fail (by rw [hread]; rfl), hread]
  rfl

theorem readVector_bad (readElem : Reader α) (fuel : ℕ) {s : IStream} (h : s.good = false) :
    readVector resizes readElem fuel s = .done [] { s with fail := true } := by
  rw [readVector_fail (by rw [readUnsigned_bad 64 h]), readUnsigned_bad 64 h]

theorem readVector_some {l l' : List Char} {size : ℕ} (h : splitUnsigned 64 l = (some size, l'))
    (readElem : Reader α) (fuel : ℕ) :
    readVector resizes readElem fuel (of l) =
      if resizes l' size then readSized readElem size fuel (afterToken true l')
      else .exception := by
  have hread := readUnsigned_some h
  have hok : ¬ (readUnsigned 64 (of l)).2.fail = true := by
    rw [hread]
    exact Bool.false_ne_true
  have hcond : resizes (readUnsigned 64 (of l)).2.rest (readUnsigned 64 (of l)).1 =
      resizes l' size := by
    rw [hread]
    rfl
  rw [readVector, Reader.lift_bind, Reader.get_bind, if_neg hok]
  by_cases hres : resizes l' size = true
  · rw [if_pos (hcond.trans hres), if_pos hres, hread]
    rfl
  · rw [if_neg fun h => hres (hcond.symm.trans h), if_neg hres]
    rfl

theorem readVector_cases (resizes : List Char → ℕ → Bool) (readElem : Reader α) (fuel : ℕ)
    (l : List Char) :
    (∃ l', splitUnsigned 64 l = (none, l') ∧
      readVector resizes readElem fuel (of l) = .done [] (afterToken false l')) ∨
    ∃ size l', splitUnsigned 64 l = (some size, l') ∧ readVector resizes readElem fuel (of l) =
      if resizes l' size then readSized readElem size fuel (afterToken true l')
      else .exception := by
  cases hsplit : splitUnsigned 64 l with
  | mk found l' =>
    cases found with
    | none => exact .inl ⟨l', rfl, readVector_none hsplit readElem fuel⟩
    | some size => exact .inr ⟨size, l', rfl, readVector_some hsplit readElem fuel⟩

/-- What comes after the size, if the size is not too large. -/
def readSizedRest (readElem : Reader α) (size : ℕ) : Reader (List α) := do
  let v ← readRest readElem size 0 (List.replicate size default)
  .lift fun s => ((), s.ignoreLine)
  return v

theorem follows_readSizedRest (hr : Follows g r) (size : ℕ) :
    Follows ((g.times size).seq .line) fun fuel => readSizedRest (r fuel) size :=
  (follows_readRest hr size 0 _).bind fun v => follows_ignoreLine.map fun _ => v

theorem readSized_eq {size fuel : ℕ} (hsize : size < 2 ^ 32) (hfuel : size < fuel)
    (readElem : Reader α) : readSized readElem size fuel = readSizedRest readElem size := by
  rw [readSized, readElems_eq hsize (Nat.zero_add size) hfuel]
  rfl

theorem readSized_unfinished_or {size : ℕ} (fuel : ℕ) (hsize : size < 2 ^ 32)
    (readElem : Reader α) (s : IStream) :
    readSized readElem size fuel s = .unfinished ∨
      readSized readElem size fuel s = readSizedRest readElem size s := by
  rw [readSized, readSizedRest]
  rcases readElems_unfinished_or readElem fuel hsize (Nat.zero_add size)
    (List.replicate size default) s with h | h
  · exact .inl (Reader.bind_unfinished h)
  · exact .inr (Reader.bind_congr h)

theorem readSized_done {size fuel : ℕ} {readElem : Reader α} {s s' : IStream} {v : List α}
    (h : readSized readElem size fuel s = .done v s') :
    size < 2 ^ 32 ∧ readSizedRest readElem size s = .done v s' := by
  by_cases hsize : size < 2 ^ 32
  · rcases readSized_unfinished_or fuel hsize readElem s with hrun | hrun
    · rw [h] at hrun
      cases hrun
    · exact ⟨hsize, hrun.symm.trans h⟩
  · obtain ⟨w, s₁, hrun, -⟩ := Reader.exists_of_bind h
    exact absurd hrun (readElems_ne_done fuel (not_lt.1 hsize) (by decide) _ s w s₁)

theorem readElems_exception {size fuel : ℕ} {readElem : Reader α} {s : IStream}
    (h : readSized readElem size fuel s = .exception) :
    readElems readElem size fuel 0 (List.replicate size default) s = .exception := by
  rcases Reader.exception_of_bind h with h | ⟨w, s₁, -, h⟩
  · exact h
  · cases h

theorem throws_of_readSized (hr : Follows g r) {size fuel : ℕ} {l : List Char}
    (h : readSized (r fuel) size fuel (of l) = .exception) :
    ∃ k, (size < 2 ^ 32 → k ≤ size) ∧ (g.times k).throws l := by
  have hthrows := readElems_exception h
  by_cases hsize : size < 2 ^ 32
  · rcases readElems_unfinished_or (r fuel) fuel hsize (Nat.zero_add size)
      (List.replicate size default) (of l) with hrun | hrun
    · rw [hthrows] at hrun
      cases hrun
    · exact ⟨size, fun _ => le_rfl,
        (follows_readRest hr size 0 _).of_exception fuel l (hrun.symm.trans hthrows)⟩
  · obtain ⟨k, hk⟩ := throws_of_readElems hr fuel fuel 0 _ hthrows
    exact ⟨k, fun hc => absurd hc hsize, hk⟩

theorem readSized_throws (hr : Follows g r) {size k : ℕ} {l : List Char}
    (hk : size < 2 ^ 32 → k ≤ size) (h : (g.times k).throws l) :
    ∀ᶠ fuel in atTop, readSized (r fuel) size fuel (of l) = .exception := by
  by_cases hsize : size < 2 ^ 32
  · have hthrows := (follows_readSizedRest hr size).throws l
      (.inl (throws_times_mono (hk hsize) h))
    refine (hthrows.and (eventually_gt_atTop size)).mono fun fuel hfuel => ?_
    rw [readSized_eq hsize hfuel.2]
    exact hfuel.1
  · have hthrows := readElems_throws hr h (not_lt.1 hsize) 0 (by decide)
      (List.replicate size default)
    refine (hthrows.and (eventually_ge_atTop k)).mono fun fuel hfuel => ?_
    exact Reader.bind_exception (hfuel.1 fuel hfuel.2)

theorem afterToken_of {l : List Char} (h : l ≠ []) : afterToken true l = of l := by
  rw [afterToken, List.isEmpty_eq_false_iff.2 h]
  rfl

/-- **A vector is read by its grammar.** -/
theorem follows_readVector (hr : Follows g r) :
    Follows (vector resizes g) fun fuel => readVector resizes (r fuel) fuel where
  full := by
    rintro l l'' ⟨size, l', hsplit, hne, hres, hsize, hfull⟩
    obtain ⟨v, hv⟩ := (follows_readSizedRest hr size).full l' l'' hfull
    refine ⟨v, (hv.and (eventually_gt_atTop size)).mono fun fuel hfuel => ?_⟩
    rw [readVector_some hsplit, if_pos hres, afterToken_of hne, readSized_eq hsize hfuel.2]
    exact hfuel.1
  ends := by
    rintro l (hsplit | ⟨size, l', hsplit, hres, hsize, hrest⟩)
    · exact .of_forall fun fuel => ⟨_, _, readVector_none hsplit _ fuel, rfl⟩
    · have hsized : ∀ᶠ fuel in atTop, readVector resizes (r fuel) fuel (of l) =
          readSizedRest (r fuel) size (afterToken true l') := by
        refine (eventually_gt_atTop size).mono fun fuel hfuel => ?_
        rw [readVector_some hsplit, if_pos hres, readSized_eq hsize hfuel]
      by_cases hne : l' = []
      · subst hne
        refine hsized.mono fun fuel hrun => ?_
        obtain ⟨v, s, hdone, heof, -⟩ := (follows_readSizedRest hr size).bad fuel
          (afterToken true []) rfl
        exact ⟨v, s, hrun.trans hdone, heof⟩
      · rw [afterToken_of hne] at hsized
        refine (hsized.and ((follows_readSizedRest hr size).ends l'
          (hrest.resolve_left hne))).mono fun fuel hfuel => ?_
        rw [hfuel.1]
        exact hfuel.2
  throws := by
    rintro l ⟨size, l', hsplit, h⟩
    by_cases hres : resizes l' size = true
    · obtain ⟨hne, k, hk, hthrows⟩ := h.resolve_left (by simp [hres])
      refine (readSized_throws hr hk hthrows).mono fun fuel hfuel => ?_
      rw [readVector_some hsplit, if_pos hres, afterToken_of hne]
      exact hfuel
    · exact .of_forall fun fuel => by rw [readVector_some hsplit, if_neg hres]
  of_done := by
    intro fuel l v l'' hdone
    rcases readVector_cases resizes (r fuel) fuel l with ⟨l', -, hrun⟩ | ⟨size, l', hsplit, hrun⟩
    · rw [hdone] at hrun
      injection hrun with _ hs
      exact absurd (congrArg fail hs) Bool.false_ne_true
    · rw [hdone] at hrun
      split at hrun
      · rename_i hres
        obtain ⟨hsize, hrest⟩ := readSized_done hrun.symm
        by_cases hne : l' = []
        · obtain ⟨w, s, hdone', -, hbad⟩ := (follows_readSizedRest hr size).bad fuel
            (afterToken true l') (by rw [hne]; rfl)
          rw [hrest] at hdone'
          cases hdone'
          cases hbad
        · rw [afterToken_of hne] at hrest
          exact ⟨size, l', hsplit, hne, hres, hsize,
            (follows_readSizedRest hr size).of_done fuel l' v l'' hrest⟩
      · cases hrun
  of_eof := by
    intro fuel l v s hdone heof
    rcases readVector_cases resizes (r fuel) fuel l with ⟨l', hsplit, hrun⟩ |
      ⟨size, l', hsplit, hrun⟩
    · rw [hdone] at hrun
      injection hrun with _ hs
      rw [hs] at heof
      exact .inl (List.isEmpty_iff.1 heof ▸ hsplit)
    · rw [hdone] at hrun
      split at hrun
      · rename_i hres
        obtain ⟨hsize, hrest⟩ := readSized_done hrun.symm
        refine .inr ⟨size, l', hsplit, hres, hsize, ?_⟩
        by_cases hne : l' = []
        · exact .inl hne
        · rw [afterToken_of hne] at hrest
          exact .inr ((follows_readSizedRest hr size).of_eof fuel l' v s hrest heof)
      · cases hrun
  of_exception := by
    intro fuel l h
    rcases readVector_cases resizes (r fuel) fuel l with ⟨l', -, hrun⟩ | ⟨size, l', hsplit, hrun⟩
    · rw [h] at hrun
      cases hrun
    · refine ⟨size, l', hsplit, ?_⟩
      rw [h] at hrun
      split at hrun
      · by_cases hne : l' = []
        · have hbad : (afterToken true l').good = false := by
            rw [hne]
            rfl
          exact absurd (readElems_exception hrun.symm)
            (readElems_bad_ne_exception hr fuel fuel 0 _ hbad)
        · rw [afterToken_of hne] at hrun
          exact .inr ⟨hne, throws_of_readSized hr hrun.symm⟩
      · rename_i hres
        exact .inl (Bool.eq_false_iff.2 hres)
  bad := fun fuel s hs => ⟨[], _, readVector_bad (r fuel) fuel hs, rfl, by simp [good]⟩

end Vector

/-! ## Blocks -/

theorem follows_readEdge : Follows edge fun _ => readEdge :=
  follows_readInt.bind fun _ => follows_readInt.map _

theorem follows_readIdEdge : Follows idEdge fun _ => readIdEdge :=
  (follows_readUnsigned 32).bind fun _ => (follows_readUnsigned 32).map _

theorem follows_readCall : Follows call fun _ => readCall :=
  follows_readWord.bind fun _ => follows_readInt.bind fun _ => follows_readInt.map _

theorem follows_skipComments : Follows (.lines '#') fun _ => skipComments :=
  follows_skipLines (by decide)

section Deserialize

variable {resizes : List Char → ℕ → Bool}

theorem follows_readHint (resizes : List Char → ℕ → Bool) :
    Follows (vector resizes idEdge) fun fuel => readHint resizes fuel :=
  (follows_readVector follows_readIdEdge).map Hint.mk

/-- **A block is read by its grammar.** -/
theorem follows_readObservation (resizes : List Char → ℕ → Bool) :
    Follows (block resizes) fun fuel => readObservation resizes fuel :=
  follows_skipComments.bind fun _ => (follows_readVector follows_readCall).bind fun _ =>
    follows_skipComments.bind fun _ => (follows_readVector follows_readEdge).bind fun _ =>
      follows_skipComments.bind fun _ => (follows_readVector follows_readIdEdge).bind fun _ =>
        follows_skipComments.bind fun _ =>
          (follows_readVector (follows_readHint resizes)).bind fun _ => follows_ignoreLine.map _

/-! ## The loop -/

/-- Where reading has failed before the end, it goes on forever. -/
theorem deserializeLoop_fail {fuel : ℕ} (n : ℕ) (result : Specification) {s : IStream}
    (hgood : s.good = false) (heof : s.eof = false) :
    deserializeLoop resizes fuel n result s = .unfinished := by
  induction n generalizing result s with
  | zero => rfl
  | succ n ih =>
    rw [deserializeLoop, Reader.get_bind, if_neg (by rw [heof]; exact Bool.false_ne_true)]
    obtain ⟨⟨obs, hints⟩, s', hdone, heof', hbad⟩ :=
      (follows_readObservation resizes).bad fuel s hgood
    rw [Reader.bind_done hdone]
    exact ih (result.addHints obs hints) hbad (heof'.trans heof)

theorem deserializeLoop_of (fuel n : ℕ) (result : Specification) (l : List Char) :
    deserializeLoop resizes fuel (n + 1) result (of l) =
      (readObservation resizes fuel >>= fun x =>
        deserializeLoop resizes fuel n (result.addHints x.1 x.2)) (of l) := by
  rw [deserializeLoop, Reader.get_bind, if_neg (by rw [eof_of]; exact Bool.false_ne_true)]

/-- If the loop ends, then the text ends in a block. -/
theorem endsInBlock_of_deserializeLoop {fuel n : ℕ} {result : Specification} {l : List Char}
    (h : deserializeLoop resizes fuel n result (of l) ≠ .unfinished) : EndsInBlock resizes l := by
  induction n generalizing result l with
  | zero => exact absurd rfl h
  | succ n ih =>
    rw [deserializeLoop_of] at h
    have hblock := follows_readObservation resizes
    cases hrun : readObservation resizes fuel (of l) with
    | unfinished => exact absurd (Reader.bind_unfinished hrun) h
    | exception => exact .throws (hblock.of_exception fuel l hrun)
    | done x s =>
      rw [Reader.bind_done hrun] at h
      cases hgood : s.good with
      | true =>
        rw [eq_of_rest hgood] at hrun h
        exact .block (hblock.of_done fuel l x _ hrun) (ih h)
      | false =>
        cases heof : s.eof with
        | true => exact .ends (hblock.of_eof fuel l x s hrun heof)
        | false => exact absurd (deserializeLoop_fail n _ hgood heof) h

/-- A text that ends in a block is read in as many rounds as it has blocks. -/
theorem deserializeLoop_ends {l : List Char} (h : EndsInBlock resizes l) (result : Specification) :
    ∃ k, ∀ᶠ fuel in atTop, ∀ n, k ≤ n →
      deserializeLoop resizes fuel n result (of l) ≠ .unfinished := by
  have hblock := follows_readObservation resizes
  induction h generalizing result with
  | @ends l hends =>
    refine ⟨2, (hblock.ends l hends).mono fun fuel hfuel n hn => ?_⟩
    obtain ⟨n, rfl⟩ := Nat.exists_eq_add_of_le' hn
    obtain ⟨x, s, hdone, heof⟩ := hfuel
    rw [deserializeLoop_of, Reader.bind_done hdone, deserializeLoop, Reader.get_bind, if_pos heof]
    exact nofun
  | @throws l hthrows =>
    refine ⟨1, (hblock.throws l hthrows).mono fun fuel hfuel n hn => ?_⟩
    obtain ⟨n, rfl⟩ := Nat.exists_eq_add_of_le' hn
    rw [deserializeLoop_of, Reader.bind_exception hfuel]
    exact nofun
  | @block l l' hfull _ ih =>
    obtain ⟨x, hx⟩ := hblock.full l l' hfull
    obtain ⟨k, hk⟩ := ih (result.addHints x.1 x.2)
    refine ⟨k + 1, (hx.and hk).mono fun fuel hfuel n hn => ?_⟩
    obtain ⟨n, rfl⟩ := Nat.exists_eq_add_of_le' hn
    rw [← Nat.add_assoc, deserializeLoop_of, Reader.bind_done hfuel.1]
    exact hfuel.2 (n + k) (Nat.le_add_left k n)

/-- **When reading ends.** -/
theorem deserialize_ends_iff (resizes : List Char → ℕ → Bool) (text : List Char) :
    (∃ fuel, deserialize resizes fuel text ≠ .unfinished) ↔ EndsInBlock resizes text := by
  refine ⟨?_, fun h => ?_⟩
  · rintro ⟨fuel, h⟩
    exact endsInBlock_of_deserializeLoop h
  · obtain ⟨k, hk⟩ := deserializeLoop_ends h {}
    obtain ⟨fuel, hfuel, hle⟩ := (hk.and (eventually_ge_atTop k)).exists
    exact ⟨fuel, hfuel fuel hle⟩

/-- What can be read of a vector is after its size. -/
theorem splitUnsigned_of_vector {g : Grammar} {l : List Char}
    (h : (vector resizes g).ends l ∨ (vector resizes g).throws l ∨
      ∃ l', (vector resizes g).full l l') :
    splitUnsigned 64 l = (none, []) ∨ ∃ size l', splitUnsigned 64 l = (some size, l') := by
  rcases h with (h | ⟨size, l', h, -⟩) | ⟨size, l', h, -⟩ | ⟨-, size, l', h, -⟩
  · exact .inl h
  · exact .inr ⟨size, l', h⟩
  · exact .inr ⟨size, l', h⟩
  · exact .inr ⟨size, l', h⟩

/-- A text that ends in a block has a number after comments. -/
theorem EndsInBlock.begins {l : List Char} (h : EndsInBlock resizes l) :
    Grammar.OnlyLines '#' l ∨ ∃ l', Grammar.AfterLines '#' l l' ∧
      (splitUnsigned 64 l' = (none, []) ∨ ∃ size l'', splitUnsigned 64 l' = (some size, l'')) := by
  cases h with
  | ends h =>
    rcases h with h | ⟨l', hlines, h | ⟨l'', h, -⟩⟩
    · exact .inl h
    · exact .inr ⟨l', hlines, splitUnsigned_of_vector (.inl h)⟩
    · exact .inr ⟨l', hlines, splitUnsigned_of_vector (.inr (.inr ⟨l'', h⟩))⟩
  | throws h =>
    rcases h with h | ⟨l', hlines, h | ⟨l'', h, -⟩⟩
    · exact h.elim
    · exact .inr ⟨l', hlines, splitUnsigned_of_vector (.inr (.inl h))⟩
    · exact .inr ⟨l', hlines, splitUnsigned_of_vector (.inr (.inr ⟨l'', h⟩))⟩
  | block h _ =>
    obtain ⟨l', hlines, l'', h, -⟩ := h
    exact .inr ⟨l', hlines, splitUnsigned_of_vector (.inr (.inr ⟨l'', h⟩))⟩

/-- **Reading a letter goes on forever.** -/
theorem deserialize_letter : ¬ ∃ (resizes : List Char → ℕ → Bool) (fuel : ℕ),
    deserialize resizes fuel ['x'] ≠ .unfinished := by
  rintro ⟨resizes, fuel, h⟩
  have hsplit : splitUnsigned 64 ['x'] = (none, ['x']) := by decide
  rcases (endsInBlock_of_deserializeLoop h).begins with honly | ⟨l', hlines, h⟩
  · cases honly
  · cases hlines with
    | none _ =>
      rw [hsplit] at h
      rcases h with h | ⟨size, l'', h⟩
      · cases h
      · cases h

end Deserialize

/-! ## Reading without exceptions -/

section Refines

variable {α : Type} {resizes : List Char → ℕ → Bool} {fuel : ℕ} {r : Reader α}
  {f : IStream → α × IStream}

theorem readElems_of_readRest (hr : Refines r f) {n i : ℕ} {v w : List α} {s s' : IStream}
    (hn : i + n = v.length) (h : readRest r n i v s = .done w s') :
    ∃ xs, IStream.readElems f n s = (xs, s') ∧ w = v.take i ++ xs := by
  induction n generalizing i v s with
  | zero =>
    cases h
    exact ⟨[], rfl, by rw [List.append_nil, List.take_of_length_le (by omega)]⟩
  | succ n ih =>
    obtain ⟨a, s₁, hrun, hrest⟩ := Reader.exists_of_bind h
    have hlen : i + 1 + n = (v.set i a).length := by
      rw [List.length_set]
      omega
    obtain ⟨xs, hxs, rfl⟩ := ih hlen hrest
    refine ⟨a :: xs, ?_, ?_⟩
    · rw [IStream.readElems, hr s a s₁ hrun]
      simp only
      rw [hxs]
    · have htake : (v.set i a).take (i + 1) = v.take i ++ [a] := by
        rw [List.take_add_one, List.take_set_of_le le_rfl, List.getElem?_set_self (by omega)]
        rfl
      rw [htake, List.append_assoc]
      rfl

theorem refines_readVector [Inhabited α] (hr : Refines r f) :
    Refines (readVector resizes r fuel) (IStream.readVector f) := by
  intro s w s' h
  rw [IStream.readVector]
  by_cases hfail : (readUnsigned 64 s).2.fail = true
  · rw [readVector_fail hfail] at h
    cases h
    simp only
    rw [if_pos hfail]
  · rw [readVector, Reader.lift_bind, Reader.get_bind, if_neg hfail] at h
    split at h
    · obtain ⟨-, h⟩ := readSized_done h
      obtain ⟨v, s₁, hrest, h⟩ := Reader.exists_of_bind h
      cases h
      obtain ⟨xs, hxs, rfl⟩ := readElems_of_readRest hr
        ((Nat.zero_add _).trans List.length_replicate.symm) hrest
      simp only
      rw [if_neg hfail, hxs]
    · cases h

theorem refines_readEdge : Refines readEdge GenMC.readEdge :=
  (Refines.lift readInt).bind fun _ => (Refines.lift readInt).bind fun _ => .pure _

theorem refines_readIdEdge : Refines readIdEdge GenMC.readIdEdge :=
  (Refines.lift _).bind fun _ => (Refines.lift _).bind fun _ => .pure _

theorem refines_readCall : Refines readCall GenMC.readCall :=
  (Refines.lift _).bind fun _ => (Refines.lift _).bind fun _ => (Refines.lift _).bind fun _ =>
    .pure _

theorem refines_readHint : Refines (readHint resizes fuel) GenMC.readHint :=
  (refines_readVector refines_readIdEdge).bind fun _ => .pure _

theorem refines_skipComments : Refines skipComments fun s => ((), GenMC.skipComments s) :=
  .lift _

theorem refines_readObservation :
    Refines (readObservation resizes fuel) GenMC.readObservation :=
  refines_skipComments.bind fun _ => (refines_readVector refines_readCall).bind fun _ =>
    refines_skipComments.bind fun _ => (refines_readVector refines_readEdge).bind fun _ =>
      refines_skipComments.bind fun _ => (refines_readVector refines_readIdEdge).bind fun _ =>
        refines_skipComments.bind fun _ => (refines_readVector refines_readHint).bind fun _ =>
          (Refines.lift fun s => ((), s.ignoreLine)).bind fun _ => .pure _

/-- **What is read, if reading ends without an exception**, is what the simpler reader reads. -/
theorem deserialize_refines {text : List Char} {spec : Specification} {s : IStream}
    (h : deserialize resizes fuel text = .done spec s) :
    GenMC.deserializeLoop fuel (IStream.of text) {} = some spec := by
  have hloop : ∀ n result s₀, deserializeLoop resizes fuel n result s₀ = .done spec s →
      GenMC.deserializeLoop n s₀ result = some spec := by
    intro n
    induction n with
    | zero => exact nofun
    | succ n ih =>
      intro result s₀ h
      rw [deserializeLoop, Reader.get_bind] at h
      rw [GenMC.deserializeLoop]
      split at h
      · rename_i heof
        cases h
        rw [if_pos heof]
      · rename_i heof
        obtain ⟨⟨obs, hints⟩, s₁, hrun, h⟩ := Reader.exists_of_bind h
        rw [if_neg heof, refines_readObservation s₀ (obs, hints) s₁ hrun]
        exact ih _ s₁ h
  exact hloop fuel {} (of text) h

end Refines

end Reading

end GenMC
