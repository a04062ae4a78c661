import Mathlib.Data.Nat.Bitwise

/-!
# The bytes of a word

A word of 64 bits has eight bytes, the lowest one first.  They are read with a shift and a mask, and
set by clearing a byte and adding another one.

* `eq_of_byteAt`: a word is its bytes.
* `byteAt_setByte`: **what setting a byte does to all of them**, and `byteAt_merge` for several.
-/

set_option autoImplicit false

namespace GenMC
namespace WordBytes

/-- A byte at an offset in a word. -/
def atByte (b : UInt64) (i : ℕ) : UInt64 := b <<< UInt64.ofNat (i * 8)

/-- The byte of a word at an offset. -/
def byteAt (w : UInt64) (i : ℕ) : UInt64 := (w >>> UInt64.ofNat (i * 8)) &&& 0xFF

/-- Sets the byte of a word at an offset. -/
def setByte (w : UInt64) (i : ℕ) (b : UInt64) : UInt64 := (w &&& ~~~(atByte 0xFF i)) ||| atByte b i

/-- A bit of a word. -/
def bit (w : UInt64) (k : ℕ) : Bool := w.toBitVec.getLsbD k

theorem eq_of_bit {v w : UInt64} (h : ∀ k < 64, bit v k = bit w k) : v = w :=
  UInt64.toBitVec_inj.1 (BitVec.eq_of_getLsbD_eq h)


theorem bit_and (v w : UInt64) (k : ℕ) : bit (v &&& w) k = (bit v k && bit w k) := by
  rw [bit, UInt64.toBitVec_and, BitVec.getLsbD_and, bit, bit]

theorem bit_or (v w : UInt64) (k : ℕ) : bit (v ||| w) k = (bit v k || bit w k) := by
  rw [bit, UInt64.toBitVec_or, BitVec.getLsbD_or, bit, bit]

theorem bit_not (w : UInt64) {k : ℕ} (hk : k < 64) : bit (~~~w) k = !bit w k := by
  rw [bit, UInt64.toBitVec_not, BitVec.getLsbD_not, decide_eq_true hk, Bool.true_and, bit]

theorem bit_byte (k : ℕ) : bit 0xFF k = decide (k < 8) := by
  rw [bit, BitVec.getLsbD]
  exact Nat.testBit_two_pow_sub_one 8 k

/-- The number of bits that a byte is shifted by. -/
theorem shift_eq {i : ℕ} (hi : i < 8) : ((UInt64.ofNat (i * 8)).toBitVec % 64).toNat = i * 8 := by
  rw [BitVec.toNat_umod, UInt64.toNat_toBitVec, UInt64.toNat_ofNat']
  rw [Nat.mod_eq_of_lt (a := i * 8) (by omega)]
  exact Nat.mod_eq_of_lt (show i * 8 < 64 by omega)

theorem bit_atByte (b : UInt64) {i : ℕ} (hi : i < 8) {k : ℕ} (hk : k < 64) :
    bit (atByte b i) k = (decide (i * 8 ≤ k) && bit b (k - i * 8)) := by
  rw [bit, atByte, UInt64.toBitVec_shiftLeft, BitVec.shiftLeft_eq', shift_eq hi,
    BitVec.getLsbD_shiftLeft, decide_eq_true hk, Bool.true_and, ← decide_not, bit]
  exact congrArg (· && _) (decide_eq_decide.2 not_lt)

theorem bit_byteAt (w : UInt64) {i : ℕ} (hi : i < 8) (k : ℕ) :
    bit (byteAt w i) k = (decide (k < 8) && bit w (i * 8 + k)) := by
  rw [byteAt, bit_and, bit_byte, Bool.and_comm, bit, UInt64.toBitVec_shiftRight,
    BitVec.ushiftRight_eq', shift_eq hi, BitVec.getLsbD_ushiftRight, bit]

/-- A word is its bytes. -/
theorem eq_of_byteAt {v w : UInt64} (h : ∀ i < 8, byteAt v i = byteAt w i) : v = w := by
  refine eq_of_bit fun k hk => ?_
  have hbyte := congrArg (bit · (k % 8)) (h (k / 8) (by omega))
  rw [bit_byteAt _ (by omega), bit_byteAt _ (by omega), decide_eq_true (Nat.mod_lt k (by omega)),
    Bool.true_and, Bool.true_and, Nat.div_add_mod' k 8] at hbyte
  exact hbyte

/-- The bytes of a word that is a byte itself. -/
theorem bit_of_isByte {b : UInt64} (hb : byteAt b 0 = b) {k : ℕ} (hk : 8 ≤ k) :
    bit b k = false := by
  rw [← hb, bit_byteAt _ (by omega), decide_eq_false (by omega), Bool.false_and]

/-- A byte of a word is a byte. -/
theorem byteAt_byteAt (w : UInt64) {i : ℕ} (hi : i < 8) : byteAt (byteAt w i) 0 = byteAt w i := by
  refine eq_of_bit fun k _ => ?_
  rw [bit_byteAt _ (by omega), bit_byteAt _ hi, bit_byteAt _ hi]
  by_cases hk : k < 8
  · rw [decide_eq_true hk, Nat.zero_mul, Nat.zero_add, decide_eq_true hk, Bool.true_and]
  · rw [decide_eq_false hk, Bool.false_and, Bool.false_and]

/-- **What setting a byte does to the bytes of a word.** -/
theorem byteAt_setByte (w : UInt64) {b : UInt64} (hb : byteAt b 0 = b) {i j : ℕ} (hi : i < 8)
    (hj : j < 8) : byteAt (setByte w i b) j = if j = i then b else byteAt w j := by
  refine eq_of_bit fun k _ => ?_
  by_cases hk : k < 8
  · have hpos : j * 8 + k < 64 := by omega
    rw [bit_byteAt _ hj, decide_eq_true hk, Bool.true_and, setByte, bit_or, bit_and, bit_not _ hpos,
      bit_atByte _ hi hpos, bit_atByte _ hi hpos, bit_byte]
    split
    · rename_i heq
      subst heq
      rw [decide_eq_true (Nat.le_add_right _ _), Nat.add_sub_cancel_left, decide_eq_true hk]
      simp
    · rw [bit_byteAt _ hj, decide_eq_true hk, Bool.true_and]
      rcases Nat.lt_or_ge j i with hlt | hge
      · rw [decide_eq_false (by omega)]
        simp
      · rw [bit_of_isByte hb (by omega), decide_eq_false (p := j * 8 + k - i * 8 < 8) (by omega)]
        simp
  · rw [bit_byteAt _ hj, decide_eq_false hk, Bool.false_and]
    split
    · exact (bit_of_isByte hb (by omega)).symm
    · rw [bit_byteAt _ hj, decide_eq_false hk, Bool.false_and]

/-- A word that is masked to a byte is a byte. -/
theorem byteAt_and_byte (w : UInt64) : byteAt (w &&& 0xFF) 0 = w &&& 0xFF := by
  refine eq_of_bit fun k _ => ?_
  rw [bit_byteAt _ (by omega), Nat.zero_mul, Nat.zero_add, bit_and, bit_byte]
  cases decide (k < 8)
  · rw [Bool.false_and, Bool.and_false]
  · rw [Bool.true_and]

/-! ## Setting some of the bytes -/

/-- Sets the first `n` bytes of a word to the ones that there are. -/
def merge (w : UInt64) (bytes : ℕ → Option UInt64) : ℕ → UInt64
  | 0 => w
  | n + 1 =>
    match bytes n with
    | some b => setByte (merge w bytes n) n b
    | none => merge w bytes n

/-- **The bytes of a word after some of them were set.** -/
theorem byteAt_merge (w : UInt64) {bytes : ℕ → Option UInt64}
    (hbytes : ∀ i, ∀ b ∈ bytes i, byteAt b 0 = b) {n : ℕ} (hn : n ≤ 8) {j : ℕ} (hj : j < 8) :
    byteAt (merge w bytes n) j = if j < n then (bytes j).getD (byteAt w j) else byteAt w j := by
  induction n with
  | zero => rw [if_neg (Nat.not_lt_zero j), merge]
  | succ n ih =>
    have hother (hne : j ≠ n) :
        (if j < n then (bytes j).getD (byteAt w j) else byteAt w j) =
          if j < n + 1 then (bytes j).getD (byteAt w j) else byteAt w j := by
      by_cases hlt : j < n
      · rw [if_pos hlt, if_pos (Nat.lt_succ_of_lt hlt)]
      · rw [if_neg hlt, if_neg (by omega)]
    specialize ih (by omega)
    rw [merge]
    cases hb : bytes n with
    | none =>
      dsimp only
      rw [ih]
      by_cases hne : j = n
      · subst hne
        rw [if_neg (lt_irrefl j), if_pos (Nat.lt_succ_self j), hb, Option.getD_none]
      · exact hother hne
    | some b =>
      dsimp only
      rw [byteAt_setByte _ (hbytes n b hb) (by omega) hj, ih]
      by_cases hne : j = n
      · subst hne
        rw [if_pos rfl, if_pos (Nat.lt_succ_self j), hb, Option.getD_some]
      · rw [if_neg hne]
        exact hother hne

end WordBytes
end GenMC
