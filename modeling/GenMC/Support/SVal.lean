import GenMC.Support.SExpr
import Mathlib.Data.Nat.Bitwise

/-!
# Words and integers of some width

All values are words of 64 bits, whatever the width of the integers they stand for.  An integer of
`w` bits is held in the lower bits of a word, the upper ones being zero.  An operation on words
computes the operation on integers only if its result fits, and not always then.

* `eq_ofBits_iff_lt`: a word that has the right lower bits is right if it fits.
* `toInt_signExtendBottom` and `toNat_truncate`: the two operations of `SVal` that look at a width.
* `eq_ofBits_add_iff` and its siblings: **when an operation on words is right.**  Additions,
  multiplications and left shifts have to fit, subtractions must not borrow, and complements are
  only right at the full width.
-/

set_option autoImplicit false

namespace GenMC

/-- The bits of an integer of some width. -/
def bits (w : ℕ) (x : SVal64) : BitVec w := BitVec.ofNat w x.toNat

def ofBits {w : ℕ} (b : BitVec w) : SVal64 := UInt64.ofNat b.toNat

/-- Comparisons of integers of some width. -/
def CmpOp.sem (o : CmpOp) (w : ℕ) (x y : SVal64) : Bool :=
  let a := bits w x
  let b := bits w y
  match o with
  | eq => a = b
  | ne => a ≠ b
  | ult => a.ult b
  | ule => a.ule b
  | ugt => b.ult a
  | uge => b.ule a
  | slt => a.slt b
  | sle => a.sle b
  | sgt => b.slt a
  | sge => b.sle a

namespace SVal64

/-- Sign-extends the number in the bottom `b` bits, where `0 < b ≤ 64`. -/
def signExtendBottom (v : SVal64) (b : ℕ) : SVal64 :=
  UInt64.ofBitVec ((v.toBitVec <<< (64 - b)).sshiftRight (64 - b))

/-- Truncates the value to the width `w`, where `0 < w ≤ 64`. -/
def truncate (v : SVal64) (w : ℕ) : SVal64 :=
  if w = 64 then v else v &&& UInt64.ofNat (2 ^ w - 1)

def ult (v w : SVal64) : Bool := v < w
def ugt (v w : SVal64) : Bool := !decide (v ≤ w)
def slt (v w : SVal64) : Bool := v.getSigned < w.getSigned
def sgt (v w : SVal64) : Bool := !decide (v.getSigned ≤ w.getSigned)

end SVal64

/-! ## Integers in words -/

section Words

variable {w : ℕ}

theorem toNat_ofBits (hw : w ≤ 64) (b : BitVec w) : (ofBits b).toNat = b.toNat := by
  have hlt : b.toNat < 2 ^ 64 := b.isLt.trans_le (Nat.pow_le_pow_right (by omega) hw)
  rw [ofBits, UInt64.toNat_ofNat']
  exact Nat.mod_eq_of_lt hlt

theorem ofBits_lt (hw : w ≤ 64) (b : BitVec w) : (ofBits b).toNat < 2 ^ w := by
  rw [toNat_ofBits hw]
  exact b.isLt

theorem toNat_bits {x : SVal64} (hx : x.toNat < 2 ^ w) : (bits w x).toNat = x.toNat := by
  rw [bits, BitVec.toNat_ofNat]
  exact Nat.mod_eq_of_lt hx

theorem ofBits_bits (hw : w ≤ 64) {x : SVal64} (hx : x.toNat < 2 ^ w) : ofBits (bits w x) = x := by
  rw [← UInt64.toNat_inj, toNat_ofBits hw, toNat_bits hx]

theorem bits_ofBits (hw : w ≤ 64) (b : BitVec w) : bits w (ofBits b) = b := by
  rw [← BitVec.toNat_inj, toNat_bits (ofBits_lt hw b), toNat_ofBits hw]

theorem eq_ofBits_iff (hw : w ≤ 64) {v : SVal64} {b : BitVec w} :
    v = ofBits b ↔ v.toNat = b.toNat := by
  rw [← UInt64.toNat_inj, toNat_ofBits hw]

/-- A word with the right lower bits is right if it fits. -/
theorem eq_ofBits_iff_lt (hw : w ≤ 64) {v : SVal64} {b : BitVec w}
    (h : v.toNat % 2 ^ w = b.toNat) : v = ofBits b ↔ v.toNat < 2 ^ w := by
  rw [eq_ofBits_iff hw]
  refine ⟨fun heq => ?_, fun hlt => ?_⟩
  · rw [heq]
    exact b.isLt
  · rw [← h, Nat.mod_eq_of_lt hlt]

/-- What is left of a number after two moduli. -/
theorem mod_mod_width (hw : w ≤ 64) (a : ℕ) : a % 2 ^ 64 % 2 ^ w = a % 2 ^ w :=
  Nat.mod_mod_of_dvd a (Nat.pow_dvd_pow 2 hw)

theorem two_pow_eq_two_mul (h0 : 0 < w) : 2 ^ w = 2 * 2 ^ (w - 1) := by
  rw [← Nat.pow_succ', Nat.succ_eq_add_one, Nat.sub_add_cancel h0]

/-! ## Operations -/

variable {x y : SVal64}

theorem eq_ofBits_add_iff (hw : w ≤ 64) (hx : x.toNat < 2 ^ w) (hy : y.toNat < 2 ^ w) :
    x + y = ofBits (bits w x + bits w y) ↔ (x + y).toNat < 2 ^ w := by
  refine eq_ofBits_iff_lt hw ?_
  rw [UInt64.toNat_add, mod_mod_width hw, BitVec.toNat_add, toNat_bits hx, toNat_bits hy]

theorem eq_ofBits_mul_iff (hw : w ≤ 64) (hx : x.toNat < 2 ^ w) (hy : y.toNat < 2 ^ w) :
    x * y = ofBits (bits w x * bits w y) ↔ (x * y).toNat < 2 ^ w := by
  refine eq_ofBits_iff_lt hw ?_
  rw [UInt64.toNat_mul, mod_mod_width hw, BitVec.toNat_mul, toNat_bits hx, toNat_bits hy]

theorem eq_ofBits_sub_iff (hw : w ≤ 64) (hx : x.toNat < 2 ^ w) (hy : y.toNat < 2 ^ w) :
    x - y = ofBits (bits w x - bits w y) ↔ w = 64 ∨ y.toNat ≤ x.toNat := by
  have hpow : 2 ^ w ≤ 2 ^ 64 := Nat.pow_le_pow_right (by omega) hw
  rw [eq_ofBits_iff hw, UInt64.toNat_sub, BitVec.toNat_sub, toNat_bits hx, toNat_bits hy]
  by_cases h64 : w = 64
  · subst h64
    simp
  · have hlt : 2 ^ w < 2 ^ 64 := Nat.pow_lt_pow_right (by omega) (by omega)
    rw [or_iff_right h64]
    by_cases hle : y.toNat ≤ x.toNat
    · have h1 : 2 ^ 64 - y.toNat + x.toNat = 2 ^ 64 + (x.toNat - y.toNat) := by omega
      have h2 : 2 ^ w - y.toNat + x.toNat = 2 ^ w + (x.toNat - y.toNat) := by omega
      rw [h1, h2, Nat.add_mod_left, Nat.add_mod_left, Nat.mod_eq_of_lt (by omega),
        Nat.mod_eq_of_lt (by omega)]
      exact iff_of_true rfl hle
    · rw [Nat.mod_eq_of_lt (by omega), Nat.mod_eq_of_lt (by omega)]
      exact iff_of_false (by omega) hle

theorem eq_ofBits_and (hw : w ≤ 64) (hx : x.toNat < 2 ^ w) (hy : y.toNat < 2 ^ w) :
    x &&& y = ofBits (bits w x &&& bits w y) := by
  rw [eq_ofBits_iff hw, UInt64.toNat_and, BitVec.toNat_and, toNat_bits hx, toNat_bits hy]

theorem eq_ofBits_or (hw : w ≤ 64) (hx : x.toNat < 2 ^ w) (hy : y.toNat < 2 ^ w) :
    x ||| y = ofBits (bits w x ||| bits w y) := by
  rw [eq_ofBits_iff hw, UInt64.toNat_or, BitVec.toNat_or, toNat_bits hx, toNat_bits hy]

theorem eq_ofBits_xor (hw : w ≤ 64) (hx : x.toNat < 2 ^ w) (hy : y.toNat < 2 ^ w) :
    x ^^^ y = ofBits (bits w x ^^^ bits w y) := by
  rw [eq_ofBits_iff hw, UInt64.toNat_xor, BitVec.toNat_xor, toNat_bits hx, toNat_bits hy]

theorem eq_ofBits_not_iff (hw : w ≤ 64) (hx : x.toNat < 2 ^ w) :
    ~~~x = ofBits (~~~bits w x) ↔ w = 64 := by
  rw [eq_ofBits_iff hw, UInt64.toNat_not, BitVec.toNat_not, toNat_bits hx]
  refine ⟨fun h => ?_, ?_⟩
  · by_contra h64
    have hlt : 2 ^ w < 2 ^ 64 := Nat.pow_lt_pow_right (by omega) (by omega)
    have hsize : UInt64.size = 2 ^ 64 := rfl
    omega
  · rintro rfl
    rfl

/-! ### Divisions and shifts -/

theorem eq_ofBits_udiv (hw : w ≤ 64) (hx : x.toNat < 2 ^ w) (hy : y.toNat < 2 ^ w) :
    x / y = ofBits (bits w x / bits w y) := by
  rw [eq_ofBits_iff hw, UInt64.toNat_div, BitVec.toNat_udiv, toNat_bits hx, toNat_bits hy]

theorem eq_ofBits_urem_iff (hw : w ≤ 64) (hx : x.toNat < 2 ^ w) (hy : y.toNat < 2 ^ w) :
    x / y = ofBits (bits w x % bits w y) ↔ x.toNat / y.toNat = x.toNat % y.toNat := by
  rw [eq_ofBits_iff hw, UInt64.toNat_div, BitVec.toNat_umod, toNat_bits hx, toNat_bits hy]

/-- A number is its signed value modulo the width. -/
theorem toNat_eq_toInt_emod (b : BitVec w) : (b.toNat : ℤ) = b.toInt % 2 ^ w := by
  have hcast : ((2 ^ w : ℕ) : ℤ) = 2 ^ w := by push_cast; rfl
  have hlt : (b.toNat : ℤ) < 2 ^ w := by
    rw [← hcast]
    exact_mod_cast b.isLt
  rw [BitVec.toInt_eq_toNat_cond, hcast]
  split
  · rw [Int.emod_eq_of_lt (by omega) hlt]
  · rw [Int.sub_emod_right, Int.emod_eq_of_lt (by omega) hlt]

theorem eq_ofBits_sdiv_iff (hw : w ≤ 64) :
    x / y = ofBits ((bits w x).sdiv (bits w y)) ↔ ((x.toNat / y.toNat : ℕ) : ℤ) =
      (bits w x).toInt.tdiv (bits w y).toInt % 2 ^ w := by
  have hcast : ((2 ^ w : ℕ) : ℤ) = 2 ^ w := by push_cast; rfl
  rw [eq_ofBits_iff hw, UInt64.toNat_div, ← Int.natCast_inj (n := ((bits w x).sdiv _).toNat),
    toNat_eq_toInt_emod, BitVec.toInt_sdiv, ← hcast, Int.bmod_emod]

theorem eq_ofBits_srem_iff (hw : w ≤ 64) :
    x / y = ofBits ((bits w x).srem (bits w y)) ↔ ((x.toNat / y.toNat : ℕ) : ℤ) =
      (bits w x).toInt.tmod (bits w y).toInt % 2 ^ w := by
  rw [eq_ofBits_iff hw, UInt64.toNat_div, ← Int.natCast_inj (n := ((bits w x).srem _).toNat),
    toNat_eq_toInt_emod, BitVec.toInt_srem]

theorem eq_ofBits_shl_iff (hw : w ≤ 64) (hx : x.toNat < 2 ^ w) (hy : y.toNat < 2 ^ w)
    (h64 : y.toNat < 64) : x <<< y = ofBits (bits w x <<< (bits w y).toNat) ↔
      (x.toNat * 2 ^ y.toNat) % 2 ^ 64 < 2 ^ w := by
  have hshift : (x <<< y).toNat = (x.toNat * 2 ^ y.toNat) % 2 ^ 64 := by
    rw [UInt64.toNat_shiftLeft, Nat.mod_eq_of_lt h64, Nat.shiftLeft_eq]
  rw [← hshift]
  refine eq_ofBits_iff_lt hw ?_
  rw [hshift, mod_mod_width hw, BitVec.toNat_shiftLeft, toNat_bits hx, toNat_bits hy,
    Nat.shiftLeft_eq]

theorem eq_ofBits_lshr (hw : w ≤ 64) (hx : x.toNat < 2 ^ w) (hy : y.toNat < 2 ^ w)
    (h64 : y.toNat < 64) : x >>> y = ofBits (bits w x >>> (bits w y).toNat) := by
  rw [eq_ofBits_iff hw, UInt64.toNat_shiftRight, Nat.mod_eq_of_lt h64, BitVec.toNat_ushiftRight,
    toNat_bits hx, toNat_bits hy]

theorem eq_ofBits_ashr_iff (h0 : 0 < w) (hw : w ≤ 64) (hx : x.toNat < 2 ^ w) (hy : y.toNat < 2 ^ w)
    (h64 : y.toNat < 64) : x >>> y = ofBits ((bits w x).sshiftRight (bits w y).toNat) ↔
      x.toNat < 2 ^ (w - 1) ∨ y.toNat = 0 := by
  have hhalf := two_pow_eq_two_mul h0
  rw [eq_ofBits_iff hw, UInt64.toNat_shiftRight, Nat.mod_eq_of_lt h64, BitVec.toNat_sshiftRight,
    BitVec.msb_eq_decide, toNat_bits hx, toNat_bits hy]
  by_cases hneg : 2 ^ (w - 1) ≤ x.toNat
  · rw [decide_eq_true hneg, if_pos rfl, or_iff_right (not_lt.2 hneg)]
    by_cases hzero : y.toNat = 0
    · rw [hzero]
      exact iff_of_true (by rw [Nat.shiftRight_zero, Nat.shiftRight_zero]; omega) rfl
    · -- the sign bit stays in one result and not in the other one
      refine iff_of_false (fun h => ?_) hzero
      have hpow : 2 ≤ 2 ^ y.toNat := by
        calc 2 = 2 ^ 1 := rfl
          _ ≤ 2 ^ y.toNat := Nat.pow_le_pow_right (by omega) (by omega)
      have h1 : x.toNat >>> y.toNat ≤ x.toNat / 2 := by
        rw [Nat.shiftRight_eq_div_pow]
        exact Nat.div_le_div_left hpow (by omega)
      have h2 : (2 ^ w - 1 - x.toNat) >>> y.toNat ≤ (2 ^ w - 1 - x.toNat) / 2 := by
        rw [Nat.shiftRight_eq_div_pow]
        exact Nat.div_le_div_left hpow (by omega)
      omega
  · rw [decide_eq_false hneg, if_neg (by simp)]
    exact iff_of_true rfl (.inl (not_le.1 hneg))

/-! ### Comparisons -/

theorem bits_eq_iff (hx : x.toNat < 2 ^ w) (hy : y.toNat < 2 ^ w) :
    bits w x = bits w y ↔ x = y := by
  rw [← BitVec.toNat_inj, toNat_bits hx, toNat_bits hy, UInt64.toNat_inj]

/-- A signed number, by its sign bit. -/
theorem toInt_bits (h0 : 0 < w) (hx : x.toNat < 2 ^ w) : (bits w x).toInt =
    if x.toNat < 2 ^ (w - 1) then (x.toNat : ℤ) else x.toNat - 2 ^ w := by
  have hhalf := two_pow_eq_two_mul h0
  rw [BitVec.toInt_eq_toNat_cond, toNat_bits hx]
  by_cases h : x.toNat < 2 ^ (w - 1)
  · rw [if_pos h, if_pos (by omega)]
  · rw [if_neg h, if_neg (by omega)]
    push_cast
    rfl

/-- Signed numbers of 64 bits, where only the lower bits are used. -/
theorem getSigned_of_lt (hw : w < 64) (hx : x.toNat < 2 ^ w) : x.getSigned = x.toNat := by
  have hle : 2 ^ w ≤ 2 ^ 63 := Nat.pow_le_pow_right (by omega) (by omega)
  rw [SVal64.getSigned, BitVec.toInt_eq_toNat_of_lt]
  · rfl
  · show 2 * x.toNat < 2 ^ 64
    omega

theorem getSigned_eq_toInt_bits : x.getSigned = (bits 64 x).toInt := by
  have hbits : bits 64 x = x.toBitVec := by
    rw [← BitVec.toNat_inj, toNat_bits x.toNat_lt]
    rfl
  rw [hbits, SVal64.getSigned]

/-- **When signed comparisons are right**: at the full width, or for numbers of the same sign. -/
theorem getSigned_cmp_iff (h0 : 0 < w) (hw : w ≤ 64) (hx : x.toNat < 2 ^ w) (hy : y.toNat < 2 ^ w) :
    ((x.getSigned < y.getSigned ↔ (bits w x).toInt < (bits w y).toInt) ↔
      w = 64 ∨ (x.toNat < 2 ^ (w - 1) ↔ y.toNat < 2 ^ (w - 1))) ∧
    ((x.getSigned ≤ y.getSigned ↔ (bits w x).toInt ≤ (bits w y).toInt) ↔
      w = 64 ∨ (x.toNat < 2 ^ (w - 1) ↔ y.toNat < 2 ^ (w - 1))) := by
  by_cases h64 : w = 64
  · subst h64
    rw [getSigned_eq_toInt_bits, getSigned_eq_toInt_bits]
    exact ⟨iff_of_true Iff.rfl (.inl rfl), iff_of_true Iff.rfl (.inl rfl)⟩
  · have hhalf := two_pow_eq_two_mul h0
    have hcast : (2 : ℤ) ^ w = 2 * ((2 ^ (w - 1) : ℕ) : ℤ) := by
      have : ((2 ^ w : ℕ) : ℤ) = ((2 * 2 ^ (w - 1) : ℕ) : ℤ) := by rw [hhalf]
      push_cast at this ⊢
      exact this
    rw [or_iff_right h64, getSigned_of_lt (by omega) hx, getSigned_of_lt (by omega) hy,
      toInt_bits h0 hx, toInt_bits h0 hy, hcast]
    generalize 2 ^ (w - 1) = half at *
    by_cases hxh : x.toNat < half
    · by_cases hyh : y.toNat < half
      · rw [if_pos hxh, if_pos hyh]
        exact ⟨iff_of_true Iff.rfl (iff_of_true hxh hyh),
          iff_of_true Iff.rfl (iff_of_true hxh hyh)⟩
      · rw [if_pos hxh, if_neg hyh]
        constructor <;> refine iff_of_false ?_ fun h => hyh (h.1 hxh) <;> omega
    · by_cases hyh : y.toNat < half
      · rw [if_neg hxh, if_pos hyh]
        constructor <;> refine iff_of_false ?_ fun h => hxh (h.2 hyh) <;> omega
      · rw [if_neg hxh, if_neg hyh]
        exact ⟨iff_of_true (by omega) (iff_of_false hxh hyh),
          iff_of_true (by omega) (iff_of_false hxh hyh)⟩

/-! ## Operations that look at a width -/

/-- The sign-extended number in the bottom bits. -/
theorem toBitVec_signExtendBottom {v : SVal64} (h0 : 0 < w) (hw : w ≤ 64) :
    (v.signExtendBottom w).toBitVec = (bits w v).signExtend 64 := by
  have hbits : bits w v = v.toBitVec.setWidth w := by
    rw [← BitVec.toNat_inj, bits, BitVec.toNat_ofNat, BitVec.toNat_setWidth]
    rfl
  rw [SVal64.signExtendBottom, UInt64.toBitVec_ofBitVec, hbits]
  refine BitVec.eq_of_getLsbD_eq fun i hi => ?_
  rw [BitVec.getLsbD_sshiftRight, BitVec.getLsbD_signExtend, BitVec.msb_eq_getLsbD_last,
    BitVec.msb_eq_getLsbD_last]
  simp only [BitVec.getLsbD_shiftLeft, BitVec.getLsbD_setWidth]
  by_cases hiw : i < w
  · have h1 : 64 - w + i < 64 := by omega
    have h2 : ¬ 64 - w + i < 64 - w := by omega
    have h3 : 64 - w + i - (64 - w) = i := by omega
    simp [hi, hiw, h1, h2, h3]
  · have h1 : ¬ 64 - w + i < 64 := by omega
    have h2 : ¬ 63 < 64 - w := by omega
    have h3 : 63 - (64 - w) = w - 1 := by omega
    have h4 : ¬ 64 ≤ i := by omega
    have h5 : w - 1 < w := by omega
    simp [hi, hiw, h1, h2, h3, h4, h5]

theorem toInt_signExtendBottom {v : SVal64} (h0 : 0 < w) (hw : w ≤ 64) :
    (v.signExtendBottom w).getSigned = (bits w v).toInt := by
  rw [SVal64.getSigned, toBitVec_signExtendBottom h0 hw, BitVec.toInt_signExtend_of_le hw]

theorem toNat_truncate {v : SVal64} (hw : w ≤ 64) : (v.truncate w).toNat = v.toNat % 2 ^ w := by
  rw [SVal64.truncate]
  split
  · rename_i h64
    subst h64
    exact (Nat.mod_eq_of_lt v.toNat_lt).symm
  · have hlt : 2 ^ w - 1 < 2 ^ 64 := by
      have := Nat.pow_le_pow_right (n := 2) (by omega) hw
      omega
    rw [UInt64.toNat_and, UInt64.toNat_ofNat', Nat.mod_eq_of_lt hlt,
      Nat.and_two_pow_sub_one_eq_mod]

end Words

end GenMC
