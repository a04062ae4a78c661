import GenMC.Support.SVal

/-!
# Read-modify-write operations

A read-modify-write operation reads a value of `n` bytes and writes what `executeRMWBinOp` makes of
this value and its operand.  The minimum and the maximum are taken of the operands extended or
truncated to the width, and the bit operations cannot leave it.  The sum, the difference and the
negated conjunction are computed with words of 64 bits.

* `executeRMWBinOp_eq_iff`: **the value that is written is the right one** if and only if the sum
  fits, the difference does not borrow, or the width is that of a word.
* `chain_iff`: a memory cell that is changed by such operations and by compare-and-swaps holds the
  right value all the time, so that a compare-and-swap that expects it succeeds, if and only if all
  operations are of this kind.
-/

set_option autoImplicit false

namespace GenMC

inductive RMWBinOp
  | Xchg | Add | Sub | And | Nand | Or | Xor | Max | Min | UMax | UMin
deriving DecidableEq, Repr

/-- The new value, for an access of `n` bytes. -/
def executeRMWBinOp (oldVal val : SVal64) (n : ℕ) : RMWBinOp → SVal64
  | .Xchg => val
  | .Add => oldVal + val
  | .Sub => oldVal - val
  | .And => oldVal &&& val
  | .Nand => ~~~(oldVal &&& val)
  | .Or => oldVal ||| val
  | .Xor => oldVal ^^^ val
  | .Max =>
    if (oldVal.signExtendBottom (8 * n)).sgt (val.signExtendBottom (8 * n)) then oldVal else val
  | .Min =>
    if (oldVal.signExtendBottom (8 * n)).slt (val.signExtendBottom (8 * n)) then oldVal else val
  | .UMax => if (oldVal.truncate (8 * n)).ugt (val.truncate (8 * n)) then oldVal else val
  | .UMin => if (oldVal.truncate (8 * n)).ult (val.truncate (8 * n)) then oldVal else val

namespace RMWBinOp

/-- The operation on integers of some width. -/
def sem {w : ℕ} (a b : BitVec w) : RMWBinOp → BitVec w
  | Xchg => b
  | Add => a + b
  | Sub => a - b
  | And => a &&& b
  | Nand => ~~~(a &&& b)
  | Or => a ||| b
  | Xor => a ^^^ b
  | Max => if b.slt a then a else b
  | Min => if a.slt b then a else b
  | UMax => if b.ult a then a else b
  | UMin => if a.ult b then a else b

/-- The sum fits, the difference does not borrow, or the width is that of a word. -/
def Fits (n : ℕ) (oldVal val : ℕ) : RMWBinOp → Prop
  | Add => n = 8 ∨ oldVal + val < 2 ^ (8 * n)
  | Sub => n = 8 ∨ val ≤ oldVal
  | Nand => n = 8
  | _ => True

end RMWBinOp

section Width

variable {n : ℕ} {oldVal val : SVal64}

/-- A choice between two values. -/
theorem ite_eq_ofBits {w : ℕ} (hw : w ≤ 64) (hold : oldVal.toNat < 2 ^ w) (hval : val.toNat < 2 ^ w)
    {c d : Bool} (hcd : c = d) :
    (if c then oldVal else val) = ofBits (if d then bits w oldVal else bits w val) := by
  subst hcd
  cases c
  · exact (ofBits_bits hw hval).symm
  · exact (ofBits_bits hw hold).symm

/-- **When the value that is written is right.** -/
theorem executeRMWBinOp_eq_iff (h0 : 0 < n) (h8 : n ≤ 8) (hold : oldVal.toNat < 2 ^ (8 * n))
    (hval : val.toNat < 2 ^ (8 * n)) (op : RMWBinOp) :
    executeRMWBinOp oldVal val n op =
      ofBits (op.sem (bits (8 * n) oldVal) (bits (8 * n) val)) ↔
        op.Fits n oldVal.toNat val.toNat := by
  have hw0 : 0 < 8 * n := by omega
  have hw : 8 * n ≤ 64 := by omega
  have h64 : 8 * n = 64 ↔ n = 8 := by omega
  cases op with
  | Xchg => exact iff_of_true (ofBits_bits hw hval).symm trivial
  | Add =>
    refine (eq_ofBits_add_iff hw hold hval).trans ?_
    rw [UInt64.toNat_add]
    by_cases h : n = 8
    · subst h
      exact iff_of_true (Nat.mod_lt _ (by decide)) (.inl rfl)
    · have hle : 2 ^ (8 * n) ≤ 2 ^ 56 := Nat.pow_le_pow_right (by omega) (by omega)
      rw [Nat.mod_eq_of_lt (by omega)]
      exact (or_iff_right h).symm
  | Sub => exact (eq_ofBits_sub_iff hw hold hval).trans (or_congr h64 Iff.rfl)
  | And => exact iff_of_true (eq_ofBits_and hw hold hval) trivial
  | Nand =>
    have hand : (oldVal &&& val).toNat < 2 ^ (8 * n) := by
      rw [UInt64.toNat_and]
      exact Nat.and_le_left.trans_lt hold
    have hbits : bits (8 * n) (oldVal &&& val) = bits (8 * n) oldVal &&& bits (8 * n) val := by
      rw [eq_ofBits_and hw hold hval, bits_ofBits hw]
    rw [executeRMWBinOp, RMWBinOp.sem, ← hbits]
    exact (eq_ofBits_not_iff hw hand).trans h64
  | Or => exact iff_of_true (eq_ofBits_or hw hold hval) trivial
  | Xor => exact iff_of_true (eq_ofBits_xor hw hold hval) trivial
  | Max =>
    refine iff_of_true (ite_eq_ofBits hw hold hval ?_) trivial
    rw [SVal64.sgt, toInt_signExtendBottom hw0 hw, toInt_signExtendBottom hw0 hw,
      BitVec.slt_eq_decide, ← decide_not, decide_eq_decide, Int.not_le]
  | Min =>
    refine iff_of_true (ite_eq_ofBits hw hold hval ?_) trivial
    rw [SVal64.slt, toInt_signExtendBottom hw0 hw, toInt_signExtendBottom hw0 hw,
      BitVec.slt_eq_decide]
  | UMax =>
    refine iff_of_true (ite_eq_ofBits hw hold hval ?_) trivial
    rw [SVal64.ugt, BitVec.ult, ← decide_not, decide_eq_decide, UInt64.le_iff_toNat_le,
      toNat_truncate hw, toNat_truncate hw, Nat.not_le]
    rfl
  | UMin =>
    refine iff_of_true (ite_eq_ofBits hw hold hval ?_) trivial
    rw [SVal64.ult, BitVec.ult, decide_eq_decide, UInt64.lt_iff_toNat_lt, toNat_truncate hw,
      toNat_truncate hw]
    rfl

end Width

/-! ## Chains of operations -/

/-- The reads of read-modify-write operations. -/
inductive RMWRead
  | fai (op : RMWBinOp) (opVal : SVal64)
  | cas (expected swapVal : SVal64)

namespace RMWRead

def valueMakesRMWSucceed : RMWRead → SVal64 → Bool
  | fai _ _, _ => true
  | cas expected _, val => val = expected

/-- The value of the write that completes the operation, if it has one. -/
def createRMWWriteLabel (n : ℕ) (r : RMWRead) (rfVal : SVal64) : Option SVal64 :=
  if r.valueMakesRMWSucceed rfVal then
    some (match r with
      | fai op opVal => executeRMWBinOp rfVal opVal n op
      | cas _ swapVal => swapVal)
  else none

/-- The value in memory after some operations, each of which reads from the one before it. -/
def valueAfter (n : ℕ) (init : SVal64) (chain : List RMWRead) : SVal64 :=
  chain.foldl (fun v r => (r.createRMWWriteLabel n v).getD v) init

/-- The integers of a read are of `n` bytes. -/
def InRange (n : ℕ) : RMWRead → Prop
  | fai _ opVal => opVal.toNat < 2 ^ (8 * n)
  | cas expected swapVal => expected.toNat < 2 ^ (8 * n) ∧ swapVal.toNat < 2 ^ (8 * n)

/-- What an operation makes of the contents of the memory. -/
def onContents {n : ℕ} (contents : BitVec (8 * n)) : RMWRead → BitVec (8 * n)
  | fai op opVal => op.sem contents (bits _ opVal)
  | cas expected swapVal => if contents = bits _ expected then bits _ swapVal else contents

/-- The contents of the memory after some operations. -/
def contentsAfter {n : ℕ} (init : BitVec (8 * n)) (chain : List RMWRead) : BitVec (8 * n) :=
  chain.foldl onContents init

/-- The result of the operation on these contents fits. -/
def FitsAt {n : ℕ} (contents : BitVec (8 * n)) : RMWRead → Prop
  | fai op opVal => op.Fits n contents.toNat opVal.toNat
  | cas _ _ => True

/-- The results of all operations fit. -/
def AllFit {n : ℕ} : BitVec (8 * n) → List RMWRead → Prop
  | _, [] => True
  | contents, r :: chain => r.FitsAt contents ∧ AllFit (r.onContents contents) chain

variable {n : ℕ}

/-- One operation. -/
theorem value_step_iff (h0 : 0 < n) (h8 : n ≤ 8) (contents : BitVec (8 * n)) {r : RMWRead}
    (hr : r.InRange n) :
    (r.createRMWWriteLabel n (ofBits contents)).getD (ofBits contents) =
      ofBits (r.onContents contents) ↔ r.FitsAt contents := by
  have hw : 8 * n ≤ 64 := by omega
  cases r with
  | fai op opVal =>
    have := executeRMWBinOp_eq_iff h0 h8 (ofBits_lt hw contents) hr op
    rw [bits_ofBits hw, toNat_ofBits hw] at this
    exact this
  | cas expected swapVal =>
    refine iff_of_true ?_ trivial
    have hsucceed : ofBits contents = expected ↔ contents = bits (8 * n) expected := by
      refine ⟨fun h => ?_, fun h => ?_⟩
      · rw [← h, bits_ofBits hw]
      · rw [h, ofBits_bits hw hr.1]
    rw [createRMWWriteLabel, valueMakesRMWSucceed, onContents]
    by_cases h : contents = bits (8 * n) expected
    · rw [if_pos h, if_pos (decide_eq_true (hsucceed.2 h)), ofBits_bits hw hr.2]
      rfl
    · rw [if_neg h, if_neg (by rw [decide_eq_true_eq, hsucceed]; exact h)]
      rfl

/-- **A cell that is changed by some operations** holds the right value all the time, so that a
compare-and-swap that expects it succeeds, exactly if the results of all operations fit. -/
theorem chain_iff (h0 : 0 < n) (h8 : n ≤ 8) (chain : List RMWRead) (swapVal : SVal64) :
    ∀ init : BitVec (8 * n), (∀ r ∈ chain, r.InRange n) →
      ((∀ k ≤ chain.length,
          (cas (ofBits (contentsAfter init (chain.take k))) swapVal).valueMakesRMWSucceed
            (valueAfter n (ofBits init) (chain.take k)) = true) ↔
        AllFit init chain) := by
  induction chain with
  | nil =>
    intro init _
    refine iff_of_true (fun k _ => ?_) trivial
    rw [List.take_nil]
    exact decide_eq_true rfl
  | cons r chain ih =>
    intro init hchain
    have hstep := value_step_iff h0 h8 init (hchain r (List.mem_cons_self ..))
    have ih := ih (r.onContents init) fun r' hr' => hchain r' (List.mem_cons_of_mem _ hr')
    rw [AllFit, ← hstep, ← ih]
    refine ⟨fun h => ?_, ?_⟩
    · have hone := of_decide_eq_true (h 1 (by simp))
      refine ⟨hone, fun k hk => ?_⟩
      have := h (k + 1) (Nat.succ_le_succ hk)
      rw [List.take_succ_cons, valueAfter, List.foldl_cons, ← valueAfter, contentsAfter,
        List.foldl_cons, ← contentsAfter] at this
      rw [show (r.createRMWWriteLabel n (ofBits init)).getD (ofBits init) =
        ofBits (r.onContents init) from hone] at this
      exact this
    · rintro ⟨hone, h⟩ k hk
      cases k with
      | zero => exact decide_eq_true rfl
      | succ k =>
        rw [List.take_succ_cons, valueAfter, List.foldl_cons, ← valueAfter, hone, contentsAfter,
          List.foldl_cons, ← contentsAfter]
        exact h k (Nat.le_of_succ_le_succ hk)

end RMWRead

/-- **Read-modify-write operations are modular** exactly if their results fit: one operation, and
chains of operations with compare-and-swaps between them. -/
theorem rmw_modular_iff (n : ℕ) (h0 : 0 < n) (h8 : n ≤ 8) :
    (∀ (op : RMWBinOp) (oldVal val : SVal64), oldVal.toNat < 2 ^ (8 * n) →
      val.toNat < 2 ^ (8 * n) →
        ((executeRMWBinOp oldVal val n op).toNat < 2 ^ (8 * n) ∧
          executeRMWBinOp oldVal val n op =
            ofBits (op.sem (bits (8 * n) oldVal) (bits (8 * n) val)) ↔
          op.Fits n oldVal.toNat val.toNat)) ∧
    ∀ (chain : List RMWRead) (swapVal : SVal64) (init : BitVec (8 * n)),
      (∀ r ∈ chain, r.InRange n) →
        ((∀ k ≤ chain.length,
            (RMWRead.cas (ofBits (RMWRead.contentsAfter init (chain.take k)))
              swapVal).valueMakesRMWSucceed
                (RMWRead.valueAfter n (ofBits init) (chain.take k)) = true) ↔
          RMWRead.AllFit init chain) := by
  refine ⟨fun op oldVal val hold hval => ?_, fun chain swapVal init hchain =>
    RMWRead.chain_iff h0 h8 chain swapVal init hchain⟩
  rw [← executeRMWBinOp_eq_iff h0 h8 hold hval op]
  refine and_iff_right_of_imp fun heq => ?_
  rw [heq]
  exact ofBits_lt (by omega) _

/-- An exchange and a maximum of bytes, after which a compare-and-swap of the right value
succeeds. -/
theorem rmw_modular_two :
    (RMWRead.cas (ofBits (RMWRead.contentsAfter (n := 1) 7#8
      [.fai .Xchg 200, .fai .Max 5])) 0).valueMakesRMWSucceed
        (RMWRead.valueAfter 1 (ofBits 7#8) [.fai .Xchg 200, .fai .Max 5]) = true := by
  have hchain : ∀ r ∈ [RMWRead.fai .Xchg 200, .fai .Max 5], r.InRange 1 := by
    simp [RMWRead.InRange]
  exact ((rmw_modular_iff 1 (by decide) (by decide)).2 _ 0 7#8 hchain).2 ⟨trivial, trivial, trivial⟩
    2 (by decide)

/-- Adding one to the byte 255 gives 256, so that a compare-and-swap of the byte 0 fails. -/
theorem sum_leaves_width : ¬ ∀ n : ℕ, 0 < n → n ≤ 8 →
    ∀ (chain : List RMWRead) (swapVal : SVal64) (init : BitVec (8 * n)),
      (∀ r ∈ chain, r.InRange n) →
        (RMWRead.cas (ofBits (RMWRead.contentsAfter init chain)) swapVal).valueMakesRMWSucceed
          (RMWRead.valueAfter n (ofBits init) chain) = true := by
  intro h
  have := h 1 (by decide) (by decide) [.fai .Add 1] 0 255#8 (by simp [RMWRead.InRange])
  exact absurd this (by decide)

end GenMC
