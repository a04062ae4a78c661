import Mathlib.Data.Int.Notation
import Mathlib.Logic.Function.Basic

/-!
# Symbolic expressions

Expressions over registers, as the annotator of loads makes them.  Everything is evaluated with
values of 64 bits: an expression has a width, but neither substitution nor evaluation reads it, and
it is left out here.  Casts are evaluated to their operands, and all divisions and remainders to the
quotient of unsigned numbers.

* `eval_substitute`: substituting an expression for a register is evaluating with another value of
  the register.
* `evaluate_concretize`: the evaluator takes one value for all registers that were not replaced by
  their values, which is the same as evaluating with a map from registers to values.
-/

set_option autoImplicit false

namespace GenMC

/-- A value, with its 64 bits. -/
abbrev SVal64 := UInt64

namespace SVal64

/-- A value as a signed number. -/
def getSigned (v : SVal64) : ℤ := v.toBitVec.toInt

def getBool (v : SVal64) : Bool := v ≠ 0

def ofBool (b : Bool) : SVal64 := if b then 1 else 0

end SVal64

/-- Casts. -/
inductive CastKind
  | zext | sext | trunc
deriving DecidableEq, Repr

/-- Arithmetic and bit operators. -/
inductive BinOp
  | add | sub | mul | udiv | sdiv | urem | srem | and | or | xor | shl | lshr | ashr
deriving DecidableEq, Repr

/-- Comparisons. -/
inductive CmpOp
  | eq | ne | ult | ule | ugt | uge | slt | sle | sgt | sge
deriving DecidableEq, Repr

/-- Expressions over registers. -/
inductive SExpr (R : Type)
  | concrete (v : SVal64)
  | register (r : R)
  | select (c t f : SExpr R)
  | cast (k : CastKind) (e : SExpr R)
  | bin (op : BinOp) (l r : SExpr R)
  | cmp (op : CmpOp) (l r : SExpr R)
deriving DecidableEq, Repr

/-- What the evaluator makes of an operator. -/
def BinOp.eval : BinOp → SVal64 → SVal64 → SVal64
  | add, x, y => x + y
  | sub, x, y => x - y
  | mul, x, y => x * y
  | udiv, x, y => x / y
  | sdiv, x, y => x / y
  | urem, x, y => x / y
  | srem, x, y => x / y
  | and, x, y => x &&& y
  | or, x, y => x ||| y
  | xor, x, y => x ^^^ y
  | shl, x, y => x <<< y
  | lshr, x, y => x >>> y
  | ashr, x, y => x >>> y

/-- What the evaluator makes of a comparison. -/
def CmpOp.eval : CmpOp → SVal64 → SVal64 → Bool
  | eq, x, y => x = y
  | ne, x, y => x ≠ y
  | ult, x, y => x < y
  | ule, x, y => x ≤ y
  | ugt, x, y => !decide (x ≤ y)
  | uge, x, y => !decide (x < y)
  | slt, x, y => x.getSigned < y.getSigned
  | sle, x, y => x.getSigned ≤ y.getSigned
  | sgt, x, y => !decide (x.getSigned ≤ y.getSigned)
  | sge, x, y => !decide (x.getSigned < y.getSigned)

namespace SExpr

variable {R : Type}

def createTrue : SExpr R := concrete 1

/-- Evaluates with a value for every register. -/
def eval (ρ : R → SVal64) : SExpr R → SVal64
  | concrete v => v
  | register r => ρ r
  | select c t f => if (c.eval ρ).getBool then t.eval ρ else f.eval ρ
  | cast _ e => e.eval ρ
  | bin op l r => op.eval (l.eval ρ) (r.eval ρ)
  | cmp op l r => SVal64.ofBool (op.eval (l.eval ρ) (r.eval ρ))

/-- `SExprEvaluator::evaluate` with one value for all registers. -/
def evaluate (e : SExpr R) (v : SVal64) : SVal64 := e.eval fun _ => v

/-- `SExprConcretizer`: replaces registers by their values. -/
def concretize (rMap : R → Option SVal64) : SExpr R → SExpr R
  | concrete v => concrete v
  | register r =>
    match rMap r with
    | some v => concrete v
    | none => register r
  | select c t f => select (c.concretize rMap) (t.concretize rMap) (f.concretize rMap)
  | cast k e => cast k (e.concretize rMap)
  | bin op l r => bin op (l.concretize rMap) (r.concretize rMap)
  | cmp op l r => cmp op (l.concretize rMap) (r.concretize rMap)

/-- `SExprRegSubstitutor`: replaces a register by an expression. -/
def substitute [DecidableEq R] (orig : SExpr R) (reg : R) (e : SExpr R) : SExpr R :=
  match orig with
  | concrete v => concrete v
  | register r => if r = reg then e else register r
  | select c t f => select (c.substitute reg e) (t.substitute reg e) (f.substitute reg e)
  | cast k e' => cast k (e'.substitute reg e)
  | bin op l r => bin op (l.substitute reg e) (r.substitute reg e)
  | cmp op l r => cmp op (l.substitute reg e) (r.substitute reg e)

/-- **Substitution is assignment.** -/
theorem eval_substitute [DecidableEq R] (ρ : R → SVal64) (orig : SExpr R) (reg : R) (e : SExpr R) :
    (orig.substitute reg e).eval ρ = orig.eval (Function.update ρ reg (e.eval ρ)) := by
  induction orig with
  | concrete v => rfl
  | register r =>
    rw [substitute]
    split
    · rename_i h
      rw [eval, h, Function.update_self]
    · rename_i h
      rw [eval, eval, Function.update_of_ne h]
  | select c t f ihc iht ihf => rw [substitute, eval, eval, ihc, iht, ihf]
  | cast k e ih => rw [substitute, eval, eval, ih]
  | bin op l r ihl ihr => rw [substitute, eval, eval, ihl, ihr]
  | cmp op l r ihl ihr => rw [substitute, eval, eval, ihl, ihr]

/-- **The evaluator** after registers were replaced by their values. -/
theorem evaluate_concretize (rMap : R → Option SVal64) (v : SVal64) (e : SExpr R) :
    (e.concretize rMap).evaluate v = e.eval fun r => (rMap r).getD v := by
  rw [evaluate]
  induction e with
  | concrete v => rfl
  | register r =>
    rw [concretize, eval]
    cases rMap r with
    | none => rfl
    | some w => rfl
  | select c t f ihc iht ihf => rw [concretize, eval, eval, ihc, iht, ihf]
  | cast k e ih => rw [concretize, eval, eval, ih]
  | bin op l r ihl ihr => rw [concretize, eval, eval, ihl, ihr]
  | cmp op l r ihl ihr => rw [concretize, eval, eval, ihl, ihr]

end SExpr
end GenMC
