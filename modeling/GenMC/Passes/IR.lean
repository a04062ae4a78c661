import GenMC.Support.SVal
import Mathlib.Data.Nat.Notation

/-!
# Functions in SSA form

What the annotator of loads sees of a function: blocks of instructions, each of which has a register
for its result.  Integers have up to 64 bits, and a register holds the bits of its value.

Instructions are those the annotator translates, those at which it stops, and everything else, of
which only the result is known (`Opcode.other`).  A branch to a block assigns all φs of the block at
once (`IRFunction.enter`), so that nothing is left to do when an instruction that is a φ is reached.

* `IRFunction.step` executes one instruction.
* `IRFunction.Blocks` says that a run gets to an assume whose argument is zero, and stops nowhere
  else before; `blocks_iff_of_step` and `blocks_iff_of_assume` decide it along a run.
-/

set_option autoImplicit false

namespace GenMC

/-- Registers, by the number of the value. -/
abbrev Reg := ℕ

/-- The values of all registers. -/
abbrev Env := Reg → SVal64

/-- The operand of an instruction. -/
inductive Operand
  | const (v : SVal64)
  /-- An undefined value, and what a run takes it for. -/
  | undef (v : SVal64)
  | null
  | reg (r : Reg)
deriving DecidableEq, Repr

def Operand.value (ρ : Env) : Operand → SVal64
  | const v => v
  | undef v => v
  | null => 0
  | reg r => ρ r

/-- Instructions with a result, or rather what they compute. -/
inductive Opcode
  | zext (op : Operand)
  /-- From a width to another one. -/
  | sext (w w' : ℕ) (op : Operand)
  | trunc (w : ℕ) (op : Operand)
  | select (c t f : Operand)
  | bin (o : BinOp) (w : ℕ) (a b : Operand)
  | icmp (o : CmpOp) (w : ℕ) (a b : Operand)
  /-- A component of the result of a CAS, which expects the value of an operand. -/
  | extractValue (idx : ℕ) (cas : Reg) (cmp : Operand)
  | bitcast (op : Operand)
  /-- A cast between pointers and integers, with the sizes of both and the width of the result. -/
  | ptrCast (srcSize dstSize w : ℕ) (op : Operand)
  /-- Any other instruction without side effects, as a function of the registers. -/
  | other (result : Env → SVal64)

/-- Instructions. -/
inductive Instr
  | op (o : Opcode)
  | phi (incoming : List (ℕ × Operand))
  | br (target : ℕ)
  | condBr (cond : Reg) (target target' : ℕ)
  | assume (arg : Operand)
  | load
  | cas
  /-- Side effects, errors, and terminators other than branches. -/
  | stop

/-- An instruction and the register of its result. -/
structure Inst where
  reg : Reg
  instr : Instr

/-- The place of an instruction. -/
structure Loc where
  block : ℕ
  idx : ℕ
deriving DecidableEq, Repr

/-- A function, as a list of blocks. -/
abbrev IRFunction := List (List Inst)

/-! ## What instructions compute -/

section Semantics

/-- Arithmetic on integers of some width.  What is undefined has no value. -/
def BinOp.sem (o : BinOp) (w : ℕ) (x y : SVal64) : Option SVal64 :=
  let a := bits w x
  let b := bits w y
  match o with
  | add => some (ofBits (a + b))
  | sub => some (ofBits (a - b))
  | mul => some (ofBits (a * b))
  | udiv => if b = 0 then none else some (ofBits (a / b))
  | sdiv => if b = 0 ∨ (a = BitVec.intMin w ∧ b = -1) then none else some (ofBits (a.sdiv b))
  | urem => if b = 0 then none else some (ofBits (a % b))
  | srem => if b = 0 ∨ (a = BitVec.intMin w ∧ b = -1) then none else some (ofBits (a.srem b))
  | and => some (ofBits (a &&& b))
  | or => some (ofBits (a ||| b))
  | xor => some (ofBits (a ^^^ b))
  | shl => if b.toNat < w then some (ofBits (a <<< b.toNat)) else none
  | lshr => if b.toNat < w then some (ofBits (a >>> b.toNat)) else none
  | ashr => if b.toNat < w then some (ofBits (a.sshiftRight b.toNat)) else none

/-- The result of an instruction. -/
def Opcode.sem (ρ : Env) : Opcode → Option SVal64
  | zext op => some (op.value ρ)
  | sext w w' op => some (ofBits ((bits w (op.value ρ)).signExtend w'))
  | trunc w op => some (ofBits (bits w (op.value ρ)))
  | select c t f => some (if (c.value ρ).getBool then t.value ρ else f.value ρ)
  | bin o w a b => o.sem w (a.value ρ) (b.value ρ)
  | icmp o w a b => some (SVal64.ofBool (o.sem w (a.value ρ) (b.value ρ)))
  | extractValue idx cas cmp =>
    some (if idx = 0 then ρ cas else SVal64.ofBool (decide (ρ cas = cmp.value ρ)))
  | bitcast op => some (op.value ρ)
  | ptrCast srcSize dstSize w op =>
    some (if srcSize > dstSize then ofBits (bits w (op.value ρ)) else op.value ρ)
  | other result => some (result ρ)

end Semantics

/-! ## Runs -/

namespace IRFunction

def instAt (F : IRFunction) (x : Loc) : Option Inst := F[x.block]?.bind fun b => b[x.idx]?

def getNextNode (F : IRFunction) (x : Loc) : Option Loc :=
  if (F.instAt ⟨x.block, x.idx + 1⟩).isSome then some ⟨x.block, x.idx + 1⟩ else none

/-- The φs a list of instructions starts with. -/
def leadingPhis : List Inst → List (Reg × List (ℕ × Operand))
  | ⟨reg, .phi incoming⟩ :: rest => (reg, incoming) :: leadingPhis rest
  | _ => []

/-- The φs from a place on. -/
def phisFrom (F : IRFunction) (x : Loc) : List (Reg × List (ℕ × Operand)) :=
  leadingPhis ((F[x.block]?.getD []).drop x.idx)

/-- `getIncomingValueForBlock`. -/
def incomingFor (incoming : List (ℕ × Operand)) (pred : ℕ) : Option Operand :=
  (incoming.find? fun p => p.1 = pred).map (·.2)

/-- The operands that φs take from a block. -/
def incomings (phis : List (Reg × List (ℕ × Operand))) (pred : ℕ) :
    Option (List (Reg × Operand)) :=
  phis.mapM fun p => (incomingFor p.2 pred).map fun op => (p.1, op)

/-- Assigns all φs at once. -/
def assignPhis (ops : List (Reg × Operand)) (ρ : Env) : Env := fun r =>
  match ops.find? fun p => p.1 = r with
  | some p => p.2.value ρ
  | none => ρ r

/-- Goes from a block to another one. -/
def enter (F : IRFunction) (pred target : ℕ) (ρ : Env) : Option (Loc × Env) :=
  (incomings (F.phisFrom ⟨target, 0⟩) pred).map fun ops => (⟨target, 0⟩, assignPhis ops ρ)

/-- Executes an instruction, unless a run stops at it. -/
def step (F : IRFunction) (c : Loc × Env) : Option (Loc × Env) := do
  let i ← F.instAt c.1
  match i.instr with
  | .op o =>
    let v ← o.sem c.2
    let x ← F.getNextNode c.1
    return (x, Function.update c.2 i.reg v)
  | .phi _ => return (← F.getNextNode c.1, c.2)
  | .br target => F.enter c.1.block target c.2
  | .condBr cond target target' =>
    F.enter c.1.block (if (c.2 cond).getBool then target else target') c.2
  | _ => none

/-- A run from some place gets to an assume whose argument is zero, without a load, a side effect or
an exit before it. -/
inductive Blocks (F : IRFunction) : Loc × Env → Prop
  | assume {c : Loc × Env} {i : Inst} {arg : Operand} (hi : F.instAt c.1 = some i)
      (hassume : i.instr = .assume arg) (hzero : arg.value c.2 = 0) : Blocks F c
  | step {c c' : Loc × Env} (hstep : F.step c = some c') (h : Blocks F c') : Blocks F c

section Runs

variable {F : IRFunction} {c c' : Loc × Env}

/-- A run does not go past an assume. -/
theorem step_of_assume {i : Inst} {arg : Operand} (hi : F.instAt c.1 = some i)
    (hassume : i.instr = .assume arg) : F.step c = none := by
  rw [step]
  simp only [hi, hassume, Option.bind_eq_bind, Option.bind_some]

theorem blocks_iff_of_assume {i : Inst} {arg : Operand} (hi : F.instAt c.1 = some i)
    (hassume : i.instr = .assume arg) : F.Blocks c ↔ arg.value c.2 = 0 := by
  refine ⟨fun h => ?_, .assume hi hassume⟩
  cases h with
  | assume hi' hassume' hzero =>
    obtain rfl := Option.some.inj (hi.symm.trans hi')
    obtain rfl := Instr.assume.inj (hassume.symm.trans hassume')
    exact hzero
  | step hstep _ =>
    rw [step_of_assume hi hassume] at hstep
    exact absurd hstep (Option.some_ne_none _).symm

theorem blocks_iff_of_step (hstep : F.step c = some c') : F.Blocks c ↔ F.Blocks c' := by
  refine ⟨fun h => ?_, .step hstep⟩
  cases h with
  | assume hi hassume _ =>
    rw [step_of_assume hi hassume] at hstep
    exact absurd hstep (Option.some_ne_none _).symm
  | step hstep' h =>
    obtain rfl := Option.some.inj (hstep.symm.trans hstep')
    exact h

end Runs

end IRFunction
end GenMC
