import GenMC.Passes.IR
import Mathlib.Data.Finset.Card

/-!
# Annotating loads

The annotation of a load is an expression over registers that is zero only if an assume after the
load is bound to fail.  The annotator computes it with a depth-first search from the load on, which
stops at assumes, memory accesses, side effects and exits.  On the way back it substitutes the
expression of each instruction for its register; an instruction that is met again while its own
successors are searched is taken for one after which nothing is known.

Substitution is right as long as evaluating with 64 bits is.  The evaluator ignores casts, divides
where a remainder is asked for and does not wrap around, an instruction without translation is taken
for the constant one, and φs are not substituted in a block that is its own predecessor, and
otherwise one after the other.  That matters where an assume or a branch depends on the result,
before the run comes back to a place where it has been: `Needed` says which registers these are, and
`RightRun` that they are evaluated right.

* `annotate_isSome`: the search ends, with an annotation for every load.
* `annotateDFS_sound`: every annotation that the search computes is sound.
* `annotate_sound`: if an annotation is zero for some value of the load, and nothing that an assume
  or a branch of the run depends on is evaluated wrong, then the run blocks at an assume.
-/

set_option autoImplicit false

namespace GenMC

/-- Where the search has been. -/
inductive Status
  | unseen | entered | left
deriving DecidableEq, Repr

abbrev IRExpr := SExpr Reg

namespace InstAnnotator

/-! ## The annotator -/

def generateOperandExpr : Operand → IRExpr
  | .const v => .concrete v
  | .undef _ => .concrete 42
  | .null => .concrete 0
  | .reg r => .register r

/-- The expression of an instruction.  If it is none of those the annotator knows, it is true. -/
def generateInstExpr : Opcode → IRExpr
  | .zext op => .cast .zext (generateOperandExpr op)
  | .sext _ _ op => .cast .sext (generateOperandExpr op)
  | .trunc _ op => .cast .trunc (generateOperandExpr op)
  | .select c t f => .select (generateOperandExpr c) (generateOperandExpr t) (generateOperandExpr f)
  | .bin .srem _ _ _ => .createTrue
  | .bin o _ a b => .bin o (generateOperandExpr a) (generateOperandExpr b)
  | .icmp o _ a b => .cmp o (generateOperandExpr a) (generateOperandExpr b)
  | .extractValue idx cas cmp =>
    if idx = 0 then .register cas else .cmp .eq (.register cas) (generateOperandExpr cmp)
  | .bitcast op => generateOperandExpr op
  | .ptrCast srcSize dstSize _ op =>
    if srcSize > dstSize then .cast .trunc (generateOperandExpr op)
    else if srcSize < dstSize then .cast .zext (generateOperandExpr op)
    else generateOperandExpr op
  | .other _ => .createTrue

/-- Whether the search does not go past an instruction. -/
def stopsAt : Instr → Bool
  | .load | .cas | .stop | .assume _ => true
  | _ => false

def getNextOrBranchSuccessors (F : IRFunction) (x : Loc) : List Loc :=
  match F.instAt x with
  | none => []
  | some i =>
    if stopsAt i.instr then []
    else
      match F.getNextNode x, i.instr with
      | some y, _ => [y]
      | none, .br target => [⟨target, 0⟩]
      | none, .condBr _ target target' => [⟨target, 0⟩, ⟨target', 0⟩]
      | none, _ => []

/-- Status and annotation of all instructions. -/
structure State where
  statusMap : Loc → Status := fun _ => .unseen
  annotMap : Loc → Option IRExpr := fun _ => none

def State.setStatus (s : State) (x : Loc) (st : Status) : State :=
  { s with statusMap := Function.update s.statusMap x st }

def State.setAnnot (s : State) (x : Loc) (e : IRExpr) : State :=
  { s with annotMap := Function.update s.annotMap x (some e) }

/-- Substitutes φs one after the other. -/
def substitutePhis (ops : List (Reg × Operand)) (e : IRExpr) : IRExpr :=
  ops.foldl (fun e p => e.substitute p.1 (generateOperandExpr p.2)) e

/-- The annotation of an instruction, from that of a successor. -/
def propagateAnnotFromSucc (F : IRFunction) (s : State) (curr : Loc) (succ : Loc) :
    Option IRExpr := do
  let succExp ← s.annotMap succ
  let i ← F.instAt curr
  let phis := if curr.block = succ.block then [] else F.phisFrom succ
  let succExp := substitutePhis (← IRFunction.incomings phis curr.block) succExp
  match i.instr with
  | .br _ | .condBr _ _ _ => return succExp
  | .phi _ =>
    return if curr.block = succ.block then succExp else succExp.substitute i.reg .createTrue
  | .op o => return succExp.substitute i.reg (generateInstExpr o)
  | _ => return succExp.substitute i.reg .createTrue

/-- The annotation of an instruction whose successors were searched. -/
def annotOf (F : IRFunction) (s : State) (curr : Loc) : Option IRExpr := do
  let i ← F.instAt curr
  match getNextOrBranchSuccessors F curr with
  | [] =>
    match i.instr with
    | .assume arg => return generateOperandExpr arg
    | _ => return .createTrue
  | [succ] => propagateAnnotFromSucc F s curr succ
  | succ :: succ' :: _ =>
    match i.instr with
    | .condBr cond _ _ =>
      return .select (.register cond) (← propagateAnnotFromSucc F s curr succ)
        (← propagateAnnotFromSucc F s curr succ')
    | _ => none

/-- The search from an instruction on. -/
def annotateDFS (F : IRFunction) : ℕ → State → Loc → Option State
  | 0, _, _ => none
  | fuel + 1, s, curr => do
    let s ← (getNextOrBranchSuccessors F curr).foldlM (fun s succ =>
      match s.statusMap succ with
      | .unseen => annotateDFS F fuel s succ
      | .entered => some (s.setAnnot succ .createTrue)
      | .left => some s) (s.setStatus curr .entered)
    let s := s.setStatus curr .left
    return s.setAnnot curr (← annotOf F s curr)

/-- How many instructions there are. -/
def size (F : IRFunction) : ℕ := (F.map List.length).sum

/-- The annotation of a load or a CAS. -/
def annotate (F : IRFunction) (curr : Loc) : Option IRExpr := do
  let i ← F.instAt curr
  match i.instr with
  | .load | .cas =>
    let next ← F.getNextNode curr
    let s ← annotateDFS F (size F + 1) {} next
    s.annotMap next
  | _ => none

/-! ## What is evaluated right -/

/-- The value the annotator takes an operand for. -/
def plainOperand (ρ : Env) : Operand → SVal64
  | .const v => v
  | .undef _ => 42
  | .null => 0
  | .reg r => ρ r

/-- The value of an instruction in plain arithmetic of 64 bits: casts do nothing, all divisions and
unsigned remainders are unsigned quotients, signed remainders and instructions the annotator does
not know are one, shifts are logical, and comparisons are those of 64 bits. -/
def plain (ρ : Env) : Opcode → SVal64
  | .zext op | .sext _ _ op | .trunc _ op | .bitcast op | .ptrCast _ _ _ op => plainOperand ρ op
  | .select c t f => if (plainOperand ρ c).getBool then plainOperand ρ t else plainOperand ρ f
  | .bin .srem _ _ _ => 1
  | .bin o _ a b => o.eval (plainOperand ρ a) (plainOperand ρ b)
  | .icmp o _ a b => SVal64.ofBool (o.eval (plainOperand ρ a) (plainOperand ρ b))
  | .extractValue idx cas cmp =>
    if idx = 0 then ρ cas else SVal64.ofBool (decide (ρ cas = plainOperand ρ cmp))
  | .other _ => 1

def regsOf : Operand → List Reg
  | .reg r => [r]
  | _ => []

/-- The registers on which the value of an instruction in plain arithmetic depends. -/
def plainRegs (ρ : Env) : Opcode → List Reg
  | .zext op | .sext _ _ op | .trunc _ op | .bitcast op | .ptrCast _ _ _ op => regsOf op
  | .select c t f => regsOf c ++ regsOf (if (plainOperand ρ c).getBool then t else f)
  | .bin .srem _ _ _ => []
  | .bin _ _ a b | .icmp _ _ a b => regsOf a ++ regsOf b
  | .extractValue idx cas cmp => cas :: if idx = 0 then [] else regsOf cmp
  | .other _ => []

/-- What an operand is after φs were substituted one after the other. -/
def afterPhis (ops : List (Reg × Operand)) (op : Operand) : Operand :=
  ops.foldl (fun op p => if op = .reg p.1 then p.2 else op) op

/-- The operand that the annotator takes a register for when a block is entered.  In a block that is
entered from itself φs are not substituted. -/
def entryOperand (F : IRFunction) (pred target : ℕ) (r : Reg) : Operand :=
  afterPhis ((IRFunction.incomings (if pred = target then [] else F.phisFrom ⟨target, 0⟩)
    pred).getD []) (.reg r)

/-- The values of registers after an instruction, in plain arithmetic. -/
def plainAfter (F : IRFunction) (c : Loc × Env) : Env := fun r =>
  match F.instAt c.1 with
  | some ⟨reg, .op o⟩ => if r = reg then plain c.2 o else c.2 r
  | some ⟨_, .br target⟩ => plainOperand c.2 (entryOperand F c.1.block target r)
  | some ⟨_, .condBr cond target target'⟩ => plainOperand c.2
      (entryOperand F c.1.block (if (c.2 cond).getBool then target else target') r)
  | _ => c.2 r

/-- The registers before an instruction on which the value of a register after it depends. -/
def regsBefore (F : IRFunction) (c : Loc × Env) (r : Reg) : List Reg :=
  match F.instAt c.1 with
  | some ⟨reg, .op o⟩ => if r = reg then plainRegs c.2 o else [r]
  | some ⟨_, .br target⟩ => regsOf (entryOperand F c.1.block target r)
  | some ⟨_, .condBr cond target target'⟩ =>
    regsOf (entryOperand F c.1.block (if (c.2 cond).getBool then target else target') r)
  | _ => [r]

/-- An assume or a branch of the run from `c` depends on a register, before the run comes back to a
place where it has been, among them those of `seen`. -/
inductive Needed (F : IRFunction) : List Loc → Loc × Env → Reg → Prop
  | assume {seen : List Loc} {c : Loc × Env} {i : Inst} {r : Reg} (hseen : c.1 ∉ seen)
      (hi : F.instAt c.1 = some i) (ha : i.instr = .assume (.reg r)) : Needed F seen c r
  | cond {seen : List Loc} {c : Loc × Env} {i : Inst} {r : Reg} {target target' : ℕ}
      (hseen : c.1 ∉ seen) (hi : F.instAt c.1 = some i)
      (hbr : i.instr = .condBr r target target') : Needed F seen c r
  | before {seen : List Loc} {c c' : Loc × Env} {q r : Reg} (hseen : c.1 ∉ seen)
      (hstep : F.step c = some c') (h : Needed F (c.1 :: seen) c' q)
      (hr : r ∈ regsBefore F c q) : Needed F seen c r

/-- The instruction at a place has a result, and registers that are needed after it have the values
of plain arithmetic. -/
structure RightAt (F : IRFunction) (seen : List Loc) (c : Loc × Env) : Prop where
  defined : ∀ i, F.instAt c.1 = some i →
    match i.instr with
    | .op o => (o.sem c.2).isSome
    | .br target => (F.enter c.1.block target c.2).isSome
    | .condBr cond target target' =>
      (F.enter c.1.block (if (c.2 cond).getBool then target else target') c.2).isSome
    | .assume arg => plainOperand c.2 arg = arg.value c.2
    | _ => True
  plain : ∀ c', F.step c = some c' → ∀ r, Needed F (c.1 :: seen) c' r →
    plainAfter F c r = c'.2 r

/-- The run from `c` is evaluated right as far as that matters, until it stops or comes back to a
place where it has been. -/
inductive RightRun (F : IRFunction) : List Loc → Loc × Env → Prop
  | back {seen : List Loc} {c : Loc × Env} (h : c.1 ∈ seen) : RightRun F seen c
  | here {seen : List Loc} {c : Loc × Env} (hright : RightAt F seen c)
      (h : ∀ c', F.step c = some c' → RightRun F (c.1 :: seen) c') : RightRun F seen c

section Runs

variable {F : IRFunction} {seen : List Loc} {c c' : Loc × Env} {r : Reg}

theorem RightRun.of_step (hright : RightAt F seen c) (hstep : F.step c = some c')
    (h : RightRun F (c.1 :: seen) c') : RightRun F seen c :=
  .here hright fun _ hstep' => Option.some.inj (hstep.symm.trans hstep') ▸ h

theorem RightRun.of_stop (hright : RightAt F seen c) (hstep : F.step c = none) :
    RightRun F seen c :=
  .here hright fun _ hstep' => absurd (hstep.symm.trans hstep') (Option.some_ne_none _).symm

/-- What is needed before a step. -/
theorem Needed.of_step (h : Needed F seen c r) (hstep : F.step c = some c') :
    (∃ i target target', F.instAt c.1 = some i ∧ i.instr = .condBr r target target') ∨
      ∃ q, Needed F (c.1 :: seen) c' q ∧ r ∈ regsBefore F c q := by
  cases h with
  | assume hseen hi ha =>
    rw [IRFunction.step_of_assume hi ha] at hstep
    exact absurd hstep (Option.some_ne_none _).symm
  | cond hseen hi hbr => exact .inl ⟨_, _, _, hi, hbr⟩
  | before hseen hstep' h hr =>
    obtain rfl := Option.some.inj (hstep.symm.trans hstep')
    exact .inr ⟨_, h, hr⟩

/-- What is needed at an assume. -/
theorem Needed.of_assume (h : Needed F seen c r) {i : Inst} {arg : Operand}
    (hi : F.instAt c.1 = some i) (ha : i.instr = .assume arg) : arg = .reg r := by
  cases h with
  | assume hseen hi' ha' =>
    obtain rfl := Option.some.inj (hi.symm.trans hi')
    exact Instr.assume.inj (ha.symm.trans ha')
  | cond hseen hi' hbr =>
    obtain rfl := Option.some.inj (hi.symm.trans hi')
    exact absurd (ha.symm.trans hbr) (by simp)
  | before hseen hstep h hr =>
    rw [IRFunction.step_of_assume hi ha] at hstep
    exact absurd hstep (Option.some_ne_none _).symm

end Runs

theorem eval_operand (ρ : Env) (op : Operand) :
    (generateOperandExpr op).eval ρ = plainOperand ρ op := by
  cases op with
  | const v => rfl
  | undef v => rfl
  | null => rfl
  | reg r => rfl

/-- The expression of an instruction is its value in plain arithmetic. -/
theorem eval_inst (ρ : Env) (o : Opcode) : (generateInstExpr o).eval ρ = plain ρ o := by
  cases o with
  | zext op => exact eval_operand ρ op
  | sext w w' op => exact eval_operand ρ op
  | trunc w op => exact eval_operand ρ op
  | select c t f => simp only [generateInstExpr, SExpr.eval, eval_operand, plain]
  | bin o w a b =>
    cases o with
    | srem => rfl
    | _ => simp only [generateInstExpr, SExpr.eval, eval_operand, plain]
  | icmp o w a b => simp only [generateInstExpr, SExpr.eval, eval_operand, plain]
  | extractValue idx cas cmp =>
    rw [generateInstExpr, plain]
    split
    · rfl
    · simp only [SExpr.eval, eval_operand, CmpOp.eval]
  | bitcast op => exact eval_operand ρ op
  | ptrCast srcSize dstSize w op =>
    rw [generateInstExpr, plain]
    split
    · exact eval_operand ρ op
    · split
      · exact eval_operand ρ op
      · exact eval_operand ρ op
  | other result => rfl

theorem afterPhis_of_not_reg (ops : List (Reg × Operand)) {op : Operand}
    (h : ∀ r, op ≠ .reg r) : afterPhis ops op = op := by
  induction ops with
  | nil => rfl
  | cons p ops ih =>
    rw [afterPhis, List.foldl_cons, if_neg (h p.1)]
    exact ih

/-- **Substituting φs** one after the other. -/
theorem eval_substitutePhis {ρ : Env} (ops : List (Reg × Operand)) (e : IRExpr) :
    (substitutePhis ops e).eval ρ = e.eval fun r => plainOperand ρ (afterPhis ops (.reg r)) := by
  induction ops generalizing e with
  | nil => rfl
  | cons p ops ih =>
    have hvalue : plainOperand (fun r => plainOperand ρ (afterPhis ops (.reg r))) p.2 =
        plainOperand ρ (afterPhis ops p.2) := by
      match p.2 with
      | .const v => rw [afterPhis_of_not_reg ops (by simp)]; rfl
      | .undef v => rw [afterPhis_of_not_reg ops (by simp)]; rfl
      | .null => rw [afterPhis_of_not_reg ops (by simp)]; rfl
      | .reg r => rfl
    rw [substitutePhis, List.foldl_cons, ← substitutePhis, ih, SExpr.eval_substitute, eval_operand,
      hvalue]
    congr 1
    funext r
    have hcons : afterPhis (p :: ops) (.reg r) =
        afterPhis ops (if Operand.reg r = .reg p.1 then p.2 else .reg r) := rfl
    rw [hcons]
    by_cases hr : r = p.1
    · rw [hr, Function.update_self, if_pos rfl]
    · rw [Function.update_of_ne hr, if_neg fun h => hr (Operand.reg.inj h)]

/-! ## Registers that are not needed do not matter -/

section Needs

variable {ρ ρ' : Env}

theorem plainOperand_congr {op : Operand} (h : ∀ r ∈ regsOf op, ρ' r = ρ r) :
    plainOperand ρ' op = plainOperand ρ op := by
  cases op with
  | reg r => exact h r (List.mem_singleton_self r)
  | _ => rfl

theorem plain_congr {o : Opcode} (h : ∀ r ∈ plainRegs ρ o, ρ' r = ρ r) :
    plain ρ' o = plain ρ o := by
  have happ : ∀ {a b : Operand}, (∀ r ∈ regsOf a ++ regsOf b, ρ' r = ρ r) →
      plainOperand ρ' a = plainOperand ρ a ∧ plainOperand ρ' b = plainOperand ρ b := fun h =>
    ⟨plainOperand_congr fun r hr => h r (List.mem_append_left _ hr),
      plainOperand_congr fun r hr => h r (List.mem_append_right _ hr)⟩
  cases o with
  | zext op => exact plainOperand_congr h
  | sext w w' op => exact plainOperand_congr h
  | trunc w op => exact plainOperand_congr h
  | bitcast op => exact plainOperand_congr h
  | ptrCast srcSize dstSize w op => exact plainOperand_congr h
  | select c t f =>
    obtain ⟨hc, hop⟩ := happ h
    rw [plain, plain, hc]
    split
    · rename_i hb
      rwa [if_pos hb] at hop
    · rename_i hb
      rwa [if_neg hb] at hop
  | bin o w a b =>
    cases o with
    | srem => rfl
    | _ =>
      obtain ⟨ha, hb⟩ := happ h
      simp only [plain, ha, hb]
  | icmp o w a b =>
    obtain ⟨ha, hb⟩ := happ h
    rw [plain, plain, ha, hb]
  | extractValue idx cas cmp =>
    rw [plain, plain]
    split
    · exact h cas List.mem_cons_self
    · rename_i hidx
      rw [h cas List.mem_cons_self, plainOperand_congr fun r hr => h r ?_]
      rw [plainRegs, if_neg hidx]
      exact List.mem_cons_of_mem cas hr
  | other result => rfl

/-- The values after an instruction depend on the registers that are said, and on the condition of a
branch. -/
theorem plainAfter_congr {F : IRFunction} {x : Loc} {r : Reg}
    (hcond : ∀ i cond target target', F.instAt x = some i →
      i.instr = .condBr cond target target' → ρ' cond = ρ cond)
    (h : ∀ q ∈ regsBefore F (x, ρ) r, ρ' q = ρ q) :
    plainAfter F (x, ρ') r = plainAfter F (x, ρ) r := by
  rw [regsBefore] at h
  rw [plainAfter, plainAfter]
  cases hi : F.instAt x with
  | none =>
    simp only [hi] at h ⊢
    exact h r (List.mem_singleton_self r)
  | some i =>
    obtain ⟨reg, instr⟩ := i
    simp only [hi] at h ⊢
    cases instr with
    | op o =>
      simp only at h ⊢
      split
      · rename_i hr
        rw [if_pos hr] at h
        exact plain_congr h
      · rename_i hr
        rw [if_neg hr] at h
        exact h r (List.mem_singleton_self r)
    | br target => exact plainOperand_congr h
    | condBr cond target target' =>
      simp only [hcond _ cond target target' hi rfl] at h ⊢
      exact plainOperand_congr h
    | _ => exact h r (List.mem_singleton_self r)

end Needs

/-! ## The search ends -/

variable {F : IRFunction} {s : State} {curr succ : Loc} {e : IRExpr} {ρ : Env}

/-- Every successor exists, and its φs have operands for the block it is entered from. -/
def WellFormed (F : IRFunction) : Prop :=
  ∀ x y, y ∈ getNextOrBranchSuccessors F x → (F.instAt y).isSome ∧
    (x.block ≠ y.block → (IRFunction.incomings (F.phisFrom y) x.block).isSome)

/-- All places with an instruction. -/
def places (F : IRFunction) : List Loc :=
  (List.range F.length).flatMap fun b =>
    (List.range (F[b]?.getD []).length).map fun idx => ⟨b, idx⟩

theorem length_places (F : IRFunction) : (places F).length = size F := by
  rw [places, List.length_flatMap, size]
  congr 1
  refine List.ext_getElem (by simp) fun b hb hb' => ?_
  have hb : b < F.length := by simpa using hb
  simp [hb]

theorem mem_places {x : Loc} (h : (F.instAt x).isSome) : x ∈ places F := by
  rw [IRFunction.instAt, Option.isSome_iff_exists] at h
  obtain ⟨i, h⟩ := h
  obtain ⟨block, hblock, hi⟩ := Option.bind_eq_some_iff.1 h
  obtain ⟨hb, -⟩ := List.getElem?_eq_some_iff.1 hblock
  obtain ⟨hidx, -⟩ := List.getElem?_eq_some_iff.1 hi
  refine List.mem_flatMap.2 ⟨x.block, List.mem_range.2 hb, ?_⟩
  rw [hblock]
  exact List.mem_map.2 ⟨x.idx, List.mem_range.2 hidx, rfl⟩

/-- How many instructions have not been entered. -/
def unseen (F : IRFunction) (s : State) : ℕ :=
  ((places F).toFinset.filter fun x => s.statusMap x = .unseen).card

theorem unseen_le (F : IRFunction) (s : State) : unseen F s ≤ size F :=
  calc unseen F s ≤ (places F).toFinset.card := Finset.card_filter_le _ _
    _ ≤ (places F).length := List.toFinset_card_le _
    _ = size F := length_places F

/-- Instructions that were left have annotations. -/
def Annotated (s : State) : Prop := ∀ x, s.statusMap x = .left → (s.annotMap x).isSome

/-- A state that the search may get to from another one. -/
structure Later (s s' : State) : Prop where
  unseen : ∀ x, s'.statusMap x = .unseen → s.statusMap x = .unseen
  annot : ∀ x, (s.annotMap x).isSome → (s'.annotMap x).isSome
  annotated : Annotated s'

theorem Later.trans {s s' s'' : State} (h : Later s s') (h' : Later s' s'') : Later s s'' :=
  ⟨fun x hx => h.unseen x (h'.unseen x hx), fun x hx => h'.annot x (h.annot x hx), h'.annotated⟩

theorem unseen_le_of_later {s s' : State} (h : Later s s') : unseen F s' ≤ unseen F s :=
  Finset.card_le_card (Finset.monotone_filter_right _ fun x _ => h.unseen x)

theorem isSome_setAnnot {x y : Loc} (h : y = x ∨ (s.annotMap y).isSome) :
    ((s.setAnnot x e).annotMap y).isSome := by
  change (Function.update s.annotMap x (some e) y).isSome
  by_cases hyx : y = x
  · rw [hyx, Function.update_self]
    rfl
  · rw [Function.update_of_ne hyx]
    exact h.resolve_left hyx

theorem later_setAnnot (hs : Annotated s) (x : Loc) (e : IRExpr) : Later s (s.setAnnot x e) :=
  ⟨fun _ hy => hy, fun _ hy => isSome_setAnnot (.inr hy),
    fun y hy => isSome_setAnnot (.inr (hs y hy))⟩

theorem later_entered (hs : Annotated s) (x : Loc) : Later s (s.setStatus x .entered) := by
  have hof : ∀ {y st}, st ≠ .entered → (s.setStatus x .entered).statusMap y = st →
      s.statusMap y = st := by
    intro y st hst hy
    change Function.update s.statusMap x .entered y = st at hy
    by_cases hyx : y = x
    · rw [hyx, Function.update_self] at hy
      exact absurd hy.symm hst
    · rwa [Function.update_of_ne hyx] at hy
  exact ⟨fun y hy => hof (by decide) hy, fun _ hy => hy, fun y hy => hs y (hof (by decide) hy)⟩

/-- Leaving an instruction with an annotation. -/
theorem later_left (hs : Annotated s) (x : Loc) (e : IRExpr) :
    Later s ((s.setStatus x .left).setAnnot x e) := by
  have hof : ∀ {y}, y ≠ x → ((s.setStatus x .left).setAnnot x e).statusMap y = s.statusMap y :=
    fun hyx => Function.update_of_ne hyx _ _
  refine ⟨fun y hy => ?_, fun y hy => isSome_setAnnot (.inr hy), fun y hy => ?_⟩
  · by_cases hyx : y = x
    · change Function.update s.statusMap x .left y = .unseen at hy
      rw [hyx, Function.update_self] at hy
      exact absurd hy (by decide)
    · rwa [hof hyx] at hy
  · refine isSome_setAnnot ?_
    by_cases hyx : y = x
    · exact .inl hyx
    · exact .inr (hs y (hof hyx ▸ hy))

theorem unseen_entered (hcurr : (F.instAt curr).isSome) (hunseen : s.statusMap curr = .unseen)
    (hs : Annotated s) : unseen F (s.setStatus curr .entered) < unseen F s := by
  refine Finset.card_lt_card (Finset.ssubset_iff_of_subset
    (Finset.monotone_filter_right _ fun x _ => (later_entered hs curr).unseen x) |>.2
      ⟨curr, ?_, ?_⟩)
  · exact Finset.mem_filter.2 ⟨List.mem_toFinset.2 (mem_places hcurr), hunseen⟩
  · intro h
    have h := (Finset.mem_filter.1 h).2
    change Function.update s.statusMap curr .entered curr = .unseen at h
    rw [Function.update_self] at h
    exact absurd h (by decide)

/-- An annotation can be propagated. -/
theorem propagate_isSome (hwf : WellFormed F) (hcurr : (F.instAt curr).isSome)
    (hsucc : succ ∈ getNextOrBranchSuccessors F curr) (hannot : (s.annotMap succ).isSome) :
    (propagateAnnotFromSucc F s curr succ).isSome := by
  obtain ⟨e, he⟩ := Option.isSome_iff_exists.1 hannot
  obtain ⟨i, hi⟩ := Option.isSome_iff_exists.1 hcurr
  obtain ⟨ops, hops⟩ : ∃ ops, IRFunction.incomings
      (if curr.block = succ.block then [] else F.phisFrom succ) curr.block = some ops := by
    split
    · exact ⟨[], rfl⟩
    · rename_i hne
      exact Option.isSome_iff_exists.1 ((hwf curr succ hsucc).2 hne)
  rw [propagateAnnotFromSucc]
  simp only [he, hi, hops, Option.bind_eq_bind, Option.bind_some]
  cases i.instr with
  | _ => rfl

/-- There is an annotation if the successors have one. -/
theorem annotOf_isSome (hwf : WellFormed F) (hcurr : (F.instAt curr).isSome)
    (hannot : ∀ succ ∈ getNextOrBranchSuccessors F curr, (s.annotMap succ).isSome) :
    (annotOf F s curr).isSome := by
  have hprop := fun succ hsucc => propagate_isSome hwf hcurr hsucc (hannot succ hsucc)
  obtain ⟨i, hi⟩ := Option.isSome_iff_exists.1 hcurr
  rw [annotOf]
  simp only [hi, Option.bind_eq_bind, Option.bind_some]
  split
  · split
    · rfl
    · rfl
  · rename_i succ hsuccs
    exact hprop succ (by rw [hsuccs]; exact List.mem_cons_self)
  · rename_i succ succ' rest hsuccs
    obtain ⟨e, he⟩ := Option.isSome_iff_exists.1
      (hprop succ (by rw [hsuccs]; exact List.mem_cons_self))
    obtain ⟨e', he'⟩ := Option.isSome_iff_exists.1
      (hprop succ' (by rw [hsuccs]; exact List.mem_cons_of_mem _ List.mem_cons_self))
    -- only conditional branches have two successors
    obtain ⟨cond, target, target', hbr⟩ :
        ∃ cond target target', i.instr = .condBr cond target target' := by
      rw [getNextOrBranchSuccessors, hi] at hsuccs
      simp only at hsuccs
      split at hsuccs
      · exact absurd hsuccs (by simp)
      · split at hsuccs
        · exact absurd hsuccs (by simp)
        · exact absurd hsuccs (by simp)
        · rename_i cond target target' _ hbr
          exact ⟨cond, target, target', hbr⟩
        · exact absurd hsuccs (by simp)
    simp only [hbr, he, he']
    rfl

/-- A loop that goes on as long as there is fuel. -/
theorem foldlM_isSome {f : State → Loc → Option State} {succs : List Loc} {n : ℕ}
    (hf : ∀ s, ∀ succ ∈ succs, Annotated s → unseen F s ≤ n →
      ∃ s', f s succ = some s' ∧ Later s s' ∧ (s'.annotMap succ).isSome)
    (s : State) (hs : Annotated s) (hn : unseen F s ≤ n) :
    ∃ s', succs.foldlM f s = some s' ∧ Later s s' ∧
      ∀ succ ∈ succs, (s'.annotMap succ).isSome := by
  induction succs generalizing s with
  | nil => exact ⟨s, rfl, ⟨fun _ h => h, fun _ h => h, hs⟩, fun _ h => absurd h List.not_mem_nil⟩
  | cons succ succs ih =>
    obtain ⟨s₁, h₁, hlater, hannot⟩ := hf s succ List.mem_cons_self hs hn
    obtain ⟨s₂, h₂, hlater', hannot'⟩ := ih
      (fun s succ hsucc => hf s succ (List.mem_cons_of_mem _ hsucc)) s₁ hlater.annotated
      ((unseen_le_of_later hlater).trans hn)
    refine ⟨s₂, ?_, hlater.trans hlater', fun y hy => ?_⟩
    · rw [List.foldlM_cons, h₁]
      exact h₂
    · rcases List.mem_cons.1 hy with rfl | hy
      · exact hlater'.annot y hannot
      · exact hannot' y hy

/-- **The search ends** if there is fuel for all instructions that were not entered. -/
theorem annotateDFS_isSome (hwf : WellFormed F) (fuel : ℕ) (s : State) (curr : Loc)
    (hcurr : (F.instAt curr).isSome) (hunseen : s.statusMap curr = .unseen) (hs : Annotated s)
    (hfuel : unseen F s ≤ fuel) :
    ∃ s', annotateDFS F fuel s curr = some s' ∧ Later s s' ∧ (s'.annotMap curr).isSome := by
  induction fuel generalizing s curr with
  | zero =>
    have := unseen_entered hcurr hunseen hs
    omega
  | succ fuel ih =>
    have hlater := later_entered hs curr
    have hless := unseen_entered hcurr hunseen hs
    have hbody : ∀ s, ∀ succ ∈ getNextOrBranchSuccessors F curr, Annotated s →
        unseen F s ≤ fuel → ∃ s', (match s.statusMap succ with
          | .unseen => annotateDFS F fuel s succ
          | .entered => some (s.setAnnot succ .createTrue)
          | .left => some s) = some s' ∧ Later s s' ∧ (s'.annotMap succ).isSome := by
      intro s succ hsucc hs hfuel
      cases hst : s.statusMap succ with
      | unseen => exact ih s succ (hwf curr succ hsucc).1 hst hs hfuel
      | entered => exact ⟨_, rfl, later_setAnnot hs succ _, isSome_setAnnot (.inl rfl)⟩
      | left => exact ⟨s, rfl, ⟨fun _ h => h, fun _ h => h, hs⟩, hs succ hst⟩
    obtain ⟨s₁, h₁, hlater₁, hannot₁⟩ :=
      foldlM_isSome hbody (s.setStatus curr .entered) hlater.annotated (by omega)
    -- the annotation of the instruction itself
    obtain ⟨e, he⟩ := Option.isSome_iff_exists.1
      (annotOf_isSome (s := s₁.setStatus curr .left) hwf hcurr hannot₁)
    refine ⟨(s₁.setStatus curr .left).setAnnot curr e, ?_, ?_, isSome_setAnnot (.inl rfl)⟩
    · rw [annotateDFS]
      simp only [h₁, he, Option.bind_eq_bind, Option.bind_some]
      rfl
    · exact (hlater.trans hlater₁).trans (later_left hlater₁.annotated curr e)

/-- **Every load has an annotation**, and so has every CAS. -/
theorem annotate_isSome (hwf : WellFormed F) {l next : Loc} {i : Inst} (hi : F.instAt l = some i)
    (hload : i.instr = .load ∨ i.instr = .cas) (hnext : F.getNextNode l = some next) :
    (annotate F l).isSome := by
  have hexists : (F.instAt next).isSome := by
    rw [IRFunction.getNextNode] at hnext
    split at hnext
    · rename_i h
      rw [← Option.some.inj hnext]
      exact h
    · exact absurd hnext (Option.some_ne_none _).symm
  obtain ⟨s, hs, -, hannot⟩ := annotateDFS_isSome hwf (size F + 1) {} next hexists rfl
    (fun x hx => Status.noConfusion hx) ((unseen_le F _).trans (Nat.le_succ _))
  rw [annotate]
  rcases hload with hload | hload
  · simp only [hi, hload, hnext, hs, Option.bind_eq_bind, Option.bind_some]
    exact hannot
  · simp only [hi, hload, hnext, hs, Option.bind_eq_bind, Option.bind_some]
    exact hannot

/-! ## Soundness -/

/-- An annotation of an instruction that was made from those of the places in `S` is zero only if
the run from it blocks.  It may be evaluated with other values for registers that are not needed, in
a run that has not been at the places in `S`. -/
def Sound (F : IRFunction) (S : Set Loc) (x : Loc) (e : IRExpr) : Prop :=
  ∀ seen ρ ρ', (∀ y ∈ seen, y ∉ S) → RightRun F seen (x, ρ) →
    (∀ r, Needed F seen (x, ρ) r → ρ' r = ρ r) → e.eval ρ' = 0 → F.Blocks (x, ρ)

/-- Branches end their blocks. -/
def BranchesLast (F : IRFunction) : Prop :=
  ∀ x i, F.instAt x = some i →
    match i.instr with
    | .br _ | .condBr _ _ _ => F.getNextNode x = none
    | _ => True

theorem sound_true (F : IRFunction) (S : Set Loc) (x : Loc) : Sound F S x .createTrue := by
  intro seen ρ ρ' _ _ _ h
  rw [SExpr.createTrue, SExpr.eval] at h
  exact absurd h (by decide)

theorem Sound.mono {S S' : Set Loc} {x : Loc} (h : Sound F S x e) (hS : S ⊆ S') :
    Sound F S' x e :=
  fun seen ρ ρ' hseen => h seen ρ ρ' fun y hy hyS => hseen y hy (hS hyS)

theorem block_of_getNextNode {x y : Loc} (h : F.getNextNode x = some y) : y.block = x.block := by
  rw [IRFunction.getNextNode] at h
  split at h
  · rw [← Option.some.inj h]
  · exact absurd h (Option.some_ne_none _).symm

/-- What a branch makes of the annotation of its target. -/
theorem propagate_branch {i : Inst} (hi : F.instAt curr = some i)
    (hbr : match i.instr with | .br _ | .condBr _ _ _ => True | _ => False) {target : ℕ}
    (h : propagateAnnotFromSucc F s curr ⟨target, 0⟩ = some e) (ρ : Env) :
    ∃ succExp, s.annotMap ⟨target, 0⟩ = some succExp ∧ e.eval ρ =
      succExp.eval fun r => plainOperand ρ (entryOperand F curr.block target r) := by
  rw [propagateAnnotFromSucc] at h
  obtain ⟨succExp, hsucc, h⟩ := Option.bind_eq_some_iff.1 h
  rw [hi] at h
  simp only [Option.bind_eq_bind, Option.bind_some] at h
  obtain ⟨ops, hops, h⟩ := Option.bind_eq_some_iff.1 h
  have he : substitutePhis ops succExp = e := by
    revert hbr h
    cases i.instr with
    | br _ => exact fun _ h => Option.some.inj h
    | condBr _ _ _ => exact fun _ h => Option.some.inj h
    | _ => exact fun hbr => hbr.elim
  refine ⟨succExp, hsucc, ?_⟩
  rw [← he, eval_substitutePhis]
  congr 1
  funext r
  rw [entryOperand, hops, Option.getD_some]

/-- What an instruction makes of the annotation of the next one. -/
theorem propagate_next {i : Inst} (hi : F.instAt curr = some i)
    (hnext : F.getNextNode curr = some succ)
    (h : propagateAnnotFromSucc F s curr succ = some e) :
    ∃ succExp, s.annotMap succ = some succExp ∧
      match i.instr with
      | .op o => e = succExp.substitute i.reg (generateInstExpr o)
      | .phi _ => e = succExp
      | _ => True := by
  have hblock := (block_of_getNextNode hnext).symm
  rw [propagateAnnotFromSucc] at h
  obtain ⟨succExp, hsucc, h⟩ := Option.bind_eq_some_iff.1 h
  rw [hi] at h
  simp only [Option.bind_eq_bind, Option.bind_some, if_pos hblock] at h
  obtain ⟨ops, hops, h⟩ := Option.bind_eq_some_iff.1 h
  obtain rfl : ops = [] := (Option.some.inj hops).symm
  refine ⟨succExp, hsucc, ?_⟩
  revert h
  cases i.instr with
  | op o => exact fun h => (Option.some.inj h).symm
  | phi _ => exact fun h => (Option.some.inj h).symm
  | _ => exact fun _ => trivial

/-- **One instruction**: if the annotations of its successors are sound, its own is. -/
theorem annotOf_sound (hlast : BranchesLast F) {S : Set Loc} (hcurr : curr ∉ S)
    (hs : ∀ succ e, s.annotMap succ = some e → Sound F S succ e)
    (h : annotOf F s curr = some e) : Sound F (insert curr S) curr e := by
  rw [annotOf] at h
  obtain ⟨i, hi, h⟩ := Option.bind_eq_some_iff.1 h
  intro seen ρ ρ' hseen hrun hagree hzero
  have hnew : curr ∉ seen := fun hc => hseen curr hc (Set.mem_insert curr S)
  have hseen' : ∀ y ∈ curr :: seen, y ∉ S := by
    intro y hy
    rcases List.mem_cons.1 hy with rfl | hy
    · exact hcurr
    · exact fun hyS => hseen y hy (Set.mem_insert_of_mem curr hyS)
  obtain ⟨hright, hnext⟩ : RightAt F seen (curr, ρ) ∧
      ∀ c', F.step (curr, ρ) = some c' → RightRun F (curr :: seen) c' := by
    cases hrun with
    | back hc => exact absurd hc hnew
    | here hright hnext => exact ⟨hright, hnext⟩
  -- the first step of the run, with the annotation of the place it goes to
  have step : ∀ {succ succExp} {σ : Env}, F.step (curr, ρ) = some (succ, σ) →
      s.annotMap succ = some succExp → succExp.eval (plainAfter F (curr, ρ')) = 0 →
        F.Blocks (curr, ρ) := by
    intro succ succExp σ hstep hsucc hzero
    refine .step hstep (hs succ succExp hsucc (curr :: seen) σ _ hseen' (hnext _ hstep)
      (fun r hr => ?_) hzero)
    refine Eq.trans ?_ (hright.plain _ hstep r hr)
    refine plainAfter_congr (fun i cond target target' hi hbr => ?_) fun q hq => ?_
    · exact hagree cond (.cond hnew hi hbr)
    · exact hagree q (.before hnew hstep hr hq)
  -- the first step at a branch
  have branch : ∀ {target : ℕ} {succExp}, s.annotMap ⟨target, 0⟩ = some succExp →
      F.step (curr, ρ) = F.enter curr.block target ρ → (F.enter curr.block target ρ).isSome →
        succExp.eval (plainAfter F (curr, ρ')) = 0 → F.Blocks (curr, ρ) := by
    intro target succExp hsucc hstep hsome hzero
    obtain ⟨⟨succ, σ⟩, henter⟩ := Option.isSome_iff_exists.1 hsome
    obtain ⟨ops, -, hops⟩ := Option.map_eq_some_iff.1 henter
    obtain rfl : succ = ⟨target, 0⟩ := (congrArg Prod.fst hops).symm
    exact step (hstep.trans henter) hsucc hzero
  have hhere := hright.defined i hi
  have hlast := hlast curr i hi
  rw [getNextOrBranchSuccessors, hi] at h
  obtain ⟨reg, instr⟩ := i
  cases instr with
  | op o =>
    simp only [stopsAt, Bool.false_eq_true, if_false] at h
    cases hnode : F.getNextNode curr with
    | none =>
      rw [hnode] at h
      obtain rfl := Option.some.inj h
      exact sound_true F _ curr seen ρ ρ' hseen hrun hagree hzero
    | some succ =>
      rw [hnode] at h
      obtain ⟨succExp, hsucc, he⟩ := propagate_next hi hnode h
      obtain ⟨v, hv⟩ := Option.isSome_iff_exists.1 hhere
      have hstep : F.step (curr, ρ) = some (succ, Function.update ρ reg v) := by
        rw [IRFunction.step]
        simp only at hv
        simp only [hi, hv, hnode, Option.bind_eq_bind, Option.bind_some]
        rfl
      refine step hstep hsucc ?_
      rw [← hzero, he, SExpr.eval_substitute, eval_inst]
      congr 1
      funext r
      simp only [plainAfter, hi, Function.update_apply]
  | phi incoming =>
    simp only [stopsAt, Bool.false_eq_true, if_false] at h
    cases hnode : F.getNextNode curr with
    | none =>
      rw [hnode] at h
      obtain rfl := Option.some.inj h
      exact sound_true F _ curr seen ρ ρ' hseen hrun hagree hzero
    | some succ =>
      rw [hnode] at h
      obtain ⟨succExp, hsucc, he⟩ := propagate_next hi hnode h
      have hstep : F.step (curr, ρ) = some (succ, ρ) := by
        rw [IRFunction.step]
        simp only [hi, hnode, Option.bind_eq_bind, Option.bind_some]
        rfl
      refine step hstep hsucc ?_
      rw [← hzero, he]
      congr 1
      funext r
      simp only [plainAfter, hi]
  | br target =>
    simp only at hlast
    simp only [stopsAt, Bool.false_eq_true, if_false, hlast] at h
    obtain ⟨succExp, hsucc, heval⟩ := propagate_branch hi trivial h ρ'
    refine branch hsucc (by simp only [IRFunction.step, hi, Option.bind_eq_bind, Option.bind_some])
      hhere ?_
    rw [← hzero, heval]
    congr 1
    funext r
    simp only [plainAfter, hi]
  | condBr cond target target' =>
    simp only at hlast
    simp only [stopsAt, Bool.false_eq_true, if_false, hlast] at h
    obtain ⟨e₁, h₁, h⟩ := Option.bind_eq_some_iff.1 h
    obtain ⟨e₂, h₂, h⟩ := Option.bind_eq_some_iff.1 h
    obtain rfl := Option.some.inj h
    have hcond : ρ' cond = ρ cond := hagree cond (.cond hnew hi rfl)
    -- the side that the run takes
    obtain ⟨e, he, hzero⟩ : ∃ e, propagateAnnotFromSucc F s curr
        ⟨if (ρ cond).getBool then target else target', 0⟩ = some e ∧ e.eval ρ' = 0 := by
      rw [SExpr.eval, SExpr.eval, hcond] at hzero
      split at hzero
      · rename_i hb
        exact ⟨e₁, by rw [if_pos hb]; exact h₁, hzero⟩
      · rename_i hb
        exact ⟨e₂, by rw [if_neg hb]; exact h₂, hzero⟩
    obtain ⟨succExp, hsucc, heval⟩ := propagate_branch hi trivial he ρ'
    refine branch hsucc (by simp only [IRFunction.step, hi, Option.bind_eq_bind, Option.bind_some])
      hhere ?_
    rw [← hzero, heval]
    congr 1
    funext r
    simp only [plainAfter, hi, hcond]
  | assume arg =>
    obtain rfl := Option.some.inj h
    rw [eval_operand] at hzero
    refine .assume hi rfl (hhere ▸ ?_)
    rw [← hzero]
    refine (plainOperand_congr fun r hr => hagree r ?_).symm
    cases arg with
    | reg q =>
      obtain rfl := List.mem_singleton.1 hr
      exact .assume hnew hi rfl
    | _ => exact absurd hr List.not_mem_nil
  | load =>
    obtain rfl := Option.some.inj h
    exact sound_true F _ curr seen ρ ρ' hseen hrun hagree hzero
  | cas =>
    obtain rfl := Option.some.inj h
    exact sound_true F _ curr seen ρ ρ' hseen hrun hagree hzero
  | stop =>
    obtain rfl := Option.some.inj h
    exact sound_true F _ curr seen ρ ρ' hseen hrun hagree hzero

/-- The places that were left. -/
def State.leftSet (s : State) : Set Loc := {x | s.statusMap x = .left}

/-- All annotations are sound, and made from those of places that were left. -/
def SoundState (F : IRFunction) (s : State) : Prop :=
  ∀ x e, s.annotMap x = some e → Sound F s.leftSet x e

/-- A state that the search gets to: annotations stay sound, and places that were entered or left
stay as they are. -/
structure Goes (F : IRFunction) (s s' : State) : Prop where
  sound : SoundState F s'
  status : ∀ y, s.statusMap y ≠ .unseen → s'.statusMap y = s.statusMap y

theorem Goes.trans {s s' s'' : State} (h : Goes F s s') (h' : Goes F s' s'') : Goes F s s'' :=
  ⟨h'.sound, fun y hy => (h'.status y (by rwa [h.status y hy])).trans (h.status y hy)⟩

/-- A loop whose body keeps annotations sound. -/
theorem foldlM_sound {f : State → Loc → Option State} {succs : List Loc}
    (hf : ∀ s succ s', SoundState F s → f s succ = some s' → Goes F s s')
    (s s' : State) (hs : SoundState F s) (h : succs.foldlM f s = some s') : Goes F s s' := by
  induction succs generalizing s with
  | nil =>
    obtain rfl := Option.some.inj h
    exact ⟨hs, fun _ _ => rfl⟩
  | cons succ succs ih =>
    rw [List.foldlM_cons] at h
    obtain ⟨s₁, hs₁, h⟩ := Option.bind_eq_some_iff.1 h
    have hgoes := hf s succ s₁ hs hs₁
    exact hgoes.trans (ih s₁ hgoes.sound h)

theorem sound_setAnnot {x : Loc} (hs : SoundState F s) (hx : Sound F s.leftSet x e) :
    SoundState F (s.setAnnot x e) := by
  intro y e' hy
  change Function.update s.annotMap x (some e) y = some e' at hy
  by_cases hyx : y = x
  · subst hyx
    rw [Function.update_self] at hy
    exact Option.some.inj hy ▸ hx
  · rw [Function.update_of_ne hyx] at hy
    exact hs y e' hy

/-- **The search** computes sound annotations only. -/
theorem annotateDFS_sound (hlast : BranchesLast F) {fuel : ℕ} {s s' : State} {curr : Loc}
    (hs : SoundState F s) (hunseen : s.statusMap curr = .unseen)
    (h : annotateDFS F fuel s curr = some s') : Goes F s s' := by
  induction fuel generalizing s s' curr with
  | zero => exact absurd h (Option.some_ne_none _).symm
  | succ fuel ih =>
    rw [annotateDFS] at h
    obtain ⟨s₁, hfold, h⟩ := Option.bind_eq_some_iff.1 h
    obtain ⟨e, hannot, h⟩ := Option.bind_eq_some_iff.1 h
    obtain rfl := Option.some.inj h
    have hentered : ∀ y, y ≠ curr → (s.setStatus curr .entered).statusMap y = s.statusMap y :=
      fun y hy => Function.update_of_ne hy _ _
    have hself : (s.setStatus curr .entered).statusMap curr = .entered :=
      Function.update_self _ _ _
    -- going through the successors keeps annotations sound
    have hgoes : Goes F (s.setStatus curr .entered) s₁ := by
      refine foldlM_sound ?_ (s.setStatus curr .entered) s₁ (fun x e hx => ?_) hfold
      · intro s succ s' hs h
        split at h
        · exact ih hs ‹_› h
        · obtain rfl := Option.some.inj h
          exact ⟨sound_setAnnot hs (sound_true F _ succ), fun _ _ => rfl⟩
        · obtain rfl := Option.some.inj h
          exact ⟨hs, fun _ _ => rfl⟩
      · refine (hs x e hx).mono fun y hy => ?_
        have hne : y ≠ curr := by
          rintro rfl
          exact absurd (hy.symm.trans hunseen) (by decide)
        exact (hentered y hne).trans hy
    have hstill : s₁.statusMap curr = .entered :=
      (hgoes.status curr (by rw [hself]; decide)).trans hself
    have hleft : (s₁.setStatus curr .left).leftSet = insert curr s₁.leftSet := by
      ext y
      change Function.update s₁.statusMap curr .left y = .left ↔ y = curr ∨ s₁.statusMap y = .left
      by_cases hy : y = curr
      · simp [hy]
      · simp [hy]
    refine ⟨sound_setAnnot (s := s₁.setStatus curr .left) (fun x e hx => ?_) ?_, fun y hy => ?_⟩
    · rw [hleft]
      exact (hgoes.sound x e hx).mono (Set.subset_insert curr _)
    · rw [hleft]
      refine annotOf_sound (s := s₁.setStatus curr .left) hlast (fun hc => ?_) hgoes.sound hannot
      exact absurd (hstill.symm.trans hc) (by decide)
    · have hne : y ≠ curr := by
        rintro rfl
        exact hy hunseen
      have hy' : (s.setStatus curr .entered).statusMap y ≠ .unseen := by rwa [hentered y hne]
      exact ((Function.update_of_ne hne _ _).trans (hgoes.status y hy')).trans (hentered y hne)

/-- **Annotations are sound**: if the annotation of a load is zero for a value, after the registers
that have values were replaced by them, and everything that an assume or a branch of the run after
the load depends on is evaluated right, then the run blocks at an assume. -/
theorem annotate_sound (hlast : BranchesLast F) {l next : Loc} {annot : IRExpr}
    (h : annotate F l = some annot) (hnext : F.getNextNode l = some next)
    (rMap : Reg → Option SVal64) (v : SVal64)
    (hright : RightRun F [] (next, fun r => (rMap r).getD v))
    (hzero : (annot.concretize rMap).evaluate v = 0) :
    F.Blocks (next, fun r => (rMap r).getD v) := by
  have hannot : ∃ s, annotateDFS F (size F + 1) {} next = some s ∧
      s.annotMap next = some annot := by
    rw [annotate] at h
    obtain ⟨i, -, h⟩ := Option.bind_eq_some_iff.1 h
    rw [hnext] at h
    split at h
    · exact Option.bind_eq_some_iff.1 h
    · exact Option.bind_eq_some_iff.1 h
    · exact absurd h (Option.some_ne_none _).symm
  obtain ⟨s, hdfs, hmap⟩ := hannot
  have hsound := (annotateDFS_sound hlast (fun x e hx => absurd hx (Option.some_ne_none _).symm)
    rfl hdfs).sound next annot hmap
  refine hsound [] _ _ (fun y hy => absurd hy List.not_mem_nil) hright (fun _ _ => rfl) ?_
  rw [← SExpr.evaluate_concretize]
  exact hzero

/-- A load whose value must be two modulo three. -/
def remainderTwo : IRFunction :=
  [[⟨0, .load⟩, ⟨1, .op (.bin .urem 32 (.reg 0) (.const 3))⟩,
    ⟨2, .op (.icmp .eq 32 (.reg 1) (.const 2))⟩, ⟨3, .assume (.reg 2)⟩, ⟨4, .stop⟩]]

/-- Five is two modulo three, but the evaluator divides. -/
theorem remainderTwo_discards_five :
    ∃ annot, annotate remainderTwo ⟨0, 0⟩ = some annot ∧
      (annot.concretize fun _ => none).evaluate 5 = 0 ∧
      ¬ remainderTwo.Blocks (⟨0, 1⟩, fun _ => 5) := by
  refine ⟨_, rfl, by decide, ?_⟩
  rw [IRFunction.blocks_iff_of_step rfl, IRFunction.blocks_iff_of_step rfl,
    IRFunction.blocks_iff_of_assume rfl rfl]
  decide

/-- A load whose value must not be zero, with a φ that is false if it is, and a remainder that
nothing depends on. -/
def notZero : IRFunction :=
  [[⟨0, .load⟩, ⟨7, .op (.bin .urem 32 (.const 5) (.const 3))⟩,
    ⟨1, .op (.icmp .eq 32 (.reg 0) (.const 0))⟩, ⟨2, .condBr 1 1 2⟩],
   [⟨3, .br 2⟩],
   [⟨4, .phi [(0, .const 1), (1, .const 0)]⟩, ⟨5, .assume (.reg 4)⟩, ⟨6, .stop⟩]]

theorem notZero_branchesLast : BranchesLast notZero := by
  intro x i hi
  have hx := mem_places (F := notZero) (x := x) (by rw [hi]; rfl)
  rw [show places notZero =
    [⟨0, 0⟩, ⟨0, 1⟩, ⟨0, 2⟩, ⟨0, 3⟩, ⟨1, 0⟩, ⟨2, 0⟩, ⟨2, 1⟩, ⟨2, 2⟩] from rfl] at hx
  simp only [List.mem_cons, List.not_mem_nil, or_false] at hx
  rcases hx with rfl | rfl | rfl | rfl | rfl | rfl | rfl | rfl
  all_goals
    obtain rfl := Option.some.inj hi
    trivial

/-- After the remainder, only the value of the load is needed. -/
theorem notZero_needed {seen : List Loc} {r : Reg}
    (h : Needed notZero seen (⟨0, 2⟩, Function.update (fun _ => 0) 7 2) r) : r = 0 := by
  rcases h.of_step rfl with ⟨_, _, _, ⟨⟩, ⟨⟩⟩ | ⟨q, hcmp, hr⟩
  -- the φ takes a constant in this run, so that only the branch depends on the comparison
  obtain rfl : q = 1 := by
    rcases hcmp.of_step rfl with ⟨_, _, _, ⟨⟩, ⟨⟩⟩ | ⟨q, hbr, hq⟩
    · rfl
    rcases hbr.of_step rfl with ⟨_, _, _, ⟨⟩, ⟨⟩⟩ | ⟨p, hphi, hp⟩
    rcases hphi.of_step rfl with ⟨_, _, _, ⟨⟩, ⟨⟩⟩ | ⟨a, hassume, ha⟩
    obtain ⟨⟩ := hassume.of_assume rfl rfl
    obtain rfl := List.mem_singleton.1 ha
    exact absurd hp List.not_mem_nil
  exact List.mem_singleton.1 hr

theorem notZero_blocks :
    ∃ annot, annotate notZero ⟨0, 0⟩ = some annot ∧
      (annot.concretize fun _ => none).evaluate 0 = 0 ∧
      notZero.Blocks (⟨0, 1⟩, fun _ => 0) := by
  refine ⟨_, rfl, by decide, ?_⟩
  refine annotate_sound (l := ⟨0, 0⟩) notZero_branchesLast rfl rfl (fun _ => none) 0 ?_ (by decide)
  have hurem : notZero.step (⟨0, 1⟩, fun _ => 0) =
      some (⟨0, 2⟩, Function.update (fun _ => 0) 7 2) := rfl
  refine .of_step ⟨by rintro i ⟨⟩; decide, ?_⟩ hurem ?_
  · rintro c' ⟨⟩ r hr
    rw [notZero_needed hr]
    decide
  refine .of_step ⟨by rintro i ⟨⟩; decide, ?_⟩ rfl ?_
  · rintro c' ⟨⟩ r -
    exact (Function.update_apply (Function.update (fun _ => (0 : SVal64)) 7 2) 1 _ r).symm
  refine .of_step ⟨by rintro i ⟨⟩; decide, ?_⟩ rfl ?_
  · rintro c' ⟨⟩ r -
    rfl
  refine .of_step ⟨by rintro i ⟨⟩; decide, ?_⟩ rfl ?_
  · rintro c' ⟨⟩ r -
    by_cases hr : r = 4
    · subst hr
      decide
    · change plainOperand _ (if Operand.reg r = .reg 4 then .const 0 else .reg r) =
        IRFunction.assignPhis [(4, .const 0)] _ r
      rw [if_neg fun h => hr (Operand.reg.inj h), IRFunction.assignPhis,
        List.find?_cons_of_neg (by simpa using Ne.symm hr)]
      rfl
  refine .of_step ⟨by rintro i ⟨⟩; trivial, ?_⟩ rfl ?_
  · rintro c' ⟨⟩ r -
    rfl
  refine .of_stop ⟨by rintro i ⟨⟩; rfl, ?_⟩ rfl
  rintro c' ⟨⟩

end InstAnnotator
end GenMC
