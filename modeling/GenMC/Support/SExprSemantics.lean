import GenMC.Support.SExprVisitor

/-!
# Expressions as fixed-width arithmetic

The nodes of an expression have widths, and an expression stands for two's-complement arithmetic at
these widths: this is its meaning, `sem`.  The evaluator computes with words of 64 bits and does not
look at widths.  Which nodes it gets right is said node by node (`NodeRight`): sums, products and
left shifts that fit, differences that do not borrow, signed operations on numbers that are not
negative, and so on; a negation only if its operand is true, and remainders only where they happen
to be the quotient.

* `evalNode_eq_iff`: an inner node whose kids are right is right **exactly** under this condition.
* `evaluate_right_iff`: everything that is reached in an expression is evaluated to what it stands
  for exactly if all nodes that are reached are of this kind; so then is the whole expression.
* `negation_of_false`: the negation of zero is zero.
-/

set_option autoImplicit false

namespace GenMC

/-- Arithmetic on integers of some width. -/
def BinOp.onBits {w : ℕ} (a b : BitVec w) : BinOp → BitVec w
  | add => a + b
  | sub => a - b
  | mul => a * b
  | udiv => a / b
  | sdiv => a.sdiv b
  | urem => a % b
  | srem => a.srem b
  | and => a &&& b
  | or => a ||| b
  | xor => a ^^^ b
  | shl => a <<< b.toNat
  | lshr => a >>> b.toNat
  | ashr => a.sshiftRight b.toNat

/-- A signed comparison. -/
def CmpOp.Signed : CmpOp → Prop
  | slt | sle | sgt | sge => True
  | _ => False

namespace SExprVisitor.Expr

variable {R : Type}

/-! ## What expressions stand for -/

/-- The value of an inner node of width `w`, given the widths and the values of its kids. -/
def semNode (k : Kind) (w : ℕ) (kids : List (ℕ × SVal64)) : SVal64 :=
  match k, kids with
  | .select, [(_, c), (_, t), (_, f)] => if c ≠ 0 then t else f
  | .conjunction, kids => SVal64.ofBool (kids.all fun p => p.2 ≠ 0)
  | .disjunction, kids => SVal64.ofBool (kids.any fun p => p.2 ≠ 0)
  | .not, [(_, x)] => SVal64.ofBool (x = 0)
  | .cast .zext, [(w', x)] => ofBits ((bits w' x).setWidth w)
  | .cast .sext, [(w', x)] => ofBits ((bits w' x).signExtend w)
  | .cast .trunc, [(w', x)] => ofBits ((bits w' x).setWidth w)
  | .bin op, [(_, x), (_, y)] => ofBits (op.onBits (bits w x) (bits w y))
  | .cmp op, [(w', x), (_, y)] => SVal64.ofBool (op.sem w' x y)
  | _, _ => 0

mutual

/-- The value of an expression in two's-complement arithmetic. -/
def sem (ρ : R → SVal64) : Expr R → SVal64
  | concrete _ v => v
  | register _ r => ρ r
  | node k w kids => semNode k w (semKids ρ kids)

/-- The widths and the values of some kids. -/
def semKids (ρ : R → SVal64) : List (Expr R) → List (ℕ × SVal64)
  | [] => []
  | e :: kids => (e.getWidth, sem ρ e) :: semKids ρ kids

end

/-- Expressions whose widths fit. -/
inductive WellTyped : Expr R → Prop
  | concrete {w : ℕ} {v : SVal64} (h0 : 0 < w) (hw : w ≤ 64) (hv : v.toNat < 2 ^ w) :
    WellTyped (concrete w v)
  | register {w : ℕ} {r : R} (h0 : 0 < w) (hw : w ≤ 64) : WellTyped (register w r)
  | select {c t f : Expr R} (hc : WellTyped c) (ht : WellTyped t) (hf : WellTyped f)
    (hft : f.getWidth = t.getWidth) : WellTyped (node .select t.getWidth [c, t, f])
  | conjunction {kids : List (Expr R)} (hne : kids ≠ []) (hkids : ∀ e ∈ kids, WellTyped e) :
    WellTyped (node .conjunction 1 kids)
  | disjunction {kids : List (Expr R)} (hne : kids ≠ []) (hkids : ∀ e ∈ kids, WellTyped e) :
    WellTyped (node .disjunction 1 kids)
  | not {e : Expr R} (he : WellTyped e) : WellTyped (node .not 1 [e])
  | zext {w : ℕ} {e : Expr R} (he : WellTyped e) (hew : e.getWidth ≤ w) (hw : w ≤ 64) :
    WellTyped (node (.cast .zext) w [e])
  | sext {w : ℕ} {e : Expr R} (he : WellTyped e) (hew : e.getWidth ≤ w) (hw : w ≤ 64) :
    WellTyped (node (.cast .sext) w [e])
  | trunc {w : ℕ} {e : Expr R} (he : WellTyped e) (h0 : 0 < w) (hwe : w ≤ e.getWidth) :
    WellTyped (node (.cast .trunc) w [e])
  | bin {op : BinOp} {l r : Expr R} (hl : WellTyped l) (hr : WellTyped r)
    (hrl : r.getWidth = l.getWidth) : WellTyped (node (.bin op) l.getWidth [l, r])
  | cmp {op : CmpOp} {l r : Expr R} (hl : WellTyped l) (hr : WellTyped r)
    (hrl : r.getWidth = l.getWidth) : WellTyped (node (.cmp op) 1 [l, r])

mutual

/-- The registers of an expression, with their widths. -/
def registers : Expr R → List (ℕ × R)
  | concrete _ _ => []
  | register w r => [(w, r)]
  | node _ _ kids => registersKids kids

def registersKids : List (Expr R) → List (ℕ × R)
  | [] => []
  | e :: kids => registers e ++ registersKids kids

end

/-- All registers have values of their widths. -/
def InRange (ρ : R → SVal64) (e : Expr R) : Prop :=
  ∀ p ∈ registers e, (ρ p.2).toNat < 2 ^ p.1

/-! ## What the evaluator gets right -/

/-- Which kids of an inner node are evaluated, given their values. -/
def visited : Kind → List SVal64 → List Bool
  | .select, [c, _, _] => [true, c ≠ 0, c = 0]
  | .conjunction, kids => upTo (· = 0) kids
  | .disjunction, kids => upTo (· ≠ 0) kids
  | .not, _ => []
  | _, kids => kids.map fun _ => true
where
  /-- The kids up to the first with some property. -/
  upTo (stop : SVal64 → Bool) : List SVal64 → List Bool
    | [] => []
    | v :: kids => true :: if stop v then [] else upTo stop kids

/-- The kids that are evaluated. -/
def visitedKids (ρ : R → SVal64) (k : Kind) (kids : List (Expr R)) : List (Expr R) :=
  ((visited k (kids.map (sem ρ))).zip kids).filterMap fun p => if p.1 then some p.2 else none

/-- The expressions that are evaluated as parts of another one. -/
inductive Reached (ρ : R → SVal64) : Expr R → Expr R → Prop
  | refl (e : Expr R) : Reached ρ e e
  | kid {k : Kind} {w : ℕ} {kids : List (Expr R)} {e e' : Expr R}
    (he : e ∈ visitedKids ρ k kids) (h : Reached ρ e e') : Reached ρ (node k w kids) e'

/-- When arithmetic on words is right for integers of `w` bits. -/
def binRight (w : ℕ) (x y : ℕ) : BinOp → Prop
  | .add => (x + y) % 2 ^ 64 < 2 ^ w
  | .mul => (x * y) % 2 ^ 64 < 2 ^ w
  | .sub => w = 64 ∨ y ≤ x
  | .udiv => y ≠ 0
  | .urem => y ≠ 0 ∧ x / y = x % y
  | .sdiv => y ≠ 0 ∧
    ((x / y : ℕ) : ℤ) = ((BitVec.ofNat w x).toInt.tdiv (BitVec.ofNat w y).toInt) % 2 ^ w
  | .srem => y ≠ 0 ∧
    ((x / y : ℕ) : ℤ) = ((BitVec.ofNat w x).toInt.tmod (BitVec.ofNat w y).toInt) % 2 ^ w
  | .shl => y < 64 ∧ (x * 2 ^ y) % 2 ^ 64 < 2 ^ w
  | .lshr => y < 64
  | .ashr => y < 64 ∧ (x < 2 ^ (w - 1) ∨ y = 0)
  | .and | .or | .xor => True

/-- When an inner node of width `w` is right, given the widths and the values of its kids. -/
def KindRight (k : Kind) (w : ℕ) (kids : List (ℕ × SVal64)) : Prop :=
  match k, kids with
  | .not, [(_, x)] => x ≠ 0
  | .cast .sext, [(w', x)] => w = w' ∨ x.toNat < 2 ^ (w' - 1)
  | .cast .trunc, [(_, x)] => x.toNat < 2 ^ w
  | .bin op, [(_, x), (_, y)] => binRight w x.toNat y.toNat op
  | .cmp op, [(w', x), (_, y)] =>
    op.Signed → w' = 64 ∨ (x.toNat < 2 ^ (w' - 1) ↔ y.toNat < 2 ^ (w' - 1))
  | _, _ => True

/-- When a node is right, if its kids are. -/
def NodeRight (ρ : R → SVal64) : Expr R → Prop
  | node k w kids => KindRight k w (semKids ρ kids)
  | _ => True

/-! ## Inner nodes -/

section Nodes

variable {w : ℕ} {x y : SVal64}

/-- **When an arithmetic node is right.** -/
theorem runBinOp_eq_iff (h0 : 0 < w) (hw : w ≤ 64) (hx : x.toNat < 2 ^ w) (hy : y.toNat < 2 ^ w)
    (op : BinOp) : runBinOp op x y = some (ofBits (op.onBits (bits w x) (bits w y))) ↔
      binRight w x.toNat y.toNat op := by
  have hzero : y = 0 ↔ y.toNat = 0 := by rw [← UInt64.toNat_inj]; rfl
  have h64 : y < 64 ↔ y.toNat < 64 := UInt64.lt_iff_toNat_lt
  -- operations with a result, divisions and shifts
  have hdiv : ∀ {v r : SVal64} {c : Prop}, (v = r ↔ c) →
      ((if y = 0 then none else some v) = some r ↔ y.toNat ≠ 0 ∧ c) := by
    intro v r c h
    rw [← h, ne_eq, ← hzero]
    by_cases hy0 : y = 0
    · simp [hy0]
    · simp [hy0]
  have hshift : ∀ {v r : SVal64} {c : Prop}, (y.toNat < 64 → (v = r ↔ c)) →
      ((if y < 64 then some v else none) = some r ↔ y.toNat < 64 ∧ c) := by
    intro v r c h
    rw [← h64]
    by_cases hy64 : y < 64
    · simp [hy64, h (h64.1 hy64)]
    · simp [hy64]
  cases op with
  | add =>
    rw [binRight, ← UInt64.toNat_add, ← eq_ofBits_add_iff hw hx hy]
    exact Option.some_inj
  | sub =>
    rw [binRight, ← eq_ofBits_sub_iff hw hx hy]
    exact Option.some_inj
  | mul =>
    rw [binRight, ← UInt64.toNat_mul, ← eq_ofBits_mul_iff hw hx hy]
    exact Option.some_inj
  | and => exact iff_of_true (congrArg some (eq_ofBits_and hw hx hy)) trivial
  | or => exact iff_of_true (congrArg some (eq_ofBits_or hw hx hy)) trivial
  | xor => exact iff_of_true (congrArg some (eq_ofBits_xor hw hx hy)) trivial
  | udiv =>
    exact (hdiv (iff_of_true (eq_ofBits_udiv hw hx hy) trivial)).trans (and_iff_left trivial)
  | urem => exact hdiv (eq_ofBits_urem_iff hw hx hy)
  | sdiv => exact hdiv (eq_ofBits_sdiv_iff hw)
  | srem => exact hdiv (eq_ofBits_srem_iff hw)
  | shl => exact hshift fun h => eq_ofBits_shl_iff hw hx hy h
  | lshr =>
    exact (hshift fun h => iff_of_true (eq_ofBits_lshr hw hx hy h) trivial).trans
      (and_iff_left trivial)
  | ashr => exact hshift fun h => eq_ofBits_ashr_iff h0 hw hx hy h

/-- **When a comparison is right.** -/
theorem cmp_eq_iff (h0 : 0 < w) (hw : w ≤ 64) (hx : x.toNat < 2 ^ w) (hy : y.toNat < 2 ^ w)
    (op : CmpOp) : op.eval x y = op.sem w x y ↔
      (op.Signed → w = 64 ∨ (x.toNat < 2 ^ (w - 1) ↔ y.toNat < 2 ^ (w - 1))) := by
  -- unsigned comparisons are always right
  have hunsigned : ∀ {P : Prop}, ¬ op.Signed → op.eval x y = op.sem w x y →
      (op.eval x y = op.sem w x y ↔ (op.Signed → P)) := fun h heq =>
    iff_of_true heq fun hs => absurd hs h
  obtain ⟨hlt, hle⟩ := getSigned_cmp_iff h0 hw hx hy
  have hult : decide (x < y) = (bits w x).ult (bits w y) := by
    rw [BitVec.ult, toNat_bits hx, toNat_bits hy, decide_eq_decide, UInt64.lt_iff_toNat_lt]
  have hule : decide (x ≤ y) = (bits w x).ule (bits w y) := by
    rw [BitVec.ule, toNat_bits hx, toNat_bits hy, decide_eq_decide, UInt64.le_iff_toNat_le]
  cases op with
  | eq => exact hunsigned id (decide_eq_decide.2 (bits_eq_iff hx hy).symm)
  | ne => exact hunsigned id (decide_eq_decide.2 (not_congr (bits_eq_iff hx hy).symm))
  | ult => exact hunsigned id hult
  | ule => exact hunsigned id hule
  | ugt =>
    refine hunsigned id ?_
    show (!decide (x ≤ y)) = (bits w y).ult (bits w x)
    rw [hule, BitVec.ule, BitVec.ult, ← decide_not, decide_eq_decide, Nat.not_le]
  | uge =>
    refine hunsigned id ?_
    show (!decide (x < y)) = (bits w y).ule (bits w x)
    rw [hult, BitVec.ule, BitVec.ult, ← decide_not, decide_eq_decide, Nat.not_lt]
  | slt =>
    rw [← hlt, CmpOp.Signed, true_imp_iff]
    exact decide_eq_decide
  | sle =>
    rw [← hle, CmpOp.Signed, true_imp_iff]
    exact decide_eq_decide
  | sgt =>
    rw [← hle, CmpOp.Signed, true_imp_iff]
    show (!decide (x.getSigned ≤ y.getSigned)) = decide ((bits w y).toInt < (bits w x).toInt) ↔ _
    rw [← decide_not, decide_eq_decide, ← Int.not_le]
    exact not_iff_not
  | sge =>
    rw [← hlt, CmpOp.Signed, true_imp_iff]
    show (!decide (x.getSigned < y.getSigned)) = decide ((bits w y).toInt ≤ (bits w x).toInt) ↔ _
    rw [← decide_not, decide_eq_decide, ← Int.not_lt]
    exact not_iff_not

theorem eq_sext_iff {w' : ℕ} (h0 : 0 < w') (hww : w' ≤ w) (hw : w ≤ 64) (hx : x.toNat < 2 ^ w') :
    x = ofBits ((bits w' x).signExtend w) ↔ w = w' ∨ x.toNat < 2 ^ (w' - 1) := by
  have hpow : 2 ^ w' ≤ 2 ^ w := Nat.pow_le_pow_right (by omega) hww
  rw [eq_ofBits_iff hw, BitVec.toNat_signExtend, BitVec.toNat_setWidth, toNat_bits hx,
    Nat.mod_eq_of_lt (hx.trans_le hpow), BitVec.msb_eq_decide, toNat_bits hx]
  by_cases hneg : 2 ^ (w' - 1) ≤ x.toNat
  · rw [decide_eq_true hneg, if_pos rfl, or_iff_left (not_lt.2 hneg)]
    refine ⟨fun h => ?_, ?_⟩
    · by_contra hne
      have hlt : 2 ^ w' < 2 ^ w := Nat.pow_lt_pow_right (by omega) (by omega)
      omega
    · rintro rfl
      omega
  · rw [decide_eq_false hneg, if_neg (by simp)]
    exact iff_of_true rfl (.inr (not_le.1 hneg))

theorem eq_zext {w' : ℕ} (hww : w' ≤ w) (hw : w ≤ 64) (hx : x.toNat < 2 ^ w') :
    x = ofBits ((bits w' x).setWidth w) := by
  have hpow : 2 ^ w' ≤ 2 ^ w := Nat.pow_le_pow_right (by omega) hww
  rw [eq_ofBits_iff hw, BitVec.toNat_setWidth, toNat_bits hx, Nat.mod_eq_of_lt (hx.trans_le hpow)]

theorem eq_trunc_iff {w' : ℕ} (hw : w ≤ 64) (hx : x.toNat < 2 ^ w') :
    x = ofBits ((bits w' x).setWidth w) ↔ x.toNat < 2 ^ w := by
  refine eq_ofBits_iff_lt hw ?_
  rw [BitVec.toNat_setWidth, toNat_bits hx]

theorem ofBool_lt (b : Bool) : (SVal64.ofBool b).toNat < 2 ^ 1 := by
  cases b <;> decide

theorem ofBool_inj {b c : Bool} : SVal64.ofBool b = SVal64.ofBool c ↔ b = c := by
  cases b <;> cases c <;> decide

theorem getBool_iff {v : SVal64} : v.getBool = true ↔ v ≠ 0 := by
  rw [SVal64.getBool, decide_eq_true_eq]

end Nodes

/-! ## Kids -/

theorem semKids_eq (ρ : R → SVal64) (kids : List (Expr R)) :
    semKids ρ kids = kids.map fun e => (e.getWidth, sem ρ e) := by
  induction kids with
  | nil => rw [semKids, List.map_nil]
  | cons e kids ih => rw [semKids, ih, List.map_cons]

theorem registersKids_eq (kids : List (Expr R)) : registersKids kids = kids.flatMap registers := by
  induction kids with
  | nil => rw [registersKids, List.flatMap_nil]
  | cons e kids ih => rw [registersKids, ih, List.flatMap_cons]

variable {ρ : R → SVal64}

theorem InRange.kid {k : Kind} {w : ℕ} {kids : List (Expr R)} (h : InRange ρ (node k w kids))
    {e : Expr R} (he : e ∈ kids) : InRange ρ e := by
  intro p hp
  refine h p ?_
  rw [registers, registersKids_eq]
  exact List.mem_flatMap.2 ⟨e, he, hp⟩

theorem WellTyped.kid {k : Kind} {w : ℕ} {kids : List (Expr R)} (h : WellTyped (node k w kids))
    {e : Expr R} (he : e ∈ kids) : WellTyped e := by
  cases h with
  | select hc ht hf hft =>
    simp only [List.mem_cons, List.not_mem_nil, or_false] at he
    rcases he with rfl | rfl | rfl
    · exact hc
    · exact ht
    · exact hf
  | conjunction _ hkids => exact hkids e he
  | disjunction _ hkids => exact hkids e he
  | not he' => rwa [List.mem_singleton.1 he]
  | zext he' _ _ => rwa [List.mem_singleton.1 he]
  | sext he' _ _ => rwa [List.mem_singleton.1 he]
  | trunc he' _ _ => rwa [List.mem_singleton.1 he]
  | bin hl hr _ =>
    simp only [List.mem_cons, List.not_mem_nil, or_false] at he
    rcases he with rfl | rfl
    · exact hl
    · exact hr
  | cmp hl hr _ =>
    simp only [List.mem_cons, List.not_mem_nil, or_false] at he
    rcases he with rfl | rfl
    · exact hl
    · exact hr

/-- Widths are those of words, and values fit. -/
theorem WellTyped.sem_lt {e : Expr R} (h : WellTyped e) (hin : InRange ρ e) :
    0 < e.getWidth ∧ e.getWidth ≤ 64 ∧ (sem ρ e).toNat < 2 ^ e.getWidth := by
  have hbool : ∀ b, 0 < 1 ∧ 1 ≤ 64 ∧ (SVal64.ofBool b).toNat < 2 ^ 1 := fun b =>
    ⟨by decide, by decide, ofBool_lt b⟩
  induction h with
  | concrete h0 hw hv =>
    rw [sem]
    exact ⟨h0, hw, hv⟩
  | @register w r h0 hw =>
    rw [sem]
    exact ⟨h0, hw, hin (w, r) (by rw [registers]; exact List.mem_singleton.2 rfl)⟩
  | @select c t f _ _ _ hft _ iht ihf =>
    obtain ⟨h0, hw, ht⟩ := iht (hin.kid (by simp))
    obtain ⟨-, -, hf⟩ := ihf (hin.kid (by simp))
    rw [hft] at hf
    refine ⟨h0, hw, ?_⟩
    rw [sem, semKids_eq]
    simp only [List.map_cons, List.map_nil, semNode]
    split
    · exact ht
    · exact hf
  | conjunction hne hkids ih => rw [sem]; exact hbool _
  | disjunction hne hkids ih => rw [sem]; exact hbool _
  | not he ih => rw [sem]; exact hbool _
  | zext he hew hw ih =>
    obtain ⟨h0, -, -⟩ := ih (hin.kid (by simp))
    rw [sem]
    exact ⟨h0.trans_le hew, hw, ofBits_lt hw _⟩
  | sext he hew hw ih =>
    obtain ⟨h0, -, -⟩ := ih (hin.kid (by simp))
    rw [sem]
    exact ⟨h0.trans_le hew, hw, ofBits_lt hw _⟩
  | trunc he h0 hwe ih =>
    obtain ⟨-, hw, -⟩ := ih (hin.kid (by simp))
    rw [sem]
    exact ⟨h0, hwe.trans hw, ofBits_lt (hwe.trans hw) _⟩
  | bin hl hr hrl ihl _ =>
    obtain ⟨h0, hw, -⟩ := ihl (hin.kid (by simp))
    rw [sem]
    exact ⟨h0, hw, ofBits_lt hw _⟩
  | cmp hl hr hrl _ _ => rw [sem]; exact hbool _

/-- The kids of a conjunction or a disjunction that are evaluated. -/
def upToKids (ρ : R → SVal64) (stop : SVal64 → Bool) (kids : List (Expr R)) : List (Expr R) :=
  ((visited.upTo stop (kids.map (sem ρ))).zip kids).filterMap fun p =>
    if p.1 then some p.2 else none

theorem upToKids_cons (stop : SVal64 → Bool) (e : Expr R) (kids : List (Expr R)) :
    upToKids ρ stop (e :: kids) =
      e :: if stop (sem ρ e) then [] else upToKids ρ stop kids := by
  rw [upToKids, List.map_cons, visited.upTo, List.zip_cons_cons, List.filterMap_cons]
  simp only [if_true]
  split
  · rw [List.zip_nil_left, List.filterMap_nil]
  · rfl

variable {reg : R → Option SVal64}

/-- A conjunction is right if the kids that are evaluated are. -/
theorem allOf_eq {kids : List (Expr R)}
    (h : ∀ e ∈ upToKids ρ (· = 0) kids, e.eval reg = some (sem ρ e)) :
    allOf (kids.map (eval reg)) = some ((semKids ρ kids).all fun p => p.2 ≠ 0) := by
  induction kids with
  | nil => rfl
  | cons e kids ih =>
    rw [upToKids_cons] at h
    have he := h e (List.mem_cons_self ..)
    rw [List.map_cons, allOf, he, semKids, List.all_cons]
    show (if (sem ρ e).getBool then _ else _) = _
    by_cases hzero : sem ρ e = 0
    · rw [if_neg (by rw [getBool_iff]; exact not_not.2 hzero)]
      simp [hzero]
    · rw [if_neg (by simpa using hzero)] at h
      rw [if_pos (getBool_iff.2 hzero), ih fun e' he' => h e' (List.mem_cons_of_mem _ he')]
      simp [hzero]

/-- A disjunction is right if the kids that are evaluated are. -/
theorem anyOf_eq {kids : List (Expr R)}
    (h : ∀ e ∈ upToKids ρ (· ≠ 0) kids, e.eval reg = some (sem ρ e)) :
    anyOf (kids.map (eval reg)) = some ((semKids ρ kids).any fun p => p.2 ≠ 0) := by
  induction kids with
  | nil => rfl
  | cons e kids ih =>
    rw [upToKids_cons] at h
    have he := h e (List.mem_cons_self ..)
    rw [List.map_cons, anyOf, he, semKids, List.any_cons]
    show (if (sem ρ e).getBool then _ else _) = _
    by_cases hzero : sem ρ e = 0
    · rw [if_neg (by simpa using hzero)] at h
      rw [if_neg (by rw [getBool_iff]; exact not_not.2 hzero),
        ih fun e' he' => h e' (List.mem_cons_of_mem _ he')]
      simp [hzero]
    · rw [if_pos (getBool_iff.2 hzero)]
      simp [hzero]

theorem visitedKids_subset {k : Kind} {kids : List (Expr R)} {e : Expr R}
    (he : e ∈ visitedKids ρ k kids) : e ∈ kids := by
  obtain ⟨p, hp, hpe⟩ := List.mem_filterMap.1 he
  split at hpe
  · cases hpe
    exact (List.of_mem_zip hp).2
  · cases hpe

theorem visitedKids_map (k : Kind) (h : ∀ kids, visited k kids = kids.map fun _ => true)
    (kids : List (Expr R)) : visitedKids ρ k kids = kids := by
  rw [visitedKids, h, List.map_map]
  induction kids with
  | nil => rfl
  | cons e kids ih =>
    rw [List.map_cons, List.zip_cons_cons, List.filterMap_cons]
    simpa using ih

/-- **An inner node whose kids are right is right exactly if `NodeRight` says so.** -/
theorem evalNode_eq_iff {k : Kind} {w : ℕ} {kids : List (Expr R)}
    (h : WellTyped (node k w kids)) (hin : InRange ρ (node k w kids))
    (hkids : ∀ e ∈ visitedKids ρ k kids, e.eval reg = some (sem ρ e)) :
    (node k w kids).eval reg = some (sem ρ (node k w kids)) ↔ NodeRight ρ (node k w kids) := by
  rw [eval, evalKids_eq, sem, NodeRight]
  -- the kids of a node all of whose kids are evaluated
  have hall : (∀ vals, visited k vals = vals.map fun _ => true) → ∀ e ∈ kids,
      e.eval reg = some (sem ρ e) := fun hk e he => hkids e (by rwa [visitedKids_map k hk])
  have hlt : ∀ e ∈ kids, 0 < e.getWidth ∧ e.getWidth ≤ 64 ∧ (sem ρ e).toNat < 2 ^ e.getWidth :=
    fun e he => (h.kid he).sem_lt (hin.kid he)
  cases h with
  | @select c t f hc ht hf hft =>
    refine iff_of_true ?_ trivial
    have hcond : c.eval reg = some (sem ρ c) := hkids c (by simp [visitedKids, visited])
    simp only [List.map_cons, List.map_nil, evalNode, hcond, semKids, semNode]
    show (if (sem ρ c).getBool then _ else _) = _
    by_cases hzero : sem ρ c = 0
    · rw [if_neg (by rw [getBool_iff]; exact not_not.2 hzero), if_neg (not_not.2 hzero)]
      exact hkids f (by simp [visitedKids, visited, hzero])
    · rw [if_pos (getBool_iff.2 hzero), if_pos hzero]
      exact hkids t (by simp [visitedKids, visited, hzero])
  | conjunction =>
    refine iff_of_true ?_ trivial
    rw [evalNode, allOf_eq hkids]
    rfl
  | disjunction =>
    refine iff_of_true ?_ trivial
    rw [evalNode, anyOf_eq hkids]
    rfl
  | @not e =>
    -- the kid is not evaluated
    show some 0 = some (SVal64.ofBool (sem ρ e = 0)) ↔ sem ρ e ≠ 0
    by_cases hzero : sem ρ e = 0
    · simp [hzero, SVal64.ofBool]
    · simp [hzero, SVal64.ofBool]
  | @zext w e he hew hw =>
    refine iff_of_true ?_ trivial
    obtain ⟨-, -, hx⟩ := hlt e (List.mem_singleton.2 rfl)
    show e.eval reg = _
    rw [hall (fun _ => rfl) e (List.mem_singleton.2 rfl)]
    exact congrArg some (eq_zext hew hw hx)
  | @sext w e he hew hw =>
    obtain ⟨h0, -, hx⟩ := hlt e (List.mem_singleton.2 rfl)
    show e.eval reg = _ ↔ _
    rw [hall (fun _ => rfl) e (List.mem_singleton.2 rfl)]
    exact Option.some_inj.trans (eq_sext_iff h0 hew hw hx)
  | @trunc w e he h0 hwe =>
    obtain ⟨-, hw, hx⟩ := hlt e (List.mem_singleton.2 rfl)
    show e.eval reg = _ ↔ _
    rw [hall (fun _ => rfl) e (List.mem_singleton.2 rfl)]
    exact Option.some_inj.trans (eq_trunc_iff (hwe.trans hw) hx)
  | @bin op l r hl hr hrl =>
    obtain ⟨h0, hw, hx⟩ := hlt l (by simp)
    obtain ⟨-, -, hy⟩ := hlt r (by simp)
    rw [hrl] at hy
    have hkl := hall (fun _ => rfl) l (by simp)
    have hkr := hall (fun _ => rfl) r (by simp)
    rw [List.map_cons, List.map_cons, List.map_nil, evalNode, hkl, hkr]
    show (runBinOp op (sem ρ l) (sem ρ r)).elim (throw ()) pure = _ ↔ _
    have helim : (runBinOp op (sem ρ l) (sem ρ r)).elim (throw () : Option SVal64) pure =
        runBinOp op (sem ρ l) (sem ρ r) := by
      cases runBinOp op (sem ρ l) (sem ρ r) <;> rfl
    rw [helim]
    exact runBinOp_eq_iff h0 hw hx hy op
  | @cmp op l r hl hr hrl =>
    obtain ⟨h0, hw, hx⟩ := hlt l (by simp)
    obtain ⟨-, -, hy⟩ := hlt r (by simp)
    rw [hrl] at hy
    have hkl := hall (fun _ => rfl) l (by simp)
    have hkr := hall (fun _ => rfl) r (by simp)
    rw [List.map_cons, List.map_cons, List.map_nil, evalNode, hkl, hkr]
    show some (SVal64.ofBool (op.eval (sem ρ l) (sem ρ r))) =
      some (SVal64.ofBool (op.sem l.getWidth (sem ρ l) (sem ρ r))) ↔ _
    exact (Option.some_inj.trans ofBool_inj).trans (cmp_eq_iff h0 hw hx hy op)

/-! ## Whole expressions -/

/-- What is reached is evaluated right exactly if all nodes that are reached are right. -/
theorem eval_right_iff (e : Expr R) (h : WellTyped e) (hin : InRange ρ e) :
    (∀ e', Reached ρ e e' → e'.eval (fun x => some (ρ x)) = some (sem ρ e')) ↔
      ∀ e', Reached ρ e e' → NodeRight ρ e' := by
  induction e using ind with
  | hconcrete w v =>
    refine iff_of_true (fun e' he' => ?_) fun e' he' => ?_ <;> cases he'
    · rw [eval, sem]
      rfl
    · trivial
  | hregister w x =>
    refine iff_of_true (fun e' he' => ?_) fun e' he' => ?_ <;> cases he'
    · rw [eval, sem]
    · trivial
  | hnode k w kids ih =>
    have ih := fun e he => ih e he (h.kid he) (hin.kid he)
    refine ⟨fun hright e' he' => ?_, fun hright e' he' => ?_⟩
    · cases he' with
      | refl =>
        exact (evalNode_eq_iff h hin fun e he => hright e (.kid he (.refl e))).1
          (hright _ (.refl _))
      | kid he he' =>
        exact (ih _ (visitedKids_subset he)).1 (fun e'' he'' => hright e'' (.kid he he'')) _ he'
    · have hkids := fun e (he : e ∈ visitedKids ρ k kids) =>
        (ih e (visitedKids_subset he)).2 fun e'' he'' => hright e'' (.kid he he'')
      cases he' with
      | refl =>
        exact (evalNode_eq_iff h hin fun e he => hkids e he e (.refl e)).2 (hright _ (.refl _))
      | kid he he' => exact hkids _ he _ he'

/-- The values of the registers in a map. -/
def valueOf (m : R → Option SVal64) (x : R) : SVal64 := (m x).getD 42

/-- All registers have values of their widths. -/
def Assigned (m : R → Option SVal64) (e : Expr R) : Prop :=
  ∀ p ∈ registers e, ∃ v, m p.2 = some v ∧ v.toNat < 2 ^ p.1

theorem Assigned.inRange {m : R → Option SVal64} {e : Expr R} (h : Assigned m e) :
    InRange (valueOf m) e := by
  intro p hp
  obtain ⟨v, hv, hlt⟩ := h p hp
  rw [valueOf, hv]
  exact hlt

/-- **What is reached in an expression is evaluated to what it stands for** exactly if every node
that is reached is right; and so is then the expression. -/
theorem evaluate_right_iff [DecidableEq R] (e : Expr R) (m : R → Option SVal64) (h : WellTyped e)
    (hm : Assigned m e) :
    ((∀ e', Reached (valueOf m) e e' → result e' m = some (sem (valueOf m) e')) ↔
      ∀ e', Reached (valueOf m) e e' → NodeRight (valueOf m) e') ∧
    ((∀ e', Reached (valueOf m) e e' → NodeRight (valueOf m) e') →
      result e m = some (sem (valueOf m) e)) := by
  have hiff : (∀ e', Reached (valueOf m) e e' → result e' m = some (sem (valueOf m) e')) ↔
      ∀ e', Reached (valueOf m) e e' → NodeRight (valueOf m) e' := by
    rw [← eval_right_iff e h hm.inRange]
    exact forall_congr' fun e' => imp_congr_right fun _ => by rw [result_eq]; rfl
  exact ⟨hiff, fun hright => hiff.2 hright e (.refl e)⟩

/-- The sum of two bytes that fits. -/
theorem evaluate_right_add : result (node (.bin .add) 8 [register 8 0, concrete 8 5])
    (fun _ : ℕ => some 250) = some 255 := by
  refine (evaluate_right_iff (node (.bin .add) 8 [register 8 0, concrete 8 5])
    (fun _ : ℕ => some 250) (.bin (.register (by decide) (by decide))
      (.concrete (by decide) (by decide) (by decide)) rfl) (fun p hp => ?_)).2 fun e' he' => ?_
  · obtain rfl := List.mem_singleton.1 hp
    exact ⟨250, rfl, by decide⟩
  · cases he' with
    | refl => exact (by decide : (250 + 5) % 2 ^ 64 < 2 ^ 8)
    | kid he he' =>
      obtain rfl | rfl : _ = _ ∨ _ = _ := by simpa [visitedKids, visited] using he
      · cases he'
        trivial
      · cases he'
        trivial

/-- No divisor that is reached is zero. -/
def NoZeroDivisor (ρ : R → SVal64) (e : Expr R) : Prop :=
  ∀ (op : BinOp) (w : ℕ) (l r : Expr R), Reached ρ e (node (.bin op) w [l, r]) →
    op = .udiv ∨ op = .sdiv ∨ op = .urem ∨ op = .srem → sem ρ r ≠ 0

/-- The negation of zero should be one, but is zero. -/
theorem negation_of_false : ¬ ∀ (e : Expr ℕ) (m : ℕ → Option SVal64), WellTyped e → Assigned m e →
    NoZeroDivisor (valueOf m) e → result e m = some (sem (valueOf m) e) := by
  intro hall
  have := hall (node .not 1 [register 1 0]) (fun _ => some 0)
    (.not (.register (by decide) (by decide))) (fun p hp => ?_) (fun op w l r hr => ?_)
  · exact absurd this (by decide)
  · obtain rfl := List.mem_singleton.1 hp
    exact ⟨0, rfl, by decide⟩
  · cases hr with
    | kid he _ => exact absurd he (by simp [visitedKids, visited])

end SExprVisitor.Expr
end GenMC
