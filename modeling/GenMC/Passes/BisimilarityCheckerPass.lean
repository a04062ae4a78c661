import Mathlib.Data.List.Chain
import Mathlib.Data.List.TakeWhile
import Mathlib.Data.Nat.Notation

/-!
# Bisimilarity points

Two blocks that lead to the same place are compared backwards from their ends.  A pair of
instructions is a *bisimilarity point* if both are identical, or if both are the same operation and
their operands are: a pair of operands that is not known to be so yet is a *constraint* of the pair.
A pair that is found further up solves the constraints that are this very pair, and its own
constraints take their place (`filterCandidateConstraints`).

* `getBsPoints_sound` says that the points that are found are what they should be (`Bisimilar`).
* `replaces_iff` says when the constraints that are solved are all replaced.  A pair without
  constraints of its own misses some of them: the one after a constraint it solves is skipped.
-/

set_option autoImplicit false

namespace GenMC.Bisimilarity

/-- Values, by what they are and their identity. -/
inductive Value
  | instruction (i : ℕ)
  | constant (n : ℕ)
  | basicBlock (n : ℕ)
  | other (n : ℕ)
deriving DecidableEq, Repr

/-- `dyn_cast<Instruction>`. -/
def Value.asInstruction : Value → Option ℕ
  | instruction i => some i
  | _ => none

/-- `isa<Constant>` or `isa<BasicBlock>`. -/
def Value.isConstantOrBlock : Value → Bool
  | constant _ | basicBlock _ => true
  | _ => false

abbrev BsPoint := ℕ × ℕ

abbrev Constraint := Value × Value

/-- A point is a bisimilarity point once its constraints are gone. -/
structure ConstrainedBsPoint where
  p : BsPoint
  constraints : List Constraint
deriving DecidableEq, Repr

/-- What is asked about instructions: how two of them compare, and the operands of each.  Two that
are the same operation have the same number of operands. -/
structure Instructions where
  isIdenticalTo : ℕ → ℕ → Bool
  isSameOperationAs : ℕ → ℕ → Bool
  operands : ℕ → List Value

/-- The candidates up to the first one that has constraints. -/
def getSatisfiableCandidates (candidates : List ConstrainedBsPoint) : List BsPoint :=
  (candidates.takeWhile (·.constraints.isEmpty)).map (·.p)

def solvesConstraint (bsp : BsPoint) (c : Constraint) : Bool :=
  match c.1.asInstruction, c.2.asInstruction with
  | some c₁, some c₂ => decide ((c₁, c₂) = bsp)
  | _, _ => false

/-- The loop over the constraints of a candidate, with those before the iterator and those from it
on. -/
def filterConstraints (bsp : BsPoint) (cs : List Constraint) :
    List Constraint → List Constraint → List Constraint
  | before, [] => before
  | before, c :: after =>
    if solvesConstraint bsp c then
      if cs.isEmpty then
        -- the iterator already is at the next constraint, and moves on nevertheless
        match after with
        | [] => before
        | d :: after => filterConstraints bsp cs (before ++ [d]) after
      else filterConstraints bsp cs (before ++ cs) after
    else filterConstraints bsp cs (before ++ [c]) after

def filterCandidateConstraints (bsp : BsPoint) (cs : List Constraint)
    (candidates : List ConstrainedBsPoint) : List ConstrainedBsPoint :=
  candidates.map (fun cnd =>
    { cnd with constraints := filterConstraints bsp cs [] cnd.constraints })
    ++ [⟨bsp, cs⟩]

/-- The constraints of two instructions that are the same operation, if constants and blocks
agree. -/
def operatorConstraints : List (Value × Value) → Option (List Constraint)
  | [] => some []
  | (opA, opB) :: ops =>
    if opA.isConstantOrBlock then if opA = opB then operatorConstraints ops else none
    else (operatorConstraints ops).map ((opA, opB) :: ·)

def calcOperatorConstraints (ir : Instructions) (a b : ℕ) : Option (List Constraint) :=
  operatorConstraints ((ir.operands a).zip (ir.operands b))

/-- The instructions of both blocks come from the ends on, backwards. -/
def calcBsPointCandidates (ir : Instructions) :
    List ℕ → List ℕ → List ConstrainedBsPoint → List ConstrainedBsPoint
  | a :: as, b :: bs, candidates =>
    if ir.isIdenticalTo a b then
      calcBsPointCandidates ir as bs (filterCandidateConstraints (a, b) [] candidates)
    else if ir.isSameOperationAs a b then
      match calcOperatorConstraints ir a b with
      | none => candidates
      | some cs => calcBsPointCandidates ir as bs (filterCandidateConstraints (a, b) cs candidates)
    else candidates
  | _, _, candidates => candidates

def getBsPoints (ir : Instructions) (as bs : List ℕ) : List BsPoint :=
  getSatisfiableCandidates (calcBsPointCandidates ir as bs [])

/-! ## The loop over the constraints -/

variable {bsp : BsPoint} {cs : List Constraint}

theorem eq_of_solvesConstraint {c : Constraint} (h : solvesConstraint bsp c = true) :
    c = (.instruction bsp.1, .instruction bsp.2) := by
  obtain ⟨v, w⟩ := c
  cases v <;> cases w <;>
    simp only [solvesConstraint, Value.asInstruction, decide_eq_true_eq, Bool.false_eq_true] at h
  rw [← h]

/-- A list of constraints with those replaced that are solved. -/
def replaceSolved (bsp : BsPoint) (cs l : List Constraint) : List Constraint :=
  l.flatMap fun c => if solvesConstraint bsp c then cs else [c]

theorem replaceSolved_cons (bsp : BsPoint) (cs : List Constraint) (c : Constraint)
    (l : List Constraint) : replaceSolved bsp cs (c :: l) =
      (if solvesConstraint bsp c then cs else [c]) ++ replaceSolved bsp cs l :=
  List.flatMap_cons

/-- No two constraints that follow each other are solved. -/
def NoAdjacent (bsp : BsPoint) (l : List Constraint) : Prop :=
  l.IsChain fun c d => ¬ (solvesConstraint bsp c = true ∧ solvesConstraint bsp d = true)

instance (bsp : BsPoint) (l : List Constraint) : Decidable (NoAdjacent bsp l) :=
  inferInstanceAs (Decidable (List.IsChain _ _))

theorem filterConstraints_of_not_solves {c : Constraint} (hc : solvesConstraint bsp c = false)
    (before after : List Constraint) : filterConstraints bsp cs before (c :: after) =
      filterConstraints bsp cs (before ++ [c]) after := by
  rw [filterConstraints.eq_def]
  simp only [hc, Bool.false_eq_true, if_false]

/-- A point with constraints of its own replaces what it solves. -/
theorem filterConstraints_of_ne_nil (hcs : cs ≠ []) (before l : List Constraint) :
    filterConstraints bsp cs before l = before ++ replaceSolved bsp cs l := by
  induction l generalizing before with
  | nil => exact (List.append_nil before).symm
  | cons c l ih =>
    rw [replaceSolved_cons, ← List.append_assoc]
    cases hc : solvesConstraint bsp c with
    | true =>
      rw [filterConstraints.eq_def]
      simp only [hc, if_true, List.isEmpty_iff, hcs, if_false]
      exact ih _
    | false => rw [filterConstraints_of_not_solves hc, ih, if_neg Bool.false_ne_true]

/-- What was passed stays. -/
theorem exists_filterConstraints_eq (before l : List Constraint) :
    ∃ r, filterConstraints bsp [] before l = before ++ r := by
  induction before, l using filterConstraints.induct bsp [] with
  | case1 before => exact ⟨[], (List.append_nil before).symm⟩
  | case2 before c hc =>
    refine ⟨[], ?_⟩
    rw [filterConstraints.eq_def]
    simp [hc]
  | case3 before c hc _ d after ih =>
    obtain ⟨r, hr⟩ := ih
    refine ⟨d :: r, ?_⟩
    rw [filterConstraints.eq_def]
    simpa [hc] using hr
  | case4 before c after hc hcs => exact absurd rfl hcs
  | case5 before c after hc ih =>
    obtain ⟨r, hr⟩ := ih
    refine ⟨c :: r, ?_⟩
    rw [filterConstraints_of_not_solves (Bool.eq_false_iff.2 hc), hr, List.append_assoc]
    rfl

theorem not_solves_of_mem_replaceSolved {l : List Constraint} {c : Constraint}
    (h : c ∈ replaceSolved bsp [] l) : solvesConstraint bsp c = false := by
  obtain ⟨d, -, hmem⟩ := List.mem_flatMap.1 h
  split at hmem
  · cases hmem
  · rename_i hd
    rw [List.mem_singleton.1 hmem, Bool.eq_false_iff]
    exact hd

theorem noAdjacent_cons {c : Constraint} {l : List Constraint}
    (hc : solvesConstraint bsp c = false) : NoAdjacent bsp (c :: l) ↔ NoAdjacent bsp l := by
  rw [NoAdjacent, List.isChain_cons]
  refine and_iff_right fun d _ hd => ?_
  rw [hc] at hd
  cases hd.1

/-- A point without constraints of its own erases what it solves, but for what follows at once. -/
theorem filterConstraints_nil_iff (before l : List Constraint) :
    filterConstraints bsp [] before l = before ++ replaceSolved bsp [] l ↔ NoAdjacent bsp l := by
  induction before, l using filterConstraints.induct bsp [] with
  | case1 before => exact iff_of_true (List.append_nil before).symm .nil
  | case2 before c hc =>
    refine iff_of_true ?_ (.singleton c)
    rw [filterConstraints.eq_def, replaceSolved_cons]
    simp [hc, replaceSolved]
  | case3 before c hc _ d after ih =>
    have hfilter : filterConstraints bsp [] before (c :: d :: after) =
        filterConstraints bsp [] (before ++ [d]) after := by
      rw [filterConstraints.eq_def]
      simp [hc]
    rw [hfilter, replaceSolved_cons, if_pos hc, List.nil_append]
    cases hd : solvesConstraint bsp d with
    | true =>
      -- the next constraint is solved too, and stays
      refine iff_of_false (fun heq => ?_) fun h => (List.isChain_cons_cons.1 h).1 ⟨hc, hd⟩
      obtain ⟨r, hr⟩ : ∃ r, filterConstraints bsp [] (before ++ [d]) after = before ++ [d] ++ r :=
        exists_filterConstraints_eq (before ++ [d]) after
      rw [hr, List.append_assoc, List.append_cancel_left_eq] at heq
      have hmem : d ∈ replaceSolved bsp [] (d :: after) := by
        rw [← heq]
        exact List.mem_cons_self
      rw [not_solves_of_mem_replaceSolved hmem] at hd
      cases hd
    | false =>
      have hchain : NoAdjacent bsp (c :: d :: after) ↔ NoAdjacent bsp (d :: after) := by
        rw [NoAdjacent, List.isChain_cons_cons]
        refine and_iff_right fun h => ?_
        rw [hd] at h
        cases h.2
      rw [replaceSolved_cons, hd, if_neg Bool.false_ne_true, ← List.append_assoc, ih, hchain,
        noAdjacent_cons hd]
  | case4 before c after hc hcs => exact absurd rfl hcs
  | case5 before c after hc ih =>
    have hc := Bool.eq_false_iff.2 hc
    rw [filterConstraints_of_not_solves hc, replaceSolved_cons, hc, if_neg Bool.false_ne_true,
      ← List.append_assoc, ih, noAdjacent_cons hc]

theorem filterConstraints_eq_iff (l : List Constraint) :
    filterConstraints bsp cs [] l = replaceSolved bsp cs l ↔ cs ≠ [] ∨ NoAdjacent bsp l := by
  by_cases hcs : cs = []
  · subst hcs
    rw [or_iff_right (not_not.2 rfl)]
    exact filterConstraints_nil_iff [] l
  · exact iff_of_true (filterConstraints_of_ne_nil hcs [] l) (.inl hcs)

/-- The earlier candidates keep their points, and have what is solved replaced in their
constraints. -/
def Replaces (bsp : BsPoint) (cs : List Constraint) (candidates : List ConstrainedBsPoint) : Prop :=
  (filterCandidateConstraints bsp cs candidates).take candidates.length =
    candidates.map fun cnd => { cnd with constraints := replaceSolved bsp cs cnd.constraints }

/-- **What is solved is replaced** in all candidates, if and only if the point has constraints of
its own or no candidate has two constraints after each other that it solves. -/
theorem replaces_iff (bsp : BsPoint) (cs : List Constraint)
    (candidates : List ConstrainedBsPoint) : Replaces bsp cs candidates ↔
      cs ≠ [] ∨ ∀ cnd ∈ candidates, NoAdjacent bsp cnd.constraints := by
  rw [Replaces, filterCandidateConstraints, List.take_left' (List.length_map _),
    List.map_inj_left]
  have heach : ∀ cnd ∈ candidates,
      ((⟨cnd.p, filterConstraints bsp cs [] cnd.constraints⟩ : ConstrainedBsPoint) =
        ⟨cnd.p, replaceSolved bsp cs cnd.constraints⟩ ↔
      cs ≠ [] ∨ NoAdjacent bsp cnd.constraints) := fun cnd _ => by
    rw [ConstrainedBsPoint.mk.injEq, and_iff_right rfl, filterConstraints_eq_iff]
  rw [forall₂_congr heach]
  by_cases hcs : cs = []
  · simp only [hcs, ne_eq, not_true_eq_false, false_or]
  · simp only [hcs, ne_eq, not_false_eq_true, true_or, implies_true]

/-- A candidate that uses the result of the same instruction twice keeps one of its constraints. -/
theorem not_replaces_twice :
    ¬ Replaces (1, 2) []
      [⟨(3, 4), [(.instruction 1, .instruction 2), (.instruction 1, .instruction 2)]⟩] := by
  unfold Replaces
  decide

/-! ## The points that are found -/

/-- Instructions of which one can be replaced by the other: identical ones, and those that do the
same to operands of this kind. -/
inductive Bisimilar (ir : Instructions) : Value → Value → Prop
  | identical {a b : ℕ} (h : ir.isIdenticalTo a b = true) :
      Bisimilar ir (.instruction a) (.instruction b)
  | operation {a b : ℕ} (h : ir.isSameOperationAs a b = true)
      (hops : ∀ ops ∈ (ir.operands a).zip (ir.operands b), ops.1 ≠ ops.2 →
        Bisimilar ir ops.1 ops.2) :
      Bisimilar ir (.instruction a) (.instruction b)

variable {ir : Instructions}

/-- A candidate is a bisimilarity point if its constraints are pairs of such values. -/
def ConstrainedBsPoint.Sound (ir : Instructions) (cnd : ConstrainedBsPoint) : Prop :=
  (∀ c ∈ cnd.constraints, Bisimilar ir c.1 c.2) →
    Bisimilar ir (.instruction cnd.p.1) (.instruction cnd.p.2)

/-- Operands that are different become constraints. -/
theorem mem_operatorConstraints {ops : List (Value × Value)} {cs : List Constraint}
    (h : operatorConstraints ops = some cs) {o : Value × Value} (ho : o ∈ ops)
    (hne : o.1 ≠ o.2) : o ∈ cs := by
  induction ops generalizing cs with
  | nil => cases ho
  | cons o' ops ih =>
    obtain ⟨opA, opB⟩ := o'
    rw [operatorConstraints] at h
    split at h
    · split at h
      · rename_i heq
        rcases List.mem_cons.1 ho with rfl | ho
        · exact absurd heq hne
        · exact ih h ho
      · cases h
    · obtain ⟨cs', hcs', rfl⟩ := Option.map_eq_some_iff.1 h
      rcases List.mem_cons.1 ho with rfl | ho
      · exact List.mem_cons_self
      · exact List.mem_cons_of_mem _ (ih hcs' ho)

/-- Nothing gets lost: what is not in the list any more was solved, and the new constraints are. -/
theorem mem_filterConstraints {before l : List Constraint} {c : Constraint}
    (hc : c ∈ before ++ l) : c ∈ filterConstraints bsp cs before l ∨
      (solvesConstraint bsp c = true ∧ ∀ d ∈ cs, d ∈ filterConstraints bsp cs before l) := by
  by_cases hcs : cs = []
  · subst hcs
    simp only [List.not_mem_nil, false_implies, implies_true, and_true]
    induction before, l using filterConstraints.induct bsp [] with
    | case1 before =>
      rw [List.append_nil] at hc
      exact .inl hc
    | case2 before d hd =>
      rw [filterConstraints.eq_def]
      rcases List.mem_append.1 hc with hc | hc
      · exact .inl (by simpa [hd] using hc)
      · exact .inr (List.mem_singleton.1 hc ▸ hd)
    | case3 before d hd _ d' after ih =>
      rw [filterConstraints.eq_def]
      simp only [hd, if_true, List.isEmpty_nil]
      by_cases hcd : c = d
      · exact .inr (hcd ▸ hd)
      · refine ih ?_
        simpa [hcd] using hc
    | case4 before d after hd hcs => exact absurd rfl hcs
    | case5 before d after hd ih =>
      rw [filterConstraints_of_not_solves (Bool.eq_false_iff.2 hd)]
      refine ih ?_
      rwa [List.append_assoc]
  · rw [filterConstraints_of_ne_nil hcs]
    rcases List.mem_append.1 hc with hc | hc
    · exact .inl (List.mem_append_left _ hc)
    · cases hsolves : solvesConstraint bsp c with
      | true =>
        refine .inr ⟨rfl, fun d hd => List.mem_append_right _ (List.mem_flatMap.2 ⟨c, hc, ?_⟩)⟩
        rwa [if_pos hsolves]
      | false =>
        refine .inl (List.mem_append_right _ (List.mem_flatMap.2 ⟨c, hc, ?_⟩))
        rw [hsolves, if_neg Bool.false_ne_true]
        exact List.mem_singleton_self c

/-- A candidate stays sound when it is filtered by a sound point. -/
theorem ConstrainedBsPoint.Sound.filter {cnd : ConstrainedBsPoint} (h : cnd.Sound ir)
    (hbsp : (⟨bsp, cs⟩ : ConstrainedBsPoint).Sound ir) :
    ConstrainedBsPoint.Sound ir ⟨cnd.p, filterConstraints bsp cs [] cnd.constraints⟩ := by
  intro hall
  refine h fun c hc => ?_
  rcases mem_filterConstraints (show c ∈ [] ++ cnd.constraints from hc) with hmem | ⟨hsolves, hcs⟩
  · exact hall c hmem
  · rw [eq_of_solvesConstraint hsolves]
    exact hbsp fun d hd => hall d (hcs d hd)

theorem sound_filterCandidateConstraints {candidates : List ConstrainedBsPoint}
    (h : ∀ cnd ∈ candidates, cnd.Sound ir) (hbsp : (⟨bsp, cs⟩ : ConstrainedBsPoint).Sound ir) :
    ∀ cnd ∈ filterCandidateConstraints bsp cs candidates, cnd.Sound ir := by
  intro cnd hcnd
  rcases List.mem_append.1 hcnd with hcnd | hcnd
  · obtain ⟨cnd', hcnd', rfl⟩ := List.mem_map.1 hcnd
    exact (h cnd' hcnd').filter hbsp
  · rwa [List.mem_singleton.1 hcnd]

/-- All candidates are sound, all along the way up. -/
theorem sound_calcBsPointCandidates (as bs : List ℕ) {candidates : List ConstrainedBsPoint}
    (h : ∀ cnd ∈ candidates, cnd.Sound ir) :
    ∀ cnd ∈ calcBsPointCandidates ir as bs candidates, cnd.Sound ir := by
  induction as generalizing bs candidates with
  | nil => exact h
  | cons a as ih =>
    cases bs with
    | nil => exact h
    | cons b bs =>
      rw [calcBsPointCandidates]
      split
      · rename_i hid
        exact ih bs (sound_filterCandidateConstraints h fun _ => .identical hid)
      · split
        · rename_i hsame
          split
          · exact h
          · rename_i cs hcs
            refine ih bs (sound_filterCandidateConstraints h fun hall => ?_)
            exact .operation hsame fun ops hops hne =>
              hall ops (mem_operatorConstraints hcs hops hne)
        · exact h

/-- **The points that are found** are pairs of bisimilar instructions. -/
theorem getBsPoints_sound (as bs : List ℕ) :
    ∀ p ∈ getBsPoints ir as bs, Bisimilar ir (.instruction p.1) (.instruction p.2) := by
  intro p hp
  obtain ⟨cnd, hcnd, rfl⟩ := List.mem_map.1 hp
  have hempty := List.mem_takeWhile_imp hcnd
  refine sound_calcBsPointCandidates as bs (fun _ h => absurd h List.not_mem_nil) cnd
    ((List.takeWhile_sublist _).subset hcnd) fun c hc => ?_
  rw [List.isEmpty_iff.1 hempty] at hc
  cases hc

end GenMC.Bisimilarity
