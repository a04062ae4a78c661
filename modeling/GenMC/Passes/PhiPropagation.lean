import GenMC.Passes.InstAnnotator

/-!
# Propagating annotations over φs

A block assigns all its φs at once when it is entered.  `propagateAnnotFromSucc` turns an annotation
at the start of the block into one at the end of the block before it by substituting the φs, one
after the other, into the expression it has so far; when a block is entered from itself, it does not
substitute them at all.

* `eval_substitutePhis_eq`: substituting in turn is assigning in turn, from the last φ to the first.
* `assignInTurn_eq_iff`: **when this is assigning at once**: if no φ takes the value of a later one,
  unless that one keeps its value.
* `propagate_simultaneous_iff`: for which blocks annotations are propagated right.
* `swap_propagated_wrong`: two φs that take each other's values.
-/

set_option autoImplicit false

namespace GenMC

/-- An operand that has the value of a register in all states is the register. -/
theorem forall_value_eq_iff {o : Operand} {r : Reg} : (∀ ρ : Env, o.value ρ = ρ r) ↔
    o = .reg r := by
  refine ⟨fun h => ?_, ?_⟩
  · cases o with
    | const v => exact absurd (h fun _ => v + 1) (by simp [Operand.value])
    | undef v => exact absurd (h fun _ => v + 1) (by simp [Operand.value])
    | null => exact absurd (h fun _ => 1) (by simp [Operand.value])
    | reg r' =>
      by_contra hne
      have hr : r' ≠ r := fun heq => hne (congrArg Operand.reg heq)
      have := h (Function.update (fun _ => 0) r 1)
      rw [Operand.value, Function.update_of_ne hr, Function.update_self] at this
      exact absurd this (by decide)
  · rintro rfl ρ
    rfl

namespace InstAnnotator

/-- Assigns φs one after the other, the last one first. -/
def assignInTurn : List (Reg × Operand) → Env → Env
  | [], ρ => ρ
  | p :: ops, ρ =>
    Function.update (assignInTurn ops ρ) p.1 (plainOperand (assignInTurn ops ρ) p.2)

/-- Substituting φs in turn is assigning them in turn. -/
theorem eval_substitutePhis_eq (ops : List (Reg × Operand)) (ρ : Env) : ∀ e : IRExpr,
    (substitutePhis ops e).eval ρ = e.eval (assignInTurn ops ρ) := by
  induction ops with
  | nil => exact fun _ => rfl
  | cons p ops ih =>
    intro e
    rw [substitutePhis, List.foldl_cons, ← substitutePhis, ih, SExpr.eval_substitute, eval_operand]
    rfl

/-- No φ takes the value of a later one, unless that one keeps its value; and what is undefined is
what the annotator takes it for. -/
def Independent (ops : List (Reg × Operand)) : Prop :=
  (ops.Pairwise fun p q => p.2 = .reg q.1 → q.2 = .reg q.1) ∧
    ∀ p ∈ ops, ∀ v, p.2 = .undef v → v = 42

theorem independent_cons {p : Reg × Operand} {ops : List (Reg × Operand)} :
    Independent (p :: ops) ↔ ((∀ q ∈ ops, p.2 = .reg q.1 → q.2 = .reg q.1) ∧
      ∀ v, p.2 = .undef v → v = 42) ∧ Independent ops := by
  rw [Independent, Independent, List.pairwise_cons, List.forall_mem_cons]
  exact ⟨fun h => ⟨⟨h.1.1, h.2.1⟩, h.1.2, h.2.2⟩, fun h => ⟨⟨h.1.1, h.2.1⟩, h.1.2, h.2.2⟩⟩

theorem assignInTurn_of_notMem {ops : List (Reg × Operand)} {r : Reg} (h : r ∉ ops.map (·.1))
    (ρ : Env) : assignInTurn ops ρ r = ρ r := by
  induction ops with
  | nil => rfl
  | cons p ops ih =>
    rw [List.map_cons, List.mem_cons, not_or] at h
    rw [assignInTurn, Function.update_of_ne h.1, ih h.2]

theorem assignPhis_cons (p : Reg × Operand) (ops : List (Reg × Operand)) (ρ : Env) :
    IRFunction.assignPhis (p :: ops) ρ =
      Function.update (IRFunction.assignPhis ops ρ) p.1 (p.2.value ρ) := by
  funext r
  rw [IRFunction.assignPhis, List.find?_cons]
  by_cases hr : r = p.1
  · subst hr
    simp
  · have hr' : ¬ p.1 = r := fun h => hr h.symm
    simp [hr, hr', IRFunction.assignPhis]

theorem assignPhis_of_notMem {ops : List (Reg × Operand)} {r : Reg} (h : r ∉ ops.map (·.1))
    (ρ : Env) : IRFunction.assignPhis ops ρ r = ρ r := by
  induction ops with
  | nil => rfl
  | cons p ops ih =>
    rw [List.map_cons, List.mem_cons, not_or] at h
    rw [assignPhis_cons, Function.update_of_ne h.1, ih h.2]

theorem assignPhis_of_mem {ops : List (Reg × Operand)} (hnodup : (ops.map (·.1)).Nodup)
    {q : Reg × Operand} (hq : q ∈ ops) (ρ : Env) :
    IRFunction.assignPhis ops ρ q.1 = q.2.value ρ := by
  induction ops with
  | nil => exact absurd hq List.not_mem_nil
  | cons p ops ih =>
    rw [List.map_cons, List.nodup_cons] at hnodup
    rw [assignPhis_cons]
    rcases List.mem_cons.1 hq with rfl | hq
    · rw [Function.update_self]
    · have hne : q.1 ≠ p.1 := fun heq => hnodup.1 (heq ▸ List.mem_map_of_mem hq)
      rw [Function.update_of_ne hne, ih hnodup.2 hq]

/-- What the annotator takes an operand for after the φs are assigned is its value before, in all
states, exactly if the operand is not one of the φs, or one that keeps its value. -/
theorem forall_plainOperand_iff {ops : List (Reg × Operand)} (hnodup : (ops.map (·.1)).Nodup)
    (o : Operand) : (∀ ρ, plainOperand (IRFunction.assignPhis ops ρ) o = o.value ρ) ↔
      (∀ q ∈ ops, o = .reg q.1 → q.2 = .reg q.1) ∧ ∀ v, o = .undef v → v = 42 := by
  cases o with
  | const v => simp [plainOperand, Operand.value]
  | null => simp [plainOperand, Operand.value]
  | undef v => simp [plainOperand, Operand.value, eq_comm]
  | reg r =>
    have hvalue : ∀ q ∈ ops, q.1 = r → ((∀ ρ, IRFunction.assignPhis ops ρ r = ρ r) ↔
        q.2 = .reg q.1) := by
      rintro q hq rfl
      rw [← forall_value_eq_iff]
      exact forall_congr' fun ρ => by rw [assignPhis_of_mem hnodup hq]
    refine ⟨fun h => ?_, ?_⟩
    · refine ⟨fun q hq hr => ?_, fun v hv => Operand.noConfusion hv⟩
      obtain rfl := Operand.reg.inj hr
      exact (hvalue q hq rfl).1 h
    · rintro ⟨h, -⟩
      by_cases hr : r ∈ ops.map (·.1)
      · obtain ⟨q, hq, rfl⟩ := List.mem_map.1 hr
        exact (hvalue q hq rfl).2 (h q hq rfl)
      · exact fun ρ => assignPhis_of_notMem hr ρ

/-- **When assigning in turn is assigning at once.** -/
theorem assignInTurn_eq_iff (ops : List (Reg × Operand)) (hnodup : (ops.map (·.1)).Nodup) :
    (∀ ρ, assignInTurn ops ρ = IRFunction.assignPhis ops ρ) ↔ Independent ops := by
  induction ops with
  | nil => exact iff_of_true (fun ρ => rfl) ⟨.nil, fun p hp => absurd hp List.not_mem_nil⟩
  | cons p ops ih =>
    rw [List.map_cons, List.nodup_cons] at hnodup
    rw [independent_cons, ← ih hnodup.2, ← forall_plainOperand_iff hnodup.2]
    refine ⟨fun h => ?_, ?_⟩
    · -- the other φs do not see the first one
      have hops : ∀ ρ, assignInTurn ops ρ = IRFunction.assignPhis ops ρ := by
        intro ρ
        funext r
        by_cases hr : r = p.1
        · rw [hr, assignInTurn_of_notMem hnodup.1, assignPhis_of_notMem hnodup.1]
        · have := congrFun (h ρ) r
          rwa [assignInTurn, assignPhis_cons, Function.update_of_ne hr,
            Function.update_of_ne hr] at this
      refine ⟨fun ρ => ?_, hops⟩
      have := congrFun (h ρ) p.1
      rwa [assignInTurn, assignPhis_cons, Function.update_self, Function.update_self,
        hops] at this
    · rintro ⟨hp, hops⟩ ρ
      rw [assignInTurn, assignPhis_cons, hops, hp]

/-- Propagating from the end of a block to the start of another one. -/
theorem propagate_of_branch {F : IRFunction} {s : State} {curr : Loc} {b : ℕ} {i : Inst}
    {e : IRExpr} {ops : List (Reg × Operand)} (hi : F.instAt curr = some i)
    (hbr : i.instr = .br b ∨ ∃ c t t', i.instr = .condBr c t t' ∧ (t = b ∨ t' = b))
    (he : s.annotMap ⟨b, 0⟩ = some e)
    (hops : IRFunction.incomings (F.phisFrom ⟨b, 0⟩) curr.block = some ops) :
    propagateAnnotFromSucc F s curr ⟨b, 0⟩ =
      some (if curr.block = b then e else substitutePhis ops e) := by
  rw [propagateAnnotFromSucc]
  by_cases hself : curr.block = b
  · have hnil : IRFunction.incomings [] b = some [] := rfl
    rcases hbr with hbr | ⟨c, t, t', hbr, -⟩ <;>
      simp [he, hi, hbr, hself, hnil, substitutePhis]
  · rcases hbr with hbr | ⟨c, t, t', hbr, -⟩ <;>
      simp [he, hi, hbr, hself, hops]

/-- **When annotations are propagated right over the φs of a block**: exactly if the φs are
independent or, where the block is entered from itself, all keep their values. -/
theorem propagate_simultaneous_iff (F : IRFunction) (curr : Loc) (b : ℕ) (i : Inst)
    (ops : List (Reg × Operand)) (hi : F.instAt curr = some i)
    (hbr : i.instr = .br b ∨ ∃ c t t', i.instr = .condBr c t t' ∧ (t = b ∨ t' = b))
    (hops : IRFunction.incomings (F.phisFrom ⟨b, 0⟩) curr.block = some ops)
    (hnodup : (ops.map (·.1)).Nodup) :
    (∀ (s : State) (e : IRExpr), s.annotMap ⟨b, 0⟩ = some e →
      ∃ e', propagateAnnotFromSucc F s curr ⟨b, 0⟩ = some e' ∧
        ∀ ρ, e'.eval ρ = e.eval (IRFunction.assignPhis ops ρ)) ↔
    if curr.block = b then ∀ p ∈ ops, p.2 = .reg p.1 else Independent ops := by
  -- an expression for each register tells states apart
  have hexpr : ∀ f g : Env → Env, (∀ (e : IRExpr) (ρ : Env), e.eval (f ρ) = e.eval (g ρ)) ↔
      ∀ ρ, f ρ = g ρ :=
    fun f g => ⟨fun h ρ => funext fun r => h (.register r) ρ, fun h e ρ => by rw [h]⟩
  have hall : (∀ (s : State) (e : IRExpr), s.annotMap ⟨b, 0⟩ = some e →
      ∃ e', propagateAnnotFromSucc F s curr ⟨b, 0⟩ = some e' ∧
        ∀ ρ, e'.eval ρ = e.eval (IRFunction.assignPhis ops ρ)) ↔
      ∀ ρ, (if curr.block = b then ρ else assignInTurn ops ρ) = IRFunction.assignPhis ops ρ := by
    rw [← hexpr (fun ρ => if curr.block = b then ρ else assignInTurn ops ρ)]
    have hvalue : ∀ (e : IRExpr) (ρ : Env),
        (if curr.block = b then e else substitutePhis ops e).eval
        ρ = e.eval (if curr.block = b then ρ else assignInTurn ops ρ) := by
      intro e ρ
      split
      · rfl
      · exact eval_substitutePhis_eq ops ρ e
    refine ⟨fun h e ρ => ?_, fun h s e he => ?_⟩
    · obtain ⟨e', he', hval⟩ := h (State.setAnnot {} ⟨b, 0⟩ e) e (Function.update_self ..)
      rw [propagate_of_branch hi hbr (Function.update_self ..) hops] at he'
      obtain rfl := Option.some.inj he'
      rw [← hvalue, hval]
    · refine ⟨_, propagate_of_branch hi hbr he hops, fun ρ => ?_⟩
      rw [hvalue]
      exact h e ρ
  rw [hall]
  by_cases hself : curr.block = b
  · simp only [if_pos hself]
    refine ⟨fun h p hp => ?_, fun h ρ => ?_⟩
    · exact forall_value_eq_iff.1 fun ρ => by rw [← assignPhis_of_mem hnodup hp, ← h]
    · funext r
      by_cases hr : r ∈ ops.map (·.1)
      · obtain ⟨q, hq, rfl⟩ := List.mem_map.1 hr
        rw [assignPhis_of_mem hnodup hq, h q hq]
        rfl
      · exact (assignPhis_of_notMem hr ρ).symm
  · simp only [if_neg hself]
    exact assignInTurn_eq_iff ops hnodup

/-- A loop whose header has two φs, the second of which takes the value of the first. -/
def shiftLoop : IRFunction :=
  [[⟨0, .phi [(1, .reg 2)]⟩, ⟨1, .phi [(1, .reg 0)]⟩, ⟨2, .assume (.reg 1)⟩], [⟨3, .br 0⟩]]

theorem propagate_simultaneous_shift :
    ∃ e', propagateAnnotFromSucc shiftLoop (State.setAnnot {} ⟨0, 0⟩ (.register 1)) ⟨1, 0⟩
      ⟨0, 0⟩ = some e' ∧ ∀ ρ : Env, e'.eval ρ = ρ 0 := by
  obtain ⟨e', he', hval⟩ := (propagate_simultaneous_iff shiftLoop ⟨1, 0⟩ 0 ⟨3, .br 0⟩
    [(0, .reg 2), (1, .reg 0)] rfl (.inl rfl) rfl (by decide)).2
      (by rw [if_neg (by decide)]; exact ⟨by decide, by simp⟩)
      (State.setAnnot {} ⟨0, 0⟩ (.register 1)) (.register 1) rfl
  exact ⟨e', he', hval⟩

/-- A loop whose header swaps two registers. -/
def swapLoop : IRFunction :=
  [[⟨0, .phi [(1, .reg 1)]⟩, ⟨1, .phi [(1, .reg 0)]⟩, ⟨2, .assume (.reg 0)⟩], [⟨3, .br 0⟩]]

/-- Two φs that take each other's values: the assume sees the value of the second register, but the
annotation before it that of the first. -/
theorem swap_propagated_wrong : ¬ ∀ (F : IRFunction) (curr : Loc) (b : ℕ) (i : Inst)
    (ops : List (Reg × Operand)), F.instAt curr = some i → i.instr = .br b →
      IRFunction.incomings (F.phisFrom ⟨b, 0⟩) curr.block = some ops → (ops.map (·.1)).Nodup →
        ∀ (s : State) (e : IRExpr), s.annotMap ⟨b, 0⟩ = some e →
          ∃ e', propagateAnnotFromSucc F s curr ⟨b, 0⟩ = some e' ∧
            ∀ ρ, e'.eval ρ = e.eval (IRFunction.assignPhis ops ρ) := by
  intro h
  obtain ⟨e', he', hval⟩ := h swapLoop ⟨1, 0⟩ 0 ⟨3, .br 0⟩ [(0, .reg 1), (1, .reg 0)] rfl rfl rfl
    (by decide) (State.setAnnot {} ⟨0, 0⟩ (.register 0)) (.register 0) rfl
  have he : propagateAnnotFromSucc swapLoop (State.setAnnot {} ⟨0, 0⟩ (.register 0)) ⟨1, 0⟩
      ⟨0, 0⟩ = some (.register 0) := rfl
  obtain rfl := Option.some.inj (he.symm.trans he')
  exact absurd (hval fun r => if r = 0 then 5 else 7) (by decide)

end InstAnnotator
end GenMC
