import GenMC.Library.MonadRelation
import GenMC.Support.SVal

/-!
# Visitors of expressions

The expressions of the source in full: every node has a kind, a width and a list of kids.  Three
visitors go through them.  One replaces a register by an expression, one replaces registers by their
values, and one evaluates.  The first two work on a copy: they replace those kids that are
registers, node by node from below, so that what they put in is not visited again.

The evaluator takes the values of registers from a map, and counts the registers it needed that are
not in the map; they are evaluated to 42.  Only what decides the result is evaluated: one side of a
select, and the kids of a conjunction or a disjunction up to the first that settles it.  A negation
does not look at its kid at all.  Divisions by zero and shifts by 64 or more have no result.

* `result_replace`: **replacing registers is evaluating with another map.**
* `evaluate_settled`: **if no unknown register was needed, the result is final.**
* `result_embed`: the expressions of the annotator, without widths and connectives, are evaluated as
  before.
-/

set_option autoImplicit false

namespace GenMC

namespace SExprVisitor

/-- The kinds of inner nodes. -/
inductive Kind
  | select | conjunction | disjunction | not
  | cast (k : CastKind)
  | bin (op : BinOp)
  | cmp (op : CmpOp)
deriving DecidableEq, Repr

/-- Expressions. -/
inductive Expr (R : Type)
  | concrete (width : ℕ) (value : SVal64)
  | register (width : ℕ) (reg : R)
  | node (kind : Kind) (width : ℕ) (kids : List (Expr R))

namespace Expr

variable {R : Type}

def getWidth : Expr R → ℕ
  | concrete w _ => w
  | register w _ => w
  | node _ w _ => w

/-- Induction over expressions. -/
theorem ind {P : Expr R → Prop} (hconcrete : ∀ w v, P (concrete w v))
    (hregister : ∀ w r, P (register w r))
    (hnode : ∀ k w kids, (∀ e ∈ kids, P e) → P (node k w kids)) (e : Expr R) : P e :=
  @Expr.rec R P (fun kids => ∀ e ∈ kids, P e) hconcrete hregister hnode
    (fun _ h => absurd h List.not_mem_nil)
    (fun _ _ hhead htail _ h => (List.mem_cons.1 h).elim (fun heq => heq ▸ hhead) (htail _)) e

/-! ## Copies -/

/-- The width that a copied node gets.  Logical nodes and comparisons have width one, arithmetic
nodes the width of the first kid. -/
def cloneWidth (k : Kind) (w : ℕ) (kids : List (Expr R)) : ℕ :=
  match k with
  | .select => w
  | .cast _ => w
  | .conjunction | .disjunction | .not | .cmp _ => 1
  | .bin _ => (kids.head?.map getWidth).getD w

mutual

def clone : Expr R → Expr R
  | concrete w v => concrete w v
  | register w r => register w r
  | node k w kids => node k (cloneWidth k w (cloneKids kids)) (cloneKids kids)

def cloneKids : List (Expr R) → List (Expr R)
  | [] => []
  | e :: kids => e.clone :: cloneKids kids

end

/-! ## Replacing registers -/

/-- What a visitor makes of a kid that is a register. -/
def replaceRegister (f : R → Option (Expr R)) : Expr R → Expr R
  | register w r => (f r).getD (register w r)
  | e => e

mutual

/-- `visitSExpr` of the two visitors: visits every kid, and then replaces it if it is one of the
registers. -/
def visitSExpr (f : R → Option (Expr R)) : Expr R → Expr R
  | concrete w v => concrete w v
  | register w r => register w r
  | node k w kids => node k w (visitKids f kids)

def visitKids (f : R → Option (Expr R)) : List (Expr R) → List (Expr R)
  | [] => []
  | e :: kids => replaceRegister f (visitSExpr f e) :: visitKids f kids

end

/-- The copy of an expression with some registers replaced; the expression may itself be one of
them. -/
def replaceIn (orig : Expr R) (f : R → Option (Expr R)) : Expr R :=
  match orig.clone with
  | register w r =>
    match f r with
    | some e => e
    | none => register w r
  | e => visitSExpr f e

/-- `SExprRegSubstitutor::substitute`. -/
def substitute [DecidableEq R] (orig : Expr R) (reg : R) (r : Expr R) : Expr R :=
  orig.replaceIn fun x => if x = reg then some r.clone else none

/-- `SExprConcretizer::concretize`.  The map has the values of registers and their sizes. -/
def concretize (orig : Expr R) (rMap : R → Option (SVal64 × ℕ)) : Expr R :=
  orig.replaceIn fun x => (rMap x).map fun p => concrete p.2 p.1

/-! ## The evaluator -/

/-- Divisions by zero and shifts by a word or more are undefined. -/
def runBinOp (op : BinOp) (x y : SVal64) : Option SVal64 :=
  match op with
  | .udiv | .sdiv | .urem | .srem => if y = 0 then none else some (op.eval x y)
  | .shl | .lshr | .ashr => if y < 64 then some (op.eval x y) else none
  | _ => some (op.eval x y)

section Evaluator

variable {M : Type → Type} [Monad M] [MonadExcept Unit M]

/-- Whether all kids are true, where the first that is not ends the evaluation. -/
def allOf : List (M SVal64) → M Bool
  | [] => pure true
  | kid :: kids => kid >>= fun v => if v.getBool then allOf kids else pure false

/-- Whether some kid is true, where the first that is ends the evaluation. -/
def anyOf : List (M SVal64) → M Bool
  | [] => pure false
  | kid :: kids => kid >>= fun v => if v.getBool then pure true else anyOf kids

/-- The `visit` methods of inner nodes, given those of the kids.  A negation negates the pointer to
its kid, which is never null. -/
def evalNode : Kind → List (M SVal64) → M SVal64
  | .select, [c, t, f] => c >>= fun v => if v.getBool then t else f
  | .conjunction, kids => allOf kids >>= fun b => pure (SVal64.ofBool b)
  | .disjunction, kids => anyOf kids >>= fun b => pure (SVal64.ofBool b)
  | .not, [_] => pure 0
  | .cast _, [e] => e
  | .bin op, [l, r] => l >>= fun x => r >>= fun y => (runBinOp op x y).elim (throw ()) pure
  | .cmp op, [l, r] => l >>= fun x => r >>= fun y => pure (SVal64.ofBool (op.eval x y))
  | _, _ => throw ()

mutual

/-- Evaluates an expression, given what to do at registers. -/
def eval (reg : R → M SVal64) : Expr R → M SVal64
  | concrete _ v => pure v
  | register _ r => reg r
  | node k _ kids => evalNode k (evalKids reg kids)

def evalKids (reg : R → M SVal64) : List (Expr R) → List (M SVal64)
  | [] => []
  | e :: kids => eval reg e :: evalKids reg kids

end

end Evaluator

/-- The values that registers are evaluated with. -/
inductive Valuation (R : Type)
  /-- The same value for all registers. -/
  | bruteForce (val : SVal64)
  | mapping (valueMapping : R → Option SVal64)

/-- `visitRegisterExpr`, with the unknown registers seen so far as the state. -/
def visitRegisterExpr [DecidableEq R] : Valuation R → R → StateT (List R) Option SVal64
  | .bruteForce val, _ => pure val
  | .mapping m, r =>
    match m r with
    | some v => pure v
    | none => modify (List.insert r) >>= fun _ => pure 42

/-- `SExprEvaluator::evaluate` of a fresh evaluator: the value, and how many unknown registers were
seen. -/
def evaluate [DecidableEq R] (e : Expr R) (m : Valuation R) : Option (SVal64 × ℕ) :=
  ((e.eval (visitRegisterExpr m)).run []).map fun p => (p.1, p.2.length)

/-- The value alone. -/
def result [DecidableEq R] (e : Expr R) (m : R → Option SVal64) : Option SVal64 :=
  (e.evaluate (.mapping m)).map (·.1)

/-! ## Kids -/

theorem cloneKids_eq (kids : List (Expr R)) : cloneKids kids = kids.map clone := by
  induction kids with
  | nil => rw [cloneKids, List.map_nil]
  | cons e kids ih => rw [cloneKids, ih, List.map_cons]

theorem visitKids_eq (f : R → Option (Expr R)) (kids : List (Expr R)) :
    visitKids f kids = kids.map fun e => replaceRegister f (visitSExpr f e) := by
  induction kids with
  | nil => rw [visitKids, List.map_nil]
  | cons e kids ih => rw [visitKids, ih, List.map_cons]

theorem evalKids_eq {M : Type → Type} [Monad M] [MonadExcept Unit M] (reg : R → M SVal64)
    (kids : List (Expr R)) : evalKids reg kids = kids.map (eval reg) := by
  induction kids with
  | nil => rw [evalKids, List.map_nil]
  | cons e kids ih => rw [evalKids, ih, List.map_cons]

/-! ## Two evaluations -/

section Relation

variable {M N : Type → Type} [Monad M] [MonadExcept Unit M] [Monad N] [MonadExcept Unit N]
  (r : MonadRelation M N)

theorem allOf_rel {kids : List (M SVal64)} {kids' : List (N SVal64)}
    (h : List.Forall₂ r.Rel kids kids') : r.Rel (allOf kids) (allOf kids') := by
  induction h with
  | nil => exact r.rel_pure true
  | cons hkid _ ih => exact r.rel_bind hkid fun v => r.rel_ite ih (r.rel_pure false)

theorem anyOf_rel {kids : List (M SVal64)} {kids' : List (N SVal64)}
    (h : List.Forall₂ r.Rel kids kids') : r.Rel (anyOf kids) (anyOf kids') := by
  induction h with
  | nil => exact r.rel_pure false
  | cons hkid _ ih => exact r.rel_bind hkid fun v => r.rel_ite (r.rel_pure true) ih

theorem evalNode_rel (k : Kind) {kids : List (M SVal64)} {kids' : List (N SVal64)}
    (h : List.Forall₂ r.Rel kids kids') : r.Rel (evalNode k kids) (evalNode k kids') := by
  cases k with
  | select =>
    rcases h with _ | ⟨hc, _ | ⟨ht, _ | ⟨hf, _ | _⟩⟩⟩
    · exact r.rel_throw
    · exact r.rel_throw
    · exact r.rel_throw
    · exact r.rel_bind hc fun v => r.rel_ite ht hf
    · exact r.rel_throw
  | conjunction => exact r.rel_bind (allOf_rel r h) fun b => r.rel_pure _
  | disjunction => exact r.rel_bind (anyOf_rel r h) fun b => r.rel_pure _
  | not =>
    rcases h with _ | ⟨-, _ | _⟩
    · exact r.rel_throw
    · exact r.rel_pure 0
    · exact r.rel_throw
  | cast k =>
    rcases h with _ | ⟨he, _ | _⟩
    · exact r.rel_throw
    · exact he
    · exact r.rel_throw
  | bin op =>
    rcases h with _ | ⟨hl, _ | ⟨hr, _ | _⟩⟩
    · exact r.rel_throw
    · exact r.rel_throw
    · exact r.rel_bind hl fun x => r.rel_bind hr fun y => r.rel_option _
    · exact r.rel_throw
  | cmp op =>
    rcases h with _ | ⟨hl, _ | ⟨hr, _ | _⟩⟩
    · exact r.rel_throw
    · exact r.rel_throw
    · exact r.rel_bind hl fun x => r.rel_bind hr fun y => r.rel_pure _
    · exact r.rel_throw

/-- **Two evaluations are related** if they are at registers. -/
theorem eval_rel {reg : R → M SVal64} {reg' : R → N SVal64} (hreg : ∀ x, r.Rel (reg x) (reg' x))
    (e : Expr R) : r.Rel (e.eval reg) (e.eval reg') := by
  induction e using ind with
  | hconcrete w v =>
    rw [eval, eval]
    exact r.rel_pure v
  | hregister w x =>
    rw [eval, eval]
    exact hreg x
  | hnode k w kids ih =>
    rw [eval, eval, evalKids_eq, evalKids_eq]
    refine evalNode_rel r k ?_
    rw [List.forall₂_map_left_iff, List.forall₂_map_right_iff, List.forall₂_same]
    exact ih

end Relation

/-! ## Replacing registers and evaluating -/

section Replace

variable {M : Type → Type} [Monad M] [MonadExcept Unit M]

/-- A copy is evaluated like the original. -/
theorem eval_clone (reg : R → M SVal64) (e : Expr R) : e.clone.eval reg = e.eval reg := by
  induction e using ind with
  | hconcrete w v => rw [clone]
  | hregister w x => rw [clone]
  | hnode k w kids ih =>
    rw [clone, eval, eval, evalKids_eq, evalKids_eq, cloneKids_eq, List.map_map]
    exact congrArg _ (List.map_congr_left ih)

/-- What replacing registers, and what evaluating with other values of them, does to registers. -/
def Replaces (f : R → Option (Expr R)) (reg reg' : R → M SVal64) : Prop :=
  ∀ x, (f x).elim (reg x) (eval reg) = reg' x

variable {f : R → Option (Expr R)} {reg reg' : R → M SVal64}

theorem eval_replaceRegister (h : Replaces f reg reg') (e : Expr R) :
    (replaceRegister f (visitSExpr f e)).eval reg = e.eval reg' := by
  induction e using ind with
  | hconcrete w v => rw [visitSExpr, replaceRegister, eval, eval]; simp
  | hregister w x =>
    have hx := h x
    rw [visitSExpr, replaceRegister, eval, ← hx]
    cases f x with
    | none => rw [Option.getD_none, eval, Option.elim_none]
    | some e => rfl
  | hnode k w kids ih =>
    rw [visitSExpr, replaceRegister, eval, eval, evalKids_eq, evalKids_eq, visitKids_eq,
      List.map_map]
    · exact congrArg _ (List.map_congr_left ih)
    · simp

/-- **Replacing registers is evaluating with other values of them.** -/
theorem eval_replaceIn (h : Replaces f reg reg') (e : Expr R) :
    (e.replaceIn f).eval reg = e.eval reg' := by
  rw [← eval_clone reg' e, replaceIn]
  cases hclone : e.clone with
  | concrete w v => exact eval_replaceRegister h (concrete w v)
  | register w x =>
    have hx := h x
    rw [eval, ← hx]
    dsimp only
    cases f x with
    | none => rw [eval, Option.elim_none]
    | some e => rfl
  | node k w kids => exact eval_replaceRegister h (node k w kids)

end Replace

/-! ## The results of the evaluator -/

section Results

variable [DecidableEq R]

/-- The value does not depend on the registers that have been seen. -/
theorem result_eq (e : Expr R) (m : R → Option SVal64) :
    result e m = e.eval fun x => some ((m x).getD 42) := by
  have hreg : ∀ x, (MonadRelation.forget (List R)).Rel (visitRegisterExpr (.mapping m) x)
      (some ((m x).getD 42)) := by
    intro x u
    rw [visitRegisterExpr]
    cases m x <;> rfl
  have := eval_rel (MonadRelation.forget (List R)) hreg e []
  rw [result, evaluate, Option.map_map]
  exact this

/-- **Replacing registers is evaluating with another map**: a register that is replaced by an
expression has the value of this expression, and registers that are replaced by values have these
values. -/
theorem result_replace (e : Expr R) (r : R) (s : Expr R) (m : R → Option SVal64) :
    (∀ v, result s m = some v →
      result (e.substitute r s) m = result e (Function.update m r (some v))) ∧
    ∀ c : R → Option (SVal64 × ℕ),
      result (e.concretize c) m = result e fun x => ((c x).map (·.1)).or (m x) := by
  refine ⟨fun v hv => ?_, fun c => ?_⟩
  · rw [result_eq, result_eq, substitute]
    refine eval_replaceIn (fun x => ?_) e
    by_cases hx : x = r
    · subst hx
      rw [if_pos rfl, Option.elim_some, eval_clone, ← result_eq, hv, Function.update_self]
      rfl
    · rw [if_neg hx, Option.elim_none, Function.update_of_ne hx]
  · rw [result_eq, result_eq, concretize]
    refine eval_replaceIn (fun x => ?_) e
    cases c x with
    | none => rfl
    | some p =>
      rw [Option.map_some, Option.elim_some, eval]
      rfl

/-- The register is replaced by an expression that it is part of. -/
theorem result_replace_self : result ((node (.bin .add) 8 [register 8 0, register 8 1]).substitute 0
    (node (.bin .mul) 8 [register 8 0, concrete 8 2])) (fun x => if x = 0 then some 3 else none) =
      some 48 := by
  refine ((result_replace (node (.bin .add) 8 [register 8 0, register 8 1]) 0
    (node (.bin .mul) 8 [register 8 0, concrete 8 2]) _).1 6 ?_).trans ?_ <;> rfl

/-- **If no unknown register was needed, the result is final**: it stays the same whatever values
the registers get that are not in the map. -/
theorem evaluate_settled (e : Expr R) (m : R → Option SVal64) (v : SVal64) (n : ℕ)
    (h : e.evaluate (.mapping m) = some (v, n)) :
    (n = 0 → ∀ m' : R → Option SVal64, (∀ x w, m x = some w → m' x = some w) →
      result e m' = some v) ∧
    ((∃ m' : R → Option SVal64, (∀ x w, m x = some w → m' x = some w) ∧ result e m' ≠ some v) →
      1 ≤ n) := by
  have hsettled : n = 0 → ∀ m' : R → Option SVal64, (∀ x w, m x = some w → m' x = some w) →
      result e m' = some v := by
    intro hn m' hm'
    obtain ⟨⟨v', u⟩, hrun, hvu⟩ := Option.map_eq_some_iff.1 h
    obtain ⟨rfl, hlen⟩ := Prod.mk.inj hvu
    have hreg : ∀ x, (MonadRelation.clean (fun u : List R => u = [])).Rel
        (visitRegisterExpr (.mapping m) x) (some ((m' x).getD 42)) := by
      intro x u w u' hx hu'
      rw [visitRegisterExpr] at hx
      cases hmx : m x with
      | some w' =>
        rw [hmx] at hx
        cases hx
        exact ⟨hu', by rw [hm' x _ hmx]; rfl⟩
      | none =>
        -- an unknown register stays in the list
        rw [hmx] at hx
        cases hx
        have hmem : x ∈ List.insert x u := List.mem_insert_self
        rw [hu'] at hmem
        exact absurd hmem List.not_mem_nil
    rw [result_eq]
    exact (eval_rel (MonadRelation.clean fun u : List R => u = []) hreg e [] v' u hrun
      (List.length_eq_zero_iff.1 (hlen.trans hn))).2
  refine ⟨hsettled, ?_⟩
  rintro ⟨m', hm', hne⟩
  by_contra hlt
  exact hne (hsettled (by omega) m' hm')

/-- A conjunction with a known kid that is false. -/
theorem evaluate_settled_and : result (node .conjunction 1 [register 1 0, register 1 1])
    (fun x : ℕ => if x = 0 then some 0 else some 1) = some 0 :=
  (evaluate_settled (node .conjunction 1 [register 1 0, register 1 1])
    (fun x : ℕ => if x = 0 then some 0 else none) 0 0 rfl).1 rfl _ fun x w hx => by
      by_cases h : x = 0
      · rwa [if_pos h] at hx ⊢
      · rw [if_neg h] at hx
        cases hx

end Results

/-! ## The expressions of the annotator -/

/-- An expression of the annotator, where all nodes get the same width. -/
def embed (w : ℕ) : SExpr R → Expr R
  | .concrete v => concrete w v
  | .register r => register w r
  | .select c t f => node .select w [embed w c, embed w t, embed w f]
  | .cast k e => node (.cast k) w [embed w e]
  | .bin op l r => node (.bin op) w [embed w l, embed w r]
  | .cmp op l r => node (.cmp op) w [embed w l, embed w r]

theorem eq_of_runBinOp {op : BinOp} {x y v : SVal64} (h : runBinOp op x y = some v) :
    op.eval x y = v := by
  cases op <;> simp only [runBinOp] at h <;> first | exact Option.some.inj h | skip
  all_goals
    split at h
    · first | exact Option.some.inj h | exact absurd h (by simp)
    · first | exact Option.some.inj h | exact absurd h (by simp)

/-- Where the evaluator has a result, it is the one of the expressions of the annotator. -/
theorem result_embed (w : ℕ) (ρ : R → SVal64) (e : SExpr R) (v : SVal64)
    (h : (embed w e).eval (fun x => some (ρ x)) = some v) : e.eval ρ = v := by
  induction e generalizing v with
  | concrete x =>
    rw [embed, eval] at h
    exact Option.some.inj h
  | register x =>
    rw [embed, eval] at h
    exact Option.some.inj h
  | select c t f ihc iht ihf =>
    simp only [embed, eval, evalKids, evalNode, Option.bind_eq_bind, Option.bind_eq_some_iff] at h
    obtain ⟨x, hx, h⟩ := h
    rw [SExpr.eval, ihc x hx]
    split
    · rename_i hb
      rw [if_pos hb] at h
      exact iht v h
    · rename_i hb
      rw [if_neg hb] at h
      exact ihf v h
  | cast k e ih =>
    simp only [embed, eval, evalKids, evalNode] at h
    exact ih v h
  | bin op l r ihl ihr =>
    simp only [embed, eval, evalKids, evalNode, Option.bind_eq_bind, Option.bind_eq_some_iff] at h
    obtain ⟨x, hx, y, hy, h⟩ := h
    rw [SExpr.eval, ihl x hx, ihr y hy]
    cases hrun : runBinOp op x y with
    | none =>
      rw [hrun] at h
      cases h
    | some v' =>
      rw [hrun] at h
      cases h
      exact eq_of_runBinOp hrun
  | cmp op l r ihl ihr =>
    simp only [embed, eval, evalKids, evalNode, Option.bind_eq_bind, Option.bind_eq_some_iff] at h
    obtain ⟨x, hx, y, hy, h⟩ := h
    cases h
    rw [SExpr.eval, ihl x hx, ihr y hy]

end Expr
end SExprVisitor
end GenMC
