import GenMC.Relinche.Normalization
import GenMC.Relinche.SymmetricClosure
import Mathlib.Data.Finset.Card
import Mathlib.Data.Finset.Prod
import Mathlib.Logic.Equiv.Basic

/-!
# Which maps are symmetries

The maps under which a specification is closed should exchange calls that cannot be told apart: be
bijections, keep names, and keep who returns whose argument (`IsSymmetry`).

* `isSymmetry_iff`: **all maps that are built are symmetries if and only if the calls that are put
  in one class can be interchanged** (`Interchangeable`).  Adjacent calls with the same name and
  value must have the same argument, or arguments that no call returns; two data symmetric calls
  with different arguments must be the only ones to pass them, and the calls that return them must
  pass arguments that go with that.
* `readTwice_not_symmetric`: a value that is returned twice makes the call that passes it look like
  one whose argument is never returned.

In one direction, the calls of a class are exchanged in pairs, with all other classes as they were
(`swapOrders`).  In the other one, `mapOf_call` and `mapOf_edge` say where each call goes.
-/

set_option autoImplicit false

namespace GenMC

namespace Observation

abbrev argVal (obs : Observation) (id : ℕ) : ℤ := (obs.getCall id).argVal

abbrev retVal (obs : Observation) (id : ℕ) : ℤ := (obs.getCall id).retVal

end Observation

namespace Specification

open DoWhile Normalization

/-! ## What is asked of the maps, and of the calls -/

/-- A map that exchanges calls that cannot be told apart. -/
structure IsSymmetry (obs : Observation) (perm : PermutationMap) : Prop where
  bijOn : Set.BijOn (perm.getD · 0) (Set.Iio obs.getNumOps) (Set.Iio obs.getNumOps)
  name : ∀ id < obs.getNumOps, (obs.getCall (perm.getD id 0)).name = (obs.getCall id).name
  returns : ∀ j < obs.getNumOps, ∀ k < obs.getNumOps,
    (Returns obs.ops (perm.getD j 0) (perm.getD k 0) ↔ Returns obs.ops j k)

/-- The loop builds a map. -/
def Builds (obs : Observation) (perm : PermutationMap) : Prop :=
  ∃ visited e, Visits existsPermutations
    (calculateSymmetricCalls obs, calculateDICalls obs) visited e ∧
      ∃ orders ∈ visited, generatePermutation obs.ids orders.1 orders.2 = perm

theorem builds_iff {obs : Observation} {perm : PermutationMap} :
    Builds obs perm ↔
      ∃ orders, IsOrders obs orders ∧ generatePermutation obs.ids orders.1 orders.2 = perm := by
  obtain ⟨visited, h⟩ := existsPermutations_cycles obs
  refine ⟨?_, ?_⟩
  · rintro ⟨visited', e, hvisits, orders, ho, heq⟩
    rw [hvisits.unique h.visits, h.mem_iff] at ho
    exact ⟨orders, ho, heq⟩
  · rintro ⟨orders, ho, heq⟩
    exact ⟨visited, _, h.visits, orders, (h.mem_iff orders).2 ho, heq⟩

/-- Some call returns the argument of a call. -/
def ArgReturned (obs : Observation) (id : ℕ) : Prop := ∃ j < obs.getNumOps, Returns obs.ops j id

/-- Two data symmetric calls are the only ones to pass their arguments, but for the calls that
return them.  These pass the same argument, or arguments that no call returns, or each the value
that itself or that the other one returns. -/
structure Interchange (obs : Observation) (x y : ℕ) : Prop where
  passed : ∀ w < obs.getNumOps, w ≠ x → w ≠ y → w ≠ (edgeOf obs x).second →
    w ≠ (edgeOf obs y).second → obs.argVal w ≠ obs.argVal x ∧ obs.argVal w ≠ obs.argVal y
  returning :
    (obs.argVal (edgeOf obs x).second = obs.argVal (edgeOf obs y).second ∧
      obs.argVal (edgeOf obs x).second ≠ obs.argVal x ∧
      obs.argVal (edgeOf obs x).second ≠ obs.argVal y) ∨
    (¬ ArgReturned obs (edgeOf obs x).second ∧ ¬ ArgReturned obs (edgeOf obs y).second) ∨
    (obs.argVal (edgeOf obs x).second = obs.argVal x ∧
      obs.argVal (edgeOf obs y).second = obs.argVal y) ∨
    (obs.argVal (edgeOf obs x).second = obs.argVal y ∧
      obs.argVal (edgeOf obs y).second = obs.argVal x)

/-- The calls that are put in one class can be interchanged. -/
structure Interchangeable (obs : Observation) : Prop where
  calls : ∀ a, a + 1 < obs.getNumOps → Linked obs a → obs.argVal a = obs.argVal (a + 1) ∨
    (¬ ArgReturned obs a ∧ ¬ ArgReturned obs (a + 1))
  edges : ∀ x y, x < y → y < obs.getNumOps → DataSymmetric obs x → DataSymmetric obs y →
    SameUpTo obs x (y + 1) → obs.argVal x ≠ obs.argVal y → Interchange obs x y

/-! ## Moves -/

section Moves

variable {α : Type} {eqs₀ eqs : List (List α)}

/-- The elements of classes, each with the one that comes in its place. -/
def moves (eqs₀ eqs : List (List α)) : List (α × α) :=
  (eqs₀.zip eqs).flatMap fun p => p.1.zip p.2

theorem mem_classWrites_iff {toWrites : α → α → List (ℕ × ℕ)} {w : ℕ × ℕ} :
    w ∈ classWrites toWrites eqs₀ eqs ↔ ∃ q ∈ moves eqs₀ eqs, w ∈ toWrites q.1 q.2 := by
  rw [mem_classWrites]
  simp only [moves, List.mem_flatMap]
  refine ⟨?_, ?_⟩
  · rintro ⟨p, hp, q, hq, hw⟩
    exact ⟨q, ⟨p, hp, hq⟩, hw⟩
  · rintro ⟨q, ⟨p, hp, hq⟩, hw⟩
    exact ⟨p, hp, q, hq, hw⟩

theorem moves_eq_zip (h : List.Forall₂ List.Perm eqs eqs₀) :
    moves eqs₀ eqs = eqs₀.flatten.zip eqs.flatten := by
  induction h with
  | nil => rfl
  | @cons eq eq₀ eqs eqs₀ hp _ ih =>
    rw [moves, List.zip_cons_cons, List.flatMap_cons, ← moves, ih, List.flatten_cons,
      List.flatten_cons, List.zip_append hp.length_eq.symm]

theorem mem_of_mem_moves (h : List.Forall₂ List.Perm eqs eqs₀) {x y : α}
    (hxy : (x, y) ∈ moves eqs₀ eqs) : ∃ eq ∈ eqs₀, x ∈ eq ∧ y ∈ eq := by
  obtain ⟨p, hp, hq⟩ := List.mem_flatMap.1 hxy
  obtain ⟨hmem, hperm⟩ := mem_of_mem_zip h hp
  exact ⟨p.1, hmem, (List.of_mem_zip hq).1, hperm.subset (List.of_mem_zip hq).2⟩

theorem flatten_perm (h : List.Forall₂ List.Perm eqs eqs₀) : eqs.flatten.Perm eqs₀.flatten := by
  induction h with
  | nil => exact .refl _
  | cons hp _ ih => exact hp.append ih

/-- Every element is moved somewhere. -/
theorem exists_moves (h : List.Forall₂ List.Perm eqs eqs₀) {x : α} (hx : x ∈ eqs₀.flatten) :
    ∃ y, (x, y) ∈ moves eqs₀ eqs := by
  obtain ⟨i, hi, rfl⟩ := List.getElem_of_mem hx
  have hlen := (flatten_perm h).length_eq
  refine ⟨eqs.flatten[i], ?_⟩
  rw [moves_eq_zip h, List.mem_iff_getElem]
  exact ⟨i, by rw [List.length_zip]; omega, List.getElem_zip⟩

/-- Every element is where some element is moved. -/
theorem exists_moves_to (h : List.Forall₂ List.Perm eqs eqs₀) {y : α} (hy : y ∈ eqs₀.flatten) :
    ∃ x, (x, y) ∈ moves eqs₀ eqs := by
  have hlen := (flatten_perm h).length_eq
  obtain ⟨i, hi, rfl⟩ := List.getElem_of_mem ((flatten_perm h).mem_iff.2 hy)
  refine ⟨eqs₀.flatten[i], ?_⟩
  rw [moves_eq_zip h, List.mem_iff_getElem]
  exact ⟨i, by rw [List.length_zip]; omega, List.getElem_zip⟩

/-- An element is moved to one place only. -/
theorem moves_unique (h : List.Forall₂ List.Perm eqs eqs₀) (hnodup : eqs₀.flatten.Nodup)
    {x y y' : α} (hy : (x, y) ∈ moves eqs₀ eqs) (hy' : (x, y') ∈ moves eqs₀ eqs) : y = y' := by
  rw [moves_eq_zip h, List.mem_iff_getElem] at hy hy'
  obtain ⟨i, hi, heq⟩ := hy
  obtain ⟨j, hj, heq'⟩ := hy'
  rw [List.getElem_zip, Prod.mk.injEq] at heq heq'
  have hij : i = j := (hnodup.getElem_inj_iff).1 (heq.1.trans heq'.1.symm)
  subst hij
  exact heq.2.symm.trans heq'.2

/-- Only one element is moved to a place. -/
theorem moves_injective (h : List.Forall₂ List.Perm eqs eqs₀) (hnodup : eqs₀.flatten.Nodup)
    {x x' y : α} (hx : (x, y) ∈ moves eqs₀ eqs) (hx' : (x', y) ∈ moves eqs₀ eqs) : x = x' := by
  have hnodup' := (flatten_perm h).nodup_iff.2 hnodup
  rw [moves_eq_zip h, List.mem_iff_getElem] at hx hx'
  obtain ⟨i, hi, heq⟩ := hx
  obtain ⟨j, hj, heq'⟩ := hx'
  rw [List.getElem_zip, Prod.mk.injEq] at heq heq'
  have hij : i = j := (hnodup'.getElem_inj_iff).1 (heq.2.trans heq'.2.symm)
  subst hij
  exact heq.1.symm.trans heq'.1

/-- Classes without common elements are known by any of their elements. -/
theorem eq_of_mem_of_mem (hnodup : eqs₀.flatten.Nodup) {eq eq' : List α} (heq : eq ∈ eqs₀)
    (heq' : eq' ∈ eqs₀) {x : α} (hx : x ∈ eq) (hx' : x ∈ eq') : eq = eq' := by
  have hsymm : Std.Symm (List.Disjoint (α := α)) := ⟨fun _ _ h => h.symm⟩
  by_contra hne
  exact ((List.nodup_flatten.1 hnodup).2.forall heq heq' hne) hx hx'

variable [DecidableEq α]

/-- Exchanges two elements where they are. -/
def swapIn (x y : α) (eqs₀ : List (List α)) : List (List α) :=
  eqs₀.map fun eq => eq.map (Equiv.swap x y)

theorem swapIn_perm (hnodup : eqs₀.flatten.Nodup) {x y : α} (hxy : ∃ eq ∈ eqs₀, x ∈ eq ∧ y ∈ eq) :
    List.Forall₂ List.Perm (swapIn x y eqs₀) eqs₀ := by
  obtain ⟨c, hc, hx, hy⟩ := hxy
  refine List.forall₂_map_left_iff.2 (List.forall₂_same.2 fun eq heq => ?_)
  have hboth : x ∈ eq ↔ y ∈ eq := by
    refine ⟨fun hxeq => ?_, fun hyeq => ?_⟩
    · rwa [eq_of_mem_of_mem hnodup heq hc hxeq hx]
    · rwa [eq_of_mem_of_mem hnodup heq hc hyeq hy]
  have hswap : ∀ w ∈ eq, Equiv.swap x y w ∈ eq := by
    intro w hw
    rw [Equiv.swap_apply_def]
    split
    · rename_i hwx
      exact hboth.1 (hwx ▸ hw)
    · split
      · rename_i hwy
        exact hboth.2 (hwy ▸ hw)
      · exact hw
  have heqnodup := (List.nodup_flatten.1 hnodup).1 eq heq
  refine (List.perm_ext_iff_of_nodup (heqnodup.map (Equiv.injective _)) heqnodup).2 fun z => ?_
  rw [List.mem_map]
  refine ⟨?_, ?_⟩
  · rintro ⟨w, hw, rfl⟩
    exact hswap w hw
  · exact fun hz => ⟨Equiv.swap x y z, hswap z hz, Equiv.swap_apply_self x y z⟩

theorem eq_of_mem_moves_swapIn {x y z w : α} (h : (z, w) ∈ moves eqs₀ (swapIn x y eqs₀)) :
    w = Equiv.swap x y z := by
  obtain ⟨p, hp, hq⟩ := List.mem_flatMap.1 h
  rw [swapIn, ← List.map_prod_left_eq_zip] at hp
  obtain ⟨eq, -, rfl⟩ := List.mem_map.1 hp
  rw [← List.map_prod_left_eq_zip] at hq
  obtain ⟨z', -, heq⟩ := List.mem_map.1 hq
  cases heq
  rfl

theorem eq_of_mem_moves_self {z w : α} (h : (z, w) ∈ moves eqs₀ eqs₀) : w = z := by
  have hself : swapIn z z eqs₀ = eqs₀ := by simp [swapIn]
  have hswap : (z, w) ∈ moves eqs₀ (swapIn z z eqs₀) := by rwa [hself]
  rw [eq_of_mem_moves_swapIn hswap, Equiv.swap_self, Equiv.refl_apply]

end Moves

/-! ## Calls and edges of classes -/

section Calls

variable {obs : Observation} {x k : ℕ}

theorem DataSymmetric.argVal_ne (h : DataSymmetric obs x) : obs.argVal x ≠ 0 := by
  rw [DataSymmetric, isDataSymmetricOp, Bool.and_eq_true, Bool.and_eq_true] at h
  exact of_decide_eq_true h.1.1

theorem DataSymmetric.retVal_eq (h : DataSymmetric obs x) : obs.retVal x = 0 := by
  rw [DataSymmetric, isDataSymmetricOp, Bool.and_eq_true, Bool.and_eq_true] at h
  exact of_decide_eq_true h.1.2

theorem DataSymmetric.countP_eq (h : DataSymmetric obs x) :
    obs.ops.countP (fun op => op.retVal = obs.argVal x) = 1 := by
  rw [DataSymmetric, isDataSymmetricOp, Bool.and_eq_true] at h
  exact of_decide_eq_true h.2

/-- Only one call returns the argument of a data symmetric call. -/
theorem DataSymmetric.eq_second (h : DataSymmetric obs x) (hk : k < obs.getNumOps)
    (hret : obs.retVal k = obs.argVal x) : k = (edgeOf obs x).second := by
  refine eq_findIdx_of_countP h.countP_eq hk ?_
  have hcall : obs.getCall k = obs.ops[k] := List.getD_eq_getElem _ _ hk
  rw [← hcall]
  exact decide_eq_true hret

theorem DataSymmetric.retVal_second (h : DataSymmetric obs x) :
    obs.retVal (edgeOf obs x).second = obs.argVal x := by
  have hlt : obs.ops.findIdx (fun op => op.retVal = obs.argVal x) < obs.ops.length :=
    second_edgeOf_lt h
  have hcall : obs.getCall (edgeOf obs x).second = obs.ops[obs.ops.findIdx fun op =>
      op.retVal = obs.argVal x] := List.getD_eq_getElem _ _ hlt
  have hfound := List.findIdx_getElem (w := hlt)
  rw [Observation.retVal, hcall]
  exact of_decide_eq_true hfound

theorem DataSymmetric.second_ne (h : DataSymmetric obs x) {y : ℕ} (hy : DataSymmetric obs y) :
    (edgeOf obs x).second ≠ y := by
  intro heq
  refine h.argVal_ne ?_
  rw [← h.retVal_second, heq, hy.retVal_eq]

/-- The ids of the calls in classes of symmetric calls. -/
def InCallClass (obs : Observation) (a : ℕ) : Prop := a ∈ (calculateSymmetricCalls obs).flatten

theorem InCallClass.exists_linked {a : ℕ} (h : InCallClass obs a) :
    ∃ b, b + 1 < obs.getNumOps ∧ Linked obs b ∧ (a = b ∨ a = b + 1) := by
  obtain ⟨b, hb, hlinked, hab⟩ := (calculateSymmetricCalls_spec obs).mem a h
  obtain ⟨eq, heq, ha⟩ := List.mem_flatten.1 h
  have hlt := (calculateSymmetricCalls_ascending obs eq heq).2 a ha
  exact ⟨b, by omega, hlinked, hab⟩

theorem InCallClass.not_dataSymmetric {a : ℕ} (h : InCallClass obs a) : ¬ DataSymmetric obs a := by
  obtain ⟨b, -, hlinked, rfl | rfl⟩ := h.exists_linked
  · rw [DataSymmetric, hlinked.2.2.1]
    exact Bool.false_ne_true
  · rw [DataSymmetric, hlinked.2.2.2]
    exact Bool.false_ne_true

/-- Two calls return the same as a call in a class of symmetric calls. -/
theorem InCallClass.ne_second {a : ℕ} (h : InCallClass obs a) (hx : DataSymmetric obs x) :
    a ≠ (edgeOf obs x).second := by
  obtain ⟨b, hb, hlinked, hab⟩ := h.exists_linked
  have hret : obs.retVal b = obs.retVal (b + 1) := hlinked.2.1
  intro heq
  have hval : obs.retVal a = obs.argVal x := heq ▸ hx.retVal_second
  have hb₀ : obs.retVal b = obs.argVal x := by
    rcases hab with rfl | rfl
    · exact hval
    · rw [hret, hval]
  have h₁ := hx.eq_second (Nat.lt_of_succ_lt hb) hb₀
  have h₂ := hx.eq_second hb (hret ▸ hb₀)
  omega

end Calls

/-! ## The value of a map at a call -/

theorem getD_setAll {ws : List (ℕ × ℕ)} {result : PermutationMap} {id v : ℕ}
    (hid : id < result.length) (hall : ∀ w ∈ ws, w.1 = id → w.2 = v)
    (hsome : result.getD id 0 = v ∨ ∃ w ∈ ws, w.1 = id) : (setAll ws result).getD id 0 = v := by
  induction ws generalizing result with
  | nil => exact hsome.resolve_right fun ⟨w, hw, _⟩ => List.not_mem_nil hw
  | cons w ws ih =>
    rw [setAll, List.foldl_cons, ← setAll]
    refine ih (by rwa [List.length_set]) (fun w' hw' => hall w' (List.mem_cons_of_mem w hw')) ?_
    by_cases hw : w.1 = id
    · left
      rw [hw, List.getD_eq_getElem _ _ (by rwa [List.length_set]), List.getElem_set_self]
      exact hall w List.mem_cons_self hw
    · rcases hsome with hsame | ⟨w', hw', hwid⟩
      · left
        rw [List.getD_eq_getElem _ _ (by rwa [List.length_set]), List.getElem_set_ne hw,
          ← List.getD_eq_getElem _ 0 hid]
        exact hsame
      · rcases List.mem_cons.1 hw' with rfl | hw'
        · exact absurd hwid hw
        · exact .inr ⟨w', hw', hwid⟩

section Value

variable {obs : Observation} {orders : Orders}

/-- The map for orders. -/
def mapOf (obs : Observation) (orders : Orders) (id : ℕ) : ℕ :=
  (generatePermutation obs.ids orders.1 orders.2).getD id 0

/-- A call goes to `v` if all that is written for it is `v`. -/
theorem mapOf_eq (h : IsOrders obs orders) {id v : ℕ} (hid : id < obs.getNumOps)
    (hcall : ∀ c, (id, c) ∈ moves (calculateSymmetricCalls obs) orders.1 → c = v)
    (hfirst : ∀ e e', (e, e') ∈ moves (calculateDICalls obs) orders.2 → e.first = id →
      e'.first = v)
    (hsecond : ∀ e e', (e, e') ∈ moves (calculateDICalls obs) orders.2 → e.second = id →
      e'.second = v)
    (hsome : id = v ∨ (∃ c, (id, c) ∈ moves (calculateSymmetricCalls obs) orders.1) ∨
      ∃ e e', (e, e') ∈ moves (calculateDICalls obs) orders.2 ∧ (e.first = id ∨ e.second = id)) :
    mapOf obs orders id = v := by
  rw [mapOf, generatePermutation_eq h]
  have hlen : id < obs.ids.length := by rwa [Observation.ids, List.length_range]
  refine getD_setAll hlen ?_ ?_
  · intro w hw hwid
    rcases List.mem_append.1 hw with hw | hw
    · obtain ⟨⟨a, c⟩, hq, hw⟩ := mem_classWrites_iff.1 hw
      rw [callWrites, List.mem_singleton] at hw
      subst hw
      subst hwid
      exact hcall c hq
    · obtain ⟨⟨e, e'⟩, hq, hw⟩ := mem_classWrites_iff.1 hw
      rw [edgeWrites, List.mem_cons, List.mem_singleton] at hw
      rcases hw with rfl | rfl
      · exact hfirst e e' hq hwid
      · exact hsecond e e' hq hwid
  · rcases hsome with hsame | ⟨c, hc⟩ | ⟨e, e', hq, hend⟩
    · left
      rw [List.getD_eq_getElem _ _ hlen, ← hsame]
      exact List.getElem_range _
    · exact .inr ⟨(id, c), List.mem_append_left _ (mem_classWrites_iff.2
        ⟨(id, c), hc, List.mem_singleton.2 rfl⟩), rfl⟩
    · rcases hend with hfst | hsnd
      · exact .inr ⟨(e.first, e'.first), List.mem_append_right _ (mem_classWrites_iff.2
          ⟨(e, e'), hq, List.mem_cons_self⟩), hfst⟩
      · exact .inr ⟨(e.second, e'.second), List.mem_append_right _ (mem_classWrites_iff.2
          ⟨(e, e'), hq, List.mem_cons_of_mem _ List.mem_cons_self⟩), hsnd⟩

theorem nodup_calls (obs : Observation) : (calculateSymmetricCalls obs).flatten.Nodup :=
  (calculateSymmetricCalls_spec obs).ascending.imp ne_of_lt

theorem nodup_edges (obs : Observation) : (calculateDICalls obs).flatten.Nodup := by
  rw [(calculateDICalls_spec obs).flatten]
  refine (List.nodup_range.filter _).map fun x y hxy => ?_
  exact congrArg Pair.first hxy

/-- Calls move within classes of symmetric calls. -/
theorem inCallClass_of_moves (h : IsOrders obs orders) {a c : ℕ}
    (hac : (a, c) ∈ moves (calculateSymmetricCalls obs) orders.1) :
    InCallClass obs a ∧ InCallClass obs c := by
  obtain ⟨eq, heq, ha, hc⟩ := mem_of_mem_moves h.1 hac
  exact ⟨List.mem_flatten_of_mem heq ha, List.mem_flatten_of_mem heq hc⟩

/-- The edges of a move are those of data symmetric calls. -/
theorem edge_of_moves (h : IsOrders obs orders) {e e' : CallEdge}
    (hee' : (e, e') ∈ moves (calculateDICalls obs) orders.2) :
    (e.first < obs.getNumOps ∧ DataSymmetric obs e.first ∧ edgeOf obs e.first = e) ∧
      e'.first < obs.getNumOps ∧ DataSymmetric obs e'.first ∧ edgeOf obs e'.first = e' := by
  obtain ⟨eq, heq, he, he'⟩ := mem_of_mem_moves h.2 hee'
  exact ⟨(calculateDICalls_spec obs).of_mem heq he, (calculateDICalls_spec obs).of_mem heq he'⟩

end Value

/-! ## Symmetries only exchange what can be interchanged -/

section Necessary

variable {obs : Observation}

theorem isOrders_self (obs : Observation) :
    IsOrders obs (calculateSymmetricCalls obs, calculateDICalls obs) :=
  ⟨List.forall₂_same.2 fun _ _ => .refl _, List.forall₂_same.2 fun _ _ => .refl _⟩

/-- Two adjacent symmetric calls are exchanged by some orders. -/
theorem exists_mapOf_swap_calls {a : ℕ} (ha : a + 1 < obs.getNumOps) (hlinked : Linked obs a) :
    ∃ orders, IsOrders obs orders ∧
      ∀ id < obs.getNumOps, mapOf obs orders id = Equiv.swap a (a + 1) id := by
  have hclass := (calculateSymmetricCalls_spec obs).complete a (by omega) hlinked
  have horders : IsOrders obs (swapIn a (a + 1) (calculateSymmetricCalls obs),
      calculateDICalls obs) := ⟨swapIn_perm (nodup_calls obs) hclass, (isOrders_self obs).2⟩
  obtain ⟨eq, heq, haeq, haeq'⟩ := hclass
  have hin : InCallClass obs a := List.mem_flatten_of_mem heq haeq
  have hin' : InCallClass obs (a + 1) := List.mem_flatten_of_mem heq haeq'
  refine ⟨_, horders, fun id hid => mapOf_eq horders hid ?_ ?_ ?_ ?_⟩
  · exact fun c hc => eq_of_mem_moves_swapIn hc
  · intro e e' hee' hfirst
    have hds := (edge_of_moves horders hee').1.2.1
    rw [eq_of_mem_moves_self hee', hfirst]
    refine (Equiv.swap_apply_of_ne_of_ne ?_ ?_).symm
    · rintro rfl
      exact hin.not_dataSymmetric (hfirst ▸ hds)
    · rintro rfl
      exact hin'.not_dataSymmetric (hfirst ▸ hds)
  · intro e e' hee' hsecond
    obtain ⟨-, hds, hedge⟩ := (edge_of_moves horders hee').1
    rw [← hedge] at hsecond
    have he' : e' = e := eq_of_mem_moves_self hee'
    rw [he', ← hedge, hsecond]
    refine (Equiv.swap_apply_of_ne_of_ne ?_ ?_).symm
    · rintro rfl
      exact hin.ne_second hds hsecond.symm
    · rintro rfl
      exact hin'.ne_second hds hsecond.symm
  · by_cases hclass : InCallClass obs id
    · exact .inr (.inl (exists_moves horders.1 hclass))
    · left
      refine (Equiv.swap_apply_of_ne_of_ne ?_ ?_).symm
      · rintro rfl
        exact hclass hin
      · rintro rfl
        exact hclass hin'

/-- Two data symmetric calls of a class are exchanged by some orders, and nothing else is but the
calls that return their arguments. -/
theorem exists_mapOf_swap_edges {x y : ℕ} (hx : x < obs.getNumOps) (hy : y < obs.getNumOps)
    (hxds : DataSymmetric obs x) (hyds : DataSymmetric obs y)
    (hclass : ∃ eq ∈ calculateDICalls obs, edgeOf obs x ∈ eq ∧ edgeOf obs y ∈ eq) :
    ∃ orders, IsOrders obs orders ∧ mapOf obs orders x = y ∧ mapOf obs orders y = x ∧
      ∀ w < obs.getNumOps, w ≠ x → w ≠ y → w ≠ (edgeOf obs x).second →
        w ≠ (edgeOf obs y).second → mapOf obs orders w = w := by
  have horders : IsOrders obs (calculateSymmetricCalls obs,
      swapIn (edgeOf obs x) (edgeOf obs y) (calculateDICalls obs)) :=
    ⟨(isOrders_self obs).1, swapIn_perm (nodup_edges obs) hclass⟩
  obtain ⟨eq, heq, hxeq, hyeq⟩ := hclass
  -- where the data symmetric call `z` goes
  have hfirst : ∀ {z : ℕ}, z < obs.getNumOps → DataSymmetric obs z →
      (∃ eq ∈ calculateDICalls obs, edgeOf obs z ∈ eq) → mapOf obs (calculateSymmetricCalls obs,
        swapIn (edgeOf obs x) (edgeOf obs y) (calculateDICalls obs)) z =
        (Equiv.swap (edgeOf obs x) (edgeOf obs y) (edgeOf obs z)).first := by
    intro z hz hzds ⟨eq, heq, hzeq⟩
    refine mapOf_eq horders hz ?_ ?_ ?_ ?_
    · intro c hc
      exact absurd hzds (inCallClass_of_moves horders hc).1.not_dataSymmetric
    · intro e e' hee' he
      rw [eq_of_mem_moves_swapIn hee', ← he, (edge_of_moves horders hee').1.2.2]
    · intro e e' hee' he
      obtain ⟨-, hds, hedge⟩ := (edge_of_moves horders hee').1
      exact absurd (hedge ▸ he) (hds.second_ne hzds)
    · obtain ⟨e', hee'⟩ := exists_moves horders.2 (List.mem_flatten_of_mem heq hzeq)
      exact .inr (.inr ⟨_, e', hee', .inl rfl⟩)
  refine ⟨_, horders, ?_, ?_, fun w hw hwx hwy hwr hws => mapOf_eq horders hw ?_ ?_ ?_ (.inl rfl)⟩
  · rw [hfirst hx hxds ⟨eq, heq, hxeq⟩, Equiv.swap_apply_left]
    rfl
  · rw [hfirst hy hyds ⟨eq, heq, hyeq⟩, Equiv.swap_apply_right]
    rfl
  · exact fun c hc => eq_of_mem_moves_self hc
  · intro e e' hee' he
    rw [eq_of_mem_moves_swapIn hee', Equiv.swap_apply_of_ne_of_ne, he]
    · rintro rfl
      exact hwx he.symm
    · rintro rfl
      exact hwy he.symm
  · intro e e' hee' he
    rw [eq_of_mem_moves_swapIn hee', Equiv.swap_apply_of_ne_of_ne, he]
    · rintro rfl
      exact hwr he.symm
    · rintro rfl
      exact hws he.symm

/-- The map for orders, if all maps that are built are symmetries. -/
theorem isSymmetry_mapOf (h : ∀ perm, Builds obs perm → IsSymmetry obs perm) {orders : Orders}
    (ho : IsOrders obs orders) :
    IsSymmetry obs (generatePermutation obs.ids orders.1 orders.2) :=
  h _ (builds_iff.2 ⟨orders, ho, rfl⟩)

theorem Interchange.of_isSymmetry {x y : ℕ} (hx : x < obs.getNumOps) (hy : y < obs.getNumOps)
    (hxds : DataSymmetric obs x) (hyds : DataSymmetric obs y)
    (hclass : ∃ eq ∈ calculateDICalls obs, edgeOf obs x ∈ eq ∧ edgeOf obs y ∈ eq)
    (hne : obs.argVal x ≠ obs.argVal y)
    (h : ∀ perm, Builds obs perm → IsSymmetry obs perm) : Interchange obs x y := by
  obtain ⟨orders, ho, hmx, hmy, hfix⟩ := exists_mapOf_swap_edges hx hy hxds hyds hclass
  have hs := isSymmetry_mapOf h ho
  have hmaps : ∀ id < obs.getNumOps, mapOf obs orders id < obs.getNumOps :=
    fun id hid => hs.bijOn.mapsTo hid
  have hforward : ∀ {j k : ℕ}, j < obs.getNumOps → k < obs.getNumOps →
      obs.retVal j = obs.argVal k → obs.argVal k ≠ 0 →
      obs.retVal (mapOf obs orders j) = obs.argVal (mapOf obs orders k) ∧
        obs.argVal (mapOf obs orders k) ≠ 0 :=
    fun hj hk hret hne0 => (hs.returns _ hj _ hk).2 ⟨hret, hne0⟩
  have hr := second_edgeOf_lt hxds
  have hs' := second_edgeOf_lt hyds
  have hretr := hxds.retVal_second
  have hrets := hyds.retVal_second
  have hmr : mapOf obs orders (edgeOf obs x).second = (edgeOf obs y).second := by
    have hret := (hforward hr hx hretr hxds.argVal_ne).1
    rw [hmx] at hret
    exact hyds.eq_second (hmaps _ hr) hret
  have hms : mapOf obs orders (edgeOf obs y).second = (edgeOf obs x).second := by
    have hret := (hforward hs' hy hrets hyds.argVal_ne).1
    rw [hmy] at hret
    exact hxds.eq_second (hmaps _ hs') hret
  refine ⟨fun w hw hwx hwy hwr hws => ?_, ?_⟩
  · have hmw := hfix w hw hwx hwy hwr hws
    refine ⟨fun harg => ?_, fun harg => ?_⟩
    · have hne0 : obs.argVal w ≠ 0 := harg.symm ▸ hxds.argVal_ne
      have hret := (hforward hr hw (hretr.trans harg.symm) hne0).1
      rw [hmr, hmw, hrets] at hret
      exact hne (harg.symm.trans hret.symm)
    · have hne0 : obs.argVal w ≠ 0 := harg.symm ▸ hyds.argVal_ne
      have hret := (hforward hs' hw (hrets.trans harg.symm) hne0).1
      rw [hms, hmw, hretr] at hret
      exact hne (hret.trans harg)
  · by_cases hreturned : ArgReturned obs (edgeOf obs x).second
    · obtain ⟨z, hz, hret, hne0⟩ := hreturned
      replace hret : obs.retVal z = obs.argVal (edgeOf obs x).second := hret
      have himage := (hforward hz hr hret hne0).1
      rw [hmr] at himage
      have hz0 : obs.retVal z ≠ 0 := hret ▸ hne0
      by_cases hzr : z = (edgeOf obs x).second
      · -- it returns its own argument
        subst hzr
        rw [hmr, hrets] at himage
        exact .inr (.inr (.inl ⟨hret.symm.trans hretr, himage.symm⟩))
      by_cases hzs : z = (edgeOf obs y).second
      · subst hzs
        rw [hms, hretr] at himage
        exact .inr (.inr (.inr ⟨hret.symm.trans hrets, himage.symm⟩))
      have hzx : z ≠ x := fun hzx => hz0 (hzx ▸ hxds.retVal_eq)
      have hzy : z ≠ y := fun hzy => hz0 (hzy ▸ hyds.retVal_eq)
      rw [hfix z hz hzx hzy hzr hzs] at himage
      refine .inl ⟨hret.symm.trans himage, fun hx' => ?_, fun hy' => ?_⟩
      · exact hzr (hxds.eq_second hz (hret.trans hx'))
      · exact hzs (hyds.eq_second hz (hret.trans hy'))
    · refine .inr (.inl ⟨hreturned, ?_⟩)
      rintro ⟨z, hz, hret, hne0⟩
      have himage := hforward hz hs' hret hne0
      rw [hms] at himage
      exact hreturned ⟨_, hmaps z hz, himage⟩

/-- **Symmetries only exchange calls that can be interchanged.** -/
theorem Interchangeable.of_isSymmetry (h : ∀ perm, Builds obs perm → IsSymmetry obs perm) :
    Interchangeable obs where
  calls a ha hlinked := by
    obtain ⟨orders, ho, hmap⟩ := exists_mapOf_swap_calls ha hlinked
    have hs := isSymmetry_mapOf h ho
    have ha' : a < obs.getNumOps := Nat.lt_of_succ_lt ha
    have hma : mapOf obs orders a = a + 1 := by rw [hmap a ha', Equiv.swap_apply_left]
    have hma' : mapOf obs orders (a + 1) = a := by rw [hmap _ ha, Equiv.swap_apply_right]
    have hret : ∀ z < obs.getNumOps, obs.retVal (mapOf obs orders z) = obs.retVal z := by
      intro z hz
      rw [hmap z hz, Equiv.swap_apply_def]
      split
      · rename_i hza
        rw [hza]
        exact hlinked.2.1.symm
      · split
        · rename_i hza
          rw [hza]
          exact hlinked.2.1
        · rfl
    refine or_iff_not_imp_left.2 fun hne => ⟨?_, ?_⟩
    · rintro ⟨z, hz, hreturns⟩
      have himage : obs.retVal (mapOf obs orders z) = obs.argVal (mapOf obs orders a) :=
        ((hs.returns z hz a ha').2 hreturns).1
      rw [hret z hz, hma] at himage
      exact hne (hreturns.1.symm.trans himage)
    · rintro ⟨z, hz, hreturns⟩
      have himage : obs.retVal (mapOf obs orders z) = obs.argVal (mapOf obs orders (a + 1)) :=
        ((hs.returns z hz (a + 1) ha).2 hreturns).1
      rw [hret z hz, hma'] at himage
      exact hne (himage.symm.trans hreturns.1)
  edges x y hxy hy hxds hyds hupto hne := by
    have hclass := (calculateDICalls_spec obs).complete x y hxy hy hxds hyds hupto
    exact .of_isSymmetry (hxy.trans hy) hy hxds hyds hclass hne h

end Necessary

/-! ## What can be interchanged is exchanged by symmetries -/

/-- A relation that a bijection of a finite set keeps is also reflected by it. -/
theorem iff_of_forward {s : Finset ℕ} {π : ℕ → ℕ} {r : ℕ → ℕ → Prop}
    (hπ : Set.BijOn π s s) (hr : ∀ j ∈ s, ∀ k ∈ s, r j k → r (π j) (π k)) {j k : ℕ} (hj : j ∈ s)
    (hk : k ∈ s) : r (π j) (π k) ↔ r j k := by
  classical
  refine ⟨fun h => ?_, hr j hj k hk⟩
  let edges := (s ×ˢ s).filter fun p => r p.1 p.2
  have hmem : ∀ {p : ℕ × ℕ}, p ∈ edges ↔ (p.1 ∈ s ∧ p.2 ∈ s) ∧ r p.1 p.2 := by
    intro p
    rw [Finset.mem_filter, Finset.mem_product]
  have hmaps : Set.MapsTo (Prod.map π π) (edges : Set (ℕ × ℕ)) edges := by
    intro p hp
    obtain ⟨⟨h₁, h₂⟩, hp⟩ := hmem.1 hp
    exact hmem.2 ⟨⟨hπ.mapsTo h₁, hπ.mapsTo h₂⟩, hr _ h₁ _ h₂ hp⟩
  have hinj : Set.InjOn (Prod.map π π) (edges : Set (ℕ × ℕ)) := by
    intro p hp q hq hpq
    obtain ⟨⟨h₁, h₂⟩, -⟩ := hmem.1 hp
    obtain ⟨⟨h₁', h₂'⟩, -⟩ := hmem.1 hq
    have heq := Prod.mk.inj hpq
    exact Prod.ext (hπ.injOn h₁ h₁' heq.1) (hπ.injOn h₂ h₂' heq.2)
  obtain ⟨p, hp, hpjk⟩ := Finset.surjOn_of_injOn_of_card_le _ hmaps hinj le_rfl
    (hmem.2 ⟨⟨hπ.mapsTo hj, hπ.mapsTo hk⟩, h⟩ : (π j, π k) ∈ edges)
  obtain ⟨⟨h₁, h₂⟩, hp⟩ := hmem.1 hp
  have heq := Prod.mk.inj hpjk
  rwa [hπ.injOn h₁ hj heq.1, hπ.injOn h₂ hk heq.2] at hp

section Sufficient

variable {obs : Observation} {orders : Orders}

theorem Interchange.symm {x y : ℕ} (h : Interchange obs x y) : Interchange obs y x where
  passed w hw hwy hwx hws hwr := (h.passed w hw hwx hwy hwr hws).symm
  returning := by
    rcases h.returning with ⟨heq, hx, hy⟩ | ⟨hr, hs⟩ | ⟨hr, hs⟩ | ⟨hr, hs⟩
    · exact .inl ⟨heq.symm, heq ▸ hy, heq ▸ hx⟩
    · exact .inr (.inl ⟨hs, hr⟩)
    · exact .inr (.inr (.inl ⟨hs, hr⟩))
    · exact .inr (.inr (.inr ⟨hs, hr⟩))

theorem ArgReturned.congr {a b : ℕ} (h : obs.argVal a = obs.argVal b) :
    ArgReturned obs a ↔ ArgReturned obs b := by
  have hreturns : ∀ j, Returns obs.ops j a ↔ Returns obs.ops j b := by
    intro j
    change (obs.retVal j = obs.argVal a ∧ obs.argVal a ≠ 0) ↔
      (obs.retVal j = obs.argVal b ∧ obs.argVal b ≠ 0)
    rw [h]
  simp only [ArgReturned, hreturns]

theorem second_congr {x y : ℕ} (h : obs.argVal x = obs.argVal y) :
    (edgeOf obs x).second = (edgeOf obs y).second := by
  simp only [edgeOf]
  rw [show (obs.getCall x).argVal = (obs.getCall y).argVal from h]

/-- Edges of one class have the same names, and can be interchanged unless they have the same
argument. -/
theorem Interchangeable.of_mem (h : Interchangeable obs) {eq : List CallEdge}
    (heq : eq ∈ calculateDICalls obs) {e e' : CallEdge} (he : e ∈ eq) (he' : e' ∈ eq) :
    sameNames obs e e' = true ∧
      (obs.argVal e.first ≠ obs.argVal e'.first → Interchange obs e.first e'.first) := by
  have hspec := calculateDICalls_spec obs
  have hle : ∀ {e e' : CallEdge}, e ∈ eq → e' ∈ eq → e.first ≤ e'.first →
      sameNames obs e e' = true ∧
        (obs.argVal e.first ≠ obs.argVal e'.first → Interchange obs e.first e'.first) := by
    intro e e' he he' hle
    obtain ⟨hlt, hds, hedge⟩ := hspec.of_mem heq he
    obtain ⟨hlt', hds', hedge'⟩ := hspec.of_mem heq he'
    have hupto := hspec.same eq heq e he e' he'
    refine ⟨?_, fun hne => ?_⟩
    · have hnames := hupto e'.first (Nat.lt_succ_self _) hle hds'
      rwa [hedge, hedge'] at hnames
    · rcases hle.lt_or_eq with hlt'' | heq'
      · exact h.edges _ _ hlt'' hlt' hds hds' hupto hne
      · exact absurd (congrArg obs.argVal heq') hne
  rcases le_total e.first e'.first with hee' | hee'
  · exact hle he he' hee'
  · obtain ⟨hnames, hint⟩ := hle he' he hee'
    refine ⟨?_, fun hne => (hint (Ne.symm hne)).symm⟩
    rw [sameNames_iff] at hnames ⊢
    exact ⟨hnames.1.symm, hnames.2.symm⟩

/-- Calls that are put in one class. -/
structure Alike (obs : Observation) (a c : ℕ) : Prop where
  name : (obs.getCall a).name = (obs.getCall c).name
  retVal : obs.retVal a = obs.retVal c
  argVal : obs.argVal a = obs.argVal c ∨ (¬ ArgReturned obs a ∧ ¬ ArgReturned obs c)

theorem Alike.refl (a : ℕ) : Alike obs a a := ⟨rfl, rfl, .inl rfl⟩

theorem Alike.symm {a c : ℕ} (h : Alike obs a c) : Alike obs c a :=
  ⟨h.name.symm, h.retVal.symm, h.argVal.imp Eq.symm And.symm⟩

theorem Alike.trans {a b c : ℕ} (h : Alike obs a b) (h' : Alike obs b c) : Alike obs a c := by
  refine ⟨h.name.trans h'.name, h.retVal.trans h'.retVal, ?_⟩
  rcases h.argVal with hab | ⟨ha, hb⟩ <;> rcases h'.argVal with hbc | ⟨hb', hc⟩
  · exact .inl (hab.trans hbc)
  · exact .inr ⟨fun ha => hb' ((ArgReturned.congr hab).1 ha), hc⟩
  · exact .inr ⟨ha, fun hc => hb ((ArgReturned.congr hbc).2 hc)⟩
  · exact .inr ⟨ha, hc⟩

/-- Calls of one class are alike. -/
theorem Interchangeable.alike (h : Interchangeable obs) {eq : List ℕ}
    (heq : eq ∈ calculateSymmetricCalls obs) {a c : ℕ} (ha : a ∈ eq) (hc : c ∈ eq) :
    Alike obs a c := by
  have hlt := (calculateSymmetricCalls_ascending obs eq heq).2
  have htrans : IsTrans ℕ (Alike obs) := ⟨fun _ _ _ => .trans⟩
  have hsymm : Std.Symm (Alike obs) := ⟨fun _ _ => .symm⟩
  have hchain : eq.IsChain (Alike obs) := by
    refine ((calculateSymmetricCalls_spec obs).linked eq heq).imp_of_mem_imp fun a b _ hb hab => ?_
    obtain ⟨rfl, hlinked⟩ := hab
    exact ⟨hlinked.1, hlinked.2.1, h.calls a (hlt _ hb) hlinked⟩
  exact hchain.pairwise.forall_of_forall (fun a _ => .refl a) ha hc

/-- Another call with the argument of one of the two ends keeps an edge from moving to an edge with
a different argument. -/
theorem Interchangeable.argVal_eq (h : Interchangeable obs) (ho : IsOrders obs orders)
    {e e' : CallEdge} (hee' : (e, e') ∈ moves (calculateDICalls obs) orders.2) {z : ℕ}
    (hz : z < obs.getNumOps) (hzds : DataSymmetric obs z) (hze : z ≠ e.first) (hze' : z ≠ e'.first)
    (harg : obs.argVal z = obs.argVal e.first ∨ obs.argVal z = obs.argVal e'.first) :
    obs.argVal e.first = obs.argVal e'.first := by
  obtain ⟨eq, heq, he, he'⟩ := mem_of_mem_moves ho.2 hee'
  obtain ⟨⟨-, hds, -⟩, -, hds', -⟩ := edge_of_moves ho hee'
  by_contra hne
  have hpassed := ((h.of_mem heq he he').2 hne).passed z hz hze hze' (hds.second_ne hzds).symm
    (hds'.second_ne hzds).symm
  exact harg.elim hpassed.1 hpassed.2

/-- Where a call goes. -/
inductive Place (obs : Observation) (orders : Orders) : ℕ → ℕ → Prop
  | call {a c : ℕ} : (a, c) ∈ moves (calculateSymmetricCalls obs) orders.1 → Place obs orders a c
  | first {e e' : CallEdge} :
      (e, e') ∈ moves (calculateDICalls obs) orders.2 → Place obs orders e.first e'.first
  | second {e e' : CallEdge} :
      (e, e') ∈ moves (calculateDICalls obs) orders.2 → Place obs orders e.second e'.second
  | other {id : ℕ} : ¬ InCallClass obs id →
      (∀ x < obs.getNumOps, DataSymmetric obs x → id ≠ x ∧ id ≠ (edgeOf obs x).second) →
      Place obs orders id id

theorem mem_flatten_edges {x : ℕ} (hx : x < obs.getNumOps) (hds : DataSymmetric obs x) :
    edgeOf obs x ∈ (calculateDICalls obs).flatten :=
  (calculateDICalls_spec obs).mem_flatten_iff.2 ⟨x, hx, hds, rfl⟩

theorem exists_place (ho : IsOrders obs orders) (id : ℕ) : ∃ v, Place obs orders id v := by
  by_cases hcall : InCallClass obs id
  · obtain ⟨c, hc⟩ := exists_moves ho.1 hcall
    exact ⟨c, .call hc⟩
  by_cases hedge : ∃ x < obs.getNumOps, DataSymmetric obs x ∧
      (id = x ∨ id = (edgeOf obs x).second)
  · obtain ⟨x, hx, hds, hid⟩ := hedge
    obtain ⟨e', he'⟩ := exists_moves ho.2 (mem_flatten_edges hx hds)
    rcases hid with rfl | rfl
    · exact ⟨_, .first he'⟩
    · exact ⟨_, .second he'⟩
  · refine ⟨id, .other hcall fun x hx hds => not_or.1 fun hid => hedge ⟨x, hx, hds, hid⟩⟩

theorem exists_place_to (ho : IsOrders obs orders) {v : ℕ} (hv : v < obs.getNumOps) :
    ∃ id < obs.getNumOps, Place obs orders id v := by
  by_cases hcall : InCallClass obs v
  · obtain ⟨a, ha⟩ := exists_moves_to ho.1 hcall
    obtain ⟨eq, heq, haeq, -⟩ := mem_of_mem_moves ho.1 ha
    exact ⟨a, (calculateSymmetricCalls_ascending obs eq heq).2 a haeq, .call ha⟩
  by_cases hedge : ∃ x < obs.getNumOps, DataSymmetric obs x ∧
      (v = x ∨ v = (edgeOf obs x).second)
  · obtain ⟨x, hx, hds, hid⟩ := hedge
    obtain ⟨e, he⟩ := exists_moves_to ho.2 (mem_flatten_edges hx hds)
    obtain ⟨⟨hlt, heds, hself⟩, -⟩ := edge_of_moves ho he
    rcases hid with rfl | rfl
    · exact ⟨_, hlt, .first he⟩
    · exact ⟨_, hself ▸ second_edgeOf_lt heds, .second he⟩
  · exact ⟨v, hv, .other hcall fun x hx hds => not_or.1 fun hid => hedge ⟨x, hx, hds, hid⟩⟩

theorem Place.mapOf_eq {id v : ℕ} (hp : Place obs orders id v) (h : Interchangeable obs)
    (ho : IsOrders obs orders) (hid : id < obs.getNumOps) : mapOf obs orders id = v := by
  cases hp with
  | call hac =>
    have hin := (inCallClass_of_moves ho hac).1
    refine Specification.mapOf_eq ho hid ?_ ?_ ?_ (.inr (.inl ⟨_, hac⟩))
    · exact fun c' hc' => moves_unique ho.1 (nodup_calls obs) hc' hac
    · intro d d' hdd' hd
      exact absurd (hd ▸ (edge_of_moves ho hdd').1.2.1) hin.not_dataSymmetric
    · intro d d' hdd' hd
      obtain ⟨-, hds, hself⟩ := (edge_of_moves ho hdd').1
      exact absurd (hself ▸ hd).symm (hin.ne_second hds)
  | @first e e' hee' =>
    obtain ⟨-, hds, hself⟩ := (edge_of_moves ho hee').1
    refine Specification.mapOf_eq ho hid ?_ ?_ ?_ (.inr (.inr ⟨e, e', hee', .inl rfl⟩))
    · exact fun c hc => absurd hds (inCallClass_of_moves ho hc).1.not_dataSymmetric
    · intro d d' hdd' hd
      have hde : d = e := by rw [← (edge_of_moves ho hdd').1.2.2, hd, hself]
      subst hde
      rw [moves_unique ho.2 (nodup_edges obs) hdd' hee']
    · intro d d' hdd' hd
      obtain ⟨-, hdds, hdself⟩ := (edge_of_moves ho hdd').1
      exact absurd (hdself ▸ hd) (hdds.second_ne hds)
  | @second e e' hee' =>
    obtain ⟨⟨hlt, hds, hself⟩, hlt', hds', hself'⟩ := edge_of_moves ho hee'
    refine Specification.mapOf_eq ho hid ?_ ?_ ?_ (.inr (.inr ⟨e, e', hee', .inr rfl⟩))
    · intro c hc
      exact absurd (congrArg Pair.second hself).symm ((inCallClass_of_moves ho hc).1.ne_second hds)
    · intro d d' hdd' hd
      have hdds := (edge_of_moves ho hdd').1.2.1
      exact absurd ((congrArg Pair.second hself).trans hd.symm) (hds.second_ne hdds)
    · -- another edge with this call: neither of the two changes its argument
      intro d d' hdd' hd
      obtain ⟨⟨hdlt, hdds, hdself⟩, hdlt', hdds', hdself'⟩ := edge_of_moves ho hdd'
      by_cases hde : d = e
      · subst hde
        rw [moves_unique ho.2 (nodup_edges obs) hdd' hee']
      have harg : obs.argVal d.first = obs.argVal e.first := by
        rw [← hds.retVal_second, ← hdds.retVal_second, hself, hdself, hd]
      have hne : d.first ≠ e.first := fun hfirst => hde (by rw [← hdself, hfirst, hself])
      have he : obs.argVal e.first = obs.argVal e'.first := by
        by_cases hd' : d.first = e'.first
        · rw [← hd', harg]
        · exact h.argVal_eq ho hee' hdlt hdds hne hd' (.inl harg)
      have hd : obs.argVal d.first = obs.argVal d'.first := by
        by_cases he' : e.first = d'.first
        · rw [← he', harg]
        · exact h.argVal_eq ho hdd' hlt hds hne.symm he' (.inl harg.symm)
      rw [← hdself', ← hself']
      exact second_congr (hd.symm.trans (harg.trans he))
  | other hcall hedge =>
    refine Specification.mapOf_eq ho hid ?_ ?_ ?_ (.inl rfl)
    · exact fun c hc => absurd (inCallClass_of_moves ho hc).1 hcall
    · intro d d' hdd' hd
      obtain ⟨hdlt, hdds, -⟩ := (edge_of_moves ho hdd').1
      exact absurd hd.symm (hedge _ hdlt hdds).1
    · intro d d' hdd' hd
      obtain ⟨hdlt, hdds, hdself⟩ := (edge_of_moves ho hdd').1
      exact absurd (hdself ▸ hd).symm (hedge _ hdlt hdds).2

theorem Place.name_eq {id v : ℕ} (hp : Place obs orders id v) (h : Interchangeable obs)
    (ho : IsOrders obs orders) : (obs.getCall v).name = (obs.getCall id).name := by
  cases hp with
  | call hac =>
    obtain ⟨eq, heq, ha, hc⟩ := mem_of_mem_moves ho.1 hac
    exact (h.alike heq hc ha).name
  | first hee' =>
    obtain ⟨eq, heq, he, he'⟩ := mem_of_mem_moves ho.2 hee'
    exact (sameNames_iff.1 (h.of_mem heq he' he).1).1
  | second hee' =>
    obtain ⟨eq, heq, he, he'⟩ := mem_of_mem_moves ho.2 hee'
    exact (sameNames_iff.1 (h.of_mem heq he' he).1).2
  | other => rfl

/-- A call returns the argument of a data symmetric call that changes places with one that has a
different argument. -/
def Moving (obs : Observation) (orders : Orders) (id : ℕ) : Prop :=
  ∃ e e', (e, e') ∈ moves (calculateDICalls obs) orders.2 ∧ id = e.second ∧
    obs.argVal e.first ≠ obs.argVal e'.first

theorem Place.retVal_eq {id v : ℕ} (hp : Place obs orders id v) (h : Interchangeable obs)
    (ho : IsOrders obs orders) (hnot : ¬ Moving obs orders id) : obs.retVal v = obs.retVal id := by
  cases hp with
  | call hac =>
    obtain ⟨eq, heq, ha, hc⟩ := mem_of_mem_moves ho.1 hac
    exact (h.alike heq hc ha).retVal
  | first hee' =>
    obtain ⟨⟨-, hds, -⟩, -, hds', -⟩ := edge_of_moves ho hee'
    rw [hds.retVal_eq, hds'.retVal_eq]
  | @second e e' hee' =>
    obtain ⟨⟨-, hds, hself⟩, -, hds', hself'⟩ := edge_of_moves ho hee'
    have harg : obs.argVal e.first = obs.argVal e'.first :=
      by_contra fun hne => hnot ⟨e, e', hee', rfl, hne⟩
    rw [← hself, ← hself', second_congr harg]
  | other => rfl

/-- The argument of a call goes with a returned value that stays. -/
theorem Place.argVal_eq {j k w : ℕ} (hp : Place obs orders k w) (h : Interchangeable obs)
    (ho : IsOrders obs orders) (hj : j < obs.getNumOps) (hnot : ¬ Moving obs orders j)
    (hret : obs.retVal j = obs.argVal k) (hne0 : obs.argVal k ≠ 0) :
    obs.argVal w = obs.argVal k := by
  have hreturned : ArgReturned obs k := ⟨j, hj, hret, hne0⟩
  cases hp with
  | call hac =>
    obtain ⟨eq, heq, ha, hc⟩ := mem_of_mem_moves ho.1 hac
    rcases (h.alike heq hc ha).argVal with harg | ⟨-, hno⟩
    · exact harg
    · exact absurd hreturned hno
  | @first e e' hee' =>
    obtain ⟨-, hds, hself⟩ := (edge_of_moves ho hee').1
    have hje : j = e.second := hself ▸ hds.eq_second hj hret
    exact by_contra fun hne => hnot ⟨e, e', hee', hje, Ne.symm hne⟩
  | @second d d' hdd' =>
    obtain ⟨⟨-, hds, hself⟩, hlt', hds', hself'⟩ := edge_of_moves ho hdd'
    by_cases harg : obs.argVal d.first = obs.argVal d'.first
    · rw [← hself, ← hself', second_congr harg]
    obtain ⟨eq, heq, hd, hd'⟩ := mem_of_mem_moves ho.2 hdd'
    have hint := ((h.of_mem heq hd hd').2 harg).returning
    rw [hself, hself'] at hint
    rcases hint with ⟨hsame, -⟩ | ⟨hno, -⟩ | ⟨hown, -⟩ | ⟨hother, -⟩
    · exact hsame.symm
    · exact absurd hreturned hno
    · -- `j` is the call that passes the value, and it moves
      have hjd : j = d.second := hself ▸ hds.eq_second hj (hret.trans hown)
      exact absurd ⟨d, d', hdd', hjd, harg⟩ hnot
    · -- `j` returns the argument of `d'`, and so does where `d'` goes
      have hjd : j = d'.second := hself' ▸ hds'.eq_second hj (hret.trans hother)
      obtain ⟨d'', hd''⟩ := exists_moves ho.2 (hself' ▸ mem_flatten_edges hlt' hds')
      obtain ⟨-, hlt'', hds'', hself''⟩ := edge_of_moves ho hd''
      have harg' : obs.argVal d'.first = obs.argVal d''.first :=
        by_contra fun hne => hnot ⟨d', d'', hd'', hjd, hne⟩
      have hfirst : d''.first = d'.first := by
        by_contra hne
        have hne' : d''.first ≠ d.first := by
          intro heq
          rw [heq] at harg'
          exact harg harg'.symm
        exact harg (h.argVal_eq ho hdd' hlt'' hds'' hne' hne (.inr harg'.symm))
      have hdd'' : d'' = d' := by rw [← hself'', hfirst, hself']
      rw [hdd''] at hd''
      rw [moves_injective ho.2 (nodup_edges obs) hdd' hd''] at harg
      exact absurd rfl harg
  | other => rfl

/-- The argument of a call goes with a returned value that moves. -/
theorem Place.argVal_eq_of_moving {e e' : CallEdge} {k w : ℕ} (hp : Place obs orders k w)
    (h : Interchangeable obs) (ho : IsOrders obs orders) (hk : k < obs.getNumOps)
    (hee' : (e, e') ∈ moves (calculateDICalls obs) orders.2)
    (hne : obs.argVal e.first ≠ obs.argVal e'.first) (harg : obs.argVal k = obs.argVal e.first) :
    obs.argVal w = obs.argVal e'.first := by
  obtain ⟨⟨hlt, hds, hself⟩, hlt', hds', hself'⟩ := edge_of_moves ho hee'
  obtain ⟨eq, heq, he, he'⟩ := mem_of_mem_moves ho.2 hee'
  have hint := (h.of_mem heq he he').2 hne
  have hpassed := hint.passed
  have hreturning := hint.returning
  rw [hself, hself'] at hpassed hreturning
  have hsecond_lt : e.second < obs.getNumOps := by
    rw [← hself]
    exact second_edgeOf_lt hds
  have hret : obs.retVal e.second = obs.argVal e.first := by
    conv_lhs => rw [← hself]
    exact hds.retVal_second
  have hne0 : obs.argVal k ≠ 0 := harg.symm ▸ hds.argVal_ne
  have hreturned : ArgReturned obs k := ⟨e.second, hsecond_lt, hret.trans harg.symm, hne0⟩
  have hmap := hp.mapOf_eq h ho hk
  by_cases hke : k = e.first
  · rw [← hmap, hke, Place.mapOf_eq (.first hee') h ho hlt]
  by_cases hkr : k = e.second
  · subst hkr
    rw [← hmap, Place.mapOf_eq (.second hee') h ho hk]
    rcases hreturning with ⟨-, hown, -⟩ | ⟨hno, -⟩ | ⟨-, hown'⟩ | ⟨hother, -⟩
    · exact absurd harg hown
    · exact absurd hreturned hno
    · exact hown'
    · exact absurd (harg.symm.trans hother) hne
  by_cases hks : k = e'.second
  · subst hks
    obtain ⟨e'', hee''⟩ := exists_moves ho.2 (hself' ▸ mem_flatten_edges hlt' hds')
    obtain ⟨-, hlt'', hds'', hself''⟩ := edge_of_moves ho hee''
    rw [← hmap, Place.mapOf_eq (.second hee'') h ho hk]
    rcases hreturning with ⟨hsame, hown, -⟩ | ⟨-, hno⟩ | ⟨-, hown'⟩ | ⟨hother, -⟩
    · exact absurd (hsame.trans harg) hown
    · exact absurd hreturned hno
    · exact absurd (harg.symm.trans hown') hne
    -- the two edges are exchanged: a third one would have to go with both
    by_cases he'' : e'' = e
    · rw [he'']
      exact hother
    exfalso
    have hne'' : e'' ≠ e' := by
      intro hcontra
      rw [hcontra] at hee''
      exact hne (congrArg (fun e : CallEdge => obs.argVal e.first)
        (moves_injective ho.2 (nodup_edges obs) hee' hee''))
    have hfirst : e''.first ≠ e.first := fun hf => he'' (by rw [← hself'', hf, hself])
    have hfirst' : e''.first ≠ e'.first := fun hf => hne'' (by rw [← hself'', hf, hself'])
    have hnotsecond : ∀ {c : CallEdge}, DataSymmetric obs c.first → edgeOf obs c.first = c →
        e''.first ≠ c.second := by
      intro c hc hcself heq
      exact hc.second_ne hds'' (by rw [hcself, heq])
    obtain ⟨hargs, hargs'⟩ := hpassed e''.first hlt'' hfirst hfirst' (hnotsecond hds hself)
      (hnotsecond hds' hself')
    obtain ⟨c, hc, he'c, he''c⟩ := mem_of_mem_moves ho.2 hee''
    have hreturning'' := ((h.of_mem hc he'c he''c).2 (Ne.symm hargs')).returning
    rw [hself', hself''] at hreturning''
    rcases hreturning'' with ⟨hsame, -⟩ | ⟨hno, -⟩ | ⟨hown, -⟩ | ⟨hother', -⟩
    · have hsecond : ∀ {c : CallEdge}, DataSymmetric obs c.first → edgeOf obs c.first = c →
          obs.argVal e''.first ≠ obs.argVal c.first → e''.second ≠ c.second := by
        intro c hc hcself hcne heq
        refine hcne ?_
        rw [← hds''.retVal_second, ← hc.retVal_second, hself'', hcself, heq]
      have hlt_second : e''.second < obs.getNumOps := by
        rw [← hself'']
        exact second_edgeOf_lt hds''
      have hne₁ : e''.second ≠ e.first := by
        rw [← hself'']
        exact hds''.second_ne hds
      have hne₂ : e''.second ≠ e'.first := by
        rw [← hself'']
        exact hds''.second_ne hds'
      exact (hpassed _ hlt_second hne₁ hne₂ (hsecond hds hself hargs)
        (hsecond hds' hself' hargs')).1 (hsame.symm.trans harg)
    · exact hno hreturned
    · exact hne (harg.symm.trans hown)
    · exact hargs (hother'.symm.trans harg)
  · have hke' : k ≠ e'.first := fun hke' => hne (harg.symm.trans (congrArg obs.argVal hke'))
    exact absurd harg (hpassed k hk hke hke' hkr hks).1

/-- **What can be interchanged is exchanged by symmetries.** -/
theorem Interchangeable.isSymmetry (h : Interchangeable obs) (ho : IsOrders obs orders) :
    IsSymmetry obs (generatePermutation obs.ids orders.1 orders.2) := by
  have hbij : Set.BijOn (mapOf obs orders) (Finset.range obs.getNumOps)
      (Finset.range obs.getNumOps) := by
    have hmaps : Set.MapsTo (mapOf obs orders) (Finset.range obs.getNumOps)
        (Finset.range obs.getNumOps) := by
      intro id hid
      have hlt : id < (generatePermutation obs.ids orders.1 orders.2).length := by
        rw [length_generatePermutation ho]
        simpa using hid
      have hmem : mapOf obs orders id < obs.getNumOps := by
        rw [mapOf, List.getD_eq_getElem _ _ hlt]
        exact generatePermutation_lt ho _ (List.getElem_mem hlt)
      simpa using hmem
    have hsurj : Set.SurjOn (mapOf obs orders) (Finset.range obs.getNumOps)
        (Finset.range obs.getNumOps) := by
      intro v hv
      obtain ⟨id, hid, hp⟩ := exists_place_to ho (by simpa using hv)
      exact ⟨id, by simpa using hid, hp.mapOf_eq h ho hid⟩
    exact ⟨hmaps, Finset.injOn_of_surjOn_of_card_le _ hmaps hsurj le_rfl, hsurj⟩
  have hplace : ∀ id < obs.getNumOps, Place obs orders id (mapOf obs orders id) := by
    intro id hid
    obtain ⟨v, hv⟩ := exists_place ho id
    rwa [hv.mapOf_eq h ho hid]
  refine ⟨Finset.coe_range obs.getNumOps ▸ hbij, fun id hid => (hplace id hid).name_eq h ho,
    fun j hj k hk => ?_⟩
  refine iff_of_forward hbij (fun j hj k hk hreturns => ?_) (Finset.mem_range.2 hj)
    (Finset.mem_range.2 hk)
  rw [Finset.mem_range] at hj hk
  obtain ⟨hret, hne0⟩ : obs.retVal j = obs.argVal k ∧ obs.argVal k ≠ 0 := hreturns
  suffices hsuff : obs.retVal (mapOf obs orders j) = obs.argVal (mapOf obs orders k) ∧
      obs.retVal (mapOf obs orders j) ≠ 0 by
    obtain ⟨heq, hne⟩ := hsuff
    exact ⟨heq, fun h0 => hne (heq.trans h0)⟩
  by_cases hmoving : Moving obs orders j
  · obtain ⟨e, e', hee', rfl, hne⟩ := hmoving
    obtain ⟨⟨-, hds, hself⟩, -, hds', hself'⟩ := edge_of_moves ho hee'
    have harg : obs.argVal k = obs.argVal e.first := by
      rw [← hret, ← hds.retVal_second, hself]
    have hret' : obs.retVal (mapOf obs orders e.second) = obs.argVal e'.first := by
      rw [Place.mapOf_eq (.second hee') h ho hj, ← hds'.retVal_second, hself']
    rw [hret']
    exact ⟨((hplace k hk).argVal_eq_of_moving h ho hk hee' hne harg).symm, hds'.argVal_ne⟩
  · rw [(hplace j hj).retVal_eq h ho hmoving, hret]
    exact ⟨((hplace k hk).argVal_eq h ho hj hmoving hret hne0).symm, hne0⟩

end Sufficient

/-- **The maps are symmetries exactly if the calls of a class can be interchanged.** -/
theorem isSymmetry_iff (obs : Observation) :
    (∀ perm, Builds obs perm → IsSymmetry obs perm) ↔ Interchangeable obs := by
  refine ⟨.of_isSymmetry, fun h perm hperm => ?_⟩
  obtain ⟨orders, ho, rfl⟩ := builds_iff.1 hperm
  exact h.isSymmetry ho

/-- A register that is written twice and read twice, both times with the first value. -/
def readTwice : Observation :=
  { ops := [⟨⟨"read", 0, 1⟩, (2, 1)⟩, ⟨⟨"read", 0, 1⟩, (2, 2)⟩, ⟨⟨"write", 1, 0⟩, (1, 1)⟩,
      ⟨⟨"write", 2, 0⟩, (1, 2)⟩] }

/-- The two writes are exchanged, although only the value of one of them is read. -/
theorem readTwice_not_symmetric :
    Builds readTwice [0, 1, 3, 2] ∧ ¬ IsSymmetry readTwice [0, 1, 3, 2] := by
  refine ⟨builds_iff.2 ⟨([[0, 1], [3, 2]], []), ?_, by decide⟩, fun h => ?_⟩
  · have hcalls : calculateSymmetricCalls readTwice = [[0, 1], [2, 3]] := by decide
    have hedges : calculateDICalls readTwice = [] := by decide
    rw [IsOrders, hcalls, hedges]
    exact ⟨.cons (.refl _) (.cons (.swap 2 3 []) .nil), .nil⟩
  · have hreturns : Returns readTwice.ops 0 3 := (h.returns 0 (by decide) 2 (by decide)).2
      ⟨by decide, by decide⟩
    exact absurd hreturns.1 (by decide)

end Specification
end GenMC
