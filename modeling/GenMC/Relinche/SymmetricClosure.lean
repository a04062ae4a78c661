import GenMC.Library.NextPermutation
import GenMC.Relinche.Serialization
import Mathlib.Data.List.Chain
import Mathlib.Data.List.GetD
import Mathlib.Data.List.Pairwise

/-!
# Closing a specification under symmetry

With symmetry reduction, an execution stands for those in which symmetric calls are exchanged.
`addWithReduction` puts the calls of an observation in classes: adjacent calls that return the same
(`calculateSymmetricCalls`), and calls whose argument is returned once, with the call that returns
it (`calculateDICalls`).  Every choice of an order for each class gives a map from calls to calls
(`generatePermutation`), and happens-before and the linearization are added as they are under that
map.

* `addWithReduction_visits`: **every combination of orders is used once, and then the loop stops.**
  The classes are ascending, and putting one in its next order either finds an order or leaves it
  ascending again.
* `generatePermutation_eq`: the map writes at the calls of each class, in ascending order, the calls
  of the class in the order that was chosen.
-/

set_option autoImplicit false

namespace GenMC

open DoWhile

/-- An indexed map from ids to ids. -/
abbrev PermutationMap := List ℕ

namespace Linearization

/-- The constructor.  It verifies that the ids are indices of the order. -/
def ofOrderedIds (orderedIds : List ℕ) : Option Linearization :=
  if orderedIds.all (· < orderedIds.length) then some ⟨orderedIds⟩ else none

/-- `none` is a failed check. -/
def applyPermutation (l : Linearization) (pMap : PermutationMap) : Option Linearization :=
  if pMap.length = l.lin.length then (l.lin.mapM fun id => pMap[id]?).bind ofOrderedIds else none

end Linearization

namespace Observation

/-- `none` is an index out of bounds, which the map verifies. -/
def applyHbPermutation (obs : Observation) (pMap : PermutationMap) : Option Observation := do
  let newHb ← obs.hb.vset.mapM fun item => do
    return (⟨← pMap[item.first]?, ← pMap[item.second]?⟩ : CallEdge)
  return { obs with hb := VSet.ofVector newHb }

end Observation

namespace Specification

/-! ## The code -/

def isDataSymmetricOp (ops : List MethodCall) (call : MethodCall) : Bool :=
  call.argVal ≠ 0 && call.retVal = 0 && ops.countP (fun op => op.retVal = call.argVal) = 1

/-- Puts `x` at the end of the last class if it belongs to the last element there.  Otherwise there
is a new class. -/
def pushBack {α : Type} (belongs : α → Bool) (x : α) (newClass : List α) (result : List (List α)) :
    List (List α) :=
  match result.getLast? with
  | none => [newClass]
  | some eq =>
    if eq.getLast?.any belongs then result.dropLast ++ [eq ++ [x]] else result ++ [newClass]

/-- The body of the loop, for the calls with ids `id - 1` and `id`. -/
def pushSymmetricCall (obs : Observation) (result : List (List ℕ)) (id : ℕ) : List (List ℕ) :=
  let call1 := obs.getCall (id - 1)
  let call2 := obs.getCall id
  if call1.name ≠ call2.name ∨ call1.retVal ≠ call2.retVal then result
  else if isDataSymmetricOp obs.ops call1 ∨ isDataSymmetricOp obs.ops call2 then result
  else pushBack (· == id - 1) id [id - 1, id] result

def calculateSymmetricCalls (obs : Observation) : List (List ℕ) :=
  (obs.ids.drop 1).foldl (pushSymmetricCall obs) []

/-- The call with an id, and the first one that returns its argument. -/
def edgeOf (obs : Observation) (id : ℕ) : CallEdge :=
  ⟨id, obs.ops.findIdx fun op => op.retVal = (obs.getCall id).argVal⟩

/-- Whether the calls of two edges have the same names. -/
def sameNames (obs : Observation) (e e' : CallEdge) : Bool :=
  (obs.getCall e.first).name = (obs.getCall e'.first).name &&
    (obs.getCall e.second).name = (obs.getCall e'.second).name

/-- The body of the loop. -/
def pushDICall (obs : Observation) (result : List (List CallEdge)) (id : ℕ) :
    List (List CallEdge) :=
  if !isDataSymmetricOp obs.ops (obs.getCall id) then result
  else
    let edge := edgeOf obs id
    pushBack (sameNames obs · edge) edge [edge] result

def calculateDICalls (obs : Observation) : List (List CallEdge) :=
  obs.ids.foldl (pushDICall obs) []

/-- Goes through the ids.  At the `j`-th one that is the `key` of an element of a class, it writes
for that element what comes `j`-th in the class. -/
def writeClass {α : Type} (key : α → ℕ) (write : PermutationMap → α → α → PermutationMap)
    (ids : List ℕ) (result : PermutationMap) (eq : List α) : PermutationMap :=
  (ids.foldl (fun (s : PermutationMap × ℕ) item =>
    match eq.find? (key · = item) with
    | none => s
    | some it => (write s.1 it (eq.getD s.2 it), s.2 + 1)) (result, 0)).1

def writeEdge (result : PermutationMap) (it e : CallEdge) : PermutationMap :=
  (result.set it.first e.first).set it.second e.second

def generatePermutation (ids : List ℕ) (callEqs : List (List ℕ)) (edgeEqs : List (List CallEdge)) :
    PermutationMap :=
  let result := ids.foldl (fun result id => result.set id id) (List.replicate ids.length 0)
  let result := callEqs.foldl (writeClass id (fun result it c => result.set it c) ids) result
  edgeEqs.foldl (writeClass Pair.first writeEdge ids) result

def existsPermutation {α : Type} [LinearOrder α] (v : List (List α)) : List (List α) × Bool :=
  anyStep nextPermutation v

/-- The orders of all classes. -/
abbrev Orders := List (List ℕ) × List (List CallEdge)

def existsPermutations (orders : Orders) : Orders × Bool :=
  carry existsPermutation existsPermutation orders

/-- The body of the loop. -/
def addPermuted (obs : Observation) (lin : Linearization) (spec : Option Specification)
    (orders : Orders) : Option Specification := do
  let perm := generatePermutation obs.ids orders.1 orders.2
  let newObs ← obs.applyHbPermutation perm
  let newLin ← lin.applyPermutation perm
  return (← spec).add newObs newLin

/-- `Specification::add` with symmetry reduction, for the observation of an execution and the ids
of its calls in the order of the global lock.  The loop runs for a number of rounds; the result in
it is `none` if a check fails. -/
def addWithReduction (fuel : ℕ) (spec : Specification) (obs : Observation) (orderedIds : List ℕ) :
    Option (Option Specification) :=
  match Linearization.ofOrderedIds orderedIds with
  | none => some none
  | some lin =>
    DoWhile.run existsPermutations (addPermuted obs lin) fuel
      (calculateSymmetricCalls obs, calculateDICalls obs) (some spec)

/-! ## The classes -/

section Classes

variable {α : Type} {belongs : α → Bool} {x : α} {newClass : List α} {result : List (List α)}

/-- The last element of all is the last one of the last class. -/
theorem getLast?_flatten {init : List (List α)} {eq : List α} (h : eq ≠ []) :
    (init ++ [eq]).flatten.getLast? = eq.getLast? := by
  rw [List.flatten_append, List.flatten_singleton, List.getLast?_append_of_ne_nil _ h]

theorem pushBack_cases (belongs : α → Bool) (x : α) (newClass : List α)
    (hne : ∀ eq ∈ result, eq ≠ []) :
    (∃ init eq y, result = init ++ [eq] ∧ result.flatten.getLast? = some y ∧ y ∈ eq ∧
      belongs y = true ∧ pushBack belongs x newClass result = init ++ [eq ++ [x]]) ∨
    ((∀ y, result.flatten.getLast? = some y → belongs y = false) ∧
      pushBack belongs x newClass result = result ++ [newClass]) := by
  rw [pushBack]
  rcases result.eq_nil_or_concat' with rfl | ⟨init, eq, rfl⟩
  · exact .inr ⟨fun y hy => by simp at hy, rfl⟩
  · have heq : eq ≠ [] := hne eq (by simp)
    rw [getLast?_flatten heq, List.getLast?_concat, List.dropLast_concat]
    have hlast : eq.getLast? = some (eq.getLast heq) := List.getLast?_eq_some_getLast heq
    simp only [hlast, Option.any_some]
    cases hb : belongs (eq.getLast heq) with
    | true => exact .inl ⟨init, eq, _, rfl, rfl, List.getLast_mem heq, hb, if_pos rfl⟩
    | false =>
      refine .inr ⟨fun y hy => ?_, if_neg Bool.false_ne_true⟩
      rw [← Option.some.inj hy]
      exact hb

end Classes

/-- The calls with ids `a` and `a + 1` are symmetric, and neither is data independent. -/
def Linked (obs : Observation) (a : ℕ) : Prop :=
  (obs.getCall a).name = (obs.getCall (a + 1)).name ∧
    (obs.getCall a).retVal = (obs.getCall (a + 1)).retVal ∧
    isDataSymmetricOp obs.ops (obs.getCall a) = false ∧
    isDataSymmetricOp obs.ops (obs.getCall (a + 1)) = false

instance (obs : Observation) (a : ℕ) : Decidable (Linked obs a) :=
  inferInstanceAs (Decidable (_ ∧ _))

theorem pushSymmetricCall_succ (obs : Observation) (result : List (List ℕ)) (a : ℕ) :
    pushSymmetricCall obs result (a + 1) =
      if Linked obs a then pushBack (· == a) (a + 1) [a, a + 1] result else result := by
  rw [pushSymmetricCall]
  simp only [Nat.add_sub_cancel]
  by_cases h : Linked obs a
  · obtain ⟨hname, hret, hds, hds'⟩ := h
    simp [hname, hret, hds, hds', Linked]
  · rw [if_neg h]
    split
    · rfl
    · rename_i hsame
      rw [not_or, not_ne_iff, not_ne_iff] at hsame
      rw [if_pos]
      by_contra hds
      rw [not_or, Bool.not_eq_true, Bool.not_eq_true] at hds
      exact h ⟨hsame.1, hsame.2, hds⟩

/-- What the classes of symmetric calls are when the calls before `m` have been compared. -/
structure SymmetricClasses (obs : Observation) (m : ℕ) (result : List (List ℕ)) : Prop where
  ne_nil : ∀ eq ∈ result, eq ≠ []
  ascending : result.flatten.Pairwise (· < ·)
  lt : ∀ a ∈ result.flatten, a < m
  mem : ∀ a ∈ result.flatten, ∃ b, b + 1 < m ∧ Linked obs b ∧ (a = b ∨ a = b + 1)
  linked : ∀ eq ∈ result, eq.IsChain fun a b => b = a + 1 ∧ Linked obs a
  complete : ∀ a, a + 1 < m → Linked obs a → ∃ eq ∈ result, a ∈ eq ∧ a + 1 ∈ eq

section SymmetricClasses

variable {obs : Observation} {a : ℕ} {result : List (List ℕ)}

/-- The call `a + 1` goes into the last class. -/
theorem SymmetricClasses.extend {init : List (List ℕ)} {eq : List ℕ}
    (h : SymmetricClasses obs (a + 1) (init ++ [eq])) (hlinked : Linked obs a)
    (hlast : (init ++ [eq]).flatten.getLast? = some a) :
    SymmetricClasses obs (a + 2) (init ++ [eq ++ [a + 1]]) := by
  have heqmem : eq ∈ init ++ [eq] := List.mem_append_right _ List.mem_cons_self
  have hnew : eq ++ [a + 1] ∈ init ++ [eq ++ [a + 1]] := List.mem_append_right _ List.mem_cons_self
  rw [getLast?_flatten (h.ne_nil eq heqmem)] at hlast
  have hmem : ∀ c ∈ init ++ [eq ++ [a + 1]], c ∈ init ++ [eq] ∨ c = eq ++ [a + 1] := by
    intro c hc
    rcases List.mem_append.1 hc with hc | hc
    · exact .inl (List.mem_append_left _ hc)
    · exact .inr (List.mem_singleton.1 hc)
  have hflatten : (init ++ [eq ++ [a + 1]]).flatten = (init ++ [eq]).flatten ++ [a + 1] := by simp
  constructor
  · intro c hc
    rcases hmem c hc with hc | rfl
    · exact h.ne_nil c hc
    · exact List.concat_ne_nil _ _
  · rw [hflatten]
    refine List.pairwise_append.2 ⟨h.ascending, List.pairwise_singleton _ _, fun b hb c hc => ?_⟩
    rw [List.mem_singleton.1 hc]
    exact h.lt b hb
  · rw [hflatten]
    intro b hb
    rcases List.mem_append.1 hb with hb | hb
    · exact (h.lt b hb).trans (Nat.lt_succ_self _)
    · rw [List.mem_singleton.1 hb]
      exact Nat.lt_succ_self _
  · rw [hflatten]
    intro b hb
    rcases List.mem_append.1 hb with hb | hb
    · obtain ⟨c, hc, hbc⟩ := h.mem b hb
      exact ⟨c, hc.trans (Nat.lt_succ_self _), hbc⟩
    · exact ⟨a, Nat.lt_succ_self _, hlinked, .inr (List.mem_singleton.1 hb)⟩
  · intro c hc
    rcases hmem c hc with hc | rfl
    · exact h.linked c hc
    · refine List.IsChain.append (h.linked eq heqmem) (.singleton _) fun b hb c hc => ?_
      rw [hlast] at hb
      cases hb
      cases hc
      exact ⟨rfl, hlinked⟩
  · intro b hb hb'
    rcases Nat.lt_succ_iff_lt_or_eq.1 hb with hb | hb
    · obtain ⟨c, hc, hbc, hbc'⟩ := h.complete b hb hb'
      rcases List.mem_append.1 hc with hc | hc
      · exact ⟨c, List.mem_append_left _ hc, hbc, hbc'⟩
      · rw [List.mem_singleton.1 hc] at hbc hbc'
        exact ⟨_, hnew, List.mem_append_left _ hbc, List.mem_append_left _ hbc'⟩
    · obtain rfl : b = a := Nat.succ.inj hb
      exact ⟨_, hnew, List.mem_append_left _ (List.mem_of_getLast? hlast),
        List.mem_append_right _ List.mem_cons_self⟩

/-- The calls `a` and `a + 1` start a new class. -/
theorem SymmetricClasses.newClass (h : SymmetricClasses obs (a + 1) result)
    (hlinked : Linked obs a) (hnot : result.flatten.getLast? ≠ some a) :
    SymmetricClasses obs (a + 2) (result ++ [[a, a + 1]]) := by
  have hbefore : ∀ b ∈ result.flatten, b < a := by
    intro b hb
    have hne : result.flatten ≠ [] := List.ne_nil_of_mem hb
    have hlast : result.flatten.getLast hne ≠ a := fun hc =>
      hnot (hc ▸ List.getLast?_eq_some_getLast hne)
    have hmax := h.lt _ (List.getLast_mem hne)
    have hle : b ≤ result.flatten.getLast hne := (h.ascending.imp le_of_lt).rel_getLast hb
    omega
  have hpair : ∀ b ∈ [a, a + 1], b = a ∨ b = a + 1 := fun b hb => by simpa using hb
  constructor
  · intro c hc
    rcases List.mem_append.1 hc with hc | hc
    · exact h.ne_nil c hc
    · rw [List.mem_singleton.1 hc]
      exact List.cons_ne_nil _ _
  · rw [List.flatten_append, List.flatten_singleton]
    refine List.pairwise_append.2 ⟨h.ascending, by simp, fun b hb c hc => ?_⟩
    have hlt := hbefore b hb
    rcases hpair c hc with rfl | rfl <;> omega
  · rw [List.flatten_append, List.flatten_singleton]
    intro b hb
    rcases List.mem_append.1 hb with hb | hb
    · exact (h.lt b hb).trans (Nat.lt_succ_self _)
    · rcases hpair b hb with rfl | rfl <;> omega
  · rw [List.flatten_append, List.flatten_singleton]
    intro b hb
    rcases List.mem_append.1 hb with hb | hb
    · obtain ⟨c, hc, hbc⟩ := h.mem b hb
      exact ⟨c, hc.trans (Nat.lt_succ_self _), hbc⟩
    · exact ⟨a, Nat.lt_succ_self _, hlinked, hpair b hb⟩
  · intro c hc
    rcases List.mem_append.1 hc with hc | hc
    · exact h.linked c hc
    · rw [List.mem_singleton.1 hc]
      exact .cons_cons ⟨rfl, hlinked⟩ (.singleton _)
  · intro b hb hb'
    rcases Nat.lt_succ_iff_lt_or_eq.1 hb with hb | hb
    · obtain ⟨c, hc, hbc⟩ := h.complete b hb hb'
      exact ⟨c, List.mem_append_left _ hc, hbc⟩
    · obtain rfl : b = a := Nat.succ.inj hb
      exact ⟨[b, b + 1], List.mem_append_right _ List.mem_cons_self, by simp⟩

theorem SymmetricClasses.push (h : SymmetricClasses obs (a + 1) result) :
    SymmetricClasses obs (a + 2) (pushSymmetricCall obs result (a + 1)) := by
  rw [pushSymmetricCall_succ]
  split
  · rename_i hlinked
    rcases pushBack_cases (· == a) (a + 1) [a, a + 1] h.ne_nil with
      ⟨init, eq, y, rfl, hlast, -, hbelongs, heq⟩ | ⟨hnot, heq⟩
    · obtain rfl : y = a := by simpa using hbelongs
      rw [heq]
      exact h.extend hlinked hlast
    · rw [heq]
      refine h.newClass hlinked fun hlast => ?_
      simpa using hnot a hlast
  · rename_i hlinked
    refine ⟨h.ne_nil, h.ascending, fun b hb => (h.lt b hb).trans (Nat.lt_succ_self _),
      fun b hb => ?_, h.linked, fun b hb hb' => ?_⟩
    · obtain ⟨c, hc, hbc⟩ := h.mem b hb
      exact ⟨c, hc.trans (Nat.lt_succ_self _), hbc⟩
    · have hne : b ≠ a := fun hba => hlinked (hba ▸ hb')
      exact h.complete b (by omega) hb'

end SymmetricClasses

theorem calculateSymmetricCalls_spec (obs : Observation) :
    SymmetricClasses obs (max 1 obs.getNumOps) (calculateSymmetricCalls obs) := by
  have hloop : ∀ n, SymmetricClasses obs (n + 1)
      ((List.range' 1 n).foldl (pushSymmetricCall obs) []) := by
    intro n
    induction n with
    | zero => exact ⟨by simp, by simp, by simp, by simp, by simp, fun a ha => by omega⟩
    | succ n ih =>
      rw [List.range'_concat, List.foldl_append, List.foldl_cons, List.foldl_nil, Nat.one_mul,
        Nat.add_comm 1 n]
      exact ih.push
  have hids : obs.ids.drop 1 = List.range' 1 (obs.getNumOps - 1) := by
    rw [Observation.ids, List.range_eq_range', List.drop_range']
  have h := hloop (obs.getNumOps - 1)
  rw [show obs.getNumOps - 1 + 1 = max 1 obs.getNumOps by omega] at h
  rw [calculateSymmetricCalls, hids]
  exact h

/-- The call with an id is data symmetric. -/
def DataSymmetric (obs : Observation) (id : ℕ) : Prop :=
  isDataSymmetricOp obs.ops (obs.getCall id) = true

instance (obs : Observation) (id : ℕ) : Decidable (DataSymmetric obs id) :=
  inferInstanceAs (Decidable (_ = true))

theorem sameNames_iff {obs : Observation} {e e' : CallEdge} :
    sameNames obs e e' = true ↔ (obs.getCall e.first).name = (obs.getCall e'.first).name ∧
      (obs.getCall e.second).name = (obs.getCall e'.second).name := by
  rw [sameNames, Bool.and_eq_true, decide_eq_true_eq, decide_eq_true_eq]

/-- All data symmetric calls from `x` on and before `m` have the same names as `x`, and so have the
calls that return their arguments. -/
def SameUpTo (obs : Observation) (x m : ℕ) : Prop :=
  ∀ z < m, x ≤ z → DataSymmetric obs z → sameNames obs (edgeOf obs x) (edgeOf obs z) = true

/-- What the classes of edges are when the calls before `m` have been looked at. -/
structure DIClasses (obs : Observation) (m : ℕ) (result : List (List CallEdge)) : Prop where
  ne_nil : ∀ eq ∈ result, eq ≠ []
  flatten : result.flatten = ((List.range m).filter (DataSymmetric obs ·)).map (edgeOf obs)
  same : ∀ eq ∈ result, ∀ e ∈ eq, ∀ e' ∈ eq, SameUpTo obs e.first (e'.first + 1)
  last : ∀ x < m, DataSymmetric obs x → SameUpTo obs x m →
    ∃ eq, result.getLast? = some eq ∧ edgeOf obs x ∈ eq
  complete : ∀ x y, x < y → y < m → DataSymmetric obs x → DataSymmetric obs y →
    SameUpTo obs x (y + 1) → ∃ eq ∈ result, edgeOf obs x ∈ eq ∧ edgeOf obs y ∈ eq

section DIClasses

variable {obs : Observation} {m : ℕ} {result : List (List CallEdge)}

theorem SameUpTo.mono {x m' : ℕ} (h : SameUpTo obs x m') (hle : m ≤ m') : SameUpTo obs x m :=
  fun z hz => h z (hz.trans_le hle)

theorem DIClasses.mem_flatten_iff (h : DIClasses obs m result) {e : CallEdge} :
    e ∈ result.flatten ↔ ∃ x < m, DataSymmetric obs x ∧ edgeOf obs x = e := by
  rw [h.flatten, List.mem_map]
  simp only [List.mem_filter, List.mem_range, decide_eq_true_eq, and_assoc]

theorem DIClasses.of_mem (h : DIClasses obs m result) {eq : List CallEdge} (heq : eq ∈ result)
    {e : CallEdge} (he : e ∈ eq) :
    e.first < m ∧ DataSymmetric obs e.first ∧ edgeOf obs e.first = e := by
  obtain ⟨x, hx, hds, rfl⟩ := h.mem_flatten_iff.1 (List.mem_flatten_of_mem heq he)
  exact ⟨hx, hds, rfl⟩

/-- The last edge is the one of the last data symmetric call. -/
theorem DIClasses.le_getLast (h : DIClasses obs m result) {y : CallEdge}
    (hy : result.flatten.getLast? = some y) {x : ℕ} (hx : x < m) (hds : DataSymmetric obs x) :
    x ≤ y.first := by
  rw [h.flatten, List.getLast?_map, Option.map_eq_some_iff] at hy
  obtain ⟨w, hw, rfl⟩ := hy
  have hmem : x ∈ (List.range m).filter (DataSymmetric obs ·) := by
    simp [hx, hds]
  have hsorted : ((List.range m).filter (DataSymmetric obs ·)).Pairwise (· ≤ ·) :=
    (List.pairwise_lt_range.imp le_of_lt).filter _
  have hle := hsorted.rel_getLast hmem
  rw [List.getLast?_eq_some_getLast (List.ne_nil_of_mem hmem)] at hw
  rwa [Option.some.inj hw] at hle

theorem pushDICall_of_dataSymmetric (result : List (List CallEdge)) (h : DataSymmetric obs m) :
    pushDICall obs result m =
      pushBack (sameNames obs · (edgeOf obs m)) (edgeOf obs m) [edgeOf obs m] result := by
  rw [DataSymmetric] at h
  rw [pushDICall, h]
  rfl

theorem filter_range_succ (h : DataSymmetric obs m) :
    (List.range (m + 1)).filter (DataSymmetric obs ·) =
      (List.range m).filter (DataSymmetric obs ·) ++ [m] := by
  rw [List.range_succ, List.filter_append, List.filter_singleton]
  simp [h]

/-- The call `m` goes into the last class. -/
theorem DIClasses.extend {init : List (List CallEdge)} {eq : List CallEdge} {y : CallEdge}
    (h : DIClasses obs m (init ++ [eq])) (hds : DataSymmetric obs m)
    (hlast : (init ++ [eq]).flatten.getLast? = some y) (hy : y ∈ eq)
    (hnames : sameNames obs y (edgeOf obs m) = true) :
    DIClasses obs (m + 1) (init ++ [eq ++ [edgeOf obs m]]) := by
  have heqmem : eq ∈ init ++ [eq] := List.mem_append_right _ List.mem_cons_self
  have hnew : eq ++ [edgeOf obs m] ∈ init ++ [eq ++ [edgeOf obs m]] :=
    List.mem_append_right _ List.mem_cons_self
  have hmem : ∀ c ∈ init ++ [eq ++ [edgeOf obs m]],
      c ∈ init ++ [eq] ∨ c = eq ++ [edgeOf obs m] := by
    intro c hc
    rcases List.mem_append.1 hc with hc | hc
    · exact .inl (List.mem_append_left _ hc)
    · exact .inr (List.mem_singleton.1 hc)
  have hself : edgeOf obs y.first = y := (h.of_mem heqmem hy).2.2
  constructor
  · intro c hc
    rcases hmem c hc with hc | rfl
    · exact h.ne_nil c hc
    · exact List.concat_ne_nil _ _
  · rw [filter_range_succ hds, List.map_append, ← h.flatten]
    simp
  · intro c hc e he e' he'
    rcases hmem c hc with hc | rfl
    · exact h.same c hc e he e' he'
    rcases List.mem_append.1 he with he | he <;> rcases List.mem_append.1 he' with he' | he'
    · exact h.same eq heqmem e he e' he'
    · -- up to the last edge, and from there to the new one
      intro z hz hle hzds
      have hupto := h.same eq heqmem e he y hy
      obtain ⟨hem, heds, hee⟩ := h.of_mem heqmem he
      have hlt : e'.first = m := by rw [List.mem_singleton.1 he']; rfl
      rcases Nat.lt_succ_iff_lt_or_eq.1 (hlt ▸ hz) with hzm | rfl
      · exact hupto z (Nat.lt_succ_of_le (h.le_getLast hlast hzm hzds)) hle hzds
      · have hy' := hupto y.first (Nat.lt_succ_self _) (h.le_getLast hlast hem heds)
          (h.of_mem heqmem hy).2.1
        rw [hself] at hy'
        rw [sameNames_iff] at hy' hnames ⊢
        exact ⟨hy'.1.trans hnames.1, hy'.2.trans hnames.2⟩
    · intro z hz hle _
      have hlt := (h.of_mem heqmem he').1
      have hm : e.first = m := by rw [List.mem_singleton.1 he]; rfl
      omega
    · intro z hz hle _
      have hm : e.first = m := by rw [List.mem_singleton.1 he]; rfl
      have hm' : e'.first = m := by rw [List.mem_singleton.1 he']; rfl
      obtain rfl : z = e.first := by omega
      exact sameNames_iff.2 ⟨rfl, rfl⟩
  · intro x hx hxds hupto
    refine ⟨_, List.getLast?_concat, ?_⟩
    rcases Nat.lt_succ_iff_lt_or_eq.1 hx with hx | rfl
    · obtain ⟨c, hc, hxc⟩ := h.last x hx hxds (hupto.mono (Nat.le_succ m))
      rw [List.getLast?_concat] at hc
      exact List.mem_append_left _ (Option.some.inj hc ▸ hxc)
    · exact List.mem_append_right _ List.mem_cons_self
  · intro x z hxz hz hxds hzds hupto
    rcases Nat.lt_succ_iff_lt_or_eq.1 hz with hz | rfl
    · obtain ⟨c, hc, hxc, hzc⟩ := h.complete x z hxz hz hxds hzds hupto
      rcases List.mem_append.1 hc with hc | hc
      · exact ⟨c, List.mem_append_left _ hc, hxc, hzc⟩
      · rw [List.mem_singleton.1 hc] at hxc hzc
        exact ⟨_, hnew, List.mem_append_left _ hxc, List.mem_append_left _ hzc⟩
    · obtain ⟨c, hc, hxc⟩ := h.last x hxz hxds (hupto.mono (Nat.le_succ z))
      rw [List.getLast?_concat] at hc
      exact ⟨_, hnew, List.mem_append_left _ (Option.some.inj hc ▸ hxc),
        List.mem_append_right _ List.mem_cons_self⟩

/-- The call `m` starts a new class. -/
theorem DIClasses.newClass (h : DIClasses obs m result) (hds : DataSymmetric obs m)
    (hnot : ∀ y, result.flatten.getLast? = some y → sameNames obs y (edgeOf obs m) = false) :
    DIClasses obs (m + 1) (result ++ [[edgeOf obs m]]) := by
  -- no call before `m` agrees with `m` and all in between
  have hnone : ∀ x < m, DataSymmetric obs x → ¬ SameUpTo obs x (m + 1) := by
    intro x hx hxds hupto
    have hne : result.flatten ≠ [] := List.ne_nil_of_mem (h.mem_flatten_iff.2 ⟨x, hx, hxds, rfl⟩)
    have hlast := List.getLast?_eq_some_getLast hne
    obtain ⟨w, hw, hwds, hwlast⟩ := h.mem_flatten_iff.1 (List.getLast_mem hne)
    rw [← hwlast] at hlast
    have hfalse := hnot _ hlast
    have hxw := sameNames_iff.1 (hupto w (by omega) (h.le_getLast hlast hx hxds) hwds)
    have hxm := sameNames_iff.1 (hupto m (Nat.lt_succ_self m) hx.le hds)
    rw [sameNames_iff.2 ⟨hxw.1.symm.trans hxm.1, hxw.2.symm.trans hxm.2⟩] at hfalse
    cases hfalse
  constructor
  · intro c hc
    rcases List.mem_append.1 hc with hc | hc
    · exact h.ne_nil c hc
    · rw [List.mem_singleton.1 hc]
      exact List.cons_ne_nil _ _
  · rw [filter_range_succ hds, List.map_append, ← h.flatten]
    simp
  · intro c hc e he e' he'
    rcases List.mem_append.1 hc with hc | hc
    · exact h.same c hc e he e' he'
    · rw [List.mem_singleton.1 hc] at he he'
      rw [List.mem_singleton.1 he, List.mem_singleton.1 he']
      intro z hz hle _
      have hz' : z < m + 1 := hz
      have hle' : m ≤ z := hle
      obtain rfl : z = m := by omega
      exact sameNames_iff.2 ⟨rfl, rfl⟩
  · intro x hx hxds hupto
    rcases Nat.lt_succ_iff_lt_or_eq.1 hx with hx | rfl
    · exact absurd hupto (hnone x hx hxds)
    · exact ⟨_, List.getLast?_concat, List.mem_cons_self⟩
  · intro x z hxz hz hxds hzds hupto
    rcases Nat.lt_succ_iff_lt_or_eq.1 hz with hz | rfl
    · obtain ⟨c, hc, hxc⟩ := h.complete x z hxz hz hxds hzds hupto
      exact ⟨c, List.mem_append_left _ hc, hxc⟩
    · exact absurd hupto (hnone x hxz hxds)

theorem DIClasses.push (h : DIClasses obs m result) :
    DIClasses obs (m + 1) (pushDICall obs result m) := by
  by_cases hds : DataSymmetric obs m
  · rw [pushDICall_of_dataSymmetric result hds]
    rcases pushBack_cases (sameNames obs · (edgeOf obs m)) (edgeOf obs m) [edgeOf obs m] h.ne_nil
      with ⟨init, eq, y, rfl, hlast, hy, hnames, heq⟩ | ⟨hnot, heq⟩
    · rw [heq]
      exact h.extend hds hlast hy hnames
    · rw [heq]
      exact h.newClass hds hnot
  · have hsame : pushDICall obs result m = result := by
      rw [DataSymmetric, Bool.not_eq_true] at hds
      rw [pushDICall, hds]
      rfl
    have hlt : ∀ x < m + 1, DataSymmetric obs x → x < m := by
      intro x hx hxds
      rcases Nat.lt_succ_iff_lt_or_eq.1 hx with hx | rfl
      · exact hx
      · exact absurd hxds hds
    rw [hsame]
    refine ⟨h.ne_nil, ?_, h.same, fun x hx hxds hupto => ?_, fun x z hxz hz hxds hzds => ?_⟩
    · rw [h.flatten, List.range_succ, List.filter_append, List.filter_singleton]
      simp [hds]
    · exact h.last x (hlt x hx hxds) hxds (hupto.mono (Nat.le_succ m))
    · exact h.complete x z hxz (hlt z hz hzds) hxds hzds

end DIClasses

theorem calculateDICalls_spec (obs : Observation) :
    DIClasses obs obs.getNumOps (calculateDICalls obs) := by
  have hloop : ∀ n, DIClasses obs n ((List.range n).foldl (pushDICall obs) []) := by
    intro n
    induction n with
    | zero =>
      exact ⟨by simp, by simp, by simp, fun x hx => absurd hx (Nat.not_lt_zero x),
        fun x z _ hz => absurd hz (Nat.not_lt_zero z)⟩
    | succ n ih =>
      rw [List.range_succ, List.foldl_append, List.foldl_cons, List.foldl_nil]
      exact ih.push
  exact hloop obs.getNumOps

/-! ## The map -/

section Map

variable {α : Type}

/-- What is written for the `j`-th element of a class is the `j`-th one of its new order. -/
theorem foldl_find {key : α → ℕ} {write : PermutationMap → α → α → PermutationMap} {eq : List α} :
    ∀ {ids : List ℕ} {result : PermutationMap} {j : ℕ},
      j + (ids.filterMap fun item => eq.find? (key · = item)).length = eq.length →
      (ids.foldl (fun (s : PermutationMap × ℕ) item =>
        match eq.find? (key · = item) with
        | none => s
        | some it => (write s.1 it (eq.getD s.2 it), s.2 + 1)) (result, j)).1 =
        ((ids.filterMap fun item => eq.find? (key · = item)).zip (eq.drop j)).foldl
          (fun result p => write result p.1 p.2) result := by
  intro ids
  induction ids with
  | nil => exact fun _ => rfl
  | cons item ids ih =>
    intro result j hlen
    rw [List.filterMap_cons] at hlen ⊢
    rw [List.foldl_cons]
    cases hfind : eq.find? (key · = item) with
    | none =>
      simp only [hfind] at hlen ⊢
      exact ih hlen
    | some it =>
      simp only [hfind, List.length_cons] at hlen ⊢
      have hj : j < eq.length := by omega
      rw [ih (by omega), List.drop_eq_getElem_cons hj, List.zip_cons_cons, List.foldl_cons,
        List.getD_eq_getElem _ _ hj]

/-- The elements that are found come in the order of their keys. -/
theorem filterMap_find {key : α → ℕ} {n : ℕ} {eq eq₀ : List α}
    (hsorted : eq₀.Pairwise fun x y => key x < key y) (hlt : ∀ x ∈ eq₀, key x < n)
    (hperm : eq.Perm eq₀) :
    (List.range n).filterMap (fun item => eq.find? (key · = item)) = eq₀ := by
  have hnodup : ∀ {l : List α}, l.Pairwise (fun x y => key x < key y) → l.Nodup := fun hl =>
    hl.imp fun hlt heq => (heq ▸ hlt).ne rfl
  have hinj : ∀ x ∈ eq₀, ∀ y ∈ eq₀, key x = key y → x = y := by
    have hkeys : (eq₀.map key).Nodup := List.pairwise_map.2 (hsorted.imp ne_of_lt)
    exact fun x hx y hy hxy => List.inj_on_of_nodup_map hkeys hx hy hxy
  have hkey : ∀ {item : ℕ} {x : α}, eq.find? (key · = item) = some x → key x = item :=
    fun hx => by simpa using List.find?_some hx
  have hfound : ((List.range n).filterMap fun item => eq.find? (key · = item)).Pairwise
      fun x y => key x < key y := by
    refine List.pairwise_lt_range.filterMap _ fun a b hab x hx y hy => ?_
    rwa [hkey hx, hkey hy]
  refine List.Perm.eq_of_pairwise (fun x y _ _ hxy hyx => absurd hxy (lt_asymm hyx)) hfound hsorted
    ((List.perm_ext_iff_of_nodup (hnodup hfound) (hnodup hsorted)).2 fun x => ?_)
  rw [List.mem_filterMap]
  refine ⟨?_, fun hx => ?_⟩
  · rintro ⟨item, -, hx⟩
    exact hperm.mem_iff.1 (List.mem_of_find?_eq_some hx)
  · refine ⟨key x, List.mem_range.2 (hlt x hx), ?_⟩
    have hsome : (eq.find? (key · = key x)).isSome :=
      List.find?_isSome.2 ⟨x, hperm.mem_iff.2 hx, by simp⟩
    obtain ⟨y, hy⟩ := Option.isSome_iff_exists.1 hsome
    rw [hy, hinj y (hperm.mem_iff.1 (List.mem_of_find?_eq_some hy)) x hx (hkey hy)]

/-- What is written for classes with new orders, if `toWrites` is written for each element. -/
def classWrites (toWrites : α → α → List (ℕ × ℕ)) (eqs₀ eqs : List (List α)) : List (ℕ × ℕ) :=
  (eqs₀.zip eqs).flatMap fun p => (p.1.zip p.2).flatMap fun q => toWrites q.1 q.2

/-- Writes at several ids, one after the other. -/
def setAll (writes : List (ℕ × ℕ)) (result : PermutationMap) : PermutationMap :=
  writes.foldl (fun result w => result.set w.1 w.2) result

theorem setAll_append (ws ws' : List (ℕ × ℕ)) (result : PermutationMap) :
    setAll (ws ++ ws') result = setAll ws' (setAll ws result) := List.foldl_append

theorem foldl_writeClass {key : α → ℕ} {write : PermutationMap → α → α → PermutationMap}
    {toWrites : α → α → List (ℕ × ℕ)} {n : ℕ} {eqs eqs₀ : List (List α)}
    (hwrite : ∀ result x y, write result x y = setAll (toWrites x y) result)
    (hperm : List.Forall₂ List.Perm eqs eqs₀)
    (hsorted : ∀ eq ∈ eqs₀, eq.Pairwise fun x y => key x < key y)
    (hlt : ∀ eq ∈ eqs₀, ∀ x ∈ eq, key x < n) (result : PermutationMap) :
    eqs.foldl (writeClass key write (List.range n)) result =
      setAll (classWrites toWrites eqs₀ eqs) result := by
  induction hperm generalizing result with
  | nil => rfl
  | @cons eq eq₀ eqs eqs₀ hp _ ih =>
    have hfind := filterMap_find (hsorted eq₀ List.mem_cons_self) (hlt eq₀ List.mem_cons_self) hp
    have hone : ∀ (l : List (α × α)) (result : PermutationMap),
        l.foldl (fun result p => write result p.1 p.2) result =
          setAll (l.flatMap fun q => toWrites q.1 q.2) result := by
      intro l
      induction l with
      | nil => exact fun _ => rfl
      | cons q l ihl =>
        intro result
        rw [List.foldl_cons, hwrite, ihl, List.flatMap_cons, setAll_append]
    have hwriteClass : writeClass key write (List.range n) result eq =
        setAll ((eq₀.zip eq).flatMap fun q => toWrites q.1 q.2) result := by
      rw [writeClass, foldl_find (by rw [hfind, Nat.zero_add, hp.length_eq]), hfind, List.drop_zero,
        hone]
    rw [List.foldl_cons, hwriteClass, ih (fun c hc => hsorted c (List.mem_cons_of_mem _ hc))
      (fun c hc => hlt c (List.mem_cons_of_mem _ hc)), ← setAll_append]
    rfl

theorem setAll_range (n : ℕ) :
    (List.range n).foldl (fun result id => result.set id id) (List.replicate n 0) =
      List.range n := by
  have hloop : ∀ k ≤ n, (List.range k).foldl (fun result id => result.set id id)
      (List.replicate n 0) = List.range k ++ List.replicate (n - k) 0 := by
    intro k hk
    induction k with
    | zero => rfl
    | succ k ih =>
      rw [List.range_succ, List.foldl_append, ih (by omega), List.foldl_cons, List.foldl_nil,
        List.set_append_right _ _ (by simp), List.length_range, Nat.sub_self,
        show n - k = n - (k + 1) + 1 by omega, List.replicate_succ, List.set_cons_zero,
        List.append_assoc]
      rfl
  rw [hloop n le_rfl, Nat.sub_self]
  exact List.append_nil _

end Map

def callWrites (it c : ℕ) : List (ℕ × ℕ) := [(it, c)]

def edgeWrites (it e : CallEdge) : List (ℕ × ℕ) := [(it.first, e.first), (it.second, e.second)]

/-- Orders of the classes of an observation. -/
def IsOrders (obs : Observation) (orders : Orders) : Prop :=
  List.Forall₂ List.Perm orders.1 (calculateSymmetricCalls obs) ∧
    List.Forall₂ List.Perm orders.2 (calculateDICalls obs)

/-- What is written for the orders of all classes, and where. -/
def writes (obs : Observation) (orders : Orders) : List (ℕ × ℕ) :=
  classWrites callWrites (calculateSymmetricCalls obs) orders.1 ++
    classWrites edgeWrites (calculateDICalls obs) orders.2

theorem calculateSymmetricCalls_ascending (obs : Observation) :
    ∀ eq ∈ calculateSymmetricCalls obs, eq.Pairwise (· < ·) ∧ ∀ a ∈ eq, a < obs.getNumOps := by
  have h := calculateSymmetricCalls_spec obs
  intro eq heq
  refine ⟨(List.pairwise_flatten.1 h.ascending).1 eq heq, fun a ha => ?_⟩
  have hlt := h.lt a (List.mem_flatten_of_mem heq ha)
  rcases Nat.eq_zero_or_pos obs.getNumOps with h0 | hpos
  · have hnil : calculateSymmetricCalls obs = [] := by
      rw [calculateSymmetricCalls, Observation.ids, h0]
      rfl
    rw [hnil] at heq
    cases heq
  · omega

theorem calculateDICalls_ascending (obs : Observation) :
    ∀ eq ∈ calculateDICalls obs, eq.Pairwise (fun e e' => e.first < e'.first) ∧
      ∀ e ∈ eq, e.first < obs.getNumOps := by
  have h := calculateDICalls_spec obs
  have hall : (calculateDICalls obs).flatten.Pairwise fun e e' => e.first < e'.first := by
    rw [h.flatten, List.pairwise_map]
    exact List.pairwise_lt_range.filter _
  exact fun eq heq => ⟨(List.pairwise_flatten.1 hall).1 eq heq, fun e he => (h.of_mem heq he).1⟩

/-- **The map**: the identity, with what is written for each class. -/
theorem generatePermutation_eq {obs : Observation} {orders : Orders} (h : IsOrders obs orders) :
    generatePermutation obs.ids orders.1 orders.2 = setAll (writes obs orders) obs.ids := by
  have hcalls : orders.1.foldl (writeClass id (fun result it c => result.set it c) obs.ids)
      obs.ids =
      setAll (classWrites callWrites (calculateSymmetricCalls obs) orders.1) obs.ids := by
    refine foldl_writeClass (fun _ _ _ => ?_) h.1 (fun eq heq => ?_) (fun eq heq => ?_) _
    · rfl
    · exact (calculateSymmetricCalls_ascending obs eq heq).1
    · exact (calculateSymmetricCalls_ascending obs eq heq).2
  have hedges : ∀ result, orders.2.foldl (writeClass Pair.first writeEdge obs.ids) result =
      setAll (classWrites edgeWrites (calculateDICalls obs) orders.2) result := by
    refine foldl_writeClass (fun _ _ _ => ?_) h.2 (fun eq heq => ?_) (fun eq heq => ?_)
    · rfl
    · exact (calculateDICalls_ascending obs eq heq).1
    · exact (calculateDICalls_ascending obs eq heq).2
  have hid : obs.ids.foldl (fun result id => result.set id id) (List.replicate obs.ids.length 0) =
      obs.ids := by
    rw [Observation.ids, List.length_range, setAll_range]
  rw [generatePermutation, writes, setAll_append]
  simp only [hid, hcalls, hedges]

/-! ## The loop -/

theorem length_setAll (ws : List (ℕ × ℕ)) (result : PermutationMap) :
    (setAll ws result).length = result.length := by
  induction ws generalizing result with
  | nil => rfl
  | cons w ws ih => rw [setAll, List.foldl_cons, ← setAll, ih, List.length_set]

theorem mem_setAll {ws : List (ℕ × ℕ)} {result : PermutationMap} {x : ℕ}
    (h : x ∈ setAll ws result) : x ∈ result ∨ ∃ w ∈ ws, w.2 = x := by
  induction ws generalizing result with
  | nil => exact .inl h
  | cons w ws ih =>
    rw [setAll, List.foldl_cons, ← setAll] at h
    rcases ih h with h | ⟨w', hw', hx⟩
    · rcases List.mem_or_eq_of_mem_set h with h | rfl
      · exact .inl h
      · exact .inr ⟨w, List.mem_cons_self, rfl⟩
    · exact .inr ⟨w', List.mem_cons_of_mem w hw', hx⟩

theorem mem_classWrites {α : Type} {toWrites : α → α → List (ℕ × ℕ)} {eqs₀ eqs : List (List α)}
    {w : ℕ × ℕ} : w ∈ classWrites toWrites eqs₀ eqs ↔
      ∃ p ∈ eqs₀.zip eqs, ∃ q ∈ p.1.zip p.2, w ∈ toWrites q.1 q.2 := by
  simp only [classWrites, List.mem_flatMap]

/-- The call that returns the argument of a data symmetric call. -/
theorem second_edgeOf_lt {obs : Observation} {id : ℕ} (h : DataSymmetric obs id) :
    (edgeOf obs id).second < obs.getNumOps := by
  rw [DataSymmetric, isDataSymmetricOp, Bool.and_eq_true, decide_eq_true_eq] at h
  have hpos : 0 < obs.ops.countP fun op => op.retVal = (obs.getCall id).argVal := by omega
  exact List.findIdx_lt_length_of_exists (List.countP_pos_iff.1 hpos)

/-- New orders only have elements of the classes. -/
theorem mem_of_mem_zip {α : Type} {eqs₀ eqs : List (List α)}
    (h : List.Forall₂ List.Perm eqs eqs₀) {p : List α × List α} (hp : p ∈ eqs₀.zip eqs) :
    p.1 ∈ eqs₀ ∧ p.2.Perm p.1 := by
  obtain ⟨c₀, c⟩ := p
  exact ⟨(List.of_mem_zip hp).1, List.forall₂_zip h.flip hp⟩

theorem IsOrders.snd_lt {obs : Observation} {orders : Orders} (h : IsOrders obs orders) :
    ∀ w ∈ writes obs orders, w.2 < obs.getNumOps := by
  intro w hw
  rcases List.mem_append.1 hw with hw | hw
  · obtain ⟨p, hp, q, hq, hw⟩ := mem_classWrites.1 hw
    obtain ⟨hmem, hperm⟩ := mem_of_mem_zip h.1 hp
    rw [callWrites, List.mem_singleton] at hw
    rw [hw]
    exact (calculateSymmetricCalls_ascending obs p.1 hmem).2 _
      (hperm.subset (List.of_mem_zip hq).2)
  · obtain ⟨p, hp, q, hq, hw⟩ := mem_classWrites.1 hw
    obtain ⟨hmem, hperm⟩ := mem_of_mem_zip h.2 hp
    obtain ⟨hlt, hds, hedge⟩ := (calculateDICalls_spec obs).of_mem hmem
      (hperm.subset (List.of_mem_zip hq).2)
    rw [edgeWrites, List.mem_cons, List.mem_singleton] at hw
    rcases hw with rfl | rfl
    · exact hlt
    · rw [← hedge]
      exact second_edgeOf_lt hds

theorem length_generatePermutation {obs : Observation} {orders : Orders} (h : IsOrders obs orders) :
    (generatePermutation obs.ids orders.1 orders.2).length = obs.getNumOps := by
  rw [generatePermutation_eq h, length_setAll, Observation.ids, List.length_range]

theorem generatePermutation_lt {obs : Observation} {orders : Orders} (h : IsOrders obs orders) :
    ∀ x ∈ generatePermutation obs.ids orders.1 orders.2, x < obs.getNumOps := by
  intro x hx
  rw [generatePermutation_eq h] at hx
  rcases mem_setAll hx with hx | ⟨w, hw, rfl⟩
  · exact List.mem_range.1 hx
  · exact h.snd_lt w hw

/-- The checks that are made when an execution is added: each id of the linearization is one of its
indices, there is one for each call, and happens-before is between calls. -/
def Checked (obs : Observation) (orderedIds : List ℕ) : Prop :=
  (∀ id ∈ orderedIds, id < orderedIds.length) ∧ obs.getNumOps = orderedIds.length ∧
    ∀ e ∈ obs.hb, e.first < obs.getNumOps ∧ e.second < obs.getNumOps

instance (obs : Observation) (orderedIds : List ℕ) : Decidable (Checked obs orderedIds) :=
  inferInstanceAs (Decidable (_ ∧ _ ∧ ∀ e ∈ obs.hb.vset, _))

/-- An observation with happens-before between the images of its calls. -/
def permuteHb (perm : PermutationMap) (obs : Observation) : Observation :=
  { obs with
    hb := VSet.ofVector (obs.hb.vset.map fun e => ⟨perm.getD e.first 0, perm.getD e.second 0⟩) }

/-- Adds the observation and the linearization under the map for the orders. -/
def insertPermuted (obs : Observation) (orderedIds : List ℕ) (spec : Specification)
    (orders : Orders) : Specification :=
  let perm := generatePermutation obs.ids orders.1 orders.2
  spec.add (permuteHb perm obs) ⟨orderedIds.map (perm.getD · 0)⟩

theorem getElem?_eq_getD {l : List ℕ} {i : ℕ} (h : i < l.length) : l[i]? = some (l.getD i 0) := by
  rw [List.getD_eq_getElem _ _ h, List.getElem?_eq_getElem h]

theorem applyHbPermutation_eq {obs : Observation} {perm : PermutationMap}
    (h : ∀ e ∈ obs.hb, e.first < perm.length ∧ e.second < perm.length) :
    obs.applyHbPermutation perm = some (permuteHb perm obs) := by
  have hmap := mapM_eq_some (f := fun item : CallEdge => do
      return (⟨← perm[item.first]?, ← perm[item.second]?⟩ : CallEdge))
    (g := fun e => ⟨perm.getD e.first 0, perm.getD e.second 0⟩) (l := obs.hb.vset) fun e he => by
      rw [getElem?_eq_getD (h e he).1, getElem?_eq_getD (h e he).2]
      rfl
  rw [Observation.applyHbPermutation, hmap]
  rfl

theorem mapM_eq_none {α β : Type*} {f : α → Option β} {l : List α} {a : α} (ha : a ∈ l)
    (h : f a = none) : l.mapM f = none := by
  induction l with
  | nil => cases ha
  | cons b l ih =>
    rw [List.mapM_cons]
    rcases List.mem_cons.1 ha with rfl | ha
    · rw [h]
      rfl
    · rw [ih ha]
      cases f b with
      | none => rfl
      | some => rfl

theorem applyHbPermutation_eq_none {obs : Observation} {perm : PermutationMap} {e : CallEdge}
    (he : e ∈ obs.hb) (h : ¬ (e.first < perm.length ∧ e.second < perm.length)) :
    obs.applyHbPermutation perm = none := by
  rw [Observation.applyHbPermutation, mapM_eq_none he]
  · rfl
  · rcases not_and_or.1 h with h | h
    · rw [List.getElem?_eq_none (Nat.le_of_not_lt h)]
      rfl
    · rw [List.getElem?_eq_none (Nat.le_of_not_lt h)]
      cases perm[e.first]? with
      | none => rfl
      | some => rfl

theorem applyPermutation_eq {orderedIds : List ℕ} {perm : PermutationMap}
    (hlen : perm.length = orderedIds.length) (hids : ∀ id ∈ orderedIds, id < orderedIds.length)
    (hperm : ∀ x ∈ perm, x < orderedIds.length) :
    Linearization.applyPermutation ⟨orderedIds⟩ perm =
      some ⟨orderedIds.map (perm.getD · 0)⟩ := by
  have hmap : orderedIds.mapM (fun id => perm[id]?) = some (orderedIds.map (perm.getD · 0)) :=
    mapM_eq_some fun id hid => getElem?_eq_getD (hlen ▸ hids id hid)
  have hall : (orderedIds.map (perm.getD · 0)).all
      (· < (orderedIds.map (perm.getD · 0)).length) = true := by
    rw [List.all_eq_true]
    intro x hx
    obtain ⟨id, hid, rfl⟩ := List.mem_map.1 hx
    rw [List.length_map, decide_eq_true_eq, List.getD_eq_getElem _ _ (hlen ▸ hids id hid)]
    exact hperm _ (List.getElem_mem _)
  rw [Linearization.applyPermutation, if_pos hlen, hmap, Option.bind_some,
    Linearization.ofOrderedIds, if_pos hall]

section Loop

variable {obs : Observation} {orderedIds : List ℕ}

/-- One round, if the checks succeed. -/
theorem addPermuted_eq (h : Checked obs orderedIds) {orders : Orders} (ho : IsOrders obs orders)
    (spec : Specification) :
    addPermuted obs ⟨orderedIds⟩ (some spec) orders =
      some (insertPermuted obs orderedIds spec orders) := by
  obtain ⟨hids, hnum, hhb⟩ := h
  have hlen := length_generatePermutation ho
  rw [← hlen] at hhb
  have hobs := applyHbPermutation_eq hhb
  have hlin := applyPermutation_eq (hlen.trans hnum) hids (hnum ▸ generatePermutation_lt ho)
  simp only [addPermuted, hobs, hlin, Option.bind_eq_bind, Option.bind_some, Option.pure_def,
    insertPermuted]

/-- One round, if a check of the map fails. -/
theorem addPermuted_eq_none (hids : ∀ id ∈ orderedIds, id < orderedIds.length)
    (h : ¬ Checked obs orderedIds) {orders : Orders} (ho : IsOrders obs orders)
    (spec : Option Specification) : addPermuted obs ⟨orderedIds⟩ spec orders = none := by
  have hlen := length_generatePermutation ho
  by_cases hnum : obs.getNumOps = orderedIds.length
  · have hhb : ∃ e ∈ obs.hb, ¬ (e.first < obs.getNumOps ∧ e.second < obs.getNumOps) := by
      by_contra hall
      exact h ⟨hids, hnum, fun e he => by_contra fun hc => hall ⟨e, he, hc⟩⟩
    obtain ⟨e, he, hbound⟩ := hhb
    rw [← hlen] at hbound
    have hobs := applyHbPermutation_eq_none he hbound
    simp only [addPermuted, hobs, Option.bind_eq_bind, Option.bind_none]
  · have hlin : Linearization.applyPermutation ⟨orderedIds⟩
        (generatePermutation obs.ids orders.1 orders.2) = none := by
      rw [Linearization.applyPermutation, if_neg (hlen.symm ▸ hnum)]
    simp only [addPermuted, hlin, Option.bind_eq_bind, Option.bind_none]
    cases obs.applyHbPermutation (generatePermutation obs.ids orders.1 orders.2) with
    | none => rfl
    | some => rfl

/-- All rounds. -/
theorem foldl_addPermuted {visited : List Orders} (hne : visited ≠ [])
    (hids : ∀ id ∈ orderedIds, id < orderedIds.length)
    (hall : ∀ orders ∈ visited, IsOrders obs orders) (spec : Specification) :
    visited.foldl (addPermuted obs ⟨orderedIds⟩) (some spec) =
      if Checked obs orderedIds then some (visited.foldl (insertPermuted obs orderedIds) spec)
      else none := by
  split
  · rename_i h
    clear hne
    induction visited generalizing spec with
    | nil => rfl
    | cons orders visited ih =>
      rw [List.foldl_cons, addPermuted_eq h (hall orders List.mem_cons_self),
        ih (fun o ho => hall o (List.mem_cons_of_mem _ ho)), List.foldl_cons]
  · rename_i h
    obtain ⟨init, orders, rfl⟩ := (visited.eq_nil_or_concat').resolve_left hne
    rw [List.foldl_append, List.foldl_cons, List.foldl_nil]
    exact addPermuted_eq_none hids h (hall orders (by simp)) _

theorem lt_of_first_lt {e e' : CallEdge} (h : e.first < e'.first) : e < e' :=
  Prod.Lex.toLex_lt_toLex.2 (.inl h)

/-- The loop goes once through all orders. -/
theorem existsPermutations_cycles (obs : Observation) :
    ∃ visited, Cycles existsPermutations (calculateSymmetricCalls obs, calculateDICalls obs)
      (IsOrders obs) visited := by
  obtain ⟨l, hl⟩ := Cycles.anyStep (f := nextPermutation) (p := List.Perm)
    (v := calculateSymmetricCalls obs) fun eq heq =>
      nextPermutation_cycles (calculateSymmetricCalls_ascending obs eq heq).1
  obtain ⟨m, hm⟩ := Cycles.anyStep (f := nextPermutation) (p := List.Perm)
    (v := calculateDICalls obs) fun eq heq =>
      nextPermutation_cycles ((calculateDICalls_ascending obs eq heq).1.imp lt_of_first_lt)
  exact ⟨_, hl.carry hm⟩

/-- **Every combination of orders is used once**, and then the loop stops. -/
theorem addWithReduction_visits (spec : Specification) (obs : Observation) (orderedIds : List ℕ) :
    ∃ visited : List Orders, visited.Nodup ∧
      (∀ orders, orders ∈ visited ↔
        List.Forall₂ List.Perm orders.1 (calculateSymmetricCalls obs) ∧
        List.Forall₂ List.Perm orders.2 (calculateDICalls obs)) ∧
      ∀ fuel, visited.length ≤ fuel → addWithReduction fuel spec obs orderedIds =
        some (if Checked obs orderedIds then
          some (visited.foldl (insertPermuted obs orderedIds) spec) else none) := by
  obtain ⟨visited, h⟩ := existsPermutations_cycles obs
  refine ⟨visited, h.nodup, h.mem_iff, fun fuel hfuel => ?_⟩
  rw [addWithReduction, Linearization.ofOrderedIds]
  by_cases hids : orderedIds.all (· < orderedIds.length) = true
  · have hids' : ∀ id ∈ orderedIds, id < orderedIds.length := by simpa using hids
    rw [if_pos hids]
    simp only
    rw [h.visits.run_eq, if_neg (Nat.not_lt.2 hfuel),
      foldl_addPermuted h.visits.ne_nil hids' fun o ho => (h.mem_iff o).1 ho]
  · have hnot : ¬ Checked obs orderedIds := fun hc => hids (by simpa using hc.1)
    rw [if_neg hids, if_neg hnot]

example : generatePermutation [0, 1, 2, 3] [[1, 0]] [[⟨3, 2⟩]] = [1, 0, 2, 3] := by decide

end Loop

end Specification
end GenMC
