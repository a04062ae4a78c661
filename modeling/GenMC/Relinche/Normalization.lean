import GenMC.Relinche.Serialization
import Mathlib.Data.List.GetD
import Mathlib.Data.List.Perm.Basic

/-!
# Normalising observations

Observations that differ only in the values that clients pass are to be compared as equal.
`normalize` goes through the calls; for a call without argument whose value was passed to exactly
one call, it exchanges that value with the smallest argument of a call of the same method that no
call returns.  Then it sorts the calls.  This is meant to be a renaming of values: who returns
whose argument, and who returns the same as whom, should stay as it was.

* `normalizeAt_cases`: what one iteration does to names, arguments and return values.
* `consistent_iff`: **the result is a consistent renaming if and only if no iteration swaps
  badly**.  A swap is bad when another call returns the value that is taken away, when the value
  that is put in its place is 0, or when it is passed to a further call.
* `consistent_of_distinct`: no swap is bad when the arguments other than 0 are distinct, no value
  other than 0 is returned twice, and calls of the methods that take arguments have arguments.
* `dequeuedTwice_not_consistent`: a value that is dequeued twice is renamed in one place only.

What one iteration breaks no later one repairs: a call is given a new return value once, that value
is returned by no other call, and an argument that is returned stays where it is.
-/

set_option autoImplicit false

namespace GenMC.Normalization

/-! ## The code -/

/-- The call at an index. -/
def callAt (ops : List MethodCall) (i : ℕ) : MethodCall := ops.getD i default

def setRetVal (ops : List MethodCall) (i : ℕ) (v : ℤ) : List MethodCall :=
  ops.modify i fun op => { op with retVal := v }

def setArgVal (ops : List MethodCall) (i : ℕ) (v : ℤ) : List MethodCall :=
  ops.modify i fun op => { op with argVal := v }

def isSameOpWithSmallerUnwitnessedArgument (ops : List MethodCall) (op1 op2 : MethodCall) : Bool :=
  op1.name = op2.name && op1.retVal = op2.retVal && op1.argVal < op2.argVal &&
    !ops.any fun op => op.retVal = op1.argVal

/-- The index of the call that the search ends with, starting from `found`. -/
def findSameOpWithMinUnwitnessedArgument (ops : List MethodCall) (found : ℕ) : ℕ :=
  (List.range ops.length).foldl
    (fun found it =>
      if isSameOpWithSmallerUnwitnessedArgument ops (callAt ops it) (callAt ops found) then it
      else found)
    found

/-- The calls `itW` and `itN` whose arguments an iteration exchanges. -/
def findSwap (ops : List MethodCall) (i : ℕ) : Option (ℕ × ℕ) :=
  let op := callAt ops i
  if op.argVal ≠ 0 ∨ op.retVal = 0 then none
  else if ops.countP (fun c => c.argVal = op.retVal) ≠ 1 then none
  else
    let itW := ops.findIdx fun c => c.argVal = op.retVal
    let itN := findSameOpWithMinUnwitnessedArgument ops itW
    if itN ≠ itW then some (itW, itN) else none

/-- One iteration of the loop, for the call at index `i`. -/
def normalizeAt (ops : List MethodCall) (i : ℕ) : List MethodCall :=
  match findSwap ops i with
  | none => ops
  | some (itW, itN) =>
    let ops := setRetVal ops i (callAt ops itN).argVal
    let ops := setArgVal ops itN (callAt ops itW).argVal
    setArgVal ops itW (callAt ops i).retVal

/-- The calls before an iteration of the loop. -/
def opsBefore (ops : List MethodCall) (i : ℕ) : List MethodCall :=
  (List.range i).foldl normalizeAt ops

/-- The calls after the loop. -/
def swapValues (ops : List MethodCall) : List MethodCall := opsBefore ops ops.length

def normalize (ops : List MethodCall) : List MethodCall :=
  (swapValues ops).mergeSort fun a b => a.toCall ≤ b.toCall

/-- The calls of `normalize`, each with its index in the observation that was normalised. -/
def followed (ops : List MethodCall) : List (MethodCall × ℕ) :=
  (swapValues ops).zipIdx.mergeSort fun a b => a.1.toCall ≤ b.1.toCall

/-- Following the calls does not change what `normalize` does. -/
theorem map_fst_followed (ops : List MethodCall) :
    (followed ops).map Prod.fst = normalize ops := by
  rw [followed, normalize, List.map_mergeSort (f := Prod.fst)
    (s := fun a b : MethodCall => a.toCall ≤ b.toCall) (fun _ _ _ _ => rfl), List.zipIdx_map_fst]

theorem map_snd_followed (ops : List MethodCall) :
    ((followed ops).map Prod.snd).Perm (List.range (swapValues ops).length) := by
  have h := (List.mergeSort_perm (swapValues ops).zipIdx fun a b => a.1.toCall ≤ b.1.toCall).map
    Prod.snd
  rwa [List.zipIdx_map_snd, ← List.range_eq_range'] at h

theorem mem_followed {ops : List MethodCall} {p : MethodCall × ℕ} :
    p ∈ followed ops ↔ (swapValues ops)[p.2]? = some p.1 := by
  rw [followed, List.mem_mergeSort, List.mem_zipIdx_iff_getElem?]

/-! ## One iteration -/

section Iteration

variable {ops : List MethodCall}

/-- Some call returns a value. -/
def Returned (ops : List MethodCall) (v : ℤ) : Prop :=
  ∃ k < ops.length, (callAt ops k).retVal = v

theorem callAt_mem {k : ℕ} (hk : k < ops.length) : callAt ops k ∈ ops := by
  rw [callAt, List.getD_eq_getElem _ _ hk]
  exact List.getElem_mem hk

/-- What makes a call a better partner. -/
structure Better (ops : List MethodCall) (n w : ℕ) : Prop where
  lt : n < ops.length
  name : (callAt ops n).name = (callAt ops w).name
  retVal : (callAt ops n).retVal = (callAt ops w).retVal
  argVal : (callAt ops n).argVal < (callAt ops w).argVal
  unreturned : ¬ Returned ops (callAt ops n).argVal

theorem better_of_isSame {n w : ℕ} (hn : n < ops.length)
    (h : isSameOpWithSmallerUnwitnessedArgument ops (callAt ops n) (callAt ops w) = true) :
    Better ops n w := by
  simp only [isSameOpWithSmallerUnwitnessedArgument, Bool.and_eq_true, decide_eq_true_eq,
    Bool.not_eq_true', List.any_eq_false] at h
  obtain ⟨⟨⟨hname, hret⟩, harg⟩, hun⟩ := h
  exact ⟨hn, hname, hret, harg, fun ⟨k, hk, heq⟩ => hun _ (callAt_mem hk) heq⟩

theorem Better.trans {n m w : ℕ} (h : Better ops n m) (h' : Better ops m w) : Better ops n w :=
  ⟨h.lt, h.name.trans h'.name, h.retVal.trans h'.retVal, h.argVal.trans h'.argVal, h.unreturned⟩

/-- The search ends with the call it started from, or with a better one. -/
theorem find_spec (ops : List MethodCall) (w : ℕ) :
    findSameOpWithMinUnwitnessedArgument ops w = w ∨
      Better ops (findSameOpWithMinUnwitnessedArgument ops w) w := by
  rw [findSameOpWithMinUnwitnessedArgument]
  have step : ∀ l : List ℕ, (∀ i ∈ l, i < ops.length) → ∀ found, found = w ∨ Better ops found w →
      (l.foldl (fun found it =>
        if isSameOpWithSmallerUnwitnessedArgument ops (callAt ops it) (callAt ops found) then it
        else found) found = w ∨
      Better ops (l.foldl (fun found it =>
        if isSameOpWithSmallerUnwitnessedArgument ops (callAt ops it) (callAt ops found) then it
        else found) found) w) := by
    intro l
    induction l with
    | nil => exact fun _ _ h => h
    | cons it l ih =>
      intro hl found hfound
      rw [List.foldl_cons]
      refine ih (fun i hi => hl i (List.mem_cons_of_mem _ hi)) _ ?_
      split
      · rename_i hsame
        have hb := better_of_isSame (hl it (List.mem_cons_self ..)) hsame
        rcases hfound with rfl | hfound
        · exact .inr hb
        · exact .inr (hb.trans hfound)
      · exact hfound
  exact step _ (fun i hi => List.mem_range.1 hi) w (.inl rfl)

/-- What an iteration that swaps has found. -/
structure Swap (ops : List MethodCall) (i w n : ℕ) : Prop where
  argVal : (callAt ops i).argVal = 0
  retVal : (callAt ops i).retVal ≠ 0
  lt : w < ops.length
  passed : (callAt ops w).argVal = (callAt ops i).retVal
  once : ∀ k < ops.length, (callAt ops k).argVal = (callAt ops i).retVal → k = w
  better : Better ops n w

/-- An element that is counted once is where it is found. -/
theorem eq_findIdx_of_countP {α : Type*} {p : α → Bool} : ∀ {l : List α}, l.countP p = 1 →
    ∀ {k : ℕ} (hk : k < l.length), p l[k] = true → k = l.findIdx p := by
  intro l
  induction l with
  | nil => exact fun _ k hk => absurd hk (Nat.not_lt_zero k)
  | cons a l ih =>
    intro h k hk hp
    rw [List.findIdx_cons]
    cases hpa : p a with
    | true =>
      have h0 : l.countP p = 0 := by
        rw [List.countP_cons_of_pos hpa] at h
        omega
      cases k with
      | zero => rfl
      | succ k =>
        rw [List.countP_eq_zero] at h0
        exact absurd hp (h0 _ (List.getElem_mem _))
    | false =>
      rw [List.countP_cons_of_neg (by simp [hpa])] at h
      cases k with
      | zero => exact absurd hp (by simp [hpa])
      | succ k => exact congrArg (· + 1) (ih h (by simpa using hk) (by simpa using hp))

theorem swap_of_findSwap {i w n : ℕ} (h : findSwap ops i = some (w, n)) : Swap ops i w n := by
  rw [findSwap] at h
  split at h
  · cases h
  rename_i hop
  split at h
  · cases h
  rename_i hcount
  dsimp only at h
  split at h
  · rename_i hne
    obtain ⟨rfl, rfl⟩ := Prod.mk.inj (Option.some.inj h)
    obtain ⟨harg, hret⟩ := not_or.1 hop
    have hcount' := not_not.1 hcount
    have hex : ∃ c ∈ ops, decide (c.argVal = (callAt ops i).retVal) = true :=
      List.countP_pos_iff.1 (by omega)
    have hlt := List.findIdx_lt_length_of_exists hex
    have hw := List.findIdx_getElem (w := hlt)
    refine ⟨not_not.1 harg, hret, hlt, ?_, fun k hk heq => ?_, ?_⟩
    · rw [callAt, List.getD_eq_getElem _ _ hlt]
      exact of_decide_eq_true hw
    · refine eq_findIdx_of_countP hcount' hk (decide_eq_true ?_)
      rwa [callAt, List.getD_eq_getElem _ _ hk] at heq
    · exact (find_spec ops _).resolve_left hne
  · cases h

@[simp] theorem length_setRetVal (ops : List MethodCall) (i : ℕ) (v : ℤ) :
    (setRetVal ops i v).length = ops.length := List.length_modify ..

@[simp] theorem length_setArgVal (ops : List MethodCall) (i : ℕ) (v : ℤ) :
    (setArgVal ops i v).length = ops.length := List.length_modify ..

theorem callAt_modify {i : ℕ} (hi : i < ops.length) (f : MethodCall → MethodCall) (k : ℕ) :
    callAt (ops.modify i f) k = if k = i then f (callAt ops k) else callAt ops k := by
  rw [callAt, callAt, List.getD_eq_getElem?_getD, List.getElem?_modify,
    List.getD_eq_getElem?_getD]
  by_cases hk : k = i
  · subst hk
    simp [List.getElem?_eq_getElem hi]
  · simp [hk, Ne.symm hk]

section Assign

variable {i : ℕ} (hi : i < ops.length) (v : ℤ) (k : ℕ)

include hi

theorem name_setRetVal : (callAt (setRetVal ops i v) k).name = (callAt ops k).name := by
  rw [setRetVal, callAt_modify hi]
  split <;> rfl

theorem argVal_setRetVal : (callAt (setRetVal ops i v) k).argVal = (callAt ops k).argVal := by
  rw [setRetVal, callAt_modify hi]
  split <;> rfl

theorem retVal_setRetVal :
    (callAt (setRetVal ops i v) k).retVal = if k = i then v else (callAt ops k).retVal := by
  rw [setRetVal, callAt_modify hi]
  split <;> rfl

theorem name_setArgVal : (callAt (setArgVal ops i v) k).name = (callAt ops k).name := by
  rw [setArgVal, callAt_modify hi]
  split <;> rfl

theorem retVal_setArgVal : (callAt (setArgVal ops i v) k).retVal = (callAt ops k).retVal := by
  rw [setArgVal, callAt_modify hi]
  split <;> rfl

theorem argVal_setArgVal :
    (callAt (setArgVal ops i v) k).argVal = if k = i then v else (callAt ops k).argVal := by
  rw [setArgVal, callAt_modify hi]
  split <;> rfl

end Assign

/-- The calls after an iteration that swaps: the call gets the smaller argument as return value,
and the two arguments are exchanged. -/
structure Swapped (ops ops' : List MethodCall) (i w n : ℕ) : Prop where
  name : ∀ k, (callAt ops' k).name = (callAt ops k).name
  retVal : ∀ k, (callAt ops' k).retVal =
    if k = i then (callAt ops n).argVal else (callAt ops k).retVal
  argVal : ∀ k, (callAt ops' k).argVal =
    if k = w then (callAt ops n).argVal
    else if k = n then (callAt ops w).argVal else (callAt ops k).argVal

theorem Swap.ne {i w n : ℕ} (h : Swap ops i w n) : w ≠ n := by
  rintro rfl
  exact lt_irrefl _ h.better.argVal

@[simp] theorem length_normalizeAt (ops : List MethodCall) (i : ℕ) :
    (normalizeAt ops i).length = ops.length := by
  rw [normalizeAt]
  split
  · rfl
  · simp

/-- **What one iteration does.** -/
theorem normalizeAt_cases {i : ℕ} (hi : i < ops.length) :
    findSwap ops i = none ∧ normalizeAt ops i = ops ∨
      ∃ w n, findSwap ops i = some (w, n) ∧ Swap ops i w n ∧
        Swapped ops (normalizeAt ops i) i w n := by
  cases h : findSwap ops i with
  | none => exact .inl ⟨rfl, by rw [normalizeAt, h]⟩
  | some p =>
    obtain ⟨w, n⟩ := p
    have hs := swap_of_findSwap h
    refine .inr ⟨w, n, rfl, hs, ?_⟩
    -- the three assignments, one after the other
    obtain ⟨ops₁, h₁⟩ : ∃ ops₁, ops₁ = setRetVal ops i (callAt ops n).argVal := ⟨_, rfl⟩
    obtain ⟨ops₂, h₂⟩ : ∃ ops₂, ops₂ = setArgVal ops₁ n (callAt ops₁ w).argVal := ⟨_, rfl⟩
    have heq : normalizeAt ops i = setArgVal ops₂ w (callAt ops₂ i).retVal := by
      rw [normalizeAt, h, h₂, h₁]
    have hlen₁ : ops₁.length = ops.length := h₁ ▸ length_setRetVal ..
    have hlen₂ : ops₂.length = ops₁.length := h₂ ▸ length_setArgVal ..
    have hn₁ : n < ops₁.length := hlen₁ ▸ hs.better.lt
    have hw₂ : w < ops₂.length := hlen₂ ▸ hlen₁ ▸ hs.lt
    have hret : ∀ k, (callAt ops₂ k).retVal =
        if k = i then (callAt ops n).argVal else (callAt ops k).retVal := fun k => by
      rw [h₂, retVal_setArgVal hn₁, h₁, retVal_setRetVal hi]
    rw [heq]
    constructor
    · intro k
      rw [name_setArgVal hw₂, h₂, name_setArgVal hn₁, h₁, name_setRetVal hi]
    · intro k
      rw [retVal_setArgVal hw₂, hret]
    · intro k
      rw [argVal_setArgVal hw₂, hret, if_pos rfl, h₂, argVal_setArgVal hn₁, h₁,
        argVal_setRetVal hi, argVal_setRetVal hi]

/-- Exchanging two arguments of one method keeps the arguments of every method. -/
theorem args_normalizeAt {i : ℕ} (hi : i < ops.length) :
    ((normalizeAt ops i).map fun c => (c.name, c.argVal)).Perm
      (ops.map fun c => (c.name, c.argVal)) := by
  rcases normalizeAt_cases hi with ⟨-, h⟩ | ⟨w, n, -, hs, hswapped⟩
  · rw [h]
  · set l := ops.map fun c => (c.name, c.argVal) with hl
    have hlen : l.length = ops.length := List.length_map ..
    have hw : w < l.length := hlen ▸ hs.lt
    have hn : n < l.length := hlen ▸ hs.better.lt
    have hget : ∀ k (hk : k < l.length), l[k] = ((callAt ops k).name, (callAt ops k).argVal) := by
      intro k hk
      simp [hl, callAt, List.getElem?_eq_getElem (hlen ▸ hk)]
    have heq : (normalizeAt ops i).map (fun c => (c.name, c.argVal)) =
        (l.set n l[w]).set w l[n] := by
      refine List.ext_getElem (by simp [hlen]) fun k hk _ => ?_
      have hk' : k < (normalizeAt ops i).length := by simpa using hk
      have hk'' : k < l.length := hlen ▸ length_normalizeAt ops i ▸ hk'
      have hleft : ((normalizeAt ops i).map fun c => (c.name, c.argVal))[k] =
          ((callAt (normalizeAt ops i) k).name, (callAt (normalizeAt ops i) k).argVal) := by
        simp [callAt, List.getElem?_eq_getElem hk']
      rw [hleft, hswapped.name, hswapped.argVal, List.getElem_set, List.getElem_set, hget _ hk'',
        hget _ hw, hget _ hn]
      by_cases hkw : w = k
      · subst hkw
        rw [if_pos rfl, if_pos rfl, hs.better.name]
      · rw [if_neg (Ne.symm hkw), if_neg hkw]
        by_cases hkn : n = k
        · subst hkn
          rw [if_pos rfl, if_pos rfl, hs.better.name]
        · rw [if_neg (Ne.symm hkn), if_neg hkn]
    rw [heq]
    exact List.set_set_perm hn hw

/-! ### Who returns what -/

/-- A call returns the argument, other than 0, of another one. -/
def Returns (ops : List MethodCall) (j k : ℕ) : Prop :=
  (callAt ops j).retVal = (callAt ops k).argVal ∧ (callAt ops k).argVal ≠ 0

/-- The same calls return each other's arguments, and the same calls return equal values. -/
structure SameRelations (ops ops' : List MethodCall) : Prop where
  returns : ∀ j < ops.length, ∀ k < ops.length, j ≠ k → (Returns ops' j k ↔ Returns ops j k)
  equal : ∀ j < ops.length, ∀ k < ops.length, j ≠ k →
    ((callAt ops' j).retVal = (callAt ops' k).retVal ↔
      (callAt ops j).retVal = (callAt ops k).retVal)

/-- An iteration exchanges arguments although another call returns the value that is taken away, the
value in its place is 0, or that value is passed to a further call. -/
def BadSwap (ops : List MethodCall) (i : ℕ) : Prop :=
  ∃ w n, findSwap ops i = some (w, n) ∧
    ((∃ k < ops.length, k ≠ i ∧ (callAt ops k).retVal = (callAt ops i).retVal) ∨
      (callAt ops n).argVal = 0 ∨
      ∃ k < ops.length, k ≠ w ∧ k ≠ n ∧ (callAt ops k).argVal = (callAt ops n).argVal)

/-- Every iteration other than a bad swap keeps the relations. -/
theorem sameRelations_normalizeAt {i : ℕ} (hi : i < ops.length) (h : ¬ BadSwap ops i) :
    SameRelations ops (normalizeAt ops i) := by
  rcases normalizeAt_cases hi with ⟨-, heq⟩ | ⟨w, n, hfind, hs, hswapped⟩
  · rw [heq]
    exact ⟨fun _ _ _ _ _ => Iff.rfl, fun _ _ _ _ _ => Iff.rfl⟩
  obtain ⟨hret, hrest⟩ := not_or.1 fun hb => h ⟨w, n, hfind, hb⟩
  obtain ⟨hzero, hpassed⟩ := not_or.1 hrest
  -- only the call at hand returned the value that is taken away, and no call the new one
  have hold : ∀ k < ops.length, k ≠ i → (callAt ops k).retVal ≠ (callAt ops i).retVal :=
    fun k hk hki heq => hret ⟨k, hk, hki, heq⟩
  have hnew : ∀ k < ops.length, (callAt ops k).retVal ≠ (callAt ops n).argVal :=
    fun k hk heq => hs.better.unreturned ⟨k, hk, heq⟩
  -- only one call had each of the two arguments
  have hw : ∀ k < ops.length, (callAt ops k).argVal = (callAt ops i).retVal → k = w := hs.once
  have hn : ∀ k < ops.length, (callAt ops k).argVal = (callAt ops n).argVal → k = w ∨ k = n := by
    intro k hk heq
    by_contra hne
    exact hpassed ⟨k, hk, fun hkw => hne (.inl hkw), fun hkn => hne (.inr hkn), heq⟩
  have hlt := hs.better.argVal
  have hpass := hs.passed
  have hnz := hs.retVal
  have harg := hs.argVal
  refine ⟨fun j hj k hk hjk => ?_, fun j hj k hk hjk => ?_⟩
  · rw [Returns, Returns, hswapped.retVal, hswapped.argVal]
    have := hold j hj
    have := hnew j hj
    have := hw k hk
    have := hn k hk
    grind
  · rw [hswapped.retVal, hswapped.retVal]
    have := hold j hj
    have := hold k hk
    have := hnew j hj
    have := hnew k hk
    grind

/-! ### What later iterations leave alone -/

theorem retVal_normalizeAt {i k : ℕ} (hi : i < ops.length) (hk : k ≠ i) :
    (callAt (normalizeAt ops i) k).retVal = (callAt ops k).retVal := by
  rcases normalizeAt_cases hi with ⟨-, heq⟩ | ⟨w, n, -, -, hswapped⟩
  · rw [heq]
  · rw [hswapped.retVal, if_neg hk]

/-- Values that differ stay different: a new return value is one that no call returned. -/
theorem retVal_ne_normalizeAt {i j k : ℕ} (hi : i < ops.length) (hj : j < ops.length)
    (hk : k < ops.length) (hjk : j ≠ k) (h : (callAt ops j).retVal ≠ (callAt ops k).retVal) :
    (callAt (normalizeAt ops i) j).retVal ≠ (callAt (normalizeAt ops i) k).retVal := by
  rcases normalizeAt_cases hi with ⟨-, heq⟩ | ⟨w, n, -, hs, hswapped⟩
  · rwa [heq]
  · have hnew : ∀ k < ops.length, (callAt ops k).retVal ≠ (callAt ops n).argVal :=
      fun k hk heq => hs.better.unreturned ⟨k, hk, heq⟩
    rw [hswapped.retVal, hswapped.retVal]
    split
    · rw [if_neg fun hki => hjk (by omega)]
      exact (hnew k hk).symm
    · split
      · exact hnew j hj
      · exact h

/-- A value that is returned and that two calls have as argument stays with them. -/
theorem argVal_normalizeAt {i j k : ℕ} {v : ℤ} (hi : i < ops.length)
    (hk : k < ops.length) (hjk : j ≠ k) (hv : Returned ops v) (hjv : (callAt ops j).argVal = v)
    (hkv : (callAt ops k).argVal = v) : (callAt (normalizeAt ops i) j).argVal = v := by
  rcases normalizeAt_cases hi with ⟨-, heq⟩ | ⟨w, n, -, hs, hswapped⟩
  · rwa [heq]
  · have hjw : j ≠ w := by
      rintro rfl
      have hr : (callAt ops i).retVal = v := hs.passed.symm.trans hjv
      exact hjk (hs.once k hk (hkv.trans hr.symm)).symm
    have hjn : j ≠ n := by
      rintro rfl
      exact hs.better.unreturned (hjv ▸ hv)
    rw [hswapped.argVal, if_neg hjw, if_neg hjn, hjv]

end Iteration

/-! ## The loop -/

theorem opsBefore_succ (ops : List MethodCall) (i : ℕ) :
    opsBefore ops (i + 1) = normalizeAt (opsBefore ops i) i := by
  rw [opsBefore, List.range_succ, List.foldl_append]
  rfl

@[simp] theorem length_opsBefore (ops : List MethodCall) (i : ℕ) :
    (opsBefore ops i).length = ops.length := by
  induction i with
  | zero => rfl
  | succ i ih => rw [opsBefore_succ, length_normalizeAt, ih]

theorem lt_length_opsBefore {ops : List MethodCall} {i k : ℕ} (h : k < ops.length) :
    k < (opsBefore ops i).length := (length_opsBefore ops i).symm ▸ h

theorem name_opsBefore (ops : List MethodCall) {i : ℕ} (hi : i ≤ ops.length) (k : ℕ) :
    (callAt (opsBefore ops i) k).name = (callAt ops k).name := by
  induction i with
  | zero => rfl
  | succ i ih =>
    have hlt : i < (opsBefore ops i).length := lt_length_opsBefore hi
    rw [opsBefore_succ, ← ih (by omega)]
    rcases normalizeAt_cases hlt with ⟨-, heq⟩ | ⟨w, n, -, -, hswapped⟩
    · rw [heq]
    · exact hswapped.name k

theorem args_opsBefore (ops : List MethodCall) {i : ℕ} (hi : i ≤ ops.length) :
    ((opsBefore ops i).map fun c => (c.name, c.argVal)).Perm
      (ops.map fun c => (c.name, c.argVal)) := by
  induction i with
  | zero => exact .refl _
  | succ i ih =>
    have hlt : i < (opsBefore ops i).length := lt_length_opsBefore hi
    rw [opsBefore_succ]
    exact (args_normalizeAt hlt).trans (ih (by omega))

/-- Iterations without a bad swap keep the relations. -/
theorem sameRelations_opsBefore {ops : List MethodCall} {m : ℕ} (hm : m ≤ ops.length)
    (h : ∀ i < m, ¬ BadSwap (opsBefore ops i) i) : SameRelations ops (opsBefore ops m) := by
  induction m with
  | zero => exact ⟨fun _ _ _ _ _ => Iff.rfl, fun _ _ _ _ _ => Iff.rfl⟩
  | succ m ih =>
    have hlt : m < (opsBefore ops m).length := lt_length_opsBefore hm
    have hbefore := ih (by omega) fun i hi => h i (by omega)
    have hstep := sameRelations_normalizeAt hlt (h m (Nat.lt_succ_self m))
    rw [opsBefore_succ]
    refine ⟨fun j hj k hk hjk => ?_, fun j hj k hk hjk => ?_⟩
    · exact (hstep.returns j (lt_length_opsBefore hj) k (lt_length_opsBefore hk) hjk).trans
        (hbefore.returns j hj k hk hjk)
    · exact (hstep.equal j (lt_length_opsBefore hj) k (lt_length_opsBefore hk) hjk).trans
        (hbefore.equal j hj k hk hjk)

/-- The return value of a call is that of its own iteration. -/
theorem retVal_opsBefore_of_lt (ops : List MethodCall) {i m : ℕ} (him : i < m)
    (hm : m ≤ ops.length) :
    (callAt (opsBefore ops m) i).retVal = (callAt (opsBefore ops (i + 1)) i).retVal := by
  induction m, him using Nat.le_induction with
  | base => rfl
  | succ m him ih =>
    have hlt : m < (opsBefore ops m).length := lt_length_opsBefore hm
    rw [opsBefore_succ, retVal_normalizeAt hlt (by omega), ih (by omega)]

theorem retVal_ne_opsBefore {ops : List MethodCall} {l m j k : ℕ} (hlm : l ≤ m)
    (hm : m ≤ ops.length) (hj : j < ops.length) (hk : k < ops.length) (hjk : j ≠ k)
    (h : (callAt (opsBefore ops l) j).retVal ≠ (callAt (opsBefore ops l) k).retVal) :
    (callAt (opsBefore ops m) j).retVal ≠ (callAt (opsBefore ops m) k).retVal := by
  induction m, hlm using Nat.le_induction with
  | base => exact h
  | succ m hlm ih =>
    have hlt : m < (opsBefore ops m).length := lt_length_opsBefore hm
    rw [opsBefore_succ]
    exact retVal_ne_normalizeAt hlt (lt_length_opsBefore hj) (lt_length_opsBefore hk) hjk
      (ih (by omega))

/-- Two arguments with the value that a call was given keep that value. -/
theorem argVal_opsBefore {ops : List MethodCall} {i m j k : ℕ} (him : i < m) (hm : m ≤ ops.length)
    (hj : j < ops.length) (hk : k < ops.length) (hjk : j ≠ k) {v : ℤ}
    (hv : (callAt (opsBefore ops (i + 1)) i).retVal = v)
    (hjv : (callAt (opsBefore ops (i + 1)) j).argVal = v)
    (hkv : (callAt (opsBefore ops (i + 1)) k).argVal = v) :
    (callAt (opsBefore ops m) j).argVal = v ∧ (callAt (opsBefore ops m) k).argVal = v := by
  induction m, him using Nat.le_induction with
  | base => exact ⟨hjv, hkv⟩
  | succ m him ih =>
    have hlt : m < (opsBefore ops m).length := lt_length_opsBefore hm
    have hret : Returned (opsBefore ops m) v :=
      ⟨i, lt_length_opsBefore (by omega), (retVal_opsBefore_of_lt ops him (by omega)).trans hv⟩
    obtain ⟨hj', hk'⟩ := ih (by omega)
    have hjl : j < (opsBefore ops m).length := lt_length_opsBefore hj
    have hkl : k < (opsBefore ops m).length := lt_length_opsBefore hk
    rw [opsBefore_succ]
    exact ⟨argVal_normalizeAt hlt hkl hjk hret hj' hk',
      argVal_normalizeAt hlt hjl hjk.symm hret hk' hj'⟩

/-- The first bad swap breaks a relation for good. -/
theorem not_sameRelations_of_badSwap {ops : List MethodCall} {i : ℕ} (hi : i < ops.length)
    (hbefore : SameRelations ops (opsBefore ops i)) (hbad : BadSwap (opsBefore ops i) i) :
    ¬ SameRelations ops (swapValues ops) := by
  intro hsame
  obtain ⟨w, n, hfind, hcase⟩ := hbad
  have hlen : (opsBefore ops i).length = ops.length := length_opsBefore ops i
  have hlt : i < (opsBefore ops i).length := hlen.symm ▸ hi
  have hs := swap_of_findSwap hfind
  have hswapped : Swapped (opsBefore ops i) (opsBefore ops (i + 1)) i w n := by
    rcases normalizeAt_cases hlt with ⟨hnone, -⟩ | ⟨w', n', hfind', -, h⟩
    · rw [hnone] at hfind
      cases hfind
    · obtain ⟨rfl, rfl⟩ := Prod.mk.inj (Option.some.inj (hfind.symm.trans hfind'))
      rwa [opsBefore_succ]
  have hw : w < ops.length := hlen ▸ hs.lt
  have hn : n < ops.length := hlen ▸ hs.better.lt
  have hiw : i ≠ w := by
    rintro rfl
    exact hs.retVal (hs.passed.symm.trans hs.argVal)
  have hret : (callAt (opsBefore ops (i + 1)) i).retVal = (callAt (opsBefore ops i) n).argVal := by
    rw [hswapped.retVal, if_pos rfl]
  have hfinal : (callAt (swapValues ops) i).retVal = (callAt (opsBefore ops i) n).argVal :=
    (retVal_opsBefore_of_lt ops hi le_rfl).trans hret
  -- the call returned an argument other than 0, so it may not return 0 now
  have hnonzero : (callAt (opsBefore ops i) n).argVal ≠ 0 := by
    intro hzero
    have hreturns : Returns (opsBefore ops i) i w := ⟨hs.passed.symm, hs.passed ▸ hs.retVal⟩
    obtain ⟨h₁, h₂⟩ := (hsame.returns i hi w hw hiw).2 ((hbefore.returns i hi w hw hiw).1 hreturns)
    exact h₂ (h₁.symm.trans (hfinal.trans hzero))
  rcases hcase with ⟨k, hk, hki, heq⟩ | hzero | ⟨k, hk, hkw, hkn, heq⟩
  · -- another call still returns the old value
    have hk' : k < ops.length := hlen ▸ hk
    have hne : (callAt (opsBefore ops (i + 1)) k).retVal ≠
        (callAt (opsBefore ops (i + 1)) i).retVal := by
      rw [hret, hswapped.retVal, if_neg hki]
      exact fun h => hs.better.unreturned ⟨k, hk, h⟩
    exact retVal_ne_opsBefore hi le_rfl hk' hi hki hne
      ((hsame.equal k hk' i hi hki).2 ((hbefore.equal k hk' i hi hki).1 heq))
  · exact hnonzero hzero
  · -- the call now returns the argument of a further call
    have hk' : k < ops.length := hlen ▸ hk
    have hik : i ≠ k := by
      rintro rfl
      exact hnonzero (heq.symm.trans hs.argVal)
    have hargs := argVal_opsBefore (m := ops.length) hi le_rfl hw hk' (Ne.symm hkw) hret
      (by rw [hswapped.argVal, if_pos rfl])
      (by rw [hswapped.argVal, if_neg hkw, if_neg hkn, heq])
    have hreturns : Returns (swapValues ops) i k :=
      ⟨hfinal.trans hargs.2.symm, fun h => hnonzero (hargs.2.symm.trans h)⟩
    have hold := (hbefore.returns i hi k hk' hik).2 ((hsame.returns i hi k hk' hik).1 hreturns)
    exact hkw (hs.once k hk hold.1.symm)

/-- The relations are kept if and only if no iteration swaps badly. -/
theorem sameRelations_iff (ops : List MethodCall) :
    SameRelations ops (swapValues ops) ↔ ∀ i < ops.length, ¬ BadSwap (opsBefore ops i) i := by
  refine ⟨fun hsame i hi => ?_, sameRelations_opsBefore le_rfl⟩
  induction i using Nat.strong_induction_on with
  | _ i ih =>
    intro hbad
    exact not_sameRelations_of_badSwap hi
      (sameRelations_opsBefore hi.le fun k hk => ih k hk (hk.trans hi)) hbad hsame

/-! ## Following the calls through the sort -/

/-- The calls that `normalize` ends with are a consistent renaming of those it started with: each
keeps its name, each method is passed the same arguments, the same calls return each other's
arguments and the same calls return equal values. -/
structure ConsistentRenaming (ops : List MethodCall) (calls : List (MethodCall × ℕ)) : Prop where
  name : ∀ p ∈ calls, p.1.name = (callAt ops p.2).name
  args : ∀ method, (((calls.map Prod.fst).filter (·.name = method)).map (·.argVal)).Perm
    ((ops.filter (·.name = method)).map (·.argVal))
  returns : ∀ p ∈ calls, ∀ q ∈ calls, p.2 ≠ q.2 →
    (p.1.retVal = q.1.argVal ∧ q.1.argVal ≠ 0 ↔ Returns ops p.2 q.2)
  equal : ∀ p ∈ calls, ∀ q ∈ calls, p.2 ≠ q.2 →
    (p.1.retVal = q.1.retVal ↔ (callAt ops p.2).retVal = (callAt ops q.2).retVal)

theorem callAt_of_mem_followed {ops : List MethodCall} {p : MethodCall × ℕ}
    (h : p ∈ followed ops) : p.2 < ops.length ∧ callAt (swapValues ops) p.2 = p.1 := by
  obtain ⟨hlt, hget⟩ := List.getElem?_eq_some_iff.1 (mem_followed.1 h)
  refine ⟨by simpa [swapValues] using hlt, ?_⟩
  rw [callAt, List.getD_eq_getElem _ _ hlt, hget]

theorem mem_followed_callAt {ops : List MethodCall} {k : ℕ} (hk : k < ops.length) :
    (callAt (swapValues ops) k, k) ∈ followed ops := by
  have hk' : k < (swapValues ops).length := lt_length_opsBefore hk
  rw [mem_followed, callAt, List.getD_eq_getElem _ _ hk', List.getElem?_eq_getElem hk']

/-- Arguments by method, from the list of names and arguments. -/
theorem args_perm {ops ops' : List MethodCall}
    (h : (ops'.map fun c => (c.name, c.argVal)).Perm (ops.map fun c => (c.name, c.argVal)))
    (method : String) : ((ops'.filter (·.name = method)).map (·.argVal)).Perm
      ((ops.filter (·.name = method)).map (·.argVal)) := by
  have hmap : ∀ ops : List MethodCall, (ops.filter (·.name = method)).map (·.argVal) =
      ((ops.map fun c => (c.name, c.argVal)).filter (·.1 = method)).map Prod.snd := by
    intro ops
    rw [List.filter_map, List.map_map]
    rfl
  rw [hmap, hmap]
  exact (h.filter _).map _

/-- Names and arguments are always kept; what is left are the relations. -/
theorem consistent_iff_sameRelations (ops : List MethodCall) :
    ConsistentRenaming ops (followed ops) ↔ SameRelations ops (swapValues ops) := by
  refine ⟨fun h => ?_, fun h => ?_⟩
  · refine ⟨fun j hj k hk hjk => ?_, fun j hj k hk hjk => ?_⟩
    · exact h.returns _ (mem_followed_callAt hj) _ (mem_followed_callAt hk) hjk
    · exact h.equal _ (mem_followed_callAt hj) _ (mem_followed_callAt hk) hjk
  · constructor
    · intro p hp
      obtain ⟨-, heq⟩ := callAt_of_mem_followed hp
      rw [← heq]
      exact name_opsBefore ops le_rfl p.2
    · intro method
      have hperm : ((followed ops).map Prod.fst).Perm (swapValues ops) := by
        rw [map_fst_followed]
        exact List.mergeSort_perm _ _
      exact args_perm ((hperm.map _).trans (args_opsBefore ops le_rfl)) method
    · intro p hp q hq hpq
      obtain ⟨hp', hpeq⟩ := callAt_of_mem_followed hp
      obtain ⟨hq', hqeq⟩ := callAt_of_mem_followed hq
      rw [← hpeq, ← hqeq]
      exact h.returns p.2 hp' q.2 hq' hpq
    · intro p hp q hq hpq
      obtain ⟨hp', hpeq⟩ := callAt_of_mem_followed hp
      obtain ⟨hq', hqeq⟩ := callAt_of_mem_followed hq
      rw [← hpeq, ← hqeq]
      exact h.equal p.2 hp' q.2 hq' hpq

/-- **Normalising is a consistent renaming if and only if no iteration swaps badly.** -/
theorem consistent_iff (ops : List MethodCall) :
    (followed ops).map Prod.fst = normalize ops ∧
      ((followed ops).map Prod.snd).Perm (List.range ops.length) ∧
      (ConsistentRenaming ops (followed ops) ↔
        ∀ i < ops.length, ¬ BadSwap (opsBefore ops i) i) := by
  have hlen : (swapValues ops).length = ops.length := length_opsBefore ops ops.length
  exact ⟨map_fst_followed ops, hlen ▸ map_snd_followed ops,
    (consistent_iff_sameRelations ops).trans (sameRelations_iff ops)⟩

/-- A value that is dequeued twice. -/
def dequeuedTwice : List MethodCall :=
  [{ name := "enq", argVal := 1, retVal := 0 }, { name := "enq", argVal := 2, retVal := 0 },
    { name := "deq", argVal := 0, retVal := 2 }, { name := "deq", argVal := 0, retVal := 2 }]

/-- The loop gives the first `deq` another value and leaves the second one as it is: two calls that
returned the same value do not after `normalize`. -/
theorem dequeuedTwice_not_consistent :
    ¬ ConsistentRenaming dequeuedTwice (followed dequeuedTwice) := by
  have hmem : ∀ k (hk : k < 4), (callAt (swapValues dequeuedTwice) k, k) ∈ followed dequeuedTwice :=
    fun k hk => mem_followed_callAt hk
  intro h
  have := (h.equal _ (hmem 2 (by decide)) _ (hmem 3 (by decide)) (by decide)).2 (by decide)
  exact absurd this (by decide)

/-! ## Clients that pass distinct values -/

/-- Arguments other than 0 are distinct, no value other than 0 is returned twice, and a method takes
an argument in all of its calls or in none. -/
structure DistinctValues (ops : List MethodCall) : Prop where
  args : ∀ j < ops.length, ∀ k < ops.length, j ≠ k →
    (callAt ops j).argVal = (callAt ops k).argVal → (callAt ops j).argVal = 0
  returned : ∀ j < ops.length, ∀ k < ops.length, j ≠ k →
    (callAt ops j).retVal = (callAt ops k).retVal → (callAt ops j).retVal = 0
  methods : ∀ j < ops.length, ∀ k < ops.length, (callAt ops j).argVal = 0 →
    (callAt ops k).argVal ≠ 0 → (callAt ops j).name ≠ (callAt ops k).name

theorem DistinctValues.not_badSwap {ops : List MethodCall} (h : DistinctValues ops) {i : ℕ}
    (hi : i < ops.length) : ¬ BadSwap ops i := by
  rintro ⟨w, n, hfind, hcase⟩
  have hs := swap_of_findSwap hfind
  have hnonzero : (callAt ops n).argVal ≠ 0 := fun hzero =>
    h.methods n hs.better.lt w hs.lt hzero (hs.passed ▸ hs.retVal) hs.better.name
  rcases hcase with ⟨k, hk, hki, heq⟩ | hzero | ⟨k, hk, -, hkn, heq⟩
  · exact hs.retVal (heq ▸ h.returned k hk i hi hki heq)
  · exact hnonzero hzero
  · exact hnonzero (heq ▸ h.args k hk n hs.better.lt hkn heq)

theorem DistinctValues.normalizeAt {ops : List MethodCall} (h : DistinctValues ops) {i : ℕ}
    (hi : i < ops.length) : DistinctValues (normalizeAt ops i) := by
  have hlen := length_normalizeAt ops i
  have hsame := sameRelations_normalizeAt hi (h.not_badSwap hi)
  rcases normalizeAt_cases hi with ⟨-, heq⟩ | ⟨w, n, -, hs, hswapped⟩
  · rwa [heq]
  have hnonzero : (callAt ops n).argVal ≠ 0 := fun hzero =>
    h.methods n hs.better.lt w hs.lt hzero (hs.passed ▸ hs.retVal) hs.better.name
  have hw : (callAt ops w).argVal ≠ 0 := hs.passed ▸ hs.retVal
  have hne := hs.ne
  -- an argument is 0 after the exchange if and only if it was 0 before
  have hzero : ∀ k, (callAt (GenMC.Normalization.normalizeAt ops i) k).argVal = 0 ↔
      (callAt ops k).argVal = 0 := by
    intro k
    rw [hswapped.argVal]
    split
    · simp_all
    · split
      · simp_all
      · rfl
  constructor
  · intro j hj k hk hjk heq
    rw [hlen] at hj hk
    rw [hzero]
    rw [hswapped.argVal, hswapped.argVal] at heq
    have := h.args j hj k hk hjk
    have := h.args w hs.lt k hk
    have := h.args n hs.better.lt k hk
    have := h.args j hj w hs.lt
    have := h.args j hj n hs.better.lt
    have := h.args w hs.lt n hs.better.lt
    grind
  · intro j hj k hk hjk heq
    rw [hlen] at hj hk
    have hold := (hsame.equal j hj k hk hjk).1 heq
    have hret := h.returned j hj k hk hjk hold
    rw [hswapped.retVal]
    split
    · rename_i hji
      exact absurd (hji ▸ hret) hs.retVal
    · exact hret
  · intro j hj k hk hjzero hkzero
    rw [hlen] at hj hk
    rw [hzero] at hjzero
    rw [Ne, hzero] at hkzero
    rw [hswapped.name, hswapped.name]
    exact h.methods j hj k hk hjzero hkzero

/-- Normalising is a consistent renaming for clients that pass distinct values to methods that hand
each of them out at most once. -/
theorem consistent_of_distinct {ops : List MethodCall} (h : DistinctValues ops) :
    ConsistentRenaming ops (followed ops) := by
  have hbefore : ∀ i ≤ ops.length, DistinctValues (opsBefore ops i) := by
    intro i
    induction i with
    | zero => exact fun _ => h
    | succ i ih =>
      intro hi
      rw [opsBefore_succ]
      exact (ih (by omega)).normalizeAt (lt_length_opsBefore (by omega))
  exact (consistent_iff_sameRelations ops).2 (sameRelations_opsBefore le_rfl fun i hi =>
    (hbefore i hi.le).not_badSwap (lt_length_opsBefore hi))

end GenMC.Normalization
