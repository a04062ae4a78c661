import GenMC.Library.EdgeClosure
import GenMC.Library.PathBelow
import Mathlib.Data.List.Nodup
import Mathlib.Data.List.Range
import Mathlib.Logic.Function.Basic

/-!
# Matrices of edges

A matrix of the source has an entry for each pair of elements.  `addEdgeAndTransitive` adds an edge
to a matrix that is transitively closed and closes it again, with three loops over the rows and
columns; what they amount to is `at_addEdgeAndTransitive`.

`transClosure` goes over the matrix twice, in place: first every row absorbs the rows above it that
it has an edge to, then every row absorbs the rows below it.  After a step each row has the paths
from its element through the elements below some bound, its *level*, and `Levels` says how large
the levels of all rows are.  The first sweep raises the level of row `i` to `i`, where it stays
until the second sweep raises it to the number of rows, with rows of level `k` at hand for each
pivot `k` above `i`.  `closures_exact` puts both functions together.
-/

set_option autoImplicit false

namespace GenMC

/-- A matrix over the elements below `len`. -/
structure Matrix2D where
  len : ℕ
  at' : ℕ → ℕ → Bool

namespace Matrix2D

/-- A matrix without edges. -/
def ofSize (len : ℕ) : Matrix2D := ⟨len, fun _ _ => false⟩

def addEdge (m : Matrix2D) (a b : ℕ) : Matrix2D :=
  { m with at' := Function.update m.at' a (Function.update (m.at' a) b true) }

/-- Adds the edges of row `k` to row `i`. -/
def orRow (at' : ℕ → ℕ → Bool) (i k : ℕ) : ℕ → ℕ → Bool :=
  Function.update at' i fun j => at' i j || at' k j

/-- Adds an edge and closes the matrix. -/
def addEdgeAndTransitive (m : Matrix2D) (a b : ℕ) : Matrix2D :=
  let at₁ := (List.range m.len).foldl (fun at' i => if at' i a then orRow at' i b else at') m.at'
  let at₂ := orRow at₁ a b
  let at₃ := (List.range m.len).foldl
    (fun at' i => Function.update at' i (Function.update (at' i) b (at' i b || at' i a))) at₂
  { m with at' := at₃ }.addEdge a b

/-- Closes the matrix: first below the diagonal, then above. -/
def transClosure (m : Matrix2D) : Matrix2D :=
  let step := fun (i : ℕ) (at' : ℕ → ℕ → Bool) k => if at' i k then orRow at' i k else at'
  let at₁ := (List.range' 1 (m.len - 1)).foldl
    (fun at' i => (List.range i).foldl (step i) at') m.at'
  let at₂ := (List.range (m.len - 1)).foldl
    (fun at' i => (List.range' (i + 1) (m.len - 1 - i)).foldl (step i) at') at₁
  { m with at' := at₂ }

variable {m : Matrix2D} {a b : ℕ}

theorem at_addEdge (a b i j : ℕ) :
    (m.addEdge a b).at' i j = true ↔ m.at' i j = true ∨ (i = a ∧ j = b) := by
  rw [addEdge]
  by_cases hi : i = a
  · subst hi
    by_cases hj : j = b
    · subst hj
      simp
    · simp [hj]
  · simp [hi]

/-- The loop over the rows of the elements before `a`.  Row `b` does not change, also if it is one
of them. -/
theorem foldl_orRow {L : List ℕ} (hL : L.Nodup) (at' : ℕ → ℕ → Bool) (i j : ℕ) :
    L.foldl (fun at' i => if at' i a then orRow at' i b else at') at' i j =
      (at' i j || (decide (i ∈ L) && at' i a && at' b j)) := by
  induction L generalizing at' with
  | nil => simp
  | cons k L ih =>
    obtain ⟨hk, hL⟩ := List.nodup_cons.1 hL
    rw [List.foldl_cons, ih hL]
    by_cases hka : at' k a = true
    · have hb : ∀ j, orRow at' k b b j = at' b j := by
        intro j
        by_cases hkb : b = k
        · subst hkb
          simp [orRow]
        · simp [orRow, hkb]
      rw [if_pos hka, hb]
      by_cases hi : i = k
      · subst hi
        simp [orRow, hk, hka]
      · simp [orRow, hi]
    · rw [if_neg hka]
      by_cases hi : i = k
      · subst hi
        simp [hk, hka]
      · simp [hi]

/-- The loop over column `b`. -/
theorem foldl_column {L : List ℕ} (hL : L.Nodup) (at' : ℕ → ℕ → Bool) (i j : ℕ) :
    L.foldl (fun at' i => Function.update at' i (Function.update (at' i) b (at' i b || at' i a)))
      at' i j = (at' i j || (decide (i ∈ L) && decide (j = b) && at' i a)) := by
  induction L generalizing at' with
  | nil => simp
  | cons k L ih =>
    obtain ⟨hk, hL⟩ := List.nodup_cons.1 hL
    rw [List.foldl_cons, ih hL]
    by_cases hi : i = k
    · subst hi
      by_cases hj : j = b
      · subst hj
        simp [hk]
      · simp [hk, hj]
    · simp [hi]

/-- **Adding an edge to a matrix** adds what can be reached through the edge in one step before and
one step after it. -/
theorem at_addEdgeAndTransitive {i : ℕ} (hlen : m.at' i a = true → i < m.len) (j : ℕ) :
    (m.addEdgeAndTransitive a b).at' i j = true ↔
      m.at' i j = true ∨ ((i = a ∨ m.at' i a = true) ∧ (j = b ∨ m.at' b j = true)) := by
  have hin : (decide (i ∈ List.range m.len) && m.at' i a) = m.at' i a := by
    cases hia : m.at' i a with
    | false => simp
    | true => simp [hlen hia]
  rw [addEdgeAndTransitive]
  simp only [at_addEdge]
  rw [foldl_column List.nodup_range]
  generalize hat : (List.range m.len).foldl
    (fun at' i => if at' i a then orRow at' i b else at') m.at' = at₁
  have hat₁ : ∀ j, at₁ i j = (m.at' i j || (m.at' i a && m.at' b j)) := by
    intro j
    rw [← hat, foldl_orRow List.nodup_range, hin]
  have hat₂ : ∀ j, at₁ b j = m.at' b j := by
    intro j
    rw [← hat, foldl_orRow List.nodup_range]
    cases m.at' b j <;> simp
  have hrow : ∀ j, orRow at₁ a b i j =
      (m.at' i j || ((decide (i = a) || m.at' i a) && m.at' b j)) := by
    intro j
    by_cases hi : i = a
    · subst hi
      simp only [orRow, Function.update_self, hat₁, hat₂]
      cases m.at' i j <;> cases m.at' b j <;> simp
    · simp only [orRow, Function.update_of_ne hi, hat₁]
      simp [hi]
  rw [hrow, hrow]
  simp only [Bool.or_eq_true, Bool.and_eq_true, decide_eq_true_eq, List.mem_range]
  refine ⟨?_, ?_⟩
  · rintro ((h | h) | ⟨rfl, rfl⟩)
    · tauto
    · tauto
    · tauto
  · rintro (h | ⟨rfl | h1, rfl | h2⟩)
    · tauto
    · tauto
    · tauto
    · exact .inl (.inr ⟨⟨hlen h1, rfl⟩, .inl h1⟩)
    · tauto

/-- Where no edge follows another one, there is nothing to close. -/
theorem transClosure_of_bipartite
    (h : ∀ i j k, m.at' i j = true → m.at' j k = false) : m.transClosure = m := by
  have hor : ∀ i k, (if m.at' i k then orRow m.at' i k else m.at') = m.at' := by
    intro i k
    split
    · rename_i hik
      funext x y
      by_cases hx : x = i
      · subst hx
        simp [orRow, h x k y hik]
      · simp [orRow, hx]
    · rfl
  have hfold : ∀ (i : ℕ) (L : List ℕ),
      L.foldl (fun at' k => if at' i k then orRow at' i k else at') m.at' = m.at' := by
    intro i L
    induction L with
    | nil => rfl
    | cons k L ih => rw [List.foldl_cons, hor, ih]
  have houter : ∀ (rows : ℕ → List ℕ) (L : List ℕ),
      L.foldl (fun at' i => (rows i).foldl
        (fun at' k => if at' i k then orRow at' i k else at') at') m.at' = m.at' := by
    intro rows L
    induction L with
    | nil => rfl
    | cons i L ih => rw [List.foldl_cons, hfold, ih]
  rw [transClosure]
  simp only [houter]

/-! ## The two sweeps -/

/-- The edges between the elements of a matrix. -/
def Edge (m : Matrix2D) (i j : ℕ) : Prop := i < m.len ∧ j < m.len ∧ m.at' i j = true

/-- Row `i` gets the edges of row `k` if it has the edge to `k`. -/
def absorb (i : ℕ) (at' : ℕ → ℕ → Bool) (k : ℕ) : ℕ → ℕ → Bool :=
  if at' i k then orRow at' i k else at'

theorem absorb_of_ne {at' : ℕ → ℕ → Bool} {i x : ℕ} (hx : x ≠ i) (k j : ℕ) :
    absorb i at' k x j = at' x j := by
  rw [absorb]
  split
  · simp [orRow, hx]
  · rfl

theorem absorb_self (at' : ℕ → ℕ → Bool) (i k j : ℕ) :
    absorb i at' k i j = true ↔ at' i j = true ∨ (at' i k = true ∧ at' k j = true) := by
  rw [absorb]
  split
  · rename_i hik
    simp [orRow, hik]
  · rename_i hik
    simp [hik]

/-- Each row has the paths from its element through the elements below its level. -/
def Levels (r : ℕ → ℕ → Prop) (len : ℕ) (level : ℕ → ℕ) (at' : ℕ → ℕ → Bool) : Prop :=
  ∀ x < len, ∀ j < len, at' x j = true ↔ PathBelow r (level x) x j

variable {r : ℕ → ℕ → Prop} {len : ℕ} {level : ℕ → ℕ} {at' : ℕ → ℕ → Bool}

theorem Levels.congr {level' : ℕ → ℕ} (h : Levels r len level at')
    (heq : ∀ x < len, level' x = level x) : Levels r len level' at' := by
  intro x hx j hj
  rw [heq x hx]
  exact h x hx j hj

/-- A pivot of its own level raises the level of a row by one. -/
theorem Levels.absorb {i k : ℕ} (h : Levels r len level at') (hk : k < len) (hik : i ≠ k)
    (hi : level i = k) (hkk : level k = k) :
    Levels r len (Function.update level i (k + 1)) (absorb i at' k) := by
  intro x hx j hj
  by_cases hxi : x = i
  · subst hxi
    rw [absorb_self, Function.update_self, pathBelow_succ, h x hx j hj, h x hx k hk, h k hk j hj,
      hi, hkk]
  · rw [absorb_of_ne hxi, Function.update_of_ne hxi]
    exact h x hx j hj

/-- A row against the pivots from `a` on. -/
theorem Levels.foldl_absorb {i a n : ℕ} (h : Levels r len level at') (hlen : a + n ≤ len)
    (hi : i ∉ List.range' a n) (hia : level i = a) (hpiv : ∀ k ∈ List.range' a n, level k = k) :
    Levels r len (Function.update level i (a + n))
      ((List.range' a n).foldl (GenMC.Matrix2D.absorb i) at') := by
  induction n with
  | zero => exact h.congr fun x _ => by simp [← hia]
  | succ n ih =>
    rw [List.range'_1_concat] at hi hpiv ⊢
    rw [List.foldl_append, List.foldl_cons, List.foldl_nil]
    have hik : i ≠ a + n := fun heq => hi (List.mem_append_right _ (List.mem_singleton.2 heq))
    have hrow := ih (by omega) (fun hmem => hi (List.mem_append_left _ hmem))
      fun k hk => hpiv k (List.mem_append_left _ hk)
    refine (hrow.absorb (by omega) hik (Function.update_self ..) ?_).congr fun x _ => ?_
    · rw [Function.update_of_ne hik.symm]
      exact hpiv _ (List.mem_append_right _ (List.mem_singleton_self _))
    · rw [Function.update_idem, Nat.add_assoc]

/-- The first sweep, over the rows below the first one. -/
theorem Levels.lower {n : ℕ} (h : Levels r len (fun _ => 0) at') (hn : n < len) :
    Levels r len (fun x => if x ≤ n then x else 0)
      ((List.range' 1 n).foldl (fun at' i => (List.range i).foldl (GenMC.Matrix2D.absorb i) at')
        at') := by
  induction n with
  | zero => exact h.congr fun x _ => by simp
  | succ n ih =>
    rw [List.range'_1_concat, List.foldl_append, List.foldl_cons, List.foldl_nil,
      Nat.add_comm 1 n, List.range_eq_range']
    refine ((ih (by omega)).foldl_absorb (by omega) (by simp) (by simp) fun k hk => ?_).congr
      fun x _ => ?_
    · rw [List.mem_range'_1] at hk
      exact if_pos (by omega)
    · rcases lt_trichotomy x (n + 1) with hx | rfl | hx
      · rw [if_pos (by omega), Function.update_of_ne (by omega), if_pos (by omega)]
      · simp
      · rw [if_neg (by omega), Function.update_of_ne (by omega), if_neg (by omega)]

/-- The second sweep, over the rows above the last one. -/
theorem Levels.upper {n : ℕ} (h : Levels r len id at') (hn : n < len) :
    Levels r len (fun x => if x < n then len else x)
      ((List.range n).foldl (fun at' i =>
        (List.range' (i + 1) (len - 1 - i)).foldl (GenMC.Matrix2D.absorb i) at') at') := by
  induction n with
  | zero => exact h.congr fun x _ => by simp
  | succ n ih =>
    rw [List.range_succ, List.foldl_append, List.foldl_cons, List.foldl_nil]
    -- row `n` has level `n`, and so also level `n + 1`
    have hstart : Levels r len (Function.update (fun x => if x < n then len else x) n (n + 1))
        ((List.range n).foldl (fun at' i =>
          (List.range' (i + 1) (len - 1 - i)).foldl (GenMC.Matrix2D.absorb i) at') at') := by
      intro x hx j hj
      rw [ih (by omega) x hx j hj]
      by_cases hxn : x = n
      · subst hxn
        simp only [Function.update_self, pathBelow_self, lt_irrefl, if_false]
      · rw [Function.update_of_ne hxn]
    refine (hstart.foldl_absorb (by omega) (fun hmem => ?_) (Function.update_self ..)
      fun k hk => ?_).congr fun x _ => ?_
    · rw [List.mem_range'_1] at hmem
      omega
    · rw [List.mem_range'_1] at hk
      rw [Function.update_of_ne (by omega), if_neg (by omega)]
    · rw [Function.update_idem]
      rcases lt_trichotomy x n with hx | rfl | hx
      · rw [if_pos (by omega), Function.update_of_ne (by omega), if_pos hx]
      · rw [if_pos (by omega), Function.update_self]
        omega
      · rw [if_neg (by omega), Function.update_of_ne (by omega), if_neg (by omega)]

/-! ## Closures -/

/-- **The two sweeps find all paths.** -/
theorem edge_transClosure (i j : ℕ) : m.transClosure.Edge i j ↔ Relation.TransGen m.Edge i j := by
  have hlt : ∀ x y, m.Edge x y → x < m.len := fun _ _ h => h.1
  rcases Nat.eq_zero_or_pos m.len with h0 | hpos
  · refine ⟨?_, fun h => ?_⟩
    · rintro ⟨hi, -⟩
      exact absurd (h0 ▸ show i < m.len from hi) (Nat.not_lt_zero i)
    · obtain ⟨x, hx, -⟩ := Relation.TransGen.head'_iff.1 h
      exact absurd (h0 ▸ hlt i x hx) (Nat.not_lt_zero i)
  have hedges : Levels m.Edge m.len (fun _ => 0) m.at' :=
    fun x hx j hj => ⟨fun h => ⟨hx, hj, h⟩, fun h => h.2.2⟩
  have hlow : Levels m.Edge m.len id _ :=
    (hedges.lower (n := m.len - 1) (by omega)).congr fun x hx => (if_pos (by omega)).symm
  have hup := hlow.upper (n := m.len - 1) (by omega)
  have hall : ∀ x < m.len, ∀ y < m.len,
      (m.transClosure.at' x y = true ↔ Relation.TransGen m.Edge x y) := by
    intro x hx y hy
    rw [← pathBelow_iff_transGen hlt]
    refine (hup x hx y hy).trans ?_
    by_cases hx' : x < m.len - 1
    · simp only [if_pos hx']
    · -- the last row
      simp only [if_neg hx']
      obtain ⟨n, hn⟩ := Nat.exists_eq_succ_of_ne_zero hpos.ne'
      obtain rfl : x = n := by omega
      rw [hn]
      exact pathBelow_self.symm
  refine ⟨?_, fun h => ?_⟩
  · rintro ⟨hi, hj, h⟩
    exact (hall i hi j hj).1 h
  · obtain ⟨x, hx, -⟩ := Relation.TransGen.head'_iff.1 h
    obtain ⟨y, -, hy⟩ := Relation.TransGen.tail'_iff.1 h
    exact ⟨hx.1, hy.2.1, (hall i hx.1 j hy.2.1).2 h⟩

/-- **Adding an edge to a closed matrix** closes it again. -/
theorem edge_addEdgeAndTransitive (hm : ∀ i j k, m.Edge i j → m.Edge j k → m.Edge i k)
    (ha : a < m.len) (hb : b < m.len) (i j : ℕ) :
    (m.addEdgeAndTransitive a b).Edge i j ↔ Relation.TransGen (AddEdge m.Edge a b) i j := by
  have htrans : ∀ x y, Relation.TransGen m.Edge x y ↔ m.Edge x y := fun x y =>
    ⟨fun h => Relation.TransGen.trans_induction_on h id fun _ _ => hm _ _ _, .single⟩
  have hrefl : ∀ x y, Relation.ReflTransGen m.Edge x y ↔ y = x ∨ m.Edge x y := fun x y => by
    rw [Relation.reflTransGen_iff_eq_or_transGen, htrans]
  rw [transGen_addEdge_iff, htrans, hrefl, hrefl]
  refine ⟨?_, fun h => ?_⟩
  · rintro ⟨hi, hj, h⟩
    rcases (at_addEdgeAndTransitive (m := m) (fun _ => hi) j).1 h with h | ⟨h1, h2⟩
    · exact .inl ⟨hi, hj, h⟩
    · exact .inr ⟨h1.imp Eq.symm fun h => ⟨hi, ha, h⟩, h2.imp_right fun h => ⟨hb, hj, h⟩⟩
  · have hij : i < m.len ∧ j < m.len := by
      rcases h with h | ⟨rfl | h1, rfl | h2⟩
      · exact ⟨h.1, h.2.1⟩
      · exact ⟨ha, hb⟩
      · exact ⟨ha, h2.2.1⟩
      · exact ⟨h1.1, hb⟩
      · exact ⟨h1.1, h2.2.1⟩
    refine ⟨hij.1, hij.2, (at_addEdgeAndTransitive (m := m) (fun _ => hij.1) j).2 ?_⟩
    exact h.imp (fun h => h.2.2) fun h =>
      ⟨h.1.imp Eq.symm fun h => h.2.2, h.2.imp_right fun h => h.2.2⟩

/-- **Both closures are exact**, on every matrix and for every pair of elements. -/
theorem closures_exact :
    (∀ (m : Matrix2D) (i j : ℕ), m.transClosure.Edge i j ↔ Relation.TransGen m.Edge i j) ∧
      ∀ (m : Matrix2D) (a b : ℕ), (∀ i j k, m.Edge i j → m.Edge j k → m.Edge i k) →
        a < m.len → b < m.len → ∀ i j,
          (m.addEdgeAndTransitive a b).Edge i j ↔ Relation.TransGen (AddEdge m.Edge a b) i j :=
  ⟨fun _ => edge_transClosure, fun _ _ _ => edge_addEdgeAndTransitive⟩

/-- Closing a cycle: the matrix has the edge from the first of two elements to the second one, and
gets the edge back. -/
theorem closures_exact_cycle :
    ((ofSize 2).addEdge 0 1).len = 2 ∧ ∀ i j,
      (((ofSize 2).addEdge 0 1).addEdgeAndTransitive 1 0).Edge i j ↔
        Relation.TransGen (AddEdge ((ofSize 2).addEdge 0 1).Edge 1 0) i j := by
  have hedge : ∀ i j, ((ofSize 2).addEdge 0 1).Edge i j → i = 0 ∧ j = 1 := by
    rintro i j ⟨-, -, h⟩
    rcases (at_addEdge 0 1 i j).1 h with h | h
    · cases h
    · exact h
  refine ⟨rfl, closures_exact.2 _ 1 0 (fun i j k hij hjk => ?_) (by decide) (by decide)⟩
  exact absurd ((hedge i j hij).2.symm.trans (hedge j k hjk).1) Nat.one_ne_zero

end Matrix2D
end GenMC
