import GenMC.Library.DepthFirst
import Mathlib.Algebra.BigOperators.Group.Finset.Piecewise
import Mathlib.Data.List.Nodup
import Mathlib.Logic.Function.Basic

/-!
# Adjacency lists

A graph with a list of successors for each node.  Besides, it has a matrix `transC` of the edges
and, once `transClosure` has been called, of what can be reached along them; `addEdge` does nothing
if the matrix already has the edge.  The matrix is brought up to date by a depth-first traversal,
which adds to the row of each node the rows of its successors when it leaves the node.

* `dfs` is the traversal, with its visitors.  `dfs_onExit` says that a visitor that only looks at
  the nodes that are left sees them in an order that `DepthFirst.Explores` allows.
* `Inv` relates a graph to the edges that were to be added: each of them is a path along the edges
  that are there, and nothing else is.
* `isIrreflexive_iff_acyclic`: after `transClosure`, cycles are found, and without cycles the matrix
  is the reachability relation of all edges added so far.
-/

set_option autoImplicit false

namespace GenMC

open Relation

/-- The status of a node during a traversal. -/
inductive NodeStatus
  | unseen
  | entered
  | left
  deriving DecidableEq, Repr

/-- An adjacency list. -/
structure AdjList (α : Type*) where
  elems : List α
  nodeSucc : ℕ → List ℕ
  inDegree : ℕ → ℤ
  ids : α → Option ℕ
  calculatedTransC : Bool
  transC : ℕ → ℕ → Bool

namespace AdjList

variable {α σ : Type*}

/-! ## Building a graph -/

/-- A graph without edges. -/
def ofElems [DecidableEq α] (es : List α) : AdjList α where
  elems := es
  nodeSucc := fun _ => []
  inDegree := fun _ => 0
  ids := es.zipIdx.foldl (fun ids p => Function.update ids p.1 (some p.2)) fun _ => none
  calculatedTransC := false
  transC := fun _ _ => false

/-- The index of an element that is in the graph. -/
def getIndex (l : AdjList α) (el : α) : Option ℕ := l.ids el

def size (l : AdjList α) : ℕ := l.elems.length

/-- `addEdge` for nodes with known indices. -/
def addEdgeIds (l : AdjList α) (a b : ℕ) : AdjList α :=
  if l.transC a b then l
  else
    { l with
      nodeSucc := Function.update l.nodeSucc a (l.nodeSucc a ++ [b])
      transC := Function.update l.transC a (Function.update (l.transC a) b true)
      inDegree := Function.update l.inDegree b (l.inDegree b + 1)
      calculatedTransC := false }

/-- Fails if one of the elements is not in the graph. -/
def addEdge (l : AdjList α) (a b : α) : Option (AdjList α) :=
  (l.getIndex a).bind fun i => (l.getIndex b).map fun j => l.addEdgeIds i j

/-- `operator()`. -/
def hasEdge (l : AdjList α) (a b : α) : Option Bool :=
  (l.getIndex a).bind fun i => (l.getIndex b).map fun j => l.transC i j

/-! ## Traversals -/

/-- What a traversal knows: the time, and status, parent, first and last visit of each node. -/
structure DfsState where
  t : ℕ
  m : ℕ → NodeStatus
  p : ℕ → ℕ
  d : ℕ → ℕ
  f : ℕ → ℕ

/-- What is called during a traversal. -/
structure Visitor (σ : Type*) where
  atEntryV : ℕ → DfsState → σ → σ
  atTreeE : ℕ → ℕ → DfsState → σ → σ
  atBackE : ℕ → ℕ → DfsState → σ → σ
  atForwE : ℕ → ℕ → DfsState → σ → σ
  atExitV : ℕ → DfsState → σ → σ
  atEnd : DfsState → σ → σ

/-- One successor of a node. -/
def dfsEdge (V : Visitor σ) (call : ℕ → DfsState × σ → DfsState × σ) (i : ℕ) (c : DfsState × σ)
    (j : ℕ) : DfsState × σ :=
  match c.1.m j with
  | .unseen =>
    let c' := call j ({ c.1 with p := Function.update c.1.p j i }, c.2)
    (c'.1, V.atTreeE i j c'.1 c'.2)
  | .entered => (c.1, V.atBackE i j c.1 c.2)
  | .left => (c.1, V.atForwE i j c.1 c.2)

/-- Visits a node and what can be seen from it.  The fuel bounds the depth of the recursion. -/
def dfsUtil (l : AdjList α) (V : Visitor σ) : ℕ → ℕ → DfsState × σ → DfsState × σ
  | 0, _, c => c
  | fuel + 1, i, c =>
    let s : DfsState :=
      { c.1 with
        m := Function.update c.1.m i .entered
        t := c.1.t + 1
        d := Function.update c.1.d i (c.1.t + 1) }
    let c' := (l.nodeSucc i).foldl (dfsEdge V (dfsUtil l V fuel) i) (s, V.atEntryV i s c.2)
    let s' : DfsState :=
      { c'.1 with
        m := Function.update c'.1.m i .left
        t := c'.1.t + 1
        f := Function.update c'.1.f i (c'.1.t + 1) }
    (s', V.atExitV i s' c'.2)

/-- Nothing has been visited yet.  The parent of a node is `-42`, for an unsigned number. -/
def freshDfs : DfsState where
  t := 0
  m := fun _ => .unseen
  p := fun _ => 2 ^ 32 - 42
  d := fun _ => 0
  f := fun _ => 0

/-- Visits all nodes.  No path of nodes that are all different is longer than the graph. -/
def dfs (l : AdjList α) (V : Visitor σ) (x : σ) : σ :=
  let c := (List.range l.size).foldl
    (fun c i => if c.1.m i = .unseen then l.dfsUtil V l.size i c else c) (freshDfs, x)
  V.atEnd c.1 c.2

/-- A visitor that is only interested in the nodes that are left. -/
def onExit (g : ℕ → σ → σ) : Visitor σ where
  atEntryV _ _ x := x
  atTreeE _ _ _ x := x
  atBackE _ _ _ x := x
  atForwE _ _ _ x := x
  atExitV i _ x := g i x
  atEnd _ x := x

/-! ## The closure -/

/-- Adds to the row of a node its successors and their rows. -/
def closeNode (l : AdjList α) (i : ℕ) (transC : ℕ → ℕ → Bool) : ℕ → ℕ → Bool :=
  (l.nodeSucc i).foldl
    (fun T j => Function.update T i fun k => (T i k || T j k) || decide (j = k)) transC

def transClosure (l : AdjList α) : AdjList α :=
  if l.calculatedTransC then l
  else { l with transC := l.dfs (onExit l.closeNode) l.transC, calculatedTransC := true }

def isIrreflexive (l : AdjList α) : Bool := (List.range l.size).all fun i => !l.transC i i

/-! ## What a traversal does -/

/-- The nodes of `S` are entered, and those of `E` left. -/
structure Describes (S E : List ℕ) (s : DfsState) : Prop where
  entered : ∀ x, s.m x = .entered ↔ x ∈ S
  left : ∀ x, s.m x = .left ↔ x ∈ E

/-- The nodes that are entered, in a graph with `n` nodes; there is fuel enough for the others. -/
structure Stack (n fuel : ℕ) (S : List ℕ) : Prop where
  nodup : S.Nodup
  lt : ∀ x ∈ S, x < n
  fuel : n ≤ fuel + S.length

variable {l : AdjList α} {n fuel : ℕ} {S E : List ℕ} {s : DfsState} {g : ℕ → σ → σ} {x₀ : σ}

theorem Describes.unseen (h : Describes S E s) (x : ℕ) : s.m x = .unseen ↔ x ∉ S ∧ x ∉ E := by
  rw [← h.entered, ← h.left]
  cases s.m x <;> simp

/-- The stack has room for a node that is not entered. -/
theorem Stack.push (h : Stack n fuel S) {i : ℕ} (hi : i ∉ S) (hin : i < n) :
    ∃ fuel', fuel = fuel' + 1 ∧ Stack n fuel' (i :: S) := by
  have hnd : (i :: S).Nodup := List.nodup_cons.2 ⟨hi, h.nodup⟩
  have hlt : ∀ x ∈ i :: S, x < n := List.forall_mem_cons.2 ⟨hin, h.lt⟩
  have hlen : (i :: S).length ≤ (List.range n).length :=
    (List.subperm_of_subset hnd fun x hx => List.mem_range.2 (hlt x hx)).length_le
  have hfuel := h.fuel
  rw [List.length_range, List.length_cons] at hlen
  obtain ⟨fuel', rfl⟩ := Nat.exists_eq_add_of_lt (show 0 < fuel by omega)
  exact ⟨fuel', by omega, hnd, hlt, by rw [List.length_cons]; omega⟩

/-- The nodes that a visitor has been shown. -/
def shown (g : ℕ → σ → σ) (x₀ : σ) (E : List ℕ) : σ := E.foldl (fun x i => g i x) x₀

/-- The call is a traversal from a node. -/
def Traverses (l : AdjList α) (g : ℕ → σ → σ) (x₀ : σ) (S E : List ℕ) (js : List ℕ)
    (c : DfsState × σ) : Prop :=
  ∃ E', DepthFirst.Explores l.nodeSucc S E js E' ∧ Describes S E' c.1 ∧ c.2 = shown g x₀ E'

/-- Going over the successors of a node. -/
theorem traverses_foldl (x₀ : σ) (call : ℕ → DfsState × σ → DfsState × σ)
    (step : DfsState × σ → ℕ → DfsState × σ)
    (hcall : ∀ E s i, Describes S E s → i ∉ S → i ∉ E → i < n →
      Traverses l g x₀ S E [i] (call i (s, shown g x₀ E)))
    (hstep : ∀ s x j, s.m j ≠ .unseen → step (s, x) j = (s, x))
    (hnew : ∀ s x j, s.m j = .unseen → ∃ s', s'.m = s.m ∧ step (s, x) j = call j (s', x))
    {js : List ℕ} (hjs : ∀ j ∈ js, j < n) (h : Describes S E s) :
    Traverses l g x₀ S E js (js.foldl step (s, shown g x₀ E)) := by
  induction js generalizing E s with
  | nil => exact ⟨E, .nil, h, rfl⟩
  | cons j js ih =>
    have hjs' : ∀ j ∈ js, j < n := fun j hj => hjs j (List.mem_cons_of_mem _ hj)
    rw [List.foldl_cons]
    by_cases hj : s.m j = .unseen
    · obtain ⟨hS, hE⟩ := (h.unseen j).1 hj
      obtain ⟨s', hs', heq⟩ := hnew s (shown g x₀ E) j hj
      have h' : Describes S E s' := ⟨fun x => hs' ▸ h.entered x, fun x => hs' ▸ h.left x⟩
      obtain ⟨E₁, hE₁, hd₁, hx₁⟩ := hcall E s' j h' hS hE (hjs j List.mem_cons_self)
      rw [heq]
      generalize hc : call j (s', shown g x₀ E) = c at hd₁ hx₁
      obtain ⟨s₁, x₁⟩ := c
      simp only at hd₁ hx₁
      subst hx₁
      obtain ⟨E', hE', hd', hx'⟩ := ih hjs' hd₁
      refine ⟨E', ?_, hd', hx'⟩
      cases hE₁ with
      | seen h _ => exact absurd h (not_or.2 ⟨hS, hE⟩)
      | visit _ _ inner rest =>
        cases rest with
        | nil => exact .visit hS hE inner hE'
    · rw [hstep s _ j hj]
      obtain ⟨E', hE', hd', hx'⟩ := ih hjs' h
      have hmem : j ∈ S ∨ j ∈ E := by
        by_contra hnot
        exact hj ((h.unseen j).2 (not_or.1 hnot))
      exact ⟨E', .seen hmem hE', hd', hx'⟩

/-- **A call of `dfsUtil` is a traversal from a node.** -/
theorem traverses_dfsUtil (hn : ∀ i j, j ∈ l.nodeSucc i → j < n) (hS : Stack n fuel S)
    (h : Describes S E s) {i : ℕ} (hiS : i ∉ S) (hiE : i ∉ E) (hin : i < n) :
    Traverses l g x₀ S E [i] (l.dfsUtil (onExit g) fuel i (s, shown g x₀ E)) := by
  induction fuel generalizing S E s i with
  | zero =>
    obtain ⟨_, hfuel, -⟩ := hS.push hiS hin
    exact absurd hfuel (Nat.succ_ne_zero _).symm
  | succ fuel ih =>
    obtain ⟨fuel', hfuel, hpush⟩ := hS.push hiS hin
    obtain rfl : fuel = fuel' := Nat.succ_injective hfuel
    set s₀ : DfsState :=
      { s with m := Function.update s.m i .entered, t := s.t + 1,
               d := Function.update s.d i (s.t + 1) }
      with hs₀
    have h₀ : Describes (i :: S) E s₀ := by
      refine ⟨fun x => ?_, fun x => ?_⟩
      · by_cases hx : x = i
        · subst hx
          simp [hs₀]
        · simp [hs₀, hx, h.entered]
      · by_cases hx : x = i
        · subst hx
          simp [hs₀, hiE]
        · simp [hs₀, hx, h.left]
    obtain ⟨E₁, hE₁, hd₁, hx₁⟩ := traverses_foldl (l := l) (g := g) (n := n) x₀
      (l.dfsUtil (onExit g) fuel) (dfsEdge (onExit g) (l.dfsUtil (onExit g) fuel) i)
      (fun E s j hd hjS hjE hj => ih hpush hd hjS hjE hj)
      (fun s x j hj => by
        rw [dfsEdge]
        cases hm : s.m j with
        | unseen => exact absurd hm hj
        | entered => rfl
        | left => rfl)
      (fun s x j hj => ⟨{ s with p := Function.update s.p j i }, rfl, by
        rw [dfsEdge, hj]
        rfl⟩)
      (fun j hj => hn i j hj) h₀
    set c' := (l.nodeSucc i).foldl (dfsEdge (onExit g) (l.dfsUtil (onExit g) fuel) i)
      (s₀, shown g x₀ E)
    refine ⟨E₁ ++ [i], .visit hiS hiE hE₁ .nil, ⟨fun x => ?_, fun x => ?_⟩, ?_⟩
    · show Function.update c'.1.m i .left x = .entered ↔ x ∈ S
      by_cases hx : x = i
      · subst hx
        simp [hiS]
      · rw [Function.update_of_ne hx, hd₁.entered, List.mem_cons]
        exact or_iff_right hx
    · show Function.update c'.1.m i .left x = .left ↔ x ∈ E₁ ++ [i]
      by_cases hx : x = i
      · subst hx
        simp
      · rw [Function.update_of_ne hx, hd₁.left]
        simp [hx]
    · show g i c'.2 = shown g x₀ (E₁ ++ [i])
      rw [shown, List.foldl_append]
      exact congrArg (g i) hx₁

/-- **A visitor sees the nodes in an order in which a traversal leaves them.** -/
theorem dfs_onExit (hn : ∀ i j, j ∈ l.nodeSucc i → j < l.size) (x₀ : σ) :
    ∃ L, DepthFirst.Explored l.nodeSucc [] [] (List.range l.size) L ∧
      l.dfs (onExit g) x₀ = shown g x₀ L := by
  have hfresh : Describes [] [] freshDfs := by
    refine ⟨fun x => ?_, fun x => ?_⟩ <;> simp [freshDfs]
  have hstack : Stack l.size l.size [] := ⟨List.nodup_nil, by simp, le_rfl⟩
  obtain ⟨L, hL, -, hx⟩ := traverses_foldl (l := l) (g := g) (n := l.size) x₀
    (l.dfsUtil (onExit g) l.size)
    (fun c i => if c.1.m i = .unseen then l.dfsUtil (onExit g) l.size i c else c)
    (fun E s i hd hiS hiE hi => traverses_dfsUtil hn hstack hd hiS hiE hi)
    (fun s x j hj => if_neg hj) (fun s x j hj => ⟨s, rfl, if_pos hj⟩)
    (fun j hj => List.mem_range.1 hj) hfresh
  obtain ⟨new, hL, hnew⟩ := hL.explored
  rw [List.nil_append] at hL
  exact ⟨new, hnew, hL ▸ hx⟩

/-! ## What the closure amounts to -/

/-- The edges between the nodes. -/
def Edge (l : AdjList α) (i j : ℕ) : Prop := j ∈ l.nodeSucc i

theorem closeNode_iff (l : AdjList α) (i : ℕ) (T : ℕ → ℕ → Bool) (x k : ℕ) :
    l.closeNode i T x k = true ↔
      DepthFirst.closeRow l.nodeSucc (fun x k => T x k = true) i x k := by
  rw [closeNode, DepthFirst.closeRow]
  induction l.nodeSucc i generalizing T with
  | nil => simp
  | cons j js ih =>
    rw [List.foldl_cons, ih]
    by_cases hx : x = i
    · subst hx
      simp only [Function.update_self, Bool.or_eq_true, decide_eq_true_eq, true_and,
        List.mem_cons, exists_eq_or_imp]
      refine ⟨?_, ?_⟩
      · rintro (((h | h) | h) | ⟨j', hj', h⟩)
        · exact .inl h
        · exact .inr (.inl (.inl h))
        · exact .inr (.inl (.inr h))
        · by_cases hxj : j' = x
          · subst hxj
            simp only [Function.update_self, Bool.or_eq_true, decide_eq_true_eq] at h
            rcases h with ((h | h) | h) | h
            · exact .inl h
            · exact .inr (.inl (.inl h))
            · exact .inr (.inl (.inr h))
            · exact .inr (.inr ⟨j', hj', .inr h⟩)
          · rw [Function.update_of_ne hxj] at h
            exact .inr (.inr ⟨j', hj', h⟩)
      · rintro (h | (h | h) | ⟨j', hj', h⟩)
        · exact .inl (.inl (.inl h))
        · exact .inl (.inl (.inr h))
        · exact .inl (.inr h)
        · refine .inr ⟨j', hj', h.imp_left fun h => ?_⟩
          by_cases hxj : j' = x
          · subst hxj
            simp [h]
          · rwa [Function.update_of_ne hxj]
    · simp [hx]

theorem shown_closeNode_iff {L : List ℕ} {T : ℕ → ℕ → Bool} {x k : ℕ} :
    shown l.closeNode T L x k = true ↔
      L.foldl (DepthFirst.closeRow l.nodeSucc) (fun x k => T x k = true) x k := by
  rw [shown]
  induction L generalizing T with
  | nil => rfl
  | cons i L ih =>
    rw [List.foldl_cons, List.foldl_cons, ih]
    simp only [closeNode_iff]

/-- The matrix finds cycles, and without cycles it is the reachability relation. -/
def Closed (l : AdjList α) : Prop :=
  (l.isIrreflexive = true ↔ Acyclic l.Edge) ∧
    (Acyclic l.Edge → ∀ i j, l.transC i j = true ↔ TransGen l.Edge i j)

theorem isIrreflexive_iff :
    l.isIrreflexive = true ↔ ∀ i ∈ List.range l.size, ¬ l.transC i i = true := by
  simp [isIrreflexive, List.all_eq_true]

/-- The closure keeps the edges. -/
@[simp] theorem edge_transClosure (l : AdjList α) : l.transClosure.Edge = l.Edge := by
  rw [transClosure]
  split <;> rfl

/-- **The traversal closes the matrix**, if it was sound before. -/
theorem closed_transClosure (hn : ∀ i j, j ∈ l.nodeSucc i → i < l.size ∧ j < l.size)
    (hsound : ∀ i j, l.transC i j = true → TransGen l.Edge i j)
    (hcalc : l.calculatedTransC = true → l.Closed) : l.transClosure.Closed := by
  rw [transClosure]
  split
  · rename_i h
    exact hcalc h
  · obtain ⟨L, hL, hdfs⟩ := dfs_onExit (g := l.closeNode) (fun i j h => (hn i j h).2) l.transC
    have hcloses := hL.closes_iff (T := fun x k => l.transC x k = true)
      (fun a b hab => List.mem_range.2 (hn a b hab).1) hsound
    simp only [← shown_closeNode_iff, ← hdfs] at hcloses
    exact ⟨isIrreflexive_iff.trans hcloses.1, hcloses.2⟩

/-- The closure stays sound. -/
theorem sound_transClosure (hn : ∀ i j, j ∈ l.nodeSucc i → i < l.size ∧ j < l.size)
    (hsound : ∀ i j, l.transC i j = true → TransGen l.Edge i j) {i j : ℕ}
    (h : l.transClosure.transC i j = true) : TransGen l.Edge i j := by
  rw [transClosure] at h
  split at h
  · exact hsound i j h
  · obtain ⟨L, -, hdfs⟩ := dfs_onExit (g := l.closeNode) (fun i j h => (hn i j h).2) l.transC
    rw [hdfs, shown_closeNode_iff] at h
    exact DepthFirst.transGen_of_closeRow hsound h

/-! ## Graphs that have been built -/

/-- A graph over some elements, and the edges that were to be added to it. -/
inductive Built [DecidableEq α] (es : List α) : List (α × α) → AdjList α → Prop
  | ofElems : Built es [] (ofElems es)
  | addEdge {E : List (α × α)} {l l' : AdjList α} {a b : α} (h : Built es E l)
      (hadd : l.addEdge a b = some l') : Built es (E ++ [(a, b)]) l'
  | transClosure {E : List (α × α)} {l : AdjList α} (h : Built es E l) : Built es E l.transClosure

/-- The elements have their indices, edges lead to nodes, and the degrees count them. -/
structure Wf (l : AdjList α) : Prop where
  nodup : l.elems.Nodup
  ids : ∀ a i, l.getIndex a = some i ↔ l.elems[i]? = some a
  succ : ∀ i j, j ∈ l.nodeSucc i → i < l.size ∧ j < l.size
  inDegree : ∀ j, l.inDegree j = ∑ i ∈ Finset.range l.size, ((l.nodeSucc i).count j : ℤ)

/-- The edges that were to be added are paths along the edges that are there. -/
structure Inv (es : List α) (E : List (α × α)) (l : AdjList α) : Prop extends Wf l where
  elems : l.elems = es
  sound : ∀ i j, l.transC i j = true → TransGen l.Edge i j
  calculated : l.calculatedTransC = true → l.Closed
  added : ∀ i j, l.Edge i j → ∃ a b, es[i]? = some a ∧ es[j]? = some b ∧ (a, b) ∈ E
  path : ∀ a b, (a, b) ∈ E → ∃ i j, es[i]? = some a ∧ es[j]? = some b ∧ TransGen l.Edge i j

theorem ids_foldl [DecidableEq α] {es : List α} (hes : es.Nodup) (n : ℕ) (ids : α → Option ℕ)
    (a : α) :
    (es.zipIdx n).foldl (fun (ids : α → Option ℕ) p => Function.update ids p.1 (some p.2)) ids a =
      if a ∈ es then some (n + es.idxOf a) else ids a := by
  induction es generalizing n ids with
  | nil => rfl
  | cons e es ih =>
    obtain ⟨he, hes⟩ := List.nodup_cons.1 hes
    rw [List.zipIdx_cons, List.foldl_cons, ih hes]
    by_cases hae : a = e
    · subst hae
      simp [he]
    · by_cases hmem : a ∈ es
      · rw [if_pos hmem, if_pos (List.mem_cons_of_mem _ hmem),
          List.idxOf_cons_ne _ (Ne.symm hae)]
        congr 1
        omega
      · simp [hmem, hae]

theorem inv_ofElems [DecidableEq α] {es : List α} (hes : es.Nodup) : Inv es [] (ofElems es) where
  nodup := hes
  ids a i := by
    rw [getIndex, ofElems]
    simp only [ids_foldl hes, Nat.zero_add]
    refine ⟨fun h => ?_, fun h => ?_⟩
    · split at h
      · rename_i hmem
        obtain rfl := Option.some.inj h
        exact List.getElem?_idxOf hmem
      · cases h
    · have hmem := List.mem_of_getElem? h
      obtain ⟨hi, rfl⟩ := List.getElem?_eq_some_iff.1 h
      rw [if_pos hmem, hes.idxOf_getElem]
  succ _ _ h := absurd h List.not_mem_nil
  inDegree _ := by simp [ofElems]
  elems := rfl
  sound _ _ h := by cases h
  calculated h := by cases h
  added _ _ h := absurd h List.not_mem_nil
  path _ _ h := absurd h List.not_mem_nil

section Inv

variable {es : List α} {E : List (α × α)} {i j : ℕ}

theorem Inv.transClosure (h : Inv es E l) : Inv es E l.transClosure := by
  have hcases : ∀ {P : AdjList α → Prop}, P l →
      (∀ T, P { l with transC := T, calculatedTransC := true }) → P l.transClosure := by
    intro P h1 h2
    rw [AdjList.transClosure]
    split
    · exact h1
    · exact h2 _
  refine
    { nodup := hcases (P := fun l => l.elems.Nodup) h.nodup fun _ => h.nodup
      ids := hcases (P := fun l => ∀ a i, l.getIndex a = some i ↔ l.elems[i]? = some a) h.ids
        fun _ => h.ids
      succ := hcases (P := fun l => ∀ i j, j ∈ l.nodeSucc i → i < l.size ∧ j < l.size) h.succ
        fun _ => h.succ
      inDegree := hcases (P := fun l => ∀ j, l.inDegree j =
        ∑ i ∈ Finset.range l.size, ((l.nodeSucc i).count j : ℤ)) h.inDegree fun _ => h.inDegree
      elems := hcases (P := fun l => l.elems = es) h.elems fun _ => h.elems
      sound := fun i j hij => ?_
      calculated := fun _ => closed_transClosure h.succ h.sound h.calculated
      added := fun i j hij => h.added i j ((edge_transClosure l) ▸ hij)
      path := fun a b hab => (edge_transClosure l).symm ▸ h.path a b hab }
  rw [edge_transClosure]
  exact sound_transClosure h.succ h.sound hij

/-- A new edge between nodes. -/
theorem edge_addEdgeIds (h : l.transC i j = false) :
    (l.addEdgeIds i j).Edge = AddEdge l.Edge i j := by
  funext x y
  rw [Edge, addEdgeIds, h]
  show (y ∈ Function.update l.nodeSucc i (l.nodeSucc i ++ [j]) x) = AddEdge l.Edge i j x y
  by_cases hx : x = i
  · subst hx
    simp [AddEdge, Edge]
  · simp [AddEdge, Edge, hx]

theorem Wf.addEdgeIds (h : Wf l) (hi : i < l.size) (hj : j < l.size) : Wf (l.addEdgeIds i j) := by
  cases ht : l.transC i j with
  | true => rwa [AdjList.addEdgeIds, if_pos ht]
  | false =>
    have hedge := edge_addEdgeIds ht
    have heq : l.addEdgeIds i j =
        { l with
          nodeSucc := Function.update l.nodeSucc i (l.nodeSucc i ++ [j])
          transC := Function.update l.transC i (Function.update (l.transC i) j true)
          inDegree := Function.update l.inDegree j (l.inDegree j + 1)
          calculatedTransC := false } := by
      rw [AdjList.addEdgeIds, ht]
      rfl
    refine ⟨by rw [heq]; exact h.nodup, by rw [heq]; exact h.ids, fun x y hxy => ?_, fun y => ?_⟩
    · have hsize : (l.addEdgeIds i j).size = l.size := by rw [heq]; rfl
      rw [hsize]
      rcases (congrFun (congrFun hedge x) y).mp hxy with hxy | ⟨rfl, rfl⟩
      · exact h.succ x y hxy
      · exact ⟨hi, hj⟩
    · -- one node has one more successor
      have hcount : ∀ x, ((Function.update l.nodeSucc i (l.nodeSucc i ++ [j]) x).count y : ℤ) =
          (l.nodeSucc x).count y + if x = i then (if y = j then 1 else 0) else 0 := by
        intro x
        by_cases hx : x = i
        · subst hx
          by_cases hy : y = j
          · subst hy
            simp
          · simp [hy, Ne.symm hy]
        · simp [hx]
      rw [heq]
      show Function.update l.inDegree j (l.inDegree j + 1) y = ∑ x ∈ Finset.range l.size, _
      rw [Finset.sum_congr rfl fun x _ => hcount x, Finset.sum_add_distrib, Finset.sum_ite_eq',
        if_pos (Finset.mem_range.2 hi), ← h.inDegree]
      by_cases hy : y = j
      · subst hy
        simp
      · simp [hy]

theorem Inv.addEdge (h : Inv es E l) {l' : AdjList α} {a b : α} (hadd : l.addEdge a b = some l') :
    Inv es (E ++ [(a, b)]) l' := by
  obtain ⟨i, hi, hadd⟩ := Option.bind_eq_some_iff.1 hadd
  obtain ⟨j, hj, rfl⟩ := Option.map_eq_some_iff.1 hadd
  rw [h.ids, h.elems] at hi hj
  have hlt : ∀ {x k}, es[k]? = some x → k < l.size := fun {x k} hk => by
    rw [size, h.elems]
    exact (List.getElem?_eq_some_iff.1 hk).1
  have hmem : ∀ {x y}, l.Edge x y →
      ∃ a' b', es[x]? = some a' ∧ es[y]? = some b' ∧ (a', b') ∈ E ++ [(a, b)] := by
    intro x y hxy
    obtain ⟨a', b', ha', hb', hmem⟩ := h.added x y hxy
    exact ⟨a', b', ha', hb', List.mem_append_left _ hmem⟩
  cases ht : l.transC i j with
  | true =>
    -- the edge is left out, since there is a path already
    rw [AdjList.addEdgeIds, if_pos ht]
    refine { h with added := fun x y => hmem, path := fun a' b' hab => ?_ }
    rcases List.mem_append.1 hab with hab | hab
    · exact h.path a' b' hab
    · obtain ⟨rfl, rfl⟩ := Prod.mk.inj (List.mem_singleton.1 hab)
      exact ⟨i, j, hi, hj, h.sound i j ht⟩
  | false =>
    have hedge := edge_addEdgeIds ht
    have hmono : ∀ {x y}, TransGen l.Edge x y → TransGen (AddEdge l.Edge i j) x y :=
      fun {x y} hxy => TransGen.mono (fun _ _ => Or.inl) x y hxy
    have helems : (l.addEdgeIds i j).elems = l.elems ∧
        (l.addEdgeIds i j).calculatedTransC = false ∧ (l.addEdgeIds i j).transC =
          Function.update l.transC i (Function.update (l.transC i) j true) := by
      rw [AdjList.addEdgeIds, ht]
      exact ⟨rfl, rfl, rfl⟩
    refine
      { h.toWf.addEdgeIds (hlt hi) (hlt hj) with
        elems := helems.1.trans h.elems
        sound := fun x y hxy => ?_
        calculated := fun hcalc => absurd (helems.2.1.symm.trans hcalc) Bool.false_ne_true
        added := fun x y hxy => ?_
        path := fun a' b' hab => ?_ }
    · rw [hedge]
      rw [helems.2.2] at hxy
      by_cases hx : x = i
      · subst hx
        by_cases hy : y = j
        · subst hy
          exact .single (.inr ⟨rfl, rfl⟩)
        · rw [Function.update_self, Function.update_of_ne hy] at hxy
          exact hmono (h.sound x y hxy)
      · rw [Function.update_of_ne hx] at hxy
        exact hmono (h.sound x y hxy)
    · rw [hedge] at hxy
      rcases hxy with hxy | ⟨rfl, rfl⟩
      · exact hmem hxy
      · exact ⟨a, b, hi, hj, by simp⟩
    · rw [hedge]
      rcases List.mem_append.1 hab with hab | hab
      · obtain ⟨x, y, hx, hy, hxy⟩ := h.path a' b' hab
        exact ⟨x, y, hx, hy, hmono hxy⟩
      · obtain ⟨rfl, rfl⟩ := Prod.mk.inj (List.mem_singleton.1 hab)
        exact ⟨i, j, hi, hj, .single (.inr ⟨rfl, rfl⟩)⟩

theorem inv_of_built [DecidableEq α] (hes : es.Nodup) (h : Built es E l) : Inv es E l := by
  induction h with
  | ofElems => exact inv_ofElems hes
  | addEdge _ hadd ih => exact ih.addEdge hadd
  | transClosure _ ih => exact ih.transClosure

/-! ## Cycles of the edges that were added -/

/-- Paths along the edges that are there are paths along those that were to be added. -/
theorem Inv.transGen_iff (h : Inv es E l) {a b : α} (hi : es[i]? = some a) (hj : es[j]? = some b) :
    TransGen l.Edge i j ↔ TransGen (fun a b => (a, b) ∈ E) a b := by
  refine ⟨fun hij => ?_, ?_⟩
  · induction hij generalizing b with
    | single hij =>
      obtain ⟨a', b', ha', hb', hmem⟩ := h.added _ _ hij
      obtain rfl := Option.some.inj (hi.symm.trans ha')
      obtain rfl := Option.some.inj (hj.symm.trans hb')
      exact .single hmem
    | tail _ hkj ih =>
      obtain ⟨c, b', hc, hb', hmem⟩ := h.added _ _ hkj
      obtain rfl := Option.some.inj (hj.symm.trans hb')
      exact (ih hc).tail hmem
  · have huniq : ∀ {x y c}, es[x]? = some c → es[y]? = some c → x = y := fun {x y c} hx hy => by
      have hnd := h.nodup
      rw [h.elems] at hnd
      exact (List.getElem?_inj (List.getElem?_eq_some_iff.1 hx).1 hnd).1 (hx.trans hy.symm)
    intro hab
    induction hab generalizing j with
    | single hab =>
      obtain ⟨x, y, hx, hy, hxy⟩ := h.path _ _ hab
      rwa [huniq hi hx, huniq hj hy]
    | tail _ hcb ih =>
      obtain ⟨x, y, hx, hy, hxy⟩ := h.path _ _ hcb
      rw [huniq hj hy]
      exact (ih hx).trans hxy

theorem Inv.acyclic_iff (h : Inv es E l) : Acyclic l.Edge ↔ Acyclic fun a b => (a, b) ∈ E := by
  refine ⟨fun hac a ha => ?_, fun hac i hi => ?_⟩
  · obtain ⟨c, hc, -⟩ := TransGen.head'_iff.1 ha
    obtain ⟨x, -, hx, -⟩ := h.path a c hc
    exact hac x ((h.transGen_iff hx hx).2 ha)
  · obtain ⟨k, hk, -⟩ := TransGen.head'_iff.1 hi
    obtain ⟨a, -, ha, -⟩ := h.added i k hk
    exact hac a ((h.transGen_iff ha ha).1 hi)

theorem Inv.hasEdge (h : Inv es E l) {a b : α} (hi : es[i]? = some a) (hj : es[j]? = some b) :
    l.hasEdge a b = some (l.transC i j) := by
  rw [← h.elems] at hi hj
  rw [AdjList.hasEdge, (h.ids a i).2 hi, (h.ids b j).2 hj]
  rfl

end Inv

/-- **Cycles are detected exactly**, and without cycles the matrix is the reachability relation,
after the last of any sequence of additions and closures. -/
theorem isIrreflexive_iff_acyclic [DecidableEq α] (es : List α) (hes : es.Nodup)
    (E : List (α × α)) (l : AdjList α) (h : Built es E l) :
    (l.transClosure.isIrreflexive = true ↔ Acyclic fun a b => (a, b) ∈ E) ∧
      ((Acyclic fun a b => (a, b) ∈ E) → ∀ a ∈ es, ∀ b ∈ es, ∃ c,
        l.transClosure.hasEdge a b = some c ∧
          (c = true ↔ TransGen (fun a b => (a, b) ∈ E) a b)) := by
  have hinv := inv_of_built hes h.transClosure
  have hclosed : l.transClosure.Closed :=
    closed_transClosure (inv_of_built hes h).succ (inv_of_built hes h).sound
      (inv_of_built hes h).calculated
  refine ⟨hclosed.1.trans hinv.acyclic_iff, fun hac a ha b hb => ?_⟩
  obtain ⟨i, hi⟩ := List.mem_iff_getElem?.1 ha
  obtain ⟨j, hj⟩ := List.mem_iff_getElem?.1 hb
  exact ⟨_, hinv.hasEdge hi hj,
    (hclosed.2 (hinv.acyclic_iff.2 hac) i j).trans (hinv.transGen_iff hi hj)⟩

/-- Three elements in a ring, with an edge that is left out because it is implied. -/
def ring : AdjList ℕ :=
  (((((ofElems [5, 6, 7]).addEdgeIds 0 1).addEdgeIds 1 2).transClosure).addEdgeIds 0 2).addEdgeIds
    2 0

theorem ring_built : Built [5, 6, 7] [(5, 6), (6, 7), (5, 7), (7, 5)] ring :=
  .addEdge (a := 7) (b := 5) (.addEdge (a := 5) (b := 7) (.transClosure
    (.addEdge (a := 6) (b := 7) (.addEdge (a := 5) (b := 6) .ofElems rfl) rfl)) rfl) rfl

theorem ring_isIrreflexive_iff :
    (ring.transClosure.isIrreflexive = true ↔
      Acyclic fun a b => (a, b) ∈ [(5, 6), (6, 7), (5, 7), (7, 5)]) ∧
    ((Acyclic fun a b => (a, b) ∈ [(5, 6), (6, 7), (5, 7), (7, 5)]) →
      ∀ a ∈ [5, 6, 7], ∀ b ∈ [5, 6, 7], ∃ c, ring.transClosure.hasEdge a b = some c ∧
        (c = true ↔ TransGen (fun a b => (a, b) ∈ [(5, 6), (6, 7), (5, 7), (7, 5)]) a b)) :=
  isIrreflexive_iff_acyclic [5, 6, 7] (by decide) [(5, 6), (6, 7), (5, 7), (7, 5)] ring ring_built

end AdjList
end GenMC
