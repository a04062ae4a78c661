import GenMC.ADT.AdjList

/-!
# Growing an adjacency list

The rows of the matrix of an adjacency list are bit vectors.  A list that is built at once has rows
that are as long as there are nodes.  A list can also grow: `addNode` adds a row for the new node
that is as long as there were nodes *before*, and leaves the other rows as they are.  A row gets
longer only when a longer one is added to it.  Here every access to a row is checked.

* `grows_iff`: **the accesses of a sequence of calls are in range if and only if every edge leads
  from a node to one that was added before it**.  Then no row ever gets longer, and the successors
  and in-degrees are those of the list that is built at once.  But `operator()` is in range for
  pairs of a node and an earlier one only.  So lists that have grown by a single node are not like
  lists that are built at once.
* `not_growsAlike_edge`: two nodes, with an edge from the first one to the second one.
-/

set_option autoImplicit false

namespace GenMC

open ListOrder Relation

/-! ## The code -/

/-- The rows of a matrix, each with its size. -/
structure Rows where
  size : ℕ → ℕ
  bit : ℕ → ℕ → Bool

namespace Rows

/-- `operator[]`. -/
def test (T : Rows) (i j : ℕ) : Option Bool := if j < T.size i then some (T.bit i j) else none

def set (T : Rows) (i j : ℕ) : Option Rows :=
  if j < T.size i then
    some { T with bit := Function.update T.bit i (Function.update (T.bit i) j true) }
  else none

/-- `operator|=`, which makes a row at least as long as the one that is added to it. -/
def unite (T : Rows) (i j : ℕ) : Rows where
  size := Function.update T.size i (max (T.size i) (T.size j))
  bit := Function.update T.bit i fun k => T.bit i k || T.bit j k

end Rows

/-- `addNode`, but for the size of the new row. -/
def AdjList.addNode {α : Type*} [DecidableEq α] (l : AdjList α) (a : α) : AdjList α where
  elems := l.elems ++ [a]
  nodeSucc := Function.update l.nodeSucc l.size []
  inDegree := Function.update l.inDegree l.size 0
  ids := Function.update l.ids a (some l.size)
  calculatedTransC := false
  transC := Function.update l.transC l.size fun _ => false

/-- An adjacency list with the sizes of its rows. -/
structure SizedAdjList (α : Type*) extends AdjList α where
  rowSize : ℕ → ℕ

/-- A call that changes an adjacency list. -/
inductive AdjOp (α : Type*)
  | addNode (a : α)
  | addEdge (a b : α)
  | transClosure
  deriving DecidableEq, Repr

namespace SizedAdjList

variable {α : Type*}

def rows (l : SizedAdjList α) : Rows := ⟨l.rowSize, l.transC⟩

/-- The constructor. -/
def ofElems [DecidableEq α] (es : List α) : SizedAdjList α :=
  { AdjList.ofElems es with rowSize := fun _ => es.length }

def addNode [DecidableEq α] (l : SizedAdjList α) (a : α) : SizedAdjList α :=
  { l.toAdjList.addNode a with rowSize := Function.update l.rowSize l.size l.size }

/-- `addEdge` for nodes with known indices. -/
def addEdgeIds (l : SizedAdjList α) (a b : ℕ) : Option (SizedAdjList α) :=
  (l.rows.test a b).bind fun edge =>
    if edge then some l
    else
      (l.rows.set a b).map fun T =>
        { l with
          nodeSucc := Function.update l.nodeSucc a (l.nodeSucc a ++ [b])
          transC := T.bit
          rowSize := T.size
          inDegree := Function.update l.inDegree b (l.inDegree b + 1)
          calculatedTransC := false }

def addEdge (l : SizedAdjList α) (a b : α) : Option (SizedAdjList α) :=
  (l.getIndex a).bind fun i => (l.getIndex b).bind fun j => l.addEdgeIds i j

/-- `operator()`. -/
def hasEdge (l : SizedAdjList α) (a b : α) : Option Bool :=
  (l.getIndex a).bind fun i => (l.getIndex b).bind fun j => l.rows.test i j

/-- Adds to the row of a node the rows of its successors, and the successors. -/
def closeNode (l : SizedAdjList α) (i : ℕ) (T : Option Rows) : Option Rows :=
  T.bind fun T => (l.nodeSucc i).foldlM (fun T j => (T.unite i j).set i j) T

def transClosure (l : SizedAdjList α) : Option (SizedAdjList α) :=
  if l.calculatedTransC then some l
  else
    (l.dfs (AdjList.onExit l.closeNode) (some l.rows)).map fun T =>
      { l with transC := T.bit, rowSize := T.size, calculatedTransC := true }

/-- One call.  `none` is an access that is out of range, or an element that is not in the list. -/
def step [DecidableEq α] (l : SizedAdjList α) : AdjOp α → Option (SizedAdjList α)
  | .addNode a => some (l.addNode a)
  | .addEdge a b => l.addEdge a b
  | .transClosure => l.transClosure

def run [DecidableEq α] (l : SizedAdjList α) (ops : List (AdjOp α)) : Option (SizedAdjList α) :=
  ops.foldlM step l

/-- The elements that are added. -/
def nodes : List (AdjOp α) → List α
  | [] => []
  | .addNode a :: ops => a :: nodes ops
  | _ :: ops => nodes ops

/-- The other calls. -/
def edgeOps : List (AdjOp α) → List (AdjOp α)
  | [] => []
  | .addNode _ :: ops => edgeOps ops
  | op :: ops => op :: edgeOps ops

/-- The list that grows.  It has no elements at first. -/
def grown [DecidableEq α] (ops : List (AdjOp α)) : Option (SizedAdjList α) := run (ofElems []) ops

/-- The list that is built at once. -/
def atOnce [DecidableEq α] (ops : List (AdjOp α)) : Option (SizedAdjList α) :=
  run (ofElems (nodes ops)) (edgeOps ops)

/-! ## Accesses in range -/

section Checked

variable {l : SizedAdjList α} {i j : ℕ}

theorem addEdgeIds_eq (h : j < l.rowSize i) :
    l.addEdgeIds i j = some ⟨l.toAdjList.addEdgeIds i j, l.rowSize⟩ := by
  have htest : l.rows.test i j = some (l.transC i j) := if_pos h
  have hset : l.rows.set i j = some { l.rows with
      bit := Function.update l.transC i (Function.update (l.transC i) j true) } := if_pos h
  rw [addEdgeIds, htest, hset, Option.bind_some, AdjList.addEdgeIds]
  split
  · rfl
  · rfl

theorem addEdgeIds_eq_none (h : ¬ j < l.rowSize i) : l.addEdgeIds i j = none := by
  have htest : l.rows.test i j = none := if_neg h
  rw [addEdgeIds, htest, Option.bind_none]

/-- Edges lead to bits that are there, and to nodes with rows that are not longer. -/
def Fits (l : SizedAdjList α) : Prop :=
  ∀ i, ∀ j ∈ l.nodeSucc i, j < l.rowSize i ∧ l.rowSize j ≤ l.rowSize i

theorem unite_set_eq {size : ℕ → ℕ} (T : ℕ → ℕ → Bool) (hj : j < size i) (hle : size j ≤ size i) :
    (Rows.unite ⟨size, T⟩ i j).set i j =
      some ⟨size, Function.update T i fun k => (T i k || T j k) || decide (j = k)⟩ := by
  have hsize : Function.update size i (max (size i) (size j)) = size := by
    rw [max_eq_left hle, Function.update_eq_self]
  rw [Rows.unite, Rows.set, hsize, if_pos hj]
  dsimp only
  rw [Function.update_idem, Function.update_self]
  congr 3
  funext k
  by_cases hk : k = j
  · subst hk
    simp
  · simp [hk, Ne.symm hk]

/-- No row gets longer. -/
theorem closeNode_eq (h : l.Fits) (i : ℕ) (T : ℕ → ℕ → Bool) :
    l.closeNode i (some ⟨l.rowSize, T⟩) = some ⟨l.rowSize, l.toAdjList.closeNode i T⟩ := by
  have hloop : ∀ (js : List ℕ) (T : ℕ → ℕ → Bool),
      (∀ j ∈ js, j < l.rowSize i ∧ l.rowSize j ≤ l.rowSize i) →
      js.foldlM (fun T j => (T.unite i j).set i j) (⟨l.rowSize, T⟩ : Rows) =
        some ⟨l.rowSize, js.foldl (fun T j =>
          Function.update T i fun k => (T i k || T j k) || decide (j = k)) T⟩ := by
    intro js
    induction js with
    | nil => exact fun _ _ => rfl
    | cons j js ih =>
      intro T hjs
      obtain ⟨hj, hle⟩ := hjs j List.mem_cons_self
      rw [List.foldlM_cons, unite_set_eq T hj hle, Option.bind_eq_bind, Option.bind_some,
        ih _ fun k hk => hjs k (List.mem_cons_of_mem j hk), List.foldl_cons]
  rw [closeNode, Option.bind_some, hloop _ _ (h i), AdjList.closeNode]

end Checked

end SizedAdjList

/-! ## What visitors compute -/

namespace AdjList

section Visitors

variable {α σ τ : Type*} {l : AdjList α} {g : ℕ → σ → σ} {g' : ℕ → τ → τ} {h : σ → τ}

theorem dfsUtil_map (hg : ∀ i x, h (g i x) = g' i (h x)) (fuel i : ℕ) (c : DfsState × σ) :
    l.dfsUtil (onExit g') fuel i (c.1, h c.2) =
      ((l.dfsUtil (onExit g) fuel i c).1, h (l.dfsUtil (onExit g) fuel i c).2) := by
  induction fuel generalizing i c with
  | zero => rfl
  | succ fuel ih =>
    have hedge : ∀ (c : DfsState × σ) (j : ℕ),
        dfsEdge (onExit g') (l.dfsUtil (onExit g') fuel) i (c.1, h c.2) j =
          ((dfsEdge (onExit g) (l.dfsUtil (onExit g) fuel) i c j).1,
            h (dfsEdge (onExit g) (l.dfsUtil (onExit g) fuel) i c j).2) := by
      intro c j
      rw [dfsEdge, dfsEdge]
      dsimp only
      cases c.1.m j with
      | unseen => exact ih j ({ c.1 with p := Function.update c.1.p j i }, c.2)
      | entered => rfl
      | left => rfl
    have hloop : ∀ (js : List ℕ) (c : DfsState × σ),
        js.foldl (dfsEdge (onExit g') (l.dfsUtil (onExit g') fuel) i) (c.1, h c.2) =
          ((js.foldl (dfsEdge (onExit g) (l.dfsUtil (onExit g) fuel) i) c).1,
            h (js.foldl (dfsEdge (onExit g) (l.dfsUtil (onExit g) fuel) i) c).2) := by
      intro js
      induction js with
      | nil => exact fun _ => rfl
      | cons j js ihjs =>
        intro c
        rw [List.foldl_cons, hedge, ihjs, List.foldl_cons]
    simp only [dfsUtil]
    have hbody := hloop (l.nodeSucc i)
      ({ c.1 with
          m := Function.update c.1.m i .entered
          t := c.1.t + 1
          d := Function.update c.1.d i (c.1.t + 1) }, c.2)
    rw [show (onExit g').atEntryV i _ (h c.2) = h c.2 from rfl, hbody]
    exact Prod.ext rfl (hg i _).symm

/-- **A traversal computes the same** on what a visitor's data is mapped to. -/
theorem dfs_map (hg : ∀ i x, h (g i x) = g' i (h x)) (x : σ) :
    l.dfs (onExit g') (h x) = h (l.dfs (onExit g) x) := by
  have hloop : ∀ (is : List ℕ) (c : DfsState × σ),
      is.foldl (fun c i => if c.1.m i = .unseen then l.dfsUtil (onExit g') l.size i c else c)
          (c.1, h c.2) =
        ((is.foldl (fun c i => if c.1.m i = .unseen then l.dfsUtil (onExit g) l.size i c else c)
            c).1,
          h (is.foldl (fun c i => if c.1.m i = .unseen then l.dfsUtil (onExit g) l.size i c else c)
            c).2) := by
    intro is
    induction is with
    | nil => exact fun _ => rfl
    | cons i is ih =>
      intro c
      rw [List.foldl_cons, List.foldl_cons]
      dsimp only
      split
      · rw [dfsUtil_map hg, ih]
      · rw [ih]
  rw [dfs, dfs, show (freshDfs, h x) = ((freshDfs, x).1, h (freshDfs, x).2) from rfl, hloop]
  rfl

end Visitors

/-! ## A new node -/

section AddNode

variable {α : Type*} {l : AdjList α} {es : List α} {E : List (α × α)}

/-- A list has no edges to nodes that it does not have. -/
theorem Wf.nodeSucc_size (h : Wf l) : l.nodeSucc l.size = [] :=
  List.eq_nil_iff_forall_not_mem.2 fun j hj => lt_irrefl _ (h.succ _ j hj).1

theorem Wf.inDegree_size (h : Wf l) : l.inDegree l.size = 0 := by
  rw [h.inDegree]
  refine Finset.sum_eq_zero fun i _ => ?_
  rw [Nat.cast_eq_zero, List.count_eq_zero]
  exact fun hmem => lt_irrefl _ (h.succ i _ hmem).2

theorem Inv.transC_size (h : Inv es E l) : l.transC l.size = fun _ => false := by
  funext j
  by_contra htrue
  obtain ⟨k, hk, -⟩ := TransGen.head'_iff.1 (h.sound _ j (Bool.eq_true_of_not_eq_false htrue))
  exact lt_irrefl _ (h.succ _ k hk).1

variable [DecidableEq α]

theorem Wf.nodeSucc_addNode (h : Wf l) (a : α) : (l.addNode a).nodeSucc = l.nodeSucc := by
  rw [addNode, ← h.nodeSucc_size, Function.update_eq_self]

theorem Wf.inDegree_addNode (h : Wf l) (a : α) : (l.addNode a).inDegree = l.inDegree := by
  rw [addNode, ← h.inDegree_size, Function.update_eq_self]

theorem Inv.transC_addNode (h : Inv es E l) (a : α) : (l.addNode a).transC = l.transC := by
  rw [addNode, ← h.transC_size, Function.update_eq_self]

theorem Wf.edge_addNode (h : Wf l) (a : α) : (l.addNode a).Edge = l.Edge := by
  funext i j
  rw [Edge, Edge, h.nodeSucc_addNode]

theorem size_addNode (l : AdjList α) (a : α) : (l.addNode a).size = l.size + 1 := by
  rw [size, addNode, List.length_append, List.length_singleton, size]

theorem getIndex_addNode (h : Wf l) {a : α} (ha : a ∉ l.elems) (b : α) (i : ℕ) :
    (l.addNode a).getIndex b = some i ↔ (l.elems ++ [a])[i]? = some b := by
  have hindex : (l.addNode a).getIndex b = if b = a then some l.size else l.getIndex b :=
    Function.update_apply l.ids a (some l.size) b
  rw [hindex]
  rcases lt_trichotomy i l.size with hi | rfl | hi
  · rw [List.getElem?_append_left hi]
    split
    · rename_i hb
      subst hb
      refine iff_of_false (fun heq => hi.ne' (Option.some.inj heq)) fun hmem => ?_
      exact ha (List.mem_of_getElem? hmem)
    · exact h.ids b i
  · have hlast : (l.elems ++ [a])[l.size]? = some a := List.getElem?_concat_length
    rw [hlast]
    split
    · rename_i hb
      exact iff_of_true rfl (congrArg some hb.symm)
    · rename_i hb
      refine iff_of_false (fun heq => ?_) fun heq => hb (Option.some.inj heq).symm
      exact lt_irrefl _ (List.getElem?_eq_some_iff.1 ((h.ids b _).1 heq)).1
  · have hnone : (l.elems ++ [a])[i]? = none := by
      rw [List.getElem?_eq_none_iff, List.length_append, List.length_singleton]
      exact hi
    rw [hnone]
    refine iff_of_false (fun heq => ?_) (Option.some_ne_none b ·.symm)
    split at heq
    · exact hi.ne (Option.some.inj heq)
    · exact lt_asymm hi (List.getElem?_eq_some_iff.1 ((h.ids b i).1 heq)).1

theorem Inv.addNode (h : Inv es E l) {a : α} (ha : a ∉ es) : Inv (es ++ [a]) E (l.addNode a) := by
  have hedge := h.toWf.edge_addNode a
  have hsucc := h.toWf.nodeSucc_addNode a
  have hget : ∀ {i : ℕ} {b : α}, es[i]? = some b → (es ++ [a])[i]? = some b := fun hi => by
    rw [List.getElem?_append_left (List.getElem?_eq_some_iff.1 hi).1, hi]
  refine
    { nodup := ?_
      ids := getIndex_addNode h.toWf (h.elems ▸ ha)
      succ := fun i j hij => ?_
      inDegree := fun j => ?_
      elems := congrArg (· ++ [a]) h.elems
      sound := fun i j hij => ?_
      calculated := fun hcalc => absurd hcalc Bool.false_ne_true
      added := fun i j hij => ?_
      path := fun b c hbc => ?_ }
  · show (l.elems ++ [a]).Nodup
    rw [h.elems, ← List.concat_eq_append, List.nodup_concat]
    exact ⟨ha, h.elems ▸ h.nodup⟩
  · rw [hsucc] at hij
    rw [size_addNode]
    exact (h.succ i j hij).imp Nat.lt_succ_of_lt Nat.lt_succ_of_lt
  · rw [h.toWf.inDegree_addNode, hsucc, size_addNode, Finset.sum_range_succ, ← h.inDegree,
      h.toWf.nodeSucc_size, List.count_nil, Nat.cast_zero, add_zero]
  · rw [h.transC_addNode] at hij
    exact hedge ▸ h.sound i j hij
  · obtain ⟨b, c, hb, hc, hmem⟩ := h.added i j (hedge ▸ hij)
    exact ⟨b, c, hget hb, hget hc, hmem⟩
  · obtain ⟨i, j, hi, hj, hij⟩ := h.path b c hbc
    exact ⟨i, j, hget hi, hget hj, hedge ▸ hij⟩

end AddNode

end AdjList

/-! ## Growing -/

namespace SizedAdjList

section Growing

variable {α : Type*} {l g o : SizedAdjList α} {es pre : List α} {E : List (α × α)} {a b : α}

theorem transClosure_eq (h : l.Fits) :
    l.transClosure = some ⟨l.toAdjList.transClosure, l.rowSize⟩ := by
  have hdfs : l.dfs (AdjList.onExit l.closeNode) (some ⟨l.rowSize, l.transC⟩) =
      some ⟨l.rowSize, l.dfs (AdjList.onExit l.toAdjList.closeNode) l.transC⟩ :=
    AdjList.dfs_map (h := fun T => some (⟨l.rowSize, T⟩ : Rows))
      (fun i T => (closeNode_eq h i T).symm) l.transC
  rw [transClosure, AdjList.transClosure]
  split
  · rfl
  · rw [rows, hdfs]
    rfl

/-- Two lists with the same successors, in-degrees and bits. -/
structure SameEdges (l l' : AdjList α) : Prop where
  nodeSucc : l.nodeSucc = l'.nodeSucc
  inDegree : l.inDegree = l'.inDegree
  transC : l.transC = l'.transC

theorem SameEdges.addEdgeIds {l l' : AdjList α} (h : SameEdges l l') (i j : ℕ) :
    SameEdges (l.addEdgeIds i j) (l'.addEdgeIds i j) := by
  rw [AdjList.addEdgeIds, AdjList.addEdgeIds, h.transC]
  split
  · exact h
  · exact ⟨by rw [h.nodeSucc], by rw [h.inDegree], rfl⟩

/-- A list that has grown to the elements of `pre`, beside one that has all elements. -/
structure Alike (es pre : List α) (E : List (α × α)) (g o : SizedAdjList α) : Prop where
  grown : AdjList.Inv pre E g.toAdjList
  atOnce : AdjList.Inv es E o.toAdjList
  same : SameEdges g.toAdjList o.toAdjList
  isPrefix : pre <+: es
  back : ∀ i j, j ∈ g.nodeSucc i → j < i
  rowSize : ∀ i < pre.length, g.rowSize i = i
  rowSizeAll : ∀ i, o.rowSize i = es.length

theorem Alike.size (h : Alike es pre E g o) : g.size = pre.length :=
  congrArg List.length h.grown.elems

theorem Alike.fits (h : Alike es pre E g o) : g.Fits ∧ o.Fits := by
  refine ⟨fun i j hj => ?_, fun i j hj => ?_⟩
  · obtain ⟨hi, hj'⟩ := h.grown.succ i j hj
    rw [h.size] at hi hj'
    rw [h.rowSize i hi, h.rowSize j hj']
    exact ⟨h.back i j hj, (h.back i j hj).le⟩
  · have hj' := (h.atOnce.succ i j hj).2
    rw [AdjList.size, h.atOnce.elems] at hj'
    rw [h.rowSizeAll, h.rowSizeAll]
    exact ⟨hj', le_rfl⟩

/-- Edges that go back make no cycles. -/
theorem Alike.acyclic (h : Alike es pre E g o) : Acyclic g.Edge := by
  have hback : ∀ {i j}, TransGen g.Edge i j → j < i := by
    intro i j hij
    induction hij with
    | single hij => exact h.back _ _ hij
    | tail _ hjk ih => exact (h.back _ _ hjk).trans ih
  exact fun i hi => lt_irrefl i (hback hi)

theorem nodeSucc_transClosure (l : AdjList α) :
    l.transClosure.nodeSucc = l.nodeSucc ∧ l.transClosure.inDegree = l.inDegree := by
  rw [AdjList.transClosure]
  split
  · exact ⟨rfl, rfl⟩
  · exact ⟨rfl, rfl⟩

/-- Without cycles, the closure is determined by the edges. -/
theorem Alike.transClosure (h : Alike es pre E g o) : ∃ g' o', g.transClosure = some g' ∧
    o.transClosure = some o' ∧ Alike es pre E g' o' := by
  refine ⟨_, _, transClosure_eq h.fits.1, transClosure_eq h.fits.2, ?_⟩
  have hg := nodeSucc_transClosure g.toAdjList
  have ho := nodeSucc_transClosure o.toAdjList
  have hedge : g.Edge = o.Edge := by
    funext i j
    rw [AdjList.Edge, AdjList.Edge, h.same.nodeSucc]
  have hclosed := AdjList.closed_transClosure h.grown.succ h.grown.sound h.grown.calculated
  have hclosed' := AdjList.closed_transClosure h.atOnce.succ h.atOnce.sound h.atOnce.calculated
  have hacyclic := h.acyclic
  rw [← AdjList.edge_transClosure] at hacyclic
  refine
    { grown := h.grown.transClosure
      atOnce := h.atOnce.transClosure
      same := ⟨?_, ?_, ?_⟩
      isPrefix := h.isPrefix
      back := fun i j hj => h.back i j (hg.1 ▸ hj)
      rowSize := h.rowSize
      rowSizeAll := h.rowSizeAll }
  · rw [hg.1, ho.1, h.same.nodeSucc]
  · rw [hg.2, ho.2, h.same.inDegree]
  · funext i j
    have hedge' : g.toAdjList.transClosure.Edge = o.toAdjList.transClosure.Edge := by
      rw [AdjList.edge_transClosure, AdjList.edge_transClosure, hedge]
    rw [Bool.eq_iff_iff, hclosed.2 hacyclic, hclosed'.2 (hedge' ▸ hacyclic), hedge']

/-- Where a list without repetitions has one element before another. -/
theorem before_iff {l : List α} (hl : l.Nodup) :
    Before l b a ↔ ∃ i j : ℕ, l[i]? = some a ∧ l[j]? = some b ∧ j < i := by
  refine ⟨?_, ?_⟩
  · rintro ⟨l₁, l₂, rfl, hb⟩
    obtain ⟨j, hj, rfl⟩ := List.mem_iff_getElem.1 hb
    refine ⟨l₁.length, j, by simp, ?_, hj⟩
    rw [List.getElem?_append_left hj, List.getElem?_eq_getElem hj]
  · rintro ⟨i, j, hi, hj, hlt⟩
    obtain ⟨hil, rfl⟩ := List.getElem?_eq_some_iff.1 hi
    refine ⟨l.take i, l.drop (i + 1), ?_, ?_⟩
    · rw [← List.drop_eq_getElem_cons hil, List.take_append_drop]
    · exact List.mem_of_getElem? ((List.getElem?_take_of_lt hlt).trans hj)

theorem Alike.getIndex (h : Alike es pre E g o) {i : ℕ} :
    g.getIndex a = some i ↔ pre[i]? = some a := by
  rw [h.grown.ids, h.grown.elems]

theorem Alike.getIndex_atOnce (h : Alike es pre E g o) {i : ℕ} (hi : pre[i]? = some a) :
    o.getIndex a = some i := by
  rw [h.atOnce.ids, h.atOnce.elems]
  obtain ⟨rest, rfl⟩ := h.isPrefix
  rw [List.getElem?_append_left (List.getElem?_eq_some_iff.1 hi).1, hi]

/-- The bits of the row of an element are those for the elements before it. -/
theorem Alike.test (h : Alike es pre E g o) {i j : ℕ} (hi : pre[i]? = some a) :
    j < g.rowSize i ↔ j < i := by
  rw [h.rowSize i (List.getElem?_eq_some_iff.1 hi).1]

theorem Alike.addEdge (h : Alike es pre E g o) (hback : Before pre b a) :
    ∃ g' o', g.addEdge a b = some g' ∧ o.addEdge a b = some o' ∧
      Alike es pre (E ++ [(a, b)]) g' o' := by
  obtain ⟨i, j, hi, hj, hlt⟩ := (before_iff (h.grown.elems ▸ h.grown.nodup)).1 hback
  have hj' : j < o.rowSize i := by
    rw [h.rowSizeAll]
    exact (List.getElem?_eq_some_iff.1 hj).1.trans_le h.isPrefix.length_le
  have hg : g.addEdge a b = some ⟨g.toAdjList.addEdgeIds i j, g.rowSize⟩ := by
    rw [SizedAdjList.addEdge, h.getIndex.2 hi, Option.bind_some, h.getIndex.2 hj,
      Option.bind_some, addEdgeIds_eq ((h.test hi).2 hlt)]
  have ho : o.addEdge a b = some ⟨o.toAdjList.addEdgeIds i j, o.rowSize⟩ := by
    rw [SizedAdjList.addEdge, h.getIndex_atOnce hi, Option.bind_some, h.getIndex_atOnce hj,
      Option.bind_some, addEdgeIds_eq hj']
  refine ⟨_, _, hg, ho,
    { grown := h.grown.addEdge ?_
      atOnce := h.atOnce.addEdge ?_
      same := h.same.addEdgeIds i j
      isPrefix := h.isPrefix
      back := fun x y hxy => ?_
      rowSize := h.rowSize
      rowSizeAll := h.rowSizeAll }⟩
  · rw [AdjList.addEdge, h.getIndex.2 hi, Option.bind_some, h.getIndex.2 hj, Option.map_some]
  · rw [AdjList.addEdge, h.getIndex_atOnce hi, Option.bind_some, h.getIndex_atOnce hj,
      Option.map_some]
  · cases ht : g.transC i j with
    | true =>
      rw [AdjList.addEdgeIds, if_pos ht] at hxy
      exact h.back x y hxy
    | false =>
      rcases (congrFun (congrFun (AdjList.edge_addEdgeIds ht) x) y).mp hxy with hxy | ⟨rfl, rfl⟩
      · exact h.back x y hxy
      · exact hlt

theorem Alike.addEdge_eq_none (h : Alike es pre E g o) (hback : ¬ Before pre b a) :
    g.addEdge a b = none := by
  rw [SizedAdjList.addEdge]
  cases hi : g.getIndex a with
  | none => rfl
  | some i =>
    cases hj : g.getIndex b with
    | none => rfl
    | some j =>
      have hi := h.getIndex.1 hi
      refine addEdgeIds_eq_none fun hlt => hback ?_
      exact (before_iff (h.grown.elems ▸ h.grown.nodup)).2
        ⟨i, j, hi, h.getIndex.1 hj, (h.test hi).1 hlt⟩

/-- `operator()` of the list that has grown looks at earlier elements only. -/
theorem Alike.hasEdge (h : Alike es pre E g o) (ha : a ∈ pre) (hb : b ∈ pre) :
    (Before pre b a → ∃ c, g.hasEdge a b = some c ∧ o.hasEdge a b = some c) ∧
      (¬ Before pre b a → g.hasEdge a b = none) := by
  obtain ⟨i, hi⟩ := List.mem_iff_getElem?.1 ha
  obtain ⟨j, hj⟩ := List.mem_iff_getElem?.1 hb
  have hnd : pre.Nodup := h.grown.elems ▸ h.grown.nodup
  have hg : g.hasEdge a b = g.rows.test i j := by
    rw [SizedAdjList.hasEdge, h.getIndex.2 hi, Option.bind_some, h.getIndex.2 hj, Option.bind_some]
  have ho : o.hasEdge a b = o.rows.test i j := by
    rw [SizedAdjList.hasEdge, h.getIndex_atOnce hi, Option.bind_some, h.getIndex_atOnce hj,
      Option.bind_some]
  rw [hg, ho]
  refine ⟨fun hback => ?_, ?_⟩
  · obtain ⟨i', j', hi', hj', hlt⟩ := (before_iff hnd).1 hback
    obtain rfl := (List.getElem?_inj (List.getElem?_eq_some_iff.1 hi).1 hnd).1 (hi.trans hi'.symm)
    obtain rfl := (List.getElem?_inj (List.getElem?_eq_some_iff.1 hj).1 hnd).1 (hj.trans hj'.symm)
    have hlen : j < o.rowSize i := by
      rw [h.rowSizeAll]
      exact (List.getElem?_eq_some_iff.1 hj).1.trans_le h.isPrefix.length_le
    refine ⟨g.transC i j, if_pos ((h.test hi).2 hlt), ?_⟩
    rw [h.same.transC]
    exact if_pos hlen
  · exact fun hback => if_neg fun hlt =>
      hback ((before_iff hnd).2 ⟨i, j, hi, hj, (h.test hi).1 hlt⟩)

variable [DecidableEq α]

theorem Alike.addNode (h : Alike es pre E g o) (hpre : pre ++ [a] <+: es) :
    Alike es (pre ++ [a]) E (g.addNode a) o := by
  have hnd : (pre ++ [a]).Nodup := (h.atOnce.elems ▸ h.atOnce.nodup).sublist hpre.sublist
  have ha : a ∉ pre := by
    rw [← List.concat_eq_append, List.nodup_concat] at hnd
    exact hnd.1
  have hsucc := h.grown.toWf.nodeSucc_addNode a
  refine
    { grown := h.grown.addNode ha
      atOnce := h.atOnce
      same := ⟨?_, ?_, ?_⟩
      isPrefix := hpre
      back := fun i j hj => h.back i j (hsucc ▸ hj)
      rowSize := fun i hi => ?_
      rowSizeAll := h.rowSizeAll }
  · exact hsucc.trans h.same.nodeSucc
  · exact (h.grown.toWf.inDegree_addNode a).trans h.same.inDegree
  · exact (h.grown.transC_addNode a).trans h.same.transC
  · rw [List.length_append, List.length_singleton] at hi
    show Function.update g.rowSize g.size g.size i = i
    rw [h.size]
    rcases Nat.lt_succ_iff_lt_or_eq.1 hi with hi | rfl
    · rw [Function.update_of_ne hi.ne, h.rowSize i hi]
    · rw [Function.update_self]

/-- Edges lead to elements that were added earlier, beginning with some elements. -/
def EdgesGoBack : List α → List (AdjOp α) → Prop
  | _, [] => True
  | es, .addNode a :: ops => EdgesGoBack (es ++ [a]) ops
  | es, .addEdge a b :: ops => Before es b a ∧ EdgesGoBack es ops
  | es, .transClosure :: ops => EdgesGoBack es ops

theorem Alike.run {ops : List (AdjOp α)} (h : Alike es pre E g o) (hes : pre ++ nodes ops = es)
    (hback : EdgesGoBack pre ops) : ∃ E' g' o', run g ops = some g' ∧
      run o (edgeOps ops) = some o' ∧ Alike es es E' g' o' := by
  induction ops generalizing pre E g o with
  | nil =>
    obtain rfl : pre = es := (List.append_nil pre).symm.trans hes
    exact ⟨E, g, o, rfl, rfl, h⟩
  | cons op ops ih =>
    rw [SizedAdjList.run, List.foldlM_cons]
    cases op with
    | addNode a =>
      rw [nodes, ← List.singleton_append, ← List.append_assoc] at hes
      exact ih (h.addNode ⟨_, hes⟩) hes hback
    | addEdge a b =>
      obtain ⟨g', o', hg, ho, halike⟩ := h.addEdge hback.1
      obtain ⟨E', g'', o'', hg', ho', halike'⟩ := ih halike hes hback.2
      refine ⟨E', g'', o'', ?_, ?_, halike'⟩
      · rw [step, hg]
        exact hg'
      · show SizedAdjList.run o (.addEdge a b :: edgeOps ops) = some o''
        rw [SizedAdjList.run, List.foldlM_cons, step, ho]
        exact ho'
    | transClosure =>
      obtain ⟨g', o', hg, ho, halike⟩ := h.transClosure
      obtain ⟨E', g'', o'', hg', ho', halike'⟩ := ih halike hes hback
      refine ⟨E', g'', o'', ?_, ?_, halike'⟩
      · rw [step, hg]
        exact hg'
      · show SizedAdjList.run o (.transClosure :: edgeOps ops) = some o''
        rw [SizedAdjList.run, List.foldlM_cons, step, ho]
        exact ho'

theorem Alike.run_eq_none {ops : List (AdjOp α)} (h : Alike es pre E g o)
    (hes : pre ++ nodes ops = es) (hback : ¬ EdgesGoBack pre ops) :
      SizedAdjList.run g ops = none := by
  induction ops generalizing pre E g o with
  | nil => exact absurd trivial hback
  | cons op ops ih =>
    rw [SizedAdjList.run, List.foldlM_cons]
    cases op with
    | addNode a =>
      rw [nodes, ← List.singleton_append, ← List.append_assoc] at hes
      exact ih (h.addNode ⟨_, hes⟩) hes hback
    | addEdge a b =>
      by_cases hba : Before pre b a
      · obtain ⟨g', o', hg, -, halike⟩ := h.addEdge hba
        rw [step, hg]
        exact ih halike hes fun hrest => hback ⟨hba, hrest⟩
      · rw [step, h.addEdge_eq_none hba]
        rfl
    | transClosure =>
      obtain ⟨g', o', hg, -, halike⟩ := h.transClosure
      rw [step, hg]
      exact ih halike hes hback

theorem alike_ofElems (hes : es.Nodup) :
    Alike es [] [] (SizedAdjList.ofElems []) (SizedAdjList.ofElems es) where
  grown := AdjList.inv_ofElems List.nodup_nil
  atOnce := AdjList.inv_ofElems hes
  same := ⟨rfl, rfl, rfl⟩
  isPrefix := List.nil_prefix
  back _ _ h := absurd h List.not_mem_nil
  rowSize _ h := absurd h (Nat.not_lt_zero _)
  rowSizeAll _ := rfl

/-- All accesses are in range, and the list that has grown is like the one that is built at once. -/
def GrowsAlike (ops : List (AdjOp α)) : Prop :=
  ∃ g o, grown ops = some g ∧ atOnce ops = some o ∧ g.nodeSucc = o.nodeSucc ∧
    g.inDegree = o.inDegree ∧ ∀ a ∈ nodes ops, ∀ b ∈ nodes ops, ∃ c,
      g.hasEdge a b = some c ∧ o.hasEdge a b = some c

theorem exists_alike {ops : List (AdjOp α)} (hops : (nodes ops).Nodup)
    (hback : EdgesGoBack [] ops) : ∃ E g o, grown ops = some g ∧ atOnce ops = some o ∧
      Alike (nodes ops) (nodes ops) E g o := (alike_ofElems hops).run rfl hback

theorem edgesGoBack_of_isSome {ops : List (AdjOp α)} (hops : (nodes ops).Nodup) {g : SizedAdjList α}
    (hg : SizedAdjList.grown ops = some g) : EdgesGoBack [] ops := by
  by_contra hback
  have hnone : SizedAdjList.grown ops = none := (alike_ofElems hops).run_eq_none rfl hback
  rw [hg] at hnone
  cases hnone

omit [DecidableEq α] in
theorem edgesGoBack_nil_iff {ops : List (AdjOp α)} :
    nodes ops = [] ∧ EdgesGoBack [] ops ↔ ∀ op ∈ ops, op = .transClosure := by
  induction ops with
  | nil => simp [nodes, EdgesGoBack]
  | cons op ops ih =>
    rw [List.forall_mem_cons, ← ih]
    cases op with
    | addNode a => simp [nodes]
    | addEdge a b =>
      refine iff_of_false (fun h => ?_) fun h => by cases h.1
      obtain ⟨l₁, l₂, hnil, -⟩ := h.2.1
      exact List.cons_ne_nil _ _ (List.append_eq_nil_iff.1 hnil.symm).2
    | transClosure => simp [nodes, EdgesGoBack]

/-- **Growing a list** is like building it at once only if there is nothing to grow: `operator()` is
out of range for the last node.  The calls themselves are in range exactly if edges lead from nodes
to earlier ones, and then the lists differ in the sizes of their rows only. -/
theorem grows_iff {ops : List (AdjOp α)} (hops : (nodes ops).Nodup) :
    (GrowsAlike ops ↔ ∀ op ∈ ops, op = .transClosure) ∧
      ((grown ops).isSome = true ↔ EdgesGoBack [] ops) ∧
      ∀ g, grown ops = some g → ∃ o, atOnce ops = some o ∧ g.nodeSucc = o.nodeSucc ∧
        g.inDegree = o.inDegree ∧ ∀ a ∈ nodes ops, ∀ b ∈ nodes ops,
          (Before (nodes ops) b a → ∃ c, g.hasEdge a b = some c ∧ o.hasEdge a b = some c) ∧
            (¬ Before (nodes ops) b a → g.hasEdge a b = none) := by
  have hgrown : ∀ g, grown ops = some g → ∃ E o, atOnce ops = some o ∧
      Alike (nodes ops) (nodes ops) E g o := by
    intro g hg
    obtain ⟨E, g', o, hg', ho, halike⟩ := exists_alike hops (edgesGoBack_of_isSome hops hg)
    obtain rfl := Option.some.inj (hg.symm.trans hg')
    exact ⟨E, o, ho, halike⟩
  refine ⟨⟨?_, fun hall => ?_⟩, ⟨fun hsome => ?_, fun hback => ?_⟩, fun g hg => ?_⟩
  · rintro ⟨g, o, hg, ho, -, -, hedges⟩
    refine edgesGoBack_nil_iff.1 ⟨?_, edgesGoBack_of_isSome hops hg⟩
    by_contra hne
    obtain ⟨E, o', -, halike⟩ := hgrown g hg
    -- the row of a node has no bit for the node itself
    obtain ⟨a, ha⟩ := List.exists_mem_of_ne_nil _ hne
    obtain ⟨c, hc, -⟩ := hedges a ha a ha
    have hnot : ¬ Before (nodes ops) a a := fun hbefore => by
      obtain ⟨l₁, l₂, heq, hmem⟩ := hbefore
      rw [heq, List.nodup_append] at hops
      exact hops.2.2 a hmem a List.mem_cons_self rfl
    rw [(halike.hasEdge ha ha).2 hnot] at hc
    cases hc
  · obtain ⟨hnil, hback⟩ := edgesGoBack_nil_iff.2 hall
    obtain ⟨E, g, o, hg, ho, halike⟩ := exists_alike hops hback
    refine ⟨g, o, hg, ho, halike.same.nodeSucc, halike.same.inDegree, fun a ha => ?_⟩
    rw [hnil] at ha
    exact absurd ha List.not_mem_nil
  · obtain ⟨g, hg⟩ := Option.isSome_iff_exists.1 hsome
    exact edgesGoBack_of_isSome hops hg
  · obtain ⟨E, g, o, hg, -⟩ := exists_alike hops hback
    rw [hg]
    rfl
  · obtain ⟨E, o, ho, halike⟩ := hgrown g hg
    exact ⟨o, ho, halike.same.nodeSucc, halike.same.inDegree, fun a ha b hb => halike.hasEdge ha hb⟩

/-- Edges to earlier nodes, before and after a closure. -/
def backwards : List (AdjOp ℕ) :=
  [.addNode 5, .addNode 6, .addEdge 6 5, .transClosure, .addNode 7, .addEdge 7 6]

theorem grows_iff_backwards :
    (GrowsAlike backwards ↔ ∀ op ∈ backwards, op = .transClosure) ∧
      ((grown backwards).isSome = true ↔ EdgesGoBack [] backwards) ∧
      ∀ g, grown backwards = some g → ∃ o, atOnce backwards = some o ∧ g.nodeSucc = o.nodeSucc ∧
        g.inDegree = o.inDegree ∧ ∀ a ∈ nodes backwards, ∀ b ∈ nodes backwards,
          (Before (nodes backwards) b a →
            ∃ c, g.hasEdge a b = some c ∧ o.hasEdge a b = some c) ∧
            (¬ Before (nodes backwards) b a → g.hasEdge a b = none) :=
  grows_iff (by decide)

/-- The row of the first node has no bit for the second one. -/
theorem not_growsAlike_edge : ¬ GrowsAlike [.addNode 5, .addNode 6, .addEdge 5 6] := by
  rintro ⟨g, o, hg, -⟩
  cases hg

end Growing

end SizedAdjList

end GenMC
