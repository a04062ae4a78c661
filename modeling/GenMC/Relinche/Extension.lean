import GenMC.ADT.Matrix2D
import GenMC.Library.EdgeClosure
import GenMC.Relinche.Specification
import Mathlib.Algebra.GroupWithZero.Nat
import Mathlib.Data.Finset.Card
import Mathlib.Data.List.ProdSigma
import Mathlib.Data.Set.Insert

/-!
# Hints

A hint of an observation is a set of edges between calls which, added to happens-before, contradict
all linearizations the observation was seen with.  An extension edge from call `a` to call `b` goes
from the end of `a` to the begin of `b`, and happens-before from the begin of a call to the end of
another one, so that the search works with two events per call.

The search grows extensions edge by edge, in the order of a pool of edges fixed in the beginning,
and breadth first.  It skips edges that follow from the extension or contradict it, edges that would
make an earlier one superfluous and edges that kill no new linearization, and drops an extension if
the edges that are left to add cannot kill what it leaves.  What kills everything goes to a list in
which no extension implies another one.

* `search` is the loop of the search, and `Specification.calculateObservationHints` the whole of it.
  It ends because an extension stands for at most as many others as there are sets of edges after
  its last one (`weight`).
* `HbExt` is the graph of begins and ends with some extension edges, `Contradicts` says that edges
  kill a linearization, and `Implied` that edges follow from others.
-/

set_option autoImplicit false

namespace GenMC

open Relation

/-! ## Bits -/

namespace BitVector

/-- `operator|=`. -/
def orAssign (v w : List Bool) : List Bool :=
  (if v.length < w.length then v ++ List.replicate (w.length - v.length) false else v).mapIdx
    fun i x => x || w.getD i false

/-- `all`. -/
def all (v : List Bool) : Bool := v.all id

/-- `count`. -/
def count (v : List Bool) : ℕ := v.count true

end BitVector

/-! ## Extensions -/

/-- The event a call begins with. -/
def toBeginExtEvent (id : ℕ) : ℕ := 2 * id

/-- The event a call ends with. -/
def toEndExtEvent (id : ℕ) : ℕ := toBeginExtEvent id + 1

/-- The call of an event. -/
def toCallIdx (extEvent : ℕ) : ℕ := extEvent / 2

/-- An extension edge and the linearizations it kills. -/
@[ext] structure ExtEdge where
  src : ℕ
  dst : ℕ
  contradictingLins : List Bool := []
deriving DecidableEq

namespace ExtEdge

/-- The edge from call `a` to call `b`. -/
def between (a b : ℕ) : ExtEdge := { src := toEndExtEvent a, dst := toBeginExtEvent b }

/-- `operator==`. -/
def eq (e e' : ExtEdge) : Bool := e.src = e'.src && e.dst = e'.dst

/-- The calls of an edge. -/
def toPair (e : ExtEdge) : CallEdge := ⟨toCallIdx e.src, toCallIdx e.dst⟩

end ExtEdge

/-- An extension of happens-before. -/
structure Extension where
  /-- The edges in the order in which they were added. -/
  ext : List ExtEdge
  /-- The closure of happens-before and the edges. -/
  hbext : Matrix2D
  /-- The linearizations the edges kill. -/
  killedLins : List Bool

namespace Extension

/-- Happens-before without any edges. -/
def ofObservation (obs : Observation) : Extension where
  ext := []
  hbext :=
    let m₁ := obs.ids.foldl (fun m id => m.addEdge (toBeginExtEvent id) (toEndExtEvent id))
      (Matrix2D.ofSize (obs.getNumOps * 2))
    let m₂ := obs.hb.vset.foldl
      (fun m edge => m.addEdge (toBeginExtEvent edge.first) (toEndExtEvent edge.second)) m₁
    m₂.transClosure
  killedLins := []

def size (x : Extension) : ℕ := x.ext.length

def areHbOrdered (x : Extension) (a b : ℕ) : Bool := x.hbext.at' a b

def areHbOptOrdered (x : Extension) (a b : ℕ) : Bool := a = b || x.areHbOrdered a b

/-- Whether the ends of an edge are ordered one way or the other. -/
def areConnected (x : Extension) (e : ExtEdge) : Bool :=
  x.areHbOrdered e.src e.dst || x.areHbOrdered e.dst e.src

/-- Whether another extension implies this one. -/
def isSubsetOf (x other : Extension) : Bool := x.ext.all fun e => other.areHbOrdered e.src e.dst

/-- Whether no edge added before follows when a new edge is added. -/
def isMonotoneNext (x : Extension) (newEdge : ExtEdge) : Bool :=
  !x.ext.any fun oldEdge =>
    x.areHbOptOrdered oldEdge.src newEdge.src && x.areHbOptOrdered newEdge.dst oldEdge.dst

def getNumKilledLins (x : Extension) : ℕ := BitVector.count x.killedLins

def killsAllLins (x : Extension) : Bool := BitVector.all x.killedLins

/-- Whether the extension kills all linearizations together with edges that may be added later. -/
def killsLeftoverLins (x : Extension) (killable : List Bool) : Bool :=
  BitVector.all (BitVector.orAssign x.killedLins killable)

def addEdge (x : Extension) (edge : ExtEdge) : Extension where
  ext := x.ext ++ [edge]
  hbext := x.hbext.addEdgeAndTransitive edge.src edge.dst
  killedLins := BitVector.orAssign x.killedLins edge.contradictingLins

def toHint (x : Extension) : Hint := ⟨x.ext.map ExtEdge.toPair⟩

end Extension

/-- Adds an extension, unless it is implied, and erases those it implies. -/
def maybeAddExtension (extensions : List Extension) (newExt : Extension) : List Extension :=
  if extensions.any fun oldExt => oldExt.isSubsetOf newExt then extensions
  else (extensions.filter fun oldExt => !newExt.isSubsetOf oldExt) ++ [newExt]

/-- Edges without repetitions. -/
structure EdgePool where
  edges : List ExtEdge
  nodup : (edges.map fun e => (e.src, e.dst)).Nodup

/-- The edges that neither follow from happens-before nor contradict it. -/
def edgePoolList (obs : Observation) (lins : List Linearization) (x : Extension) : List ExtEdge :=
  ((obs.ids ×ˢ obs.ids).filter fun p => !x.areConnected (ExtEdge.between p.1 p.2)).map fun p =>
    { ExtEdge.between p.1 p.2 with
      contradictingLins := lins.map fun lin => lin.isBefore p.2 p.1 }

theorem mem_edgePoolList {obs : Observation} {lins : List Linearization} {x : Extension}
    {e : ExtEdge} :
    e ∈ edgePoolList obs lins x ↔ ∃ a < obs.getNumOps, ∃ b < obs.getNumOps,
      x.areConnected (ExtEdge.between a b) = false ∧
        e = { ExtEdge.between a b with
          contradictingLins := lins.map fun lin => lin.isBefore b a } := by
  simp only [edgePoolList, List.mem_map, List.mem_filter, Observation.ids, List.mem_product,
    List.mem_range, Prod.exists, Bool.not_eq_true']
  refine ⟨?_, ?_⟩
  · rintro ⟨a, b, ⟨⟨ha, hb⟩, hc⟩, rfl⟩
    exact ⟨a, ha, b, hb, hc, rfl⟩
  · rintro ⟨a, ha, b, hb, hc, rfl⟩
    exact ⟨a, b, ⟨⟨ha, hb⟩, hc⟩, rfl⟩

theorem nodup_edgePoolList (obs : Observation) (lins : List Linearization) (x : Extension) :
    ((edgePoolList obs lins x).map fun e => (e.src, e.dst)).Nodup := by
  rw [edgePoolList, List.map_map]
  refine (((List.nodup_range).product List.nodup_range).filter _).map_on ?_
  rintro ⟨a, b⟩ - ⟨a', b'⟩ - h
  simp only [Function.comp_apply, ExtEdge.between, toEndExtEvent, toBeginExtEvent,
    Prod.mk.injEq] at h
  rw [Prod.mk.injEq]
  omega

/-- The pool of edges the search chooses from. -/
def calculateEdgePool (obs : Observation) (lins : List Linearization) (x : Extension) : EdgePool :=
  ⟨edgePoolList obs lins x, nodup_edgePoolList obs lins x⟩

/-! ## The search -/

/-- What changes while the edges for one extension are gone through. -/
structure SearchState where
  killable : List Bool
  queue : List Extension
  extensions : List Extension

/-- Considers an extension by one edge. -/
def considerEdge (maxExtSize : ℕ) (x : Extension) (s : SearchState) (newEdge : ExtEdge) :
    SearchState :=
  if x.areConnected newEdge then s
  else if !x.isMonotoneNext newEdge then s
  else if x.size + 1 > maxExtSize then s
  else
    let newExt := x.addEdge newEdge
    if newExt.killsAllLins then { s with extensions := maybeAddExtension s.extensions newExt }
    else if newExt.getNumKilledLins = x.getNumKilledLins then s
    else
      let killable := BitVector.orAssign s.killable newEdge.contradictingLins
      if newExt.killsLeftoverLins killable then
        { s with killable := killable, queue := s.queue ++ [newExt] }
      else { s with killable := killable }

/-- The edges that come after an edge of the pool. -/
def EdgePool.afterEdge (pool : EdgePool) (e : ExtEdge) : List ExtEdge :=
  pool.edges.drop (pool.edges.findIdx e.eq + 1)

/-- The edges that come after the last one of an extension. -/
def EdgePool.after (pool : EdgePool) (x : Extension) : List ExtEdge :=
  match x.ext.getLast? with
  | none => pool.edges
  | some last => pool.afterEdge last

/-- Goes through the edges for one extension, backwards. -/
def expand (pool : EdgePool) (maxExtSize : ℕ) (x : Extension) (queue extensions : List Extension) :
    SearchState :=
  (pool.after x).reverse.foldl (considerEdge maxExtSize x) ⟨[], queue, extensions⟩

/-! ### Termination

An extension is only continued with edges after its last one, so that it stands for at most as many
extensions as there are sets of such edges. -/

theorem ExtEdge.eq_iff {e e' : ExtEdge} :
    e.eq e' = true ↔ (e.src, e.dst) = (e'.src, e'.dst) := by
  rw [ExtEdge.eq, Bool.and_eq_true, decide_eq_true_eq, decide_eq_true_eq, Prod.mk.injEq]

theorem EdgePool.afterEdge_eq (pool : EdgePool) {A R : List ExtEdge} {e : ExtEdge}
    (h : pool.edges = A ++ e :: R) : pool.afterEdge e = R := by
  have hnodup := pool.nodup
  rw [h, List.map_append, List.map_cons, List.nodup_append] at hnodup
  have hidx : pool.edges.findIdx e.eq = A.length := by
    rw [h, List.findIdx_append, List.findIdx_cons, ExtEdge.eq_iff.2 rfl]
    have hA : ¬ List.findIdx e.eq A < A.length := by
      intro hlt
      obtain ⟨e', he', heq⟩ := List.findIdx_lt_length.1 hlt
      exact hnodup.2.2 _ (List.mem_map_of_mem he') _ List.mem_cons_self
        (ExtEdge.eq_iff.1 heq).symm
    rw [if_neg hA]
    simp
  rw [afterEdge, hidx, h, List.drop_append]
  simp

def weight (pool : EdgePool) (queue : List Extension) : ℕ :=
  (queue.map fun x => 2 ^ (pool.after x).length).sum

theorem EdgePool.after_addEdge (pool : EdgePool) (x : Extension) (e : ExtEdge) :
    pool.after (x.addEdge e) = pool.afterEdge e := by
  rw [after, Extension.addEdge, List.getLast?_concat]

theorem weight_considerEdge (pool : EdgePool) (maxExtSize : ℕ) (x : Extension) (s : SearchState)
    (e : ExtEdge) :
    weight pool (considerEdge maxExtSize x s e).queue ≤
      weight pool s.queue + 2 ^ (pool.afterEdge e).length := by
  rw [considerEdge]
  split
  · exact Nat.le_add_right _ _
  · split
    · exact Nat.le_add_right _ _
    · split
      · exact Nat.le_add_right _ _
      · simp only
        split
        · exact Nat.le_add_right _ _
        · split
          · exact Nat.le_add_right _ _
          · split
            · rw [weight, List.map_append, List.sum_append, List.map_singleton,
                List.sum_singleton, pool.after_addEdge]
              exact le_rfl
            · exact Nat.le_add_right _ _

theorem weight_foldl_considerEdge (pool : EdgePool) (maxExtSize : ℕ) (x : Extension)
    (L : List ExtEdge) (s : SearchState) :
    weight pool (L.foldl (considerEdge maxExtSize x) s).queue ≤
      weight pool s.queue + (L.map fun e => 2 ^ (pool.afterEdge e).length).sum := by
  induction L generalizing s with
  | nil => exact le_rfl
  | cons e L ih =>
    rw [List.foldl_cons, List.map_cons, List.sum_cons]
    have h1 := ih (considerEdge maxExtSize x s e)
    have h2 := weight_considerEdge pool maxExtSize x s e
    omega

theorem sum_afterEdge_lt (pool : EdgePool) {R : List ExtEdge} (hR : R <:+ pool.edges) :
    (R.map fun e => 2 ^ (pool.afterEdge e).length).sum < 2 ^ R.length := by
  induction R with
  | nil => exact Nat.one_pos
  | cons e R ih =>
    obtain ⟨A, hA⟩ := hR
    have hlt := ih ⟨A ++ [e], by rw [← hA, List.append_assoc]; rfl⟩
    rw [List.map_cons, List.sum_cons, pool.afterEdge_eq hA.symm, List.length_cons, Nat.pow_succ]
    omega

theorem EdgePool.after_suffix (pool : EdgePool) (x : Extension) :
    pool.after x <:+ pool.edges := by
  rw [after]
  split
  · exact List.suffix_refl _
  · exact List.drop_suffix _ _

theorem weight_expand (pool : EdgePool) (maxExtSize : ℕ) (x : Extension)
    (queue extensions : List Extension) :
    weight pool (expand pool maxExtSize x queue extensions).queue < weight pool (x :: queue) := by
  have h1 : weight pool (expand pool maxExtSize x queue extensions).queue ≤ weight pool queue + _ :=
    weight_foldl_considerEdge pool maxExtSize x (pool.after x).reverse ⟨[], queue, extensions⟩
  have h2 := sum_afterEdge_lt pool (pool.after_suffix x)
  have h3 : weight pool (x :: queue) = 2 ^ (pool.after x).length + weight pool queue := rfl
  rw [List.map_reverse, List.sum_reverse] at h1
  omega

/-- Takes extensions from the queue until there are none. -/
def search (pool : EdgePool) (maxExtSize : ℕ) (queue extensions : List Extension) :
    List Extension :=
  match queue with
  | [] => extensions
  | x :: queue =>
    let s := expand pool maxExtSize x queue extensions
    search pool maxExtSize s.queue s.extensions
termination_by weight pool queue
decreasing_by exact weight_expand pool maxExtSize x queue extensions

/-- The hints of an observation that was seen with some linearizations. -/
def observationHints (obs : Observation) (lins : List Linearization) (maxExtSize : ℕ) :
    List Hint :=
  let start := Extension.ofObservation obs
  (search (calculateEdgePool obs lins start) maxExtSize [start] []).map Extension.toHint

namespace Specification

/-- `calculateObservationHints`. -/
def calculateObservationHints (spec : Specification) (obs : Observation) : Option (List Hint) :=
  (spec.lookupSync obs).map fun r => observationHints obs r.lins.vset spec.maxExtSize

end Specification

/-! ## What hints are for -/

/-- No pair of happens-before is the wrong way round in a linearization. -/
def Linearization.Respects (lin : Linearization) (hb : VSet CallEdge) : Prop :=
  ∀ p ∈ hb, lin.isBefore p.second p.first = false

/-- Happens-before with some extension edges, over the begins and ends of calls. -/
inductive HbExt (obs : Observation) (E : Set CallEdge) : ℕ → ℕ → Prop
  | call {id : ℕ} (h : id < obs.getNumOps) : HbExt obs E (toBeginExtEvent id) (toEndExtEvent id)
  | hb {p : CallEdge} (h : p ∈ obs.hb) :
      HbExt obs E (toBeginExtEvent p.first) (toEndExtEvent p.second)
  | ext {p : CallEdge} (h : p ∈ E) :
      HbExt obs E (toEndExtEvent p.first) (toBeginExtEvent p.second)

/-- Edges that a linearization does not respect. -/
def Contradicts (E : Set CallEdge) (lin : Linearization) : Prop :=
  ∃ p ∈ E, lin.isBefore p.second p.first = true

/-- Edges that follow from happens-before and other edges. -/
def Implied (obs : Observation) (E E' : Set CallEdge) : Prop :=
  ∀ p ∈ E, TransGen (HbExt obs E') (toEndExtEvent p.first) (toBeginExtEvent p.second)

/-- Happens-before edges and extension edges are between calls of the observation. -/
def Observation.InRange (obs : Observation) (E : Set CallEdge) : Prop :=
  ∀ p ∈ E, p.first < obs.getNumOps ∧ p.second < obs.getNumOps

end GenMC
