import GenMC.ADT.VSet
import Mathlib.Data.List.Lex
import Mathlib.Data.Prod.Lex
import Mathlib.Data.String.Basic

/-!
# Observations and linearizations

What the linearizability checker keeps of an execution: the method calls with their values, the
reads-from edges of the client and the happens-before edges between calls (`Observation`), and the
order in which the calls took the global lock (`Linearization`).

Two observations are equal when they have the same calls and reads-from edges; happens-before is
compared separately.  `Observation.key` is all three, and `Observation.eq_and_hasSameHb_iff` says
that the two comparisons together compare it.  The hash looks at less than equality does, but at
nothing else (`Observation.hash_congr`), which is what a hash map asks of it.
-/

set_option autoImplicit false

namespace GenMC

/-- A pair, ordered by its first component and then by its second. -/
@[ext] structure Pair (α β : Type*) where
  first : α
  second : β
deriving DecidableEq, Repr, Inhabited

namespace Pair

variable {α β : Type*}

def toLexProd (p : Pair α β) : α ×ₗ β := toLex (p.first, p.second)

theorem toLexProd_injective : Function.Injective (toLexProd (α := α) (β := β)) := by
  intro p q h
  have hpair : (p.first, p.second) = (q.first, q.second) := toLex.injective h
  exact Pair.ext (congrArg Prod.fst hpair) (congrArg Prod.snd hpair)

instance [LinearOrder α] [LinearOrder β] : LinearOrder (Pair α β) :=
  LinearOrder.lift' toLexProd toLexProd_injective

end Pair

/-- The part of a method call that is compared. -/
structure Call where
  name : String
  argVal : ℤ
  retVal : ℤ
deriving DecidableEq, Repr, Inhabited

/-- A method call.  Its id is its index among the calls of its observation. -/
structure MethodCall extends Call where
  /-- The kind of the calling thread, and the number of the copy. -/
  thdKC : ℤ × ℤ := (0, 0)
deriving DecidableEq, Repr, Inhabited

/-- An edge from one call to another, by their ids. -/
abbrev CallEdge := Pair ℕ ℕ

/-- The projection of an execution to its method calls. -/
structure Observation where
  ops : List MethodCall
  /-- Reads-from on the side of the client. -/
  rfs : VSet (Pair ℤ ℤ) := ⟨[]⟩
  /-- Happens-before between calls. -/
  hb : VSet CallEdge := ⟨[]⟩
deriving DecidableEq, Repr, Inhabited

namespace Observation

def getNumOps (obs : Observation) : ℕ := obs.ops.length

def ids (obs : Observation) : List ℕ := List.range obs.getNumOps

def getCall (obs : Observation) (id : ℕ) : MethodCall := obs.ops.getD id default

/-- `operator==`. -/
def eq (obs other : Observation) : Bool :=
  obs.ops.map (·.toCall) = other.ops.map (·.toCall) && obs.rfs = other.rfs

def hasSameHb (obs other : Observation) : Bool := obs.hb = other.hb

/-- Whether this observation is refined by another one. -/
def isRefinedBy (obs other : Observation) : Bool := obs.eq other && obs.hb.subsetOf other.hb

/-- Calls, reads-from and happens-before. -/
def key (obs : Observation) : List Call × VSet (Pair ℤ ℤ) × VSet CallEdge :=
  (obs.ops.map (·.toCall), obs.rfs, obs.hb)

theorem eq_iff {obs other : Observation} :
    obs.eq other = true ↔ obs.ops.map (·.toCall) = other.ops.map (·.toCall) ∧
      obs.rfs = other.rfs := by
  rw [eq, Bool.and_eq_true, decide_eq_true_eq, decide_eq_true_eq]

theorem eq_and_hasSameHb_iff {obs other : Observation} :
    (obs.eq other && obs.hasSameHb other) = true ↔ obs.key = other.key := by
  rw [Bool.and_eq_true, eq_iff, hasSameHb, decide_eq_true_eq, key, key, Prod.mk.injEq,
    Prod.mk.injEq, and_assoc]

/-- `hash_combine`, for a given hash of integers. -/
def hashCombine (hashInt : ℤ → UInt64) (seed : UInt64) (v : ℤ) : UInt64 :=
  seed ^^^ (hashInt v + (0x9e3779b9 : UInt64) + (seed <<< (6 : UInt64)) + (seed >>> (2 : UInt64)))

/-- `std::hash<Observation>`. -/
def hash (hashInt : ℤ → UInt64) (obs : Observation) : UInt64 :=
  obs.rfs.vset.foldl
    (fun seed rf => hashCombine hashInt (hashCombine hashInt seed rf.first) rf.second)
    (obs.ops.foldl (fun seed call => hashCombine hashInt seed call.retVal) 0)

/-- Equal observations have the same hash, so that the entries of a hash map that are equal to an
observation are all in its bucket. -/
theorem hash_congr (hashInt : ℤ → UInt64) {obs other : Observation} (h : obs.eq other = true) :
    obs.hash hashInt = other.hash hashInt := by
  obtain ⟨hops, hrfs⟩ := eq_iff.1 h
  have hret : ∀ ops : List MethodCall,
      ops.foldl (fun seed call => hashCombine hashInt seed call.retVal) 0 =
        (ops.map (·.toCall)).foldl (fun seed call => hashCombine hashInt seed call.retVal) 0 :=
    fun ops => by rw [List.foldl_map]
  rw [hash, hash, hret, hret, hops, hrfs]

end Observation

/-- A total order of method calls. -/
@[ext] structure Linearization where
  lin : List ℕ
deriving DecidableEq, Repr, Inhabited

namespace Linearization

/-- Linearizations are compared as vectors; the index map is a function of the vector. -/
instance : LinearOrder Linearization :=
  LinearOrder.lift' lin fun _ _ => Linearization.ext

/-- The index of each call in the order. -/
def order (l : Linearization) : List ℕ :=
  (List.range l.lin.length).foldl (fun order i => order.set (l.lin.getD i 0) i)
    (List.replicate l.lin.length 0)

def getIndex (l : Linearization) (id : ℕ) : ℕ := l.order.getD id 0

def isBefore (l : Linearization) (id₁ id₂ : ℕ) : Bool := l.getIndex id₁ < l.getIndex id₂

end Linearization

end GenMC
