import GenMC.Passes.IR

/-!
# Functions that work with pointers

Functions in SSA form, as far as the analyses of pointers look at them.  An instruction is known by
its place, which is also the register of its result.  Memory consists of objects, and a pointer is
an object with an offset, so that an address can only be made from one of the same object.

A run is not alone: at any time, what is outside the function may write what it has got hold of to
any memory it has got hold of (`EnvStep`), and a call to a function that is not known does so before
it returns something.  A call that allocates returns a new object, of which nothing is known outside
unless the function that is called has made it known itself, or something else that is known there,
such as null.

* `Reach` says which objects can be got hold of outside: those that were not allocated by the
  function, those whose addresses were passed to a call or returned, and the ones that these point
  to.
* `Step` is a step of a run.  All branches are possible, and so is every result of an instruction
  whose value does not depend on memory alone.
-/

set_option autoImplicit false

namespace GenMC
namespace PointerIR

/-! ## Instructions -/

/-- Operands. -/
inductive Opd
  | const (n : ℤ)
  | global (g : ℕ)
  | arg (i : ℕ)
  | inst (l : Loc)
deriving DecidableEq

/-- What is known about the function that a call is to. -/
inductive Callee
  /-- An internal function without effects. -/
  | clean
  /-- An internal allocation function, or a function that returns an allocation. -/
  | alloc
  | other
deriving DecidableEq

/-- Instructions. -/
inductive Op
  | alloca
  /-- A cast, which is one between pointers or not. -/
  | cast (ptr : Bool) (v : Opd)
  | gep (ptr : Opd) (idx : List Opd)
  | phi (incoming : List (ℕ × Opd))
  | load (ptr : Opd)
  | store (v ptr : Opd)
  | cmpXchg (ptr cmp new : Opd)
  | rmw (ptr v : Opd)
  | call (callee : Callee) (args : List Opd)
  | invoke (args : List Opd) (targets : List ℕ)
  | ret (v : Option Opd)
  | br (cond : List Opd) (targets : List ℕ)
  /-- An instruction without effects other than its result. -/
  | other (ops : List Opd)

namespace Op

def operands : Op → List Opd
  | alloca => []
  | cast _ v => [v]
  | gep ptr idx => ptr :: idx
  | phi incoming => incoming.map (·.2)
  | load ptr => [ptr]
  | store v ptr => [v, ptr]
  | cmpXchg ptr cmp new => [ptr, cmp, new]
  | rmw ptr v => [ptr, v]
  | call _ args => args
  | invoke args _ => args
  | ret v => v.toList
  | br cond _ => cond
  | other ops => ops

/-- What is cast, or what a GEP goes from. -/
def base : Op → Option Opd
  | cast _ v => some v
  | gep ptr _ => some ptr
  | _ => none

/-- Where a run goes on, unless that is the next instruction. -/
def targets : Op → Option (List ℕ)
  | invoke _ targets => some targets
  | ret _ => some []
  | br _ targets => some targets
  | _ => none

end Op

/-- The instruction at a place. -/
def opAt (blocks : List (List Op)) (l : Loc) : Option Op := blocks[l.block]?.bind fun b => b[l.idx]?

/-- The places of all instructions. -/
def allLocs (blocks : List (List Op)) : List Loc :=
  (List.range blocks.length).flatMap fun b =>
    (List.range (blocks[b]?.getD []).length).map fun i => ⟨b, i⟩

/-- A function.  A definition dominates its uses, so that the instructions can be numbered such that
what is cast has a smaller number than the cast. -/
structure Func where
  blocks : List (List Op)
  rank : Loc → ℕ
  rank_lt : ∀ l ∈ allLocs blocks, ∀ l', (opAt blocks l).bind Op.base = some (.inst l') →
    rank l' < rank l

theorem mem_allLocs {blocks : List (List Op)} {l : Loc} :
    l ∈ allLocs blocks ↔ (opAt blocks l).isSome := by
  rw [allLocs, List.mem_flatMap]
  refine ⟨?_, fun h => ?_⟩
  · rintro ⟨b, -, h⟩
    obtain ⟨i, hi, rfl⟩ := List.mem_map.1 h
    rw [List.mem_range] at hi
    rw [opAt]
    cases hb : blocks[b]? with
    | none =>
      rw [hb] at hi
      exact absurd hi (Nat.not_lt_zero i)
    | some ops =>
      rw [hb] at hi
      change ops[i]?.isSome
      rw [List.getElem?_eq_getElem (show i < ops.length from hi)]
      rfl
  · rw [opAt] at h
    cases hb : blocks[l.block]? with
    | none =>
      rw [hb] at h
      cases h
    | some ops =>
      rw [hb] at h
      obtain ⟨op, hop⟩ := Option.isSome_iff_exists.1 h
      have hidx : l.idx < (blocks[l.block]?.getD []).length := by
        rw [hb]
        exact (List.getElem?_eq_some_iff.1 hop).1
      exact ⟨l.block, List.mem_range.2 (List.getElem?_eq_some_iff.1 hb).1,
        List.mem_map.2 ⟨l.idx, List.mem_range.2 hidx, rfl⟩⟩

namespace Func

def at? (F : Func) (l : Loc) : Option Op := opAt F.blocks l

def locs (F : Func) : List Loc := allLocs F.blocks

theorem mem_locs {F : Func} {l : Loc} {op : Op} (h : F.at? l = some op) : l ∈ F.locs :=
  mem_allLocs.2 (Option.isSome_iff_exists.2 ⟨op, h⟩)

theorem rank_lt_of_base {F : Func} {l l' : Loc} {op : Op} (h : F.at? l = some op)
    (hb : op.base = some (.inst l')) : F.rank l' < F.rank l :=
  F.rank_lt l (mem_locs h) l' (by
    rw [show opAt F.blocks l = some op from h]
    exact hb)

/-- The instructions that have the result of another one for an operand. -/
def users (F : Func) (l : Loc) : List Loc :=
  F.locs.filter fun u => (F.at? u).any fun op => decide (.inst l ∈ op.operands)

theorem mem_users {F : Func} {l u : Loc} {op : Op} (h : F.at? u = some op)
    (hop : .inst l ∈ op.operands) : u ∈ F.users l :=
  List.mem_filter.2 ⟨mem_locs h, by
    rw [h]
    exact decide_eq_true hop⟩

end Func

/-! ## Values and memory -/

inductive Val
  | int (n : ℤ)
  | ptr (o : ℕ) (off : ℤ)
deriving DecidableEq

/-- The object of a pointer has a property. -/
def Val.All (P : ℕ → Prop) : Val → Prop
  | int _ => True
  | ptr o _ => P o

theorem Val.All.imp {P Q : ℕ → Prop} {v : Val} (h : v.All P) (hPQ : ∀ o, P o → Q o) : v.All Q := by
  cases v with
  | int n => trivial
  | ptr o off => exact hPQ o h

theorem Val.All.and {P Q : ℕ → Prop} {v : Val} (h : v.All P) (h' : v.All Q) :
    v.All fun o => P o ∧ Q o := by
  cases v with
  | int n => trivial
  | ptr o off => exact ⟨h, h'⟩

/-- A value that is computed from others: an integer, or an address in the object of one of them. -/
def Derived (vals : List Val) (v : Val) : Prop :=
  v.All fun o => ∃ off, .ptr o off ∈ vals

theorem Derived.all {P : ℕ → Prop} {vals : List Val} {v : Val} (h : Derived vals v)
    (hvals : ∀ w ∈ vals, w.All P) : v.All P :=
  Val.All.imp h fun _ ⟨_, hmem⟩ => hvals _ hmem

/-- What a function gets from outside: the values of globals and of arguments, which are about
objects that exist before the call. -/
structure Context where
  global : ℕ → Val
  arg : ℕ → Val
  count : ℕ
  global_lt : ∀ g, (global g).All (· < count)
  arg_lt : ∀ i, (arg i).All (· < count)

/-- The state of a run. -/
structure State where
  regs : Loc → Val
  mem : ℕ → ℤ → Val
  /-- The instruction that allocated an object. -/
  site : ℕ → Option Loc
  /-- The number of objects that exist. -/
  next : ℕ
  /-- What was passed to calls or returned. -/
  published : List Val

def Opd.value (ctx : Context) (s : State) : Opd → Val
  | const n => .int n
  | global g => ctx.global g
  | arg i => ctx.arg i
  | inst l => s.regs l

namespace State

def set (l : Loc) (v : Val) (s : State) : State := { s with regs := Function.update s.regs l v }

def write (o : ℕ) (off : ℤ) (v : Val) (s : State) : State :=
  { s with mem := Function.update s.mem o (Function.update (s.mem o) off v) }

/-- A new object for an instruction. -/
def alloc (l : Loc) (s : State) : State :=
  { s with
    regs := Function.update s.regs l (.ptr s.next 0)
    site := Function.update s.site s.next (some l)
    next := s.next + 1 }

def publish (vals : List Val) (s : State) : State := { s with published := vals ++ s.published }

section

variable (s : State) (l l' : Loc) (v : Val) (o o' : ℕ) (off off' : ℤ)

theorem regs_set : (s.set l v).regs l' = if l' = l then v else s.regs l' := Function.update_apply ..

theorem mem_write :
    (s.write o off v).mem o' off' = if o' = o ∧ off' = off then v else s.mem o' off' := by
  change Function.update s.mem o (Function.update (s.mem o) off v) o' off' = _
  by_cases ho : o' = o
  · rw [ho, Function.update_self, Function.update_apply]
    simp
  · rw [Function.update_of_ne ho, if_neg fun h => ho h.1]

theorem regs_alloc : (s.alloc l).regs l' = if l' = l then .ptr s.next 0 else s.regs l' :=
  Function.update_apply ..

theorem site_alloc : (s.alloc l).site o = if o = s.next then some l else s.site o :=
  Function.update_apply ..

end

end State

/-- The objects that can be got hold of outside the function. -/
inductive Reach (s : State) : ℕ → Prop
  | outside {o : ℕ} (ho : o < s.next) (hs : s.site o = none) : Reach s o
  | published {o : ℕ} {off : ℤ} (h : .ptr o off ∈ s.published) : Reach s o
  | mem {o o' : ℕ} {off off' : ℤ} (h : Reach s o) (hm : s.mem o off = .ptr o' off') : Reach s o'

/-- What may happen outside the function. -/
inductive EnvStep (s : State) : State → Prop
  | write {o : ℕ} {off : ℤ} {v : Val} (ho : Reach s o) (hv : v.All (Reach s)) :
      EnvStep s (s.write o off v)
  | create : EnvStep s { s with next := s.next + 1 }

/-! ## Runs -/

section Runs

variable (F : Func) (ctx : Context)

/-- What an instruction does, apart from where the run goes on. -/
inductive Effect (l : Loc) (s : State) : Op → State → Prop
  | alloca : Effect l s .alloca (s.alloc l)
  | cast {ptr : Bool} {v : Opd} : Effect l s (.cast ptr v) (s.set l (v.value ctx s))
  | gep {ptr : Opd} {idx : List Opd} {v : Val} (h : Derived [ptr.value ctx s] v) :
      Effect l s (.gep ptr idx) (s.set l v)
  | phi {incoming : List (ℕ × Opd)} : Effect l s (.phi incoming) s
  | load {ptr : Opd} {o : ℕ} {off : ℤ} (h : ptr.value ctx s = .ptr o off) :
      Effect l s (.load ptr) (s.set l (s.mem o off))
  | store {v ptr : Opd} {o : ℕ} {off : ℤ} (h : ptr.value ctx s = .ptr o off) :
      Effect l s (.store v ptr) (s.write o off (v.value ctx s))
  | cmpXchg {ptr cmp new : Opd} {o : ℕ} {off : ℤ} (h : ptr.value ctx s = .ptr o off)
      (heq : s.mem o off = cmp.value ctx s) :
      Effect l s (.cmpXchg ptr cmp new) ((s.write o off (new.value ctx s)).set l (s.mem o off))
  | cmpXchg_fail {ptr cmp new : Opd} {o : ℕ} {off : ℤ} (h : ptr.value ctx s = .ptr o off)
      (hne : s.mem o off ≠ cmp.value ctx s) :
      Effect l s (.cmpXchg ptr cmp new) (s.set l (s.mem o off))
  | rmw {ptr v : Opd} {o : ℕ} {off : ℤ} {w : Val} (h : ptr.value ctx s = .ptr o off)
      (hw : Derived [s.mem o off, v.value ctx s] w) :
      Effect l s (.rmw ptr v) ((s.write o off w).set l (s.mem o off))
  | clean {args : List Opd} {v : Val} (h : Derived (args.map (·.value ctx s)) v) :
      Effect l s (.call .clean args) (s.set l v)
  | allocCall {args : List Opd} {s' : State}
      (h : Relation.ReflTransGen EnvStep (s.publish (args.map (·.value ctx s))) s') :
      Effect l s (.call .alloc args) (s'.alloc l)
  /-- The function that is called publishes the new object before it returns it. -/
  | allocPublished {args : List Opd} {s' s'' : State}
      (h : Relation.ReflTransGen EnvStep (s.publish (args.map (·.value ctx s))) s')
      (h' : Relation.ReflTransGen EnvStep ((s'.alloc l).publish [.ptr s'.next 0]) s'') :
      Effect l s (.call .alloc args) s''
  | call {callee : Callee} {args : List Opd} {s' : State} {v : Val} (hc : callee ≠ .clean)
      (h : Relation.ReflTransGen EnvStep (s.publish (args.map (·.value ctx s))) s')
      (hv : v.All (Reach s')) : Effect l s (.call callee args) (s'.set l v)
  | invoke {args : List Opd} {targets : List ℕ} {s' : State} {v : Val}
      (h : Relation.ReflTransGen EnvStep (s.publish (args.map (·.value ctx s))) s')
      (hv : v.All (Reach s')) : Effect l s (.invoke args targets) (s'.set l v)
  | ret {v : Option Opd} :
      Effect l s (.ret v) (s.publish (v.toList.map (·.value ctx s)))
  | br {cond : List Opd} {targets : List ℕ} : Effect l s (.br cond targets) s
  | other {ops : List Opd} {v : Val} (h : Derived (ops.map (·.value ctx s)) v) :
      Effect l s (.other ops) (s.set l v)

/-- The value and the pointer of a write that an instruction does. -/
inductive Writes (s : State) : Op → Opd → Opd → Prop
  | store {v ptr : Opd} : Writes s (.store v ptr) v ptr
  | cmpXchg {ptr cmp new : Opd} {o : ℕ} {off : ℤ} (h : ptr.value ctx s = .ptr o off)
      (heq : s.mem o off = cmp.value ctx s) : Writes s (.cmpXchg ptr cmp new) new ptr
  | rmw {ptr v : Opd} : Writes s (.rmw ptr v) v ptr

/-- Assigns all φs of a block at once, for a run that comes from another block. -/
def enter (pred target : ℕ) (s : State) : State :=
  { s with regs := fun l =>
      if l.block = target then
        match F.at? l with
        | some (.phi incoming) =>
          match incoming.find? fun p => p.1 = pred with
          | some p => p.2.value ctx s
          | none => s.regs l
        | _ => s.regs l
      else s.regs l }

/-- The instruction at a place, and what is outside the function, take the next step.  After a
return there is no place left. -/
inductive Step : Option Loc × State → Option Loc × State → Prop
  | seq {l : Loc} {s s' : State} {op : Op} (hop : F.at? l = some op) (ht : op.targets = none)
      (he : Effect ctx l s op s') : Step (some l, s) (some ⟨l.block, l.idx + 1⟩, s')
  | jump {l : Loc} {s s' : State} {op : Op} {targets : List ℕ} {target : ℕ}
      (hop : F.at? l = some op) (ht : op.targets = some targets) (hmem : target ∈ targets)
      (he : Effect ctx l s op s') :
      Step (some l, s) (some ⟨target, 0⟩, enter F ctx l.block target s')
  | ret {l : Loc} {s s' : State} {v : Option Opd} (hop : F.at? l = some (.ret v))
      (he : Effect ctx l s (.ret v) s') : Step (some l, s) (none, s')
  | env {pc : Option Loc} {s s' : State} (h : EnvStep s s') : Step (pc, s) (pc, s')

/-- The state at a call: nothing was computed or allocated yet. -/
structure Initial (s : State) : Prop where
  regs : ∀ l, ∃ n, s.regs l = .int n
  mem : ∀ o off, (s.mem o off).All (· < ctx.count)
  site : ∀ o, s.site o = none
  next : s.next = ctx.count
  published : s.published = []

end Runs

end PointerIR
end GenMC
