import GenMC.ADT.IntervalMap
import GenMC.Execution.Event
import GenMC.Support.SAddrAllocator

/-!
# Allocations of an execution

The state of an execution keeps an allocator and a map from addresses to the allocation that they
belong to.  An exploration runs the same threads many times in different orders, and it replays
graphs whose events hold addresses of earlier runs; so an address may depend on what its thread has
allocated before, and on nothing else.

* `ExecutionState.run_thread`: the allocations of one thread in a run are those of the thread alone.
* `ExecutionState.addressesOf_eq`: **addresses do not depend on the order of the threads.**

An operation is `none` when one of its checks fails.  The ranges of the static variables and the
initial values are left out, as no allocation reads them.
-/

set_option autoImplicit false

namespace GenMC.Storage

inductive StorageType where
  | volatile | durable
deriving DecidableEq, Repr

inductive AddressSpace where
  | user | internal
deriving DecidableEq, Repr

/-- An access: an address and a size. -/
structure AAccess where
  addr : SAddr
  size : Width
deriving DecidableEq, Repr

/-- What is known about an allocation. -/
structure AllocInfo where
  pos : Event
  access : AAccess
  alignment : BitVec 32
  freePos : Option Event
  isRetire : Bool
deriving DecidableEq, Repr

/-- The part of the state of an execution that allocations use.  A value of the map that was
constructed by default, whose position is not one of an event, is `none`. -/
structure ExecutionState where
  alloctor : SAddrAllocator
  allocInfoMap : IntervalMap SAddr (Option AllocInfo)

namespace ExecutionState

open SAddrAllocator

/-- The state that an exploration starts with. -/
def init : ExecutionState := ⟨SAddrAllocator.init, .empty none⟩

/-- A new static address.  Static variables belong to thread 0. -/
def addStaticRange (s : ExecutionState) (size alignment : Width) (persistent internal : Bool) :
    Option (SAddr × ExecutionState) :=
  (s.alloctor.allocStatic 0 size alignment persistent internal).map fun p =>
    (p.1, { s with alloctor := p.2 })

/-- A new automatic or heap address. -/
def getFreshAddr (tid : BitVec 32) (size alignment : Width) (sdur : StorageDuration)
    (styp : StorageType) (spc : AddressSpace) (alloctor : SAddrAllocator) :
    Option (SAddr × SAddrAllocator) :=
  if 0 < alignment ∧ alignment &&& (alignment - 1) = 0 then
    match sdur with
    | .automatic => alloctor.allocAutomatic tid size alignment (styp == .durable) (spc == .internal)
    | .heap => alloctor.allocHeap tid size alignment (styp == .durable) (spc == .internal)
    -- unreachable: there are no fresh static addresses
    | .static => none
  else none

def onAlloc (s : ExecutionState) (pos : Event) (size alignment : Width) (sdur : StorageDuration)
    (styp : StorageType) (spc : AddressSpace) : Option (SAddr × ExecutionState) := do
  let (addr, alloctor) ←
    getFreshAddr (BitVec.ofNat 32 pos.thread) size alignment sdur styp spc s.alloctor
  let access : AAccess := ⟨addr, size⟩
  if (s.allocInfoMap.find access.addr).isSome then none
  else
    let info : AllocInfo := ⟨pos, access, alignment.setWidth 32, none, false⟩
    some (addr,
      { alloctor := alloctor
        allocInfoMap :=
          s.allocInfoMap.add access.addr ⟨access.addr.addr + access.size⟩ (some info)
            fun _ _ => some info })

/-- The allocation operations. -/
inductive AllocOp where
  | addStaticRange (size alignment : Width) (persistent internal : Bool)
  | onAlloc (pos : Event) (size alignment : Width) (sdur : StorageDuration) (styp : StorageType)
      (spc : AddressSpace)
deriving DecidableEq, Repr

namespace AllocOp

/-- The thread, the kind, the size, the alignment and the flags of an allocation. -/
def request : AllocOp → Request
  | .addStaticRange size alignment persistent internal =>
    ⟨.static, 0, size, alignment, persistent, internal⟩
  | .onAlloc pos size alignment sdur styp spc =>
    ⟨sdur, BitVec.ofNat 32 pos.thread, size, alignment, styp == .durable, spc == .internal⟩

end AllocOp

def perform (s : ExecutionState) : AllocOp → Option (SAddr × ExecutionState)
  | .addStaticRange size alignment persistent internal =>
    s.addStaticRange size alignment persistent internal
  | .onAlloc pos size alignment sdur styp spc => s.onAlloc pos size alignment sdur styp spc

/-- A run of allocation operations, with the addresses that they return. -/
def run (s : ExecutionState) : List AllocOp → Option (List SAddr × ExecutionState)
  | [] => some ([], s)
  | op :: ops => do
    let (addr, s') ← s.perform op
    let (addrs, s'') ← s'.run ops
    some (addr :: addrs, s'')

/-- What a thread asks for in a run, in order. -/
def requestsOf (t : BitVec 32) (ops : List AllocOp) : List Request :=
  (ops.map AllocOp.request).filter (·.thread = t)

/-- The addresses that a thread gets in a run, in order. -/
def addressesOf (t : BitVec 32) (ops : List AllocOp) (addrs : List SAddr) : List SAddr :=
  ((ops.zip addrs).filter (·.1.request.thread = t)).map (·.2)

/-! ## Operations and the allocator -/

/-- An operation that succeeds is one allocation. -/
theorem alloc_of_perform {s s' : ExecutionState} {op : AllocOp} {addr : SAddr}
    (h : s.perform op = some (addr, s')) :
    s.alloctor.alloc op.request = some (addr, s'.alloctor) := by
  cases op with
  | addStaticRange size alignment persistent internal =>
    rw [perform, addStaticRange, Option.map_eq_some_iff] at h
    obtain ⟨⟨addr', a'⟩, halloc, heq⟩ := h
    obtain ⟨rfl, rfl⟩ := Prod.mk.injEq .. ▸ heq
    exact halloc
  | onAlloc pos size alignment sdur styp spc =>
    rw [perform, onAlloc, Option.bind_eq_bind, Option.bind_eq_some_iff] at h
    obtain ⟨⟨addr', a'⟩, hfresh, hrest⟩ := h
    have hres : addr' = addr ∧ a' = s'.alloctor := by
      dsimp only at hrest
      split at hrest
      · cases hrest
      · obtain ⟨rfl, rfl⟩ := Prod.mk.injEq .. ▸ Option.some.inj hrest
        exact ⟨rfl, rfl⟩
    obtain ⟨rfl, rfl⟩ := hres
    rw [getFreshAddr.eq_def] at hfresh
    split at hfresh
    · cases sdur with
      | static => cases hfresh
      | automatic => exact hfresh
      | heap => exact hfresh
    · cases hfresh

/-- What is recorded for an allocation that succeeds. -/
theorem onAlloc_spec {s s' : ExecutionState} {pos : Event} {size alignment : Width}
    {sdur : StorageDuration} {styp : StorageType} {spc : AddressSpace} {addr : SAddr}
    (h : s.onAlloc pos size alignment sdur styp spc = some (addr, s')) :
    sdur ≠ .static ∧ (0 < alignment ∧ alignment &&& (alignment - 1) = 0) ∧
      s'.allocInfoMap = s.allocInfoMap.add addr ⟨addr.addr + size⟩
        (some ⟨pos, ⟨addr, size⟩, alignment.setWidth 32, none, false⟩)
        fun _ _ => some ⟨pos, ⟨addr, size⟩, alignment.setWidth 32, none, false⟩ := by
  rw [onAlloc, Option.bind_eq_bind, Option.bind_eq_some_iff] at h
  obtain ⟨⟨addr', a'⟩, hfresh, hrest⟩ := h
  dsimp only at hrest
  split at hrest
  · cases hrest
  obtain ⟨rfl, rfl⟩ := Prod.mk.injEq .. ▸ Option.some.inj hrest
  rw [getFreshAddr.eq_def] at hfresh
  split at hfresh
  · refine ⟨?_, ‹_ ∧ _›, rfl⟩
    rintro rfl
    cases hfresh
  · cases hfresh

end ExecutionState

namespace SAddrAllocator

/-- Two allocators have the same pools for a thread. -/
structure Agree (t : BitVec 32) (a b : SAddrAllocator) : Prop where
  staticPool : a.staticPool t = b.staticPool t
  dynamicPool : a.dynamicPool t = b.dynamicPool t

/-- An allocation leaves the pools of other threads alone. -/
theorem agree_alloc_of_ne {a a' : SAddrAllocator} {r : Request} {addr : SAddr} {t : BitVec 32}
    (h : a.alloc r = some (addr, a')) (ht : r.thread ≠ t) : Agree t a a' := by
  rw [alloc_eq, Option.map_eq_some_iff] at h
  obtain ⟨⟨addr', w⟩, -, heq⟩ := h
  obtain ⟨-, rfl⟩ := Prod.mk.injEq .. ▸ heq
  rw [setPool]
  split
  · exact ⟨(Function.update_of_ne (Ne.symm ht) ..).symm, rfl⟩
  · exact ⟨rfl, (Function.update_of_ne (Ne.symm ht) ..).symm⟩

/-- An allocation depends on the pools of its thread only. -/
theorem agree_alloc {a a' b : SAddrAllocator} {r : Request} {addr : SAddr}
    (h : a.alloc r = some (addr, a')) (hab : Agree r.thread a b) :
    ∃ b', b.alloc r = some (addr, b') ∧ Agree r.thread a' b' := by
  have hpool : a.pool r = b.pool r := by
    rw [pool, pool]
    split
    · exact hab.staticPool
    · exact hab.dynamicPool
  rw [alloc_eq, Option.map_eq_some_iff] at h
  obtain ⟨⟨addr', w⟩, halloc, heq⟩ := h
  obtain ⟨rfl, rfl⟩ := Prod.mk.injEq .. ▸ heq
  refine ⟨b.setPool r w, ?_, ?_⟩
  · rw [alloc_eq, ← hpool, halloc]
    rfl
  · rw [setPool, setPool]
    split
    · exact ⟨by simp, hab.dynamicPool⟩
    · exact ⟨hab.staticPool, by simp⟩

end SAddrAllocator

namespace ExecutionState

open SAddrAllocator

/-! ## The allocations of one thread -/

/-- The allocations of a thread in a run are those of the thread alone. -/
theorem run_thread {t : BitVec 32} (ops : List AllocOp) :
    ∀ {s s' : ExecutionState} {a : SAddrAllocator} {addrs : List SAddr},
      Agree t s.alloctor a → s.run ops = some (addrs, s') →
      ∃ a', a.allocs (requestsOf t ops) = some (addressesOf t ops addrs, a') := by
  induction ops with
  | nil =>
    intro s s' a addrs _ h
    obtain ⟨rfl, rfl⟩ := Prod.mk.injEq .. ▸ Option.some.inj h
    exact ⟨a, rfl⟩
  | cons op ops ih =>
    intro s s' a addrs hag h
    rw [run, Option.bind_eq_bind, Option.bind_eq_some_iff] at h
    obtain ⟨⟨addr, s₁⟩, hperform, hrest⟩ := h
    rw [Option.bind_eq_bind, Option.bind_eq_some_iff] at hrest
    obtain ⟨⟨addrs', s₂⟩, hrun, heq⟩ := hrest
    obtain ⟨rfl, rfl⟩ := Prod.mk.injEq .. ▸ Option.some.inj heq
    have halloc := alloc_of_perform hperform
    by_cases ht : op.request.thread = t
    · obtain ⟨a₁, ha₁, hag₁⟩ := agree_alloc halloc (ht ▸ hag)
      obtain ⟨a', ha'⟩ := ih (ht ▸ hag₁) hrun
      refine ⟨a', ?_⟩
      have hreq : requestsOf t (op :: ops) = op.request :: requestsOf t ops := by
        simp [requestsOf, ht]
      have haddr : addressesOf t (op :: ops) (addr :: addrs') =
          addr :: addressesOf t ops addrs' := by
        simp [addressesOf, ht]
      rw [hreq, haddr]
      simp [allocs, ha₁, ha']
    · have hag₁ := agree_alloc_of_ne halloc ht
      obtain ⟨a', ha'⟩ :=
        ih ⟨hag₁.staticPool ▸ hag.staticPool, hag₁.dynamicPool ▸ hag.dynamicPool⟩ hrun
      refine ⟨a', ?_⟩
      have hreq : requestsOf t (op :: ops) = requestsOf t ops := by
        simp [requestsOf, ht]
      have haddr : addressesOf t (op :: ops) (addr :: addrs') = addressesOf t ops addrs' := by
        simp [addressesOf, ht]
      rw [hreq, haddr, ha']

/-- **Addresses do not depend on the order of the threads.**  When each thread performs the same
allocations in two runs, it gets the same addresses. -/
theorem addressesOf_eq {s s' s₁ s₁' : ExecutionState} (hs : s.alloctor = s'.alloctor)
    {ops ops' : List AllocOp} (hsame : ∀ t, requestsOf t ops = requestsOf t ops')
    {addrs addrs' : List SAddr} (h : s.run ops = some (addrs, s₁))
    (h' : s'.run ops' = some (addrs', s₁')) (t : BitVec 32) :
    addressesOf t ops addrs = addressesOf t ops' addrs' := by
  obtain ⟨a, ha⟩ := run_thread (t := t) ops ⟨rfl, rfl⟩ h
  obtain ⟨a', ha'⟩ := run_thread (t := t) ops' ⟨rfl, rfl⟩ h'
  rw [← hsame t, ← hs, ha] at ha'
  exact congrArg Prod.fst (Option.some.inj ha')

/-- Two threads allocate from the heap and from the stack. -/
def inOrder : List AllocOp :=
  [.onAlloc ⟨1, 1⟩ 6 4 .heap .volatile .user, .onAlloc ⟨1, 2⟩ 8 8 .automatic .volatile .user,
    .onAlloc ⟨2, 1⟩ 16 16 .heap .durable .user]

/-- The same threads, with the second one first. -/
def secondFirst : List AllocOp :=
  [.onAlloc ⟨2, 1⟩ 16 16 .heap .durable .user, .onAlloc ⟨1, 1⟩ 6 4 .heap .volatile .user,
    .onAlloc ⟨1, 2⟩ 8 8 .automatic .volatile .user]

theorem inOrder_secondFirst :
    ∃ addrs addrs' s s', init.run inOrder = some (addrs, s) ∧
      init.run secondFirst = some (addrs', s') ∧
      addressesOf 1 inOrder addrs = addressesOf 1 secondFirst addrs' := by
  have hsame : ∀ t, requestsOf t inOrder = requestsOf t secondFirst := by
    intro t
    by_cases h₁ : t = 1
    · subst h₁
      decide
    · by_cases h₂ : t = 2
      · subst h₂
        decide
      · have h₁' : ¬ 1#32 = t := Ne.symm h₁
        have h₂' : ¬ 2#32 = t := Ne.symm h₂
        simp [requestsOf, inOrder, secondFirst, AllocOp.request, h₁', h₂']
  obtain ⟨⟨addrs, s⟩, h⟩ : ∃ p, init.run inOrder = some p := ⟨_, rfl⟩
  obtain ⟨⟨addrs', s'⟩, h'⟩ : ∃ p, init.run secondFirst = some p := ⟨_, rfl⟩
  exact ⟨addrs, addrs', s, s', h, h', addressesOf_eq rfl hsame h h' 1⟩

end ExecutionState

end GenMC.Storage
