import GenMC.Support.SAddr
import Mathlib.Data.Set.Lattice
import Mathlib.Order.CompletePartialOrder
import Mathlib.Order.Interval.Set.Disjoint

/-!
# The allocator of addresses

Every thread has two pools of indices, one for static storage and one that automatic and heap
storage share.  `SAddrAllocator.allocate` rounds a pool up to the alignment, hands out the address
with that index and moves the pool past the end of the allocation.  All of this is arithmetic on
words of 64 bits, of which an index may take up 32.

* `SAddrAllocator.allocate_eq`: what `allocate` does, in numbers.
* `SAddrAllocator.allocs_disjoint`: **all addresses ever handed out are disjoint**, aligned and not
  null, they hold the thread and the storage class that asked for them, and an allocation that does
  not fit changes nothing.

A pool is a map from threads with a default value, 0 for the static pools and 1 for the others, so
that no heap address is null.
-/

set_option autoImplicit false

namespace GenMC.Storage

/-- The storage classes. -/
inductive StorageDuration where
  | static | automatic | heap
deriving DecidableEq, Repr

/-- The pools of an allocator. -/
structure SAddrAllocator where
  staticPool : BitVec 32 → Width
  dynamicPool : BitVec 32 → Width

namespace SAddrAllocator

open SAddr

/-- Pools that nothing was taken from. -/
def init : SAddrAllocator := ⟨fun _ => 0, fun _ => 1⟩

/-- Takes an address from a pool, `none` when a check fails.  The second component is what becomes
of the pool. -/
def allocate (allocFun : Width → Width → Bool → Bool → Option SAddr) (pool : Width)
    (thread : BitVec 32) (size alignment : Width) (isDurable isInternal : Bool) :
    Option (SAddr × Width) :=
  if size = 0 then none
  else
    -- an alignment of 0 is none
    let alignment := if alignment < 1 then 1 else alignment
    if alignment &&& (alignment - 1) ≠ 0 then none
    else
      let offset := alignment - 1
      let newAddr := (pool + offset) &&& ~~~offset
      if allocLimit ≤ newAddr + size ∨ newAddr < pool ∨ newAddr + size ≤ newAddr then
        some (null, pool)
      else
        (allocFun (thread.setWidth 64) newAddr isDurable isInternal).map (·, newAddr + size)

/-- One allocation. -/
structure Request where
  storage : StorageDuration
  thread : BitVec 32
  size : Width
  alignment : Width
  durable : Bool
  internal : Bool
deriving DecidableEq, Repr

def allocStatic (a : SAddrAllocator) (thread : BitVec 32) (size alignment : Width)
    (durable internal : Bool) : Option (SAddr × SAddrAllocator) :=
  (allocate createStatic (a.staticPool thread) thread size alignment durable internal).map
    fun p => (p.1, { a with staticPool := Function.update a.staticPool thread p.2 })

def allocAutomatic (a : SAddrAllocator) (thread : BitVec 32) (size alignment : Width)
    (durable internal : Bool) : Option (SAddr × SAddrAllocator) :=
  (allocate createAutomatic (a.dynamicPool thread) thread size alignment durable internal).map
    fun p => (p.1, { a with dynamicPool := Function.update a.dynamicPool thread p.2 })

def allocHeap (a : SAddrAllocator) (thread : BitVec 32) (size alignment : Width)
    (durable internal : Bool) : Option (SAddr × SAddrAllocator) :=
  (allocate createHeap (a.dynamicPool thread) thread size alignment durable internal).map
    fun p => (p.1, { a with dynamicPool := Function.update a.dynamicPool thread p.2 })

def alloc (a : SAddrAllocator) (r : Request) : Option (SAddr × SAddrAllocator) :=
  match r.storage with
  | .static => a.allocStatic r.thread r.size r.alignment r.durable r.internal
  | .automatic => a.allocAutomatic r.thread r.size r.alignment r.durable r.internal
  | .heap => a.allocHeap r.thread r.size r.alignment r.durable r.internal

/-- A sequence of allocations, with the addresses that they return. -/
def allocs (a : SAddrAllocator) : List Request → Option (List SAddr × SAddrAllocator)
  | [] => some ([], a)
  | r :: rs => do
    let (addr, a') ← a.alloc r
    let (addrs, a'') ← a'.allocs rs
    some (addr :: addrs, a'')

/-! ## Rounding up -/

/-- The next multiple of the alignment. -/
def roundUp (n alignment : ℕ) : ℕ := (n + (alignment - 1)) / alignment * alignment

theorem le_roundUp {alignment : ℕ} (h : 0 < alignment) (n : ℕ) : n ≤ roundUp n alignment := by
  rw [roundUp]
  have := Nat.div_add_mod (n + (alignment - 1)) alignment
  have := Nat.mod_lt (n + (alignment - 1)) h
  rw [Nat.mul_comm]
  omega

theorem roundUp_le (n alignment : ℕ) : roundUp n alignment ≤ n + (alignment - 1) :=
  Nat.div_mul_le_self ..

theorem dvd_roundUp (n alignment : ℕ) : alignment ∣ roundUp n alignment := Nat.dvd_mul_left ..

/-- Clearing the bits below an alignment. -/
theorem toNat_and_not {x y : Width} {k : ℕ} (hy : y.toNat = 2 ^ k - 1) :
    (x &&& ~~~y).toNat = x.toNat / 2 ^ k * 2 ^ k := by
  have hsum : (x &&& ~~~y) + (x &&& y) = x := by
    rw [BitVec.add_eq_or_of_and_eq_zero]
    · ext i
      simp only [BitVec.getElem_or, BitVec.getElem_and, BitVec.getElem_not]
      cases x[i] <;> cases y[i] <;> rfl
    · ext i
      simp only [BitVec.getElem_and, BitVec.getElem_not, BitVec.getElem_zero]
      cases x[i] <;> cases y[i] <;> rfl
  have hlow : (x &&& y).toNat = x.toNat % 2 ^ k := by
    rw [BitVec.toNat_and, hy, Nat.and_two_pow_sub_one_eq_mod]
  have hle : x.toNat % 2 ^ k ≤ x.toNat := Nat.mod_le ..
  have hsub : x &&& ~~~y = x - (x &&& y) := by rw [BitVec.eq_sub_iff_add_eq, hsum]
  have hdiv := Nat.div_add_mod x.toNat (2 ^ k)
  rw [hsub, BitVec.toNat_sub_of_le (BitVec.le_def.2 (hlow ▸ hle)), hlow, Nat.mul_comm]
  omega

/-! ## One allocation -/

namespace Request

/-- What an allocation may ask for. -/
structure Valid (r : Request) : Prop where
  thread : r.thread.setWidth 64 ≤ threadLimit
  size : 1 ≤ r.size.toNat
  alignment : ∃ k ≤ 32, r.alignment.toNat = 2 ^ k

/-- The upper half of the addresses of a request. -/
def upper (r : Request) : ℕ :=
  SAddr.upper (r.storage == .static) (r.storage == .automatic) r.internal r.durable r.thread.toNat

/-- The bytes of an allocation. -/
def bytes (r : Request) (addr : SAddr) : Set ℕ :=
  Set.Ico addr.addr.toNat (addr.addr.toNat + r.size.toNat)

end Request

/-- The pool that a request takes from. -/
def pool (a : SAddrAllocator) (r : Request) : Width :=
  match r.storage with
  | .static => a.staticPool r.thread
  | _ => a.dynamicPool r.thread

/-- The index that a request gets. -/
def newIndex (a : SAddrAllocator) (r : Request) : ℕ :=
  roundUp (a.pool r).toNat r.alignment.toNat

/-- There is room for a request in its pool. -/
def Fits (a : SAddrAllocator) (r : Request) : Prop :=
  a.newIndex r + r.size.toNat < allocLimit.toNat

instance (a : SAddrAllocator) (r : Request) : Decidable (a.Fits r) :=
  inferInstanceAs (Decidable (_ < _))

theorem toNat_allocLimit : allocLimit.toNat = 2 ^ 32 - 1 := by decide

/-- The mask of an alignment. -/
theorem toNat_sub_one {alignment : Width} {k : ℕ} (hal : alignment.toNat = 2 ^ k) :
    (alignment - 1).toNat = 2 ^ k - 1 := by
  have hone : 1 ≤ alignment := BitVec.le_def.2 (hal ▸ Nat.one_le_two_pow)
  rw [BitVec.toNat_sub_of_le hone, hal]
  rfl

/-- The checks of the arguments pass if there is something to allocate and the alignment is a power
of two. -/
theorem allocate_of_pow (allocFun : Width → Width → Bool → Bool → Option SAddr) (pool : Width)
    (thread : BitVec 32) {size alignment : Width} (durable internal : Bool) {k : ℕ}
    (hal : alignment.toNat = 2 ^ k) (hsize : size ≠ 0) :
    allocate allocFun pool thread size alignment durable internal =
      let newAddr := (pool + (alignment - 1)) &&& ~~~(alignment - 1)
      if allocLimit ≤ newAddr + size ∨ newAddr < pool ∨ newAddr + size ≤ newAddr then
        some (null, pool)
      else
        (allocFun (thread.setWidth 64) newAddr durable internal).map (·, newAddr + size) := by
  have hal1 : ¬ alignment < 1 := by
    rw [BitVec.lt_def, hal]
    exact not_lt.2 Nat.one_le_two_pow
  have hpowtwo : alignment &&& (alignment - 1) = 0 := by
    rw [← BitVec.toNat_inj, BitVec.toNat_and, toNat_sub_one hal, hal,
      Nat.and_two_pow_sub_one_eq_mod, Nat.mod_self]
    rfl
  rw [allocate, if_neg hsize]
  simp only [if_neg hal1]
  rw [if_neg (not_not.2 hpowtwo)]

/-- An alignment above all indices leaves room at the start of a pool only. -/
theorem allocate_of_large (allocFun : Width → Width → Bool → Bool → Option SAddr) {pool : Width}
    (thread : BitVec 32) {size alignment : Width} (durable internal : Bool) {k : ℕ}
    (hal : alignment.toNat = 2 ^ k) (hk : 32 < k) (hpool : pool.toNat < 2 ^ 32)
    (hpos : 0 < pool.toNat) (hsize : size ≠ 0) :
    allocate allocFun pool thread size alignment durable internal = some (null, pool) := by
  have hk64 : k < 64 := (Nat.pow_lt_pow_iff_right (by decide)).1 (hal ▸ alignment.isLt)
  have hpow : 2 ^ 33 ≤ 2 ^ k := Nat.pow_le_pow_right (by decide) hk
  have hpow' : 2 ^ k ≤ 2 ^ 63 := Nat.pow_le_pow_right (by decide) (by omega)
  -- the next index is the alignment itself
  have hnew : ((pool + (alignment - 1)) &&& ~~~(alignment - 1)).toNat = 2 ^ k := by
    have hone : (pool.toNat + (2 ^ k - 1)) / 2 ^ k = 1 :=
      Nat.div_eq_of_lt_le (by omega) (by omega)
    rw [toNat_and_not (toNat_sub_one hal), BitVec.toNat_add, toNat_sub_one hal,
      Nat.mod_eq_of_lt (by omega), hone, Nat.one_mul]
  rw [allocate_of_pow allocFun pool thread durable internal hal hsize]
  refine if_pos ?_
  simp only [BitVec.le_def, BitVec.lt_def, BitVec.toNat_add, toNat_allocLimit, hnew]
  have := size.isLt
  omega

theorem Request.Valid.size_ne_zero {r : Request} (h : r.Valid) : r.size ≠ 0 := by
  intro h0
  have hsize := h.size
  rw [h0] at hsize
  exact absurd hsize (by decide)

/-- **What `allocate` does.** -/
theorem allocate_eq (allocFun : Width → Width → Bool → Bool → Option SAddr) {pool : Width}
    {r : Request} (h : r.Valid) (hp : pool.toNat < 2 ^ 32) :
    let n := roundUp pool.toNat r.alignment.toNat
    allocate allocFun pool r.thread r.size r.alignment r.durable r.internal =
      if n + r.size.toNat < allocLimit.toNat then
        (allocFun (r.thread.setWidth 64) (BitVec.ofNat 64 n) r.durable r.internal).map
          (·, BitVec.ofNat 64 (n + r.size.toNat))
      else some (null, pool) := by
  intro n
  obtain ⟨k, hk, hal⟩ := h.alignment
  have hpow : 1 ≤ 2 ^ k := Nat.one_le_two_pow
  have hpow' : 2 ^ k ≤ 2 ^ 32 := Nat.pow_le_pow_right (by decide) hk
  have hsize := h.size
  have hn : n ≤ pool.toNat + (2 ^ k - 1) := hal ▸ roundUp_le ..
  have hn' : pool.toNat ≤ n := le_roundUp (hal ▸ hpow) _
  have hadd : (pool + (r.alignment - 1)).toNat = pool.toNat + (2 ^ k - 1) := by
    rw [BitVec.toNat_add, toNat_sub_one hal, Nat.mod_eq_of_lt (by omega)]
  have hnew : (pool + (r.alignment - 1)) &&& ~~~(r.alignment - 1) = BitVec.ofNat 64 n := by
    rw [← BitVec.toNat_inj, toNat_and_not (toNat_sub_one hal), hadd, BitVec.toNat_ofNat,
      Nat.mod_eq_of_lt (by omega)]
    exact (congrArg (roundUp pool.toNat) hal).symm
  have hnewN : (BitVec.ofNat 64 n).toNat = n := by
    rw [BitVec.toNat_ofNat, Nat.mod_eq_of_lt (by omega)]
  have hend : (BitVec.ofNat 64 n + r.size).toNat = (n + r.size.toNat) % 2 ^ 64 := by
    rw [BitVec.toNat_add, hnewN]
  rw [allocate_of_pow allocFun pool r.thread r.durable r.internal hal h.size_ne_zero, hnew]
  simp only [BitVec.le_def, BitVec.lt_def, hend, hnewN, toNat_allocLimit]
  have hs : r.size.toNat < 2 ^ 64 := r.size.isLt
  by_cases hfit : n + r.size.toNat < 2 ^ 32 - 1
  · have hmod : (n + r.size.toNat) % 2 ^ 64 = n + r.size.toNat := Nat.mod_eq_of_lt (by omega)
    rw [if_neg (by omega), if_pos hfit]
    congr 2
    funext a
    rw [← BitVec.toNat_inj.1 (hend.trans (BitVec.toNat_ofNat _ _).symm)]
  · rw [if_pos (by omega), if_neg hfit]

/-- The upper half of the address that a request gets, with its index. -/
structure Placed (r : Request) (addr : SAddr) (n : ℕ) : Prop where
  toNat : addr.addr.toNat = r.upper * 2 ^ 32 + n
  fits : n + r.size.toNat < allocLimit.toNat
  aligned : r.alignment.toNat ∣ n

/-- The pools leave room in 32 bits, and the dynamic ones never start at 0. -/
structure Bounded (a : SAddrAllocator) : Prop where
  static : ∀ t, (a.staticPool t).toNat < 2 ^ 32
  dynamic : ∀ t, (a.dynamicPool t).toNat < 2 ^ 32
  pos : ∀ t, 0 < (a.dynamicPool t).toNat

theorem bounded_init : Bounded init :=
  ⟨fun _ => Nat.two_pow_pos 32, fun _ => Nat.one_lt_two_pow (by decide), fun _ => Nat.one_pos⟩

/-- What one allocation does: it takes an address that fits and moves its pool past it, or it
returns null and leaves everything as it is. -/
structure Step (a : SAddrAllocator) (r : Request) (addr : SAddr) (a' : SAddrAllocator) : Prop where
  fit : a.Fits r → Placed r addr (a.newIndex r) ∧
    (a'.pool r).toNat = a.newIndex r + r.size.toNat
  unfit : ¬ a.Fits r → addr = null ∧ a' = a
  mono : ∀ q, (a.pool q).toNat ≤ (a'.pool q).toNat

/-- The pool of a request with another value. -/
def setPool (a : SAddrAllocator) (r : Request) (w : Width) : SAddrAllocator :=
  match r.storage with
  | .static => { a with staticPool := Function.update a.staticPool r.thread w }
  | _ => { a with dynamicPool := Function.update a.dynamicPool r.thread w }

/-- The mask of a storage class. -/
def storageMask : StorageDuration → Width
  | .static => staticMask
  | .automatic => automaticMask
  | .heap => 0

theorem storageMask_eq (s : StorageDuration) :
    storageMask s = storageWord (s == .static) (s == .automatic) := by
  cases s
  · exact staticMask_eq
  · exact automaticMask_eq
  · exact heapMask_eq

theorem alloc_eq (a : SAddrAllocator) (r : Request) :
    a.alloc r =
      (allocate (create (storageMask r.storage)) (a.pool r) r.thread r.size r.alignment r.durable
        r.internal).map fun p => (p.1, a.setPool r p.2) := by
  obtain ⟨storage, thread, size, alignment, durable, internal⟩ := r
  cases storage <;> rfl

@[simp] theorem pool_setPool_self (a : SAddrAllocator) (r : Request) (w : Width) :
    (a.setPool r w).pool r = w := by
  obtain ⟨storage, thread, size, alignment, durable, internal⟩ := r
  cases storage <;> exact Function.update_self ..

theorem setPool_pool (a : SAddrAllocator) (r : Request) : a.setPool r (a.pool r) = a := by
  obtain ⟨storage, thread, size, alignment, durable, internal⟩ := r
  cases storage <;> simp [setPool, pool]

theorem pool_setPool_le {a : SAddrAllocator} {r : Request} {w : Width}
    (h : (a.pool r).toNat ≤ w.toNat) (q : Request) :
    (a.pool q).toNat ≤ ((a.setPool r w).pool q).toNat := by
  obtain ⟨storage, thread, size, alignment, durable, internal⟩ := r
  obtain ⟨storage', thread', size', alignment', durable', internal'⟩ := q
  by_cases ht : thread' = thread
  · subst ht
    cases storage <;> cases storage' <;> simp_all [setPool, pool]
  · cases storage <;> cases storage' <;> simp [setPool, pool, Function.update_of_ne ht]

theorem Bounded.pool {a : SAddrAllocator} (ha : a.Bounded) (r : Request) :
    (a.pool r).toNat < 2 ^ 32 := by
  rw [SAddrAllocator.pool]
  split
  · exact ha.static _
  · exact ha.dynamic _

theorem Bounded.setPool {a : SAddrAllocator} (ha : a.Bounded) (r : Request) {w : Width}
    (hw : w.toNat < 2 ^ 32) (hpos : 0 < w.toNat) : (a.setPool r w).Bounded := by
  have hupd : ∀ (f : BitVec 32 → Width), (∀ t, (f t).toNat < 2 ^ 32) → ∀ t,
      (Function.update f r.thread w t).toNat < 2 ^ 32 := by
    intro f hf t
    rw [Function.update_apply]
    split
    · exact hw
    · exact hf t
  rw [SAddrAllocator.setPool]
  split
  · exact ⟨hupd _ ha.static, ha.dynamic, ha.pos⟩
  · refine ⟨ha.static, hupd _ ha.dynamic, fun t => ?_⟩
    change 0 < (Function.update a.dynamicPool r.thread w t).toNat
    rw [Function.update_apply]
    split
    · exact hpos
    · exact ha.pos t

theorem pool_le_newIndex (a : SAddrAllocator) {r : Request} (hr : r.Valid) :
    (a.pool r).toNat ≤ a.newIndex r := by
  obtain ⟨k, -, hal⟩ := hr.alignment
  exact le_roundUp (hal ▸ Nat.two_pow_pos k) _

theorem alloc_step {a : SAddrAllocator} (ha : a.Bounded) {r : Request} (h : r.Valid) :
    ∃ addr a', a.alloc r = some (addr, a') ∧ Step a r addr a' ∧ a'.Bounded := by
  have hp := ha.pool r
  have heq : allocate (create (storageMask r.storage)) (a.pool r) r.thread r.size r.alignment
      r.durable r.internal =
        if a.Fits r then
          (create (storageMask r.storage) (r.thread.setWidth 64) (BitVec.ofNat 64 (a.newIndex r))
            r.durable r.internal).map (·, BitVec.ofNat 64 (a.newIndex r + r.size.toNat))
        else some (null, a.pool r) := allocate_eq (create (storageMask r.storage)) h hp
  have hle := pool_le_newIndex a h
  have hsize := h.size
  rw [alloc_eq, heq]
  by_cases hfit : a.Fits r
  · have hlt : a.newIndex r + r.size.toNat < 2 ^ 32 - 1 := toNat_allocLimit ▸ hfit
    have hidx : (BitVec.ofNat 64 (a.newIndex r)).toNat = a.newIndex r := by
      rw [BitVec.toNat_ofNat, Nat.mod_eq_of_lt (by omega)]
    have hend : (BitVec.ofNat 64 (a.newIndex r + r.size.toNat)).toNat =
        a.newIndex r + r.size.toNat := by
      rw [BitVec.toNat_ofNat, Nat.mod_eq_of_lt (by omega)]
    have hmax : BitVec.ofNat 64 (a.newIndex r) ≤ allocLimit := by
      rw [BitVec.le_def, hidx, toNat_allocLimit]
      omega
    obtain ⟨addr, hcreate, haddr⟩ := toNat_create (r.storage == .static) (r.storage == .automatic)
      r.durable r.internal h.thread hmax
    rw [hidx, BitVec.toNat_setWidth_of_le (by decide)] at haddr
    rw [← storageMask_eq] at hcreate
    refine ⟨addr, a.setPool r (BitVec.ofNat 64 (a.newIndex r + r.size.toNat)), ?_, ?_, ?_⟩
    · rw [if_pos hfit, hcreate]
      rfl
    · refine ⟨fun _ => ⟨⟨haddr, hfit, dvd_roundUp ..⟩, ?_⟩, fun hn => absurd hfit hn,
        pool_setPool_le ?_⟩
      · rw [pool_setPool_self, hend]
      · rw [hend]
        omega
    · exact ha.setPool r (by rw [hend]; omega) (by rw [hend]; omega)
  · refine ⟨null, a.setPool r (a.pool r), ?_, ?_, ?_⟩
    · rw [if_neg hfit]
      rfl
    · rw [setPool_pool]
      exact ⟨fun h => absurd h hfit, fun _ => ⟨rfl, rfl⟩, fun _ => le_rfl⟩
    · rwa [setPool_pool]

/-- Only valid requests take something from a dynamic pool. -/
theorem valid_or_of_alloc {a a' : SAddrAllocator} (ha : a.Bounded) {r : Request} {addr : SAddr}
    (hdynamic : r.storage ≠ .static)
    (hal : 0 < r.alignment ∧ r.alignment &&& (r.alignment - 1) = 0)
    (h : a.alloc r = some (addr, a')) : r.Valid ∨ addr = null ∧ a' = a := by
  have hpos : 1 ≤ r.alignment.toNat := BitVec.lt_def.1 hal.1
  have hoff : (r.alignment - 1).toNat = r.alignment.toNat - 1 :=
    BitVec.toNat_sub_of_le (BitVec.le_def.2 hpos)
  obtain ⟨k, hk⟩ : r.alignment.toNat.isPowerOfTwo := by
    refine (Nat.and_sub_one_eq_zero_iff_isPowerOfTwo (by omega)).1 ?_
    rw [← hoff, ← BitVec.toNat_and, hal.2]
    rfl
  have hpool := ha.pool r
  have hpool' : 0 < (a.pool r).toNat := by
    rw [pool]
    split
    · exact absurd ‹_› hdynamic
    · exact ha.pos _
  rw [alloc_eq, Option.map_eq_some_iff] at h
  obtain ⟨⟨addr', w⟩, halloc, heq⟩ := h
  obtain ⟨rfl, rfl⟩ := Prod.mk.injEq .. ▸ heq
  by_cases hsize : r.size = 0
  · rw [allocate, if_pos hsize] at halloc
    cases halloc
  by_cases hlarge : 32 < k
  · rw [allocate_of_large _ r.thread r.durable r.internal hk hlarge hpool hpool' hsize] at halloc
    obtain ⟨rfl, rfl⟩ := Prod.mk.injEq .. ▸ Option.some.inj halloc
    exact .inr ⟨rfl, setPool_pool a r⟩
  rw [allocate_of_pow _ _ r.thread r.durable r.internal hk hsize] at halloc
  dsimp only at halloc
  split at halloc
  · obtain ⟨rfl, rfl⟩ := Prod.mk.injEq .. ▸ Option.some.inj halloc
    exact .inr ⟨rfl, setPool_pool a r⟩
  obtain ⟨fresh, hcreate, -⟩ := Option.map_eq_some_iff.1 halloc
  refine .inl ⟨?_, ?_, k, not_lt.1 hlarge, hk⟩
  · rw [create] at hcreate
    split at hcreate
    · exact (‹_ ∧ _›).1
    · cases hcreate
  · refine Nat.one_le_iff_ne_zero.2 fun h0 => hsize (BitVec.eq_of_toNat_eq ?_)
    rw [h0]
    rfl

/-- The static pools are the only ones that static requests change. -/
theorem allocStatic_eq {a a' : SAddrAllocator} (ha : a.Bounded) {thread : BitVec 32}
    {size alignment : Width} {durable internal : Bool} {addr : SAddr}
    (h : a.allocStatic thread size alignment durable internal = some (addr, a')) :
    a'.Bounded ∧ a'.dynamicPool = a.dynamicPool := by
  rw [allocStatic, Option.map_eq_some_iff] at h
  obtain ⟨⟨addr', w⟩, halloc, heq⟩ := h
  obtain ⟨-, rfl⟩ := Prod.mk.injEq .. ▸ heq
  have hw : w.toNat < 2 ^ 32 := by
    rw [allocate] at halloc
    dsimp only at halloc
    generalize (if alignment < 1 then (1 : Width) else alignment) = alignment at halloc
    split at halloc
    · cases halloc
    split at halloc
    · cases halloc
    split at halloc
    · obtain ⟨-, rfl⟩ := Prod.mk.injEq .. ▸ Option.some.inj halloc
      exact ha.static thread
    · rename_i hroom
      obtain ⟨fresh, -, heq⟩ := Option.map_eq_some_iff.1 halloc
      obtain ⟨-, rfl⟩ := Prod.mk.injEq .. ▸ heq
      rw [BitVec.le_def, toNat_allocLimit] at hroom
      omega
  refine ⟨⟨fun t => ?_, ha.dynamic, ha.pos⟩, rfl⟩
  change (Function.update a.staticPool thread w t).toNat < 2 ^ 32
  rw [Function.update_apply]
  split
  · exact hw
  · exact ha.static t

/-! ## All allocations of a run -/

/-- An address serves a request: it is aligned, it holds the thread and the storage class, and the
whole allocation has the same upper half. -/
structure Allocated (r : Request) (addr : SAddr) : Prop where
  nonNull : addr ≠ null
  aligned : r.alignment.toNat ∣ addr.addr.toNat
  isStatic : addr.isStatic = (r.storage == .static)
  isAutomatic : addr.isAutomatic = (r.storage == .automatic)
  isInternal : addr.isInternal = r.internal
  isDurable : addr.isDurable = r.durable
  thread : addr.thread = r.thread.setWidth 64
  inside : addr.index.toNat + r.size.toNat < allocLimit.toNat

theorem Placed.index {r : Request} (h : r.Valid) {addr : SAddr} {n : ℕ} (hp : Placed r addr n) :
    addr.Decodes (r.storage == .static) (r.storage == .automatic) r.internal r.durable
      (r.thread.setWidth 64) (BitVec.ofNat 64 n) := by
  have hfits := hp.fits
  rw [toNat_allocLimit] at hfits
  have hn : (BitVec.ofNat 64 n).toNat = n := by
    rw [BitVec.toNat_ofNat, Nat.mod_eq_of_lt (by omega)]
  refine decode_create h.thread ?_ ?_
  · rw [BitVec.le_def, hn, toNat_allocLimit]
    omega
  · rw [hn, BitVec.toNat_setWidth_of_le (by decide)]
    exact hp.toNat

/-- An alignment divides the upper half of every address that fits. -/
theorem dvd_upper {k n u : ℕ} (hk : k ≤ 32) (hn : 2 ^ k ∣ n) : 2 ^ k ∣ u * 2 ^ 32 + n :=
  Nat.dvd_add (Nat.dvd_mul_left_of_dvd (Nat.pow_dvd_pow 2 hk) u) hn

theorem Placed.allocated {r : Request} (h : r.Valid) {addr : SAddr} {n : ℕ}
    (hp : Placed r addr n) (hpos : r.storage = .static ∨ 0 < n) : Allocated r addr := by
  have hd := hp.index h
  have hfits := hp.fits
  rw [toNat_allocLimit] at hfits
  obtain ⟨k, hk, hal⟩ := h.alignment
  refine ⟨?_, ?_, hd.isStatic, hd.isAutomatic, hd.isInternal, hd.isDurable, hd.thread, ?_⟩
  · rintro rfl
    have h0 : r.upper * 2 ^ 32 + n = 0 := hp.toNat.symm
    rcases hpos with hs | hn
    · have hup : 2 ^ 31 ≤ r.upper := by
        rw [Request.upper, hs, SAddr.upper]
        simp only [BEq.rfl, Bool.toNat_true]
        omega
      omega
    · omega
  · rw [hp.toNat, hal]
    exact dvd_upper hk (hal ▸ hp.aligned)
  · rw [hd.index, BitVec.toNat_ofNat, Nat.mod_eq_of_lt (by omega)]
    exact hp.fits

/-- Requests with the same upper half take from the same pool. -/
theorem pool_eq_of_upper {r q : Request} (hr : r.Valid) (hq : q.Valid) (h : r.upper = q.upper)
    (a : SAddrAllocator) : a.pool r = a.pool q := by
  have hthread : ∀ r : Request, r.Valid → r.thread.toNat < 2 ^ 28 := fun r hr => by
    have := BitVec.le_def.1 hr.thread
    rw [BitVec.toNat_setWidth_of_le (by decide)] at this
    exact Nat.lt_succ_of_le this
  have hr' := hthread r hr
  have hq' := hthread q hq
  rw [Request.upper, Request.upper, SAddr.upper, SAddr.upper] at h
  have hs := Bool.toNat_le (r.storage == .static)
  have hs' := Bool.toNat_le (q.storage == .static)
  have hb : ∀ b : Bool, b.toNat ≤ 1 := Bool.toNat_le
  have h₁ := hb (r.storage == .automatic)
  have h₂ := hb (q.storage == .automatic)
  have h₃ := hb r.internal
  have h₄ := hb q.internal
  have h₅ := hb r.durable
  have h₆ := hb q.durable
  have hstatic : (r.storage == .static) = (q.storage == .static) := by
    have hinj : ∀ b c : Bool, b.toNat = c.toNat → b = c := by decide
    exact hinj _ _ (by omega)
  have ht : r.thread = q.thread := by
    rw [← BitVec.toNat_inj]
    omega
  rw [pool, pool, ht]
  revert hstatic
  generalize r.storage = s
  generalize q.storage = s'
  cases s <;> cases s' <;> first | exact fun _ => rfl | exact fun h => absurd h (by decide)

/-- Two addresses in the same pool, one after the other, or in different pools. -/
theorem disjoint_of_placed {r q : Request} (hr : r.Valid) (hq : q.Valid) {addr addr' : SAddr}
    {n m : ℕ} {a : SAddrAllocator} (h : Placed r addr n) (h' : Placed q addr' m)
    (hn : n + r.size.toNat ≤ (a.pool r).toNat) (hm : (a.pool q).toNat ≤ m) :
    Disjoint (r.bytes addr) (q.bytes addr') := by
  have hf := h.fits
  have hf' := h'.fits
  rw [toNat_allocLimit] at hf hf'
  rw [Request.bytes, Request.bytes, h.toNat, h'.toNat, Set.Ico_disjoint_Ico]
  rcases lt_trichotomy r.upper q.upper with hlt | heq | hlt
  · refine (min_le_left _ _).trans (le_trans ?_ (le_max_right _ _))
    have := Nat.mul_le_mul_right (2 ^ 32) (Nat.succ_le_of_lt hlt)
    omega
  · rw [pool_eq_of_upper hr hq heq] at hn
    refine (min_le_left _ _).trans (le_trans ?_ (le_max_right _ _))
    rw [heq]
    omega
  · refine (min_le_right _ _).trans (le_trans ?_ (le_max_left _ _))
    have := Nat.mul_le_mul_right (2 ^ 32) (Nat.succ_le_of_lt hlt)
    omega

/-- A request that fits is served. -/
theorem Step.allocated {a a' : SAddrAllocator} {r : Request} {addr : SAddr}
    (h : Step a r addr a') (ha : a.Bounded) (hr : r.Valid) (hfit : a.Fits r) :
    Allocated r addr := by
  refine (h.fit hfit).1.allocated hr ?_
  by_cases hs : r.storage = .static
  · exact .inl hs
  · refine .inr (lt_of_lt_of_le ?_ (pool_le_newIndex a hr))
    rw [pool]
    split
    · exact absurd ‹_› hs
    · exact ha.pos _

/-- What a sequence of allocations does, from any state of the pools. -/
theorem allocs_step (rs : List Request) : ∀ {a : SAddrAllocator}, a.Bounded →
    (∀ r ∈ rs, r.Valid) → ∃ addrs a', a.allocs rs = some (addrs, a') ∧ a'.Bounded ∧
      addrs.length = rs.length ∧ (∀ q, (a.pool q).toNat ≤ (a'.pool q).toNat) ∧
      (∀ p ∈ rs.zip addrs, p.2 ≠ null →
        Allocated p.1 p.2 ∧ ∃ n, Placed p.1 p.2 n ∧ (a.pool p.1).toNat ≤ n) ∧
      (rs.zip addrs).Pairwise fun p q => p.2 ≠ null → q.2 ≠ null →
        Disjoint (p.1.bytes p.2) (q.1.bytes q.2) := by
  induction rs with
  | nil => exact fun ha _ => ⟨[], _, rfl, ha, rfl, fun _ => le_rfl, by simp, .nil⟩
  | cons r rs ih =>
    intro a ha h
    have hr : r.Valid := h r (List.mem_cons_self ..)
    obtain ⟨addr, a₁, halloc, hstep, ha₁⟩ := alloc_step ha hr
    obtain ⟨addrs, a', hallocs, ha', hlen, hmono, hmem, hpair⟩ :=
      ih ha₁ fun q hq => h q (List.mem_cons_of_mem _ hq)
    have hfit : addr ≠ null → a.Fits r := fun hne => by
      by_contra hn
      exact hne (hstep.unfit hn).1
    have hplaced : addr ≠ null → Placed r addr (a.newIndex r) := fun hne =>
      (hstep.fit (hfit hne)).1
    refine ⟨addr :: addrs, a', ?_, ha', congrArg (· + 1) hlen,
      fun q => (hstep.mono q).trans (hmono q), ?_, ?_⟩
    · simp [allocs, halloc, hallocs]
    · intro p hp hne
      rcases List.mem_cons.1 hp with rfl | hp
      · exact ⟨hstep.allocated ha hr (hfit hne), _, hplaced hne, pool_le_newIndex a hr⟩
      · obtain ⟨hal, n, hn, hle⟩ := hmem p hp hne
        exact ⟨hal, n, hn, (hstep.mono _).trans hle⟩
    · refine List.pairwise_cons.2 ⟨fun q hq hne hne' => ?_, hpair⟩
      obtain ⟨-, m, hm, hmle⟩ := hmem q hq hne'
      have hq' : q.1.Valid := h q.1 (List.mem_cons_of_mem _ (List.of_mem_zip hq).1)
      exact disjoint_of_placed hr hq' (hplaced hne) hm (hstep.fit (hfit hne)).2.ge hmle

/-- **All addresses ever handed out are disjoint.**  No check fails in a run of valid requests;
every address other than null serves its request; and in each state that a run reaches, a request
that fits gets the next index of its pool, and one that does not fit gets null and leaves the pools
as they are. -/
theorem allocs_disjoint {rs : List Request} (h : ∀ r ∈ rs, r.Valid) :
    ∃ addrs a, init.allocs rs = some (addrs, a) ∧ addrs.length = rs.length ∧
      ((rs.zip addrs).Pairwise fun p q => p.2 ≠ null → q.2 ≠ null →
        Disjoint (p.1.bytes p.2) (q.1.bytes q.2)) ∧
      (∀ p ∈ rs.zip addrs, p.2 ≠ null → Allocated p.1 p.2) ∧
      ∀ r, r.Valid → ∃ addr a', a.alloc r = some (addr, a') ∧
        (a.Fits r → addr ≠ null ∧ addr.index.toNat = a.newIndex r) ∧
        (¬ a.Fits r → addr = null ∧ a' = a) := by
  obtain ⟨addrs, a, hallocs, ha, hlen, -, hmem, hpair⟩ := allocs_step rs bounded_init h
  refine ⟨addrs, a, hallocs, hlen, hpair, fun p hp hne => (hmem p hp hne).1, fun r hr => ?_⟩
  obtain ⟨addr, a', halloc, hstep, -⟩ := alloc_step ha hr
  refine ⟨addr, a', halloc, fun hfit => ?_, hstep.unfit⟩
  have hplaced := (hstep.fit hfit).1
  have hlt : a.newIndex r + r.size.toNat < 2 ^ 32 - 1 := toNat_allocLimit ▸ hfit
  refine ⟨(hstep.allocated ha hr hfit).nonNull, ?_⟩
  rw [(hplaced.index hr).index, BitVec.toNat_ofNat, Nat.mod_eq_of_lt (by omega)]

/-- Two requests of one thread from the same pool and one static request. -/
def threeRequests : List Request :=
  [⟨.heap, 1, 6, 4, false, false⟩, ⟨.automatic, 1, 8, 8, false, true⟩,
    ⟨.static, 0, 16, 16, true, false⟩]

theorem threeRequests_disjoint :
    ∃ addrs a, init.allocs threeRequests = some (addrs, a) ∧
      addrs = [⟨0x100000004⟩, ⟨0x6000000100000010⟩, ⟨0x9000000000000000⟩] ∧
      (threeRequests.zip addrs).Pairwise fun p q => p.2 ≠ null → q.2 ≠ null →
        Disjoint (p.1.bytes p.2) (q.1.bytes q.2) := by
  have hvalid : ∀ r ∈ threeRequests, r.Valid := by
    intro r hr
    simp only [threeRequests, List.mem_cons, List.not_mem_nil, or_false] at hr
    rcases hr with rfl | rfl | rfl
    · exact ⟨by decide, by decide, 2, by decide, rfl⟩
    · exact ⟨by decide, by decide, 3, by decide, rfl⟩
    · exact ⟨by decide, by decide, 4, by decide, rfl⟩
  obtain ⟨addrs, a, hallocs, -, hpair, -⟩ := allocs_disjoint hvalid
  have haddrs : (init.allocs threeRequests).map (·.1) =
      some [⟨0x100000004⟩, ⟨0x6000000100000010⟩, ⟨0x9000000000000000⟩] := by decide
  refine ⟨addrs, a, hallocs, ?_, hpair⟩
  rw [hallocs] at haddrs
  exact Option.some.inj haddrs

end SAddrAllocator

end GenMC.Storage
