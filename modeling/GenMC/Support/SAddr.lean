import Mathlib.Data.Nat.Bitwise
import Mathlib.Order.Nat

/-!
# Addresses

An address is a word of 64 bits.  Its upper four bits are the storage class (static, automatic) and
two flags (internal, durable), the next 28 bits are the thread that allocated it, and the lower 32
bits are an index.  `SAddr.create` puts an address together from these parts.

* `SAddr.toNat_create`: a created address, as a number, is the sum of its parts.
* `SAddr.decode_create`: **the parts can be read back** from every created address.

Elsewhere in this development an address is an opaque name; the words of this file are in a
namespace of their own.
-/

set_option autoImplicit false

namespace GenMC.Storage

/-- A word, `SAddr::Width` of the source. -/
abbrev Width := BitVec 64

/-- An address. -/
@[ext] structure SAddr where
  addr : Width
deriving DecidableEq, Repr

namespace SAddr

def staticMask : Width := 1#64 <<< 63
def automaticMask : Width := 1#64 <<< 62
def internalMask : Width := 1#64 <<< 61
def durableMask : Width := 1#64 <<< 60

def threadStartBit : ℕ := 32
def indexMask : Width := (1#64 <<< threadStartBit) - 1
def threadMask : Width := durableMask - (1#64 <<< threadStartBit)

def threadLimit : Width := threadMask >>> threadStartBit
def allocLimit : Width := indexMask

/-- A `bool` as a word. -/
def ofBool (b : Bool) : Width := if b then 1 else 0

/-- A new address, or `none` if one of the two checks fails. -/
def create (storageMask thread index : Width) (durable internal : Bool) : Option SAddr :=
  if thread ≤ threadLimit ∧ index ≤ allocLimit then
    let fresh : Width := 0
    let fresh := fresh ||| storageMask
    let fresh := fresh ^^^ ((-ofBool durable ^^^ fresh) &&& durableMask)
    let fresh := fresh ^^^ ((-ofBool internal ^^^ fresh) &&& internalMask)
    let fresh := fresh ||| (thread <<< threadStartBit)
    let fresh := fresh ||| index
    some ⟨fresh⟩
  else none

def createStatic := create staticMask
def createHeap := create 0
def createAutomatic := create automaticMask

/-- The null address, which is what an allocation that fails returns. -/
def null : SAddr := ⟨0⟩

def isStatic (a : SAddr) : Bool := (a.addr &&& staticMask) != 0
def isAutomatic (a : SAddr) : Bool := (a.addr &&& automaticMask) != 0
def isInternal (a : SAddr) : Bool := (a.addr &&& internalMask) != 0
def isDurable (a : SAddr) : Bool := (a.addr &&& durableMask) != 0

/-- The thread of an address, as it is printed. -/
def thread (a : SAddr) : Width := (a.addr &&& threadMask) >>> threadStartBit

/-- The index of an address, as it is printed. -/
def index (a : SAddr) : Width := a.addr &&& indexMask

/-- Addresses are compared as unsigned numbers. -/
instance : LinearOrder SAddr :=
  LinearOrder.lift' (fun a => a.addr.toNat) fun _ _ h => SAddr.ext (BitVec.eq_of_toNat_eq h)

instance : Add SAddr := ⟨fun a b => ⟨a.addr + b.addr⟩⟩

/-! ## What a created address holds -/

/-- The upper 32 bits of an address. -/
def upper (static automatic internal durable : Bool) (thread : ℕ) : ℕ :=
  static.toNat * 2 ^ 31 + automatic.toNat * 2 ^ 30 + internal.toNat * 2 ^ 29 +
    durable.toNat * 2 ^ 28 + thread

/-- The masks of the storage classes: whether bit 63 and bit 62 are set. -/
def storageWord (static automatic : Bool) : Width :=
  ofBool static <<< 63 ||| ofBool automatic <<< 62

theorem staticMask_eq : staticMask = storageWord true false := by decide

theorem heapMask_eq : (0 : Width) = storageWord false false := by decide

theorem automaticMask_eq : automaticMask = storageWord false true := by decide

/-- The two flags, added to the mask of a storage class. -/
theorem toNat_flags (static automatic internal durable : Bool) :
    (let fresh : Width := 0 ||| storageWord static automatic
     let fresh := fresh ^^^ ((-ofBool durable ^^^ fresh) &&& durableMask)
     fresh ^^^ ((-ofBool internal ^^^ fresh) &&& internalMask)).toNat =
      (static.toNat * 8 + automatic.toNat * 4 + internal.toNat * 2 + durable.toNat) * 2 ^ 60 := by
  revert static automatic internal durable
  decide

/-- A thread and an index below the flags. -/
theorem toNat_parts {fresh thread index : Width} {c : ℕ} (hf : fresh.toNat = c * 2 ^ 60)
    (ht : thread ≤ threadLimit) (hi : index ≤ allocLimit) :
    (fresh ||| (thread <<< threadStartBit) ||| index).toNat =
      c * 2 ^ 60 + thread.toNat * 2 ^ 32 + index.toNat := by
  have ht' : thread.toNat < 2 ^ 28 := Nat.lt_succ_of_le (BitVec.le_def.1 ht)
  have hi' : index.toNat < 2 ^ 32 := Nat.lt_succ_of_le (BitVec.le_def.1 hi)
  have h₁ := Nat.two_pow_add_eq_or_of_lt (i := 60) (b := thread.toNat * 2 ^ 32) (by omega) c
  have h₂ := Nat.two_pow_add_eq_or_of_lt (i := 32) (b := index.toNat) hi'
      (c * 2 ^ 28 + thread.toNat)
  have hshift : (thread <<< threadStartBit).toNat = thread.toNat * 2 ^ 32 := by
    rw [BitVec.toNat_shiftLeft, threadStartBit, Nat.shiftLeft_eq, Nat.mod_eq_of_lt (by omega)]
  have hsum : c * 2 ^ 60 + thread.toNat * 2 ^ 32 = 2 ^ 32 * (c * 2 ^ 28 + thread.toNat) := by
    omega
  rw [BitVec.toNat_or, BitVec.toNat_or, hshift, hf, Nat.mul_comm c, ← h₁, Nat.mul_comm _ c,
    hsum, ← h₂]

/-- A created address, as a number. -/
theorem toNat_create (static automatic durable internal : Bool) {thread index : Width}
    (ht : thread ≤ threadLimit) (hi : index ≤ allocLimit) :
    ∃ a, create (storageWord static automatic) thread index durable internal = some a ∧
      a.addr.toNat =
        upper static automatic internal durable thread.toNat * 2 ^ 32 + index.toNat := by
  refine ⟨_, if_pos ⟨ht, hi⟩, ?_⟩
  rw [toNat_parts (toNat_flags static automatic internal durable) ht hi, upper]
  omega

/-! ## Reading the parts of an address -/

/-- One bit of a word. -/
theorem and_bit_ne_zero (a : Width) {i : ℕ} (hi : i < 64) :
    ((a &&& (1#64 <<< i)) != 0) = decide (a.toNat / 2 ^ i % 2 = 1) := by
  have hlt : 2 ^ i < 2 ^ 64 := Nat.pow_lt_pow_right (by decide) hi
  have hbit : (1#64 <<< i).toNat = 2 ^ i := by
    rw [BitVec.toNat_shiftLeft, Nat.shiftLeft_eq, Nat.mod_eq_of_lt (by simpa using hlt)]
    simp
  have hand : (a &&& (1#64 <<< i)).toNat = (a.toNat.testBit i).toNat * 2 ^ i := by
    rw [BitVec.toNat_and, hbit, Nat.and_two_pow]
  rw [← Nat.testBit_eq_decide_div_mod_eq, Bool.eq_iff_iff, bne_iff_ne, Ne, ← BitVec.toNat_inj, hand]
  cases a.toNat.testBit i <;> simp

theorem toNat_index (a : SAddr) : a.index.toNat = a.addr.toNat % 2 ^ 32 := by
  rw [index, BitVec.toNat_and]
  exact Nat.and_two_pow_sub_one_eq_mod _ 32

theorem toNat_thread (a : SAddr) : a.thread.toNat = a.addr.toNat / 2 ^ 32 % 2 ^ 28 := by
  have h : threadMask.toNat >>> 32 = 2 ^ 28 - 1 := by decide
  rw [thread, BitVec.toNat_ushiftRight, BitVec.toNat_and, threadStartBit,
    Nat.shiftRight_and_distrib, h,
    Nat.and_two_pow_sub_one_eq_mod, Nat.shiftRight_eq_div_pow]


/-- The parts of an address are these. -/
structure Decodes (a : SAddr) (static automatic internal durable : Bool) (thread index : Width) :
    Prop where
  isStatic : a.isStatic = static
  isAutomatic : a.isAutomatic = automatic
  isInternal : a.isInternal = internal
  isDurable : a.isDurable = durable
  thread : a.thread = thread
  index : a.index = index

/-- **The parts of a created address can be read back.** -/
theorem decode_create {a : SAddr} {static automatic durable internal : Bool}
    {thread index : Width} (ht : thread ≤ threadLimit) (hi : index ≤ allocLimit)
    (ha : a.addr.toNat =
      upper static automatic internal durable thread.toNat * 2 ^ 32 + index.toNat) :
    a.Decodes static automatic internal durable thread index := by
  have ht' : thread.toNat < 2 ^ 28 := Nat.lt_succ_of_le (BitVec.le_def.1 ht)
  have hi' : index.toNat < 2 ^ 32 := Nat.lt_succ_of_le (BitVec.le_def.1 hi)
  rw [upper] at ha
  have hbool : ∀ b : Bool, decide (b.toNat = 1) = b := by decide
  have hs := Bool.toNat_le static
  have hu := Bool.toNat_le automatic
  have hn := Bool.toNat_le internal
  have hd := Bool.toNat_le durable
  constructor
  · rw [SAddr.isStatic, staticMask, and_bit_ne_zero _ (by decide), ← hbool static]
    congr 2
    omega
  · rw [SAddr.isAutomatic, automaticMask, and_bit_ne_zero _ (by decide), ← hbool automatic]
    congr 2
    omega
  · rw [SAddr.isInternal, internalMask, and_bit_ne_zero _ (by decide), ← hbool internal]
    congr 2
    omega
  · rw [SAddr.isDurable, durableMask, and_bit_ne_zero _ (by decide), ← hbool durable]
    congr 2
    omega
  · rw [← BitVec.toNat_inj, toNat_thread]
    omega
  · rw [← BitVec.toNat_inj, toNat_index]
    omega

end SAddr

end GenMC.Storage
