import GenMC.Passes.DataLayout
import Mathlib.Control.Basic

/-!
# Promoting memory intrinsics

A `memset` or a `memcpy` becomes accesses to the scalars of the type that its destination points to,
one after the other.  The pass follows the type down to its scalars (`promoteMemIntrinsic`) and
calls a function at each, with the indices that lead there.

What is emitted is executed on a memory of bytes (`execAll`), the destination and, for a copy, the
source at any address.  A run without result is one that the pass does not get to (a failed check,
an operand without a type, a loop over an array that never ends) or an access at a negative index.

* `promoteMemIntrinsic_eq`: the function is called at the scalars of the type, in their order.
* `promoteMemSet_sound_iff`: the stores for a `memset` write the byte throughout the length, and
  nothing but that, only if every scalar is within the length and consists of equal bytes.
* `promoteMemCpy_sound_iff`: the accesses for a `memcpy` are right if there is no padding in the
  length or nothing after it.  The remaining length only counts the sizes of scalars.
-/

set_option autoImplicit false

namespace GenMC

namespace PromoteMemIntrinsicPass

open DataLayout (x86)

/-! ## Operands -/

/-- Pointer operands, with the types they are used with. -/
inductive PtrOperand
  | global (valueType : Ty)
  | alloca (allocatedType : Ty)
  | gep (resultElementType : Ty)
  /-- A constant expression, which is a GEP or not. -/
  | constExpr (gep : Option Ty)
  | constant
  | other

namespace PtrOperand

def isPromotableMemIntrinsicOperand : PtrOperand → Bool
  | other => false
  | _ => true

def getPromotionGEPType : PtrOperand → Option Ty
  | global t => some t
  | alloca t => some t
  | gep t => some t
  | _ => none

/-- Moves a constant expression into an instruction of its own. -/
def lowerConstExpr : PtrOperand → PtrOperand
  | constExpr (some t) => gep t
  | constExpr none => other
  | op => op

/-- A GEP with the only index 0.  It is folded if the operand is constant. -/
def createGEP (t : Ty) : PtrOperand → PtrOperand
  | global u => global u
  | constant => constant
  | _ => gep t

end PtrOperand

/-- Source and destination with the types that the indices are for. -/
def getRecastedOperands (src dst : PtrOperand) : Option (PtrOperand × PtrOperand) :=
  if dst.isPromotableMemIntrinsicOperand then
    dst.getPromotionGEPType.map fun t => (src.createGEP t, dst)
  else if src.isPromotableMemIntrinsicOperand then
    src.getPromotionGEPType.map fun t => (src, dst.createGEP t)
  else none

/-- A call to `memcpy`.  The length may be a constant. -/
structure MemCpyInst where
  dest : PtrOperand
  source : PtrOperand
  length : Option ℕ

/-- A call to `memset`.  The value and the length may be constants. -/
structure MemSetInst where
  dest : PtrOperand
  value : Option (BitVec 8)
  length : Option ℕ

/-- Whether the length is constant and one of the operands has a type. -/
def canPromoteMemIntrinsic (length : Option ℕ) (operands : List PtrOperand) : Bool :=
  length.isSome && operands.any PtrOperand.isPromotableMemIntrinsicOperand

/-! ## Promotion -/

/-- The instructions that are emitted for a scalar, with their GEPs. -/
inductive Emitted
  /-- A store of a constant. -/
  | store (dstTyp : Ty) (args : List ℕ) (typ : Scalar) (width : ℕ) (val : BitVec width)
  /-- A load, and a store of what was loaded. -/
  | copy (srcTyp dstTyp : Ty) (args : List ℕ) (typ : Scalar)

mutual

/-- Calls the function at each scalar of the type.  The counter of the elements of an array has 32
bits, so that it never gets to a larger number of them. -/
def promoteMemIntrinsic {σ : Type*} (promoteFun : Scalar → List ℕ → σ → Option σ) :
    Ty → List ℕ → σ → Option σ
  | .scalar typ, args, st => promoteFun typ args st
  | .array n typ, args, st =>
    if n < 2 ^ 32 then
      (List.range n).foldlM (fun st i => promoteMemIntrinsic promoteFun typ (args ++ [i]) st) st
    else none
  | .struct _ elems, args, st => promoteElements promoteFun 0 elems args st

/-- Goes on with the elements of a struct from the one with number `i` on. -/
def promoteElements {σ : Type*} (promoteFun : Scalar → List ℕ → σ → Option σ) (i : ℕ) :
    List Ty → List ℕ → σ → Option σ
  | [], _, st => some st
  | typ :: elems, args, st => do
    let st ← promoteMemIntrinsic promoteFun typ (args ++ [i]) st
    promoteElements promoteFun (i + 1) elems args st

end

section

variable (dl : DataLayout)

/-- Copies a scalar, and takes its size off the remaining length, which has to be enough. -/
def promoteMemCpy (dst src : PtrOperand) (typ : Scalar) (args : List ℕ) (st : ℕ × List Emitted) :
    Option (ℕ × List Emitted) :=
  if st.1 = 0 then some st
  else do
    let srcTyp ← src.getPromotionGEPType
    let dstTyp ← dst.getPromotionGEPType
    if (typ.size dl : ℕ) ≤ st.1 then
      some (st.1 - typ.size dl, st.2 ++ [.copy srcTyp dstTyp args typ])
    else none

/-- The constant with the value of a byte, which is taken for a signed one of 64 bits first. -/
def memSetValue (typ : Scalar) (argVal : BitVec 8) : BitVec (8 * typ.size dl) :=
  let ival := argVal.signExtend 64
  ival.setWidth (8 * typ.size dl)

def promoteMemSet (dst : PtrOperand) (argVal : Option (BitVec 8)) (typ : Scalar) (args : List ℕ)
    (insts : List Emitted) : Option (List Emitted) := do
  let argVal ← argVal
  let dstTyp ← dst.getPromotionGEPType
  some (insts ++ [.store dstTyp args typ _ (memSetValue dl typ argVal)])

/-- Returns whether the call is to be removed, and what is emitted in its place. -/
def tryPromoteMemCpy (MI : MemCpyInst) : Option (Bool × List Emitted) :=
  if canPromoteMemIntrinsic MI.length [MI.dest, MI.source] then do
    let len ← MI.length
    if len = 0 then some (true, [])
    else
      let (src, dst) ← getRecastedOperands MI.source.lowerConstExpr MI.dest.lowerConstExpr
      let dstTyp ← dst.getPromotionGEPType
      if len ≤ dstTyp.storeSize dl then
        (promoteMemIntrinsic (promoteMemCpy dl dst src) dstTyp [0] (len, [])).map fun st =>
          (true, st.2)
      else none
  else some (false, [])

def tryPromoteMemSet (MS : MemSetInst) : Option (Bool × List Emitted) :=
  if canPromoteMemIntrinsic MS.length [MS.dest] then do
    let dstTyp ← MS.dest.getPromotionGEPType
    (promoteMemIntrinsic (promoteMemSet dl MS.dest MS.value) dstTyp [0] []).map fun insts =>
      (true, insts)
  else some (false, [])

/-! ## Execution -/

/-- The first index of a GEP goes from a value to the ones next to it. -/
def inBoundsGEP (t : Ty) : List ℕ → Option ℕ
  | [] => none
  | i :: args => (gepOffset dl t args).map (i * t.allocSize dl + ·)

/-- The bytes of an integer, in the order they have in memory. -/
def byteOf (size : ℕ) {width : ℕ} (val : BitVec width) (j : ℕ) : BitVec 8 :=
  val.extractLsb' (8 * if dl.bigEndian then size - 1 - j else j) 8

def Emitted.exec (src dst : ℕ) (m : Memory (BitVec 8)) : Emitted → Option (Memory (BitVec 8))
  | store dstTyp args typ _ val =>
    (inBoundsGEP dl dstTyp args).map fun off =>
      m.store ⟨dst + off, typ.size dl⟩ (byteOf dl (typ.size dl) val)
  | copy srcTyp dstTyp args typ => do
    let srcOff ← inBoundsGEP dl srcTyp args
    let dstOff ← inBoundsGEP dl dstTyp args
    some (m.store ⟨dst + dstOff, typ.size dl⟩ fun j => m (src + srcOff + j))

/-- Runs what was emitted, with the source and the destination at the addresses. -/
def execAll (src dst : ℕ) (insts : List Emitted) (m : Memory (BitVec 8)) :
    Option (Memory (BitVec 8)) :=
  insts.foldlM (Emitted.exec dl src dst) m

end

/-! ## The scalars that are visited -/

mutual

/-- Whether the loops over the arrays in the type come to an end. -/
def short : Ty → Bool
  | .scalar _ => true
  | .array n t => decide (n < 2 ^ 32) && (decide (n = 0) || short t)
  | .struct _ ts => allShort ts

def allShort : List Ty → Bool
  | [] => true
  | t :: ts => short t && allShort ts

end

section

variable {dl : DataLayout} {σ : Type*} {promoteFun : Scalar → List ℕ → σ → Option σ}

theorem foldlM_eq_none {α : Type*} {f : σ → α → Option σ} {l : List α} {a : α} (ha : a ∈ l)
    (h : ∀ st, f st a = none) (st : σ) : l.foldlM f st = none := by
  induction l generalizing st with
  | nil => cases ha
  | cons b l ih =>
    rw [List.foldlM_cons]
    rcases List.mem_cons.1 ha with rfl | ha
    · rw [h]
      rfl
    · cases f st b with
      | none => rfl
      | some st' => exact ih ha st'

theorem foldlM_flatMap {α γ : Type*} (f : σ → γ → Option σ) (g : α → List γ) (l : List α) (st : σ) :
    (l.flatMap g).foldlM f st = l.foldlM (fun st a => (g a).foldlM f st) st := by
  induction l generalizing st with
  | nil => rfl
  | cons a l ih =>
    rw [List.flatMap_cons, List.foldlM_append, List.foldlM_cons]
    exact congrArg _ (funext ih)

mutual

/-- **The scalars are visited in their order.** -/
theorem promoteMemIntrinsic_eq (dl : DataLayout) : ∀ (t : Ty), short t = true →
    ∀ (args : List ℕ) (st : σ), promoteMemIntrinsic promoteFun t args st =
      (t.fields dl).foldlM (fun st f => promoteFun f.typ (args ++ f.args) st) st
  | .scalar s, _, args, st => by
    rw [promoteMemIntrinsic, Ty.fields, List.foldlM_cons, List.append_nil]
    exact (bind_pure _).symm
  | .array n t, h, args, st => by
    rw [short, Bool.and_eq_true, decide_eq_true_eq, Bool.or_eq_true, decide_eq_true_eq] at h
    obtain ⟨hn, ht⟩ := h
    rw [promoteMemIntrinsic, if_pos hn, Ty.fields, foldlM_flatMap]
    rcases ht with rfl | ht
    · rfl
    · congr 1
      funext st i
      rw [promoteMemIntrinsic_eq dl t ht, List.foldlM_map]
      simp only [Field.inArray, List.append_assoc, List.singleton_append]
  | .struct packed ts, h, args, st => by
    rw [promoteMemIntrinsic, Ty.fields]
    exact promoteElements_eq dl packed 0 0 ts h args st

theorem promoteElements_eq (dl : DataLayout) (packed : Bool) : ∀ (i off : ℕ) (ts : List Ty),
    allShort ts = true → ∀ (args : List ℕ) (st : σ), promoteElements promoteFun i ts args st =
      (Ty.structFields dl packed i off ts).foldlM
        (fun st f => promoteFun f.typ (args ++ f.args) st) st
  | i, off, [], _, args, st => by
    rw [promoteElements, Ty.structFields]
    rfl
  | i, off, t :: ts, h, args, st => by
    rw [allShort, Bool.and_eq_true] at h
    rw [promoteElements, Ty.structFields, List.foldlM_append, List.foldlM_map,
      promoteMemIntrinsic_eq dl t h.1]
    simp only [Field.inStruct, List.append_assoc, List.singleton_append]
    exact congrArg _ (funext fun st => promoteElements_eq dl packed (i + 1) _ ts h.2 args st)

end

mutual

/-- There is no result if a loop does not come to an end. -/
theorem promoteMemIntrinsic_eq_none : ∀ (t : Ty), short t = false →
    ∀ (args : List ℕ) (st : σ), promoteMemIntrinsic promoteFun t args st = none
  | .scalar s, h, _, _ => by
    rw [short] at h
    cases h
  | .array n t, h, args, st => by
    rw [promoteMemIntrinsic]
    split
    · rename_i hn
      rw [short, decide_eq_true hn, Bool.true_and, Bool.or_eq_false_iff,
        decide_eq_false_iff_not] at h
      exact foldlM_eq_none (List.mem_range.2 (Nat.pos_of_ne_zero h.1))
        (fun st => promoteMemIntrinsic_eq_none t h.2 _ st) st
    · rfl
  | .struct packed ts, h, args, st => by
    rw [promoteMemIntrinsic]
    exact promoteElements_eq_none 0 ts h args st

theorem promoteElements_eq_none : ∀ (i : ℕ) (ts : List Ty), allShort ts = false →
    ∀ (args : List ℕ) (st : σ), promoteElements promoteFun i ts args st = none
  | i, [], h, _, _ => by
    rw [allShort] at h
    cases h
  | i, t :: ts, h, args, st => by
    rw [promoteElements]
    rw [allShort, Bool.and_eq_false_iff] at h
    rcases h with h | h
    · rw [promoteMemIntrinsic_eq_none t h]
      rfl
    · cases promoteMemIntrinsic promoteFun t (args ++ [i]) st with
      | none => rfl
      | some st => exact promoteElements_eq_none (i + 1) ts h args st

end

mutual

theorem top_lt_of_short (dl : DataLayout) : ∀ (t : Ty), short t = true →
    ∀ f ∈ t.fields dl, f.top < 2 ^ 32
  | .scalar s, _, f, hf => by
    rw [Ty.fields] at hf
    rw [List.mem_singleton.1 hf]
    exact Nat.two_pow_pos 32
  | .array n t, h, f, hf => by
    rw [short, Bool.and_eq_true, decide_eq_true_eq, Bool.or_eq_true, decide_eq_true_eq] at h
    rw [Ty.fields] at hf
    obtain ⟨i, hi, hf⟩ := List.mem_flatMap.1 hf
    obtain ⟨g, hg, rfl⟩ := List.mem_map.1 hf
    have hin := List.mem_range.1 hi
    have ht := h.2.resolve_left (Nat.ne_of_gt (Nat.zero_lt_of_lt hin))
    exact max_lt (hin.trans h.1) (top_lt_of_short dl t ht g hg)
  | .struct packed ts, h, f, hf => by
    rw [Ty.fields] at hf
    exact top_lt_of_allShort dl packed 0 0 ts h f hf

theorem top_lt_of_allShort (dl : DataLayout) (packed : Bool) : ∀ (i off : ℕ) (ts : List Ty),
    allShort ts = true → ∀ f ∈ Ty.structFields dl packed i off ts, f.top < 2 ^ 32
  | i, off, [], _, f, hf => by
    rw [Ty.structFields] at hf
    cases hf
  | i, off, t :: ts, h, f, hf => by
    rw [allShort, Bool.and_eq_true] at h
    rw [Ty.structFields] at hf
    rcases List.mem_append.1 hf with hf | hf
    · obtain ⟨g, hg, rfl⟩ := List.mem_map.1 hf
      exact top_lt_of_short dl t h.1 g hg
    · exact top_lt_of_allShort dl packed (i + 1) _ ts h.2 f hf

end

end

section

variable {dl : DataLayout}

theorem foldlM_eq_foldl {σ α : Type*} {f : σ → α → Option σ} {g : σ → α → σ} {l : List α}
    (h : ∀ st, ∀ a ∈ l, f st a = some (g st a)) (st : σ) : l.foldlM f st = some (l.foldl g st) := by
  induction l generalizing st with
  | nil => rfl
  | cons a l ih =>
    rw [List.foldlM_cons, h st a (List.mem_cons_self ..)]
    exact ih (fun st b hb => h st b (List.mem_cons_of_mem _ hb)) (g st a)

theorem inBoundsGEP_of_mem {t : Ty} (hshort : short t = true) {f : Field} (hf : f ∈ t.fields dl) :
    inBoundsGEP dl t (0 :: f.args) = if f.top < 2 ^ 31 then some f.off else none := by
  rw [inBoundsGEP, gepOffset_of_mem hf (top_lt_of_short dl t hshort f hf)]
  split
  · rw [Option.map_some, Nat.zero_mul, Nat.zero_add]
  · rfl

theorem execAll_eq_none {insts : List Emitted} {e : Emitted} {src dst : ℕ} (he : e ∈ insts)
    (h : ∀ m, e.exec dl src dst m = none) (m : Memory (BitVec 8)) :
    execAll dl src dst insts m = none :=
  foldlM_eq_none he h m

/-! ## Stores to scalars -/

theorem pairwise_fields (t : Ty) :
    (t.fields dl).Pairwise fun f g => (f.range dl).stop ≤ (g.range dl).start :=
  List.pairwise_map.1 t.laid_fields.pairwise

theorem storeAll_of_covers {l : List Field}
    (hl : l.Pairwise fun f g => (f.range dl).stop ≤ (g.range dl).start) {v : Field → ℕ → BitVec 8}
    {f : Field} (hf : f ∈ l) {x : ℕ} (hx : (f.range dl).Covers x) (dst : ℕ)
      (m : Memory (BitVec 8)) :
    storeAll m (l.map fun f => ((f.range dl).shift dst, v f)) (dst + x) = v f (x - f.off) := by
  have hpw : (l.map fun f => ((f.range dl).shift dst, v f)).Pairwise
      fun s t => s.1.stop ≤ t.1.start :=
    List.pairwise_map.2 (hl.imp fun h => by
      rw [Range.stop_shift, Range.start_shift]
      exact Nat.add_le_add_left h dst)
  rw [storeAll_of_mem hpw (List.mem_map_of_mem hf) (Range.covers_shift.2 hx)]
  rw [Range.start_shift, Nat.add_sub_add_left, Field.start_range]

theorem storeAll_of_forall_ne {l : List Field} {v : Field → ℕ → BitVec 8} {dst a : ℕ}
    (h : ∀ f ∈ l, ∀ x, (f.range dl).Covers x → a ≠ dst + x) (m : Memory (BitVec 8)) :
    storeAll m (l.map fun f => ((f.range dl).shift dst, v f)) a = m a := by
  refine storeAll_of_forall_notMem fun s hs hcov => ?_
  obtain ⟨f, hf, rfl⟩ := List.mem_map.1 hs
  obtain ⟨x, hx, hfx⟩ := Range.exists_of_covers_shift hcov
  exact h f hf x hfx hx

/-! ## The value of a `memset` -/

theorem extractLsb'_memSetValue (typ : Scalar) (b : BitVec 8) {j : ℕ} (hj : j < typ.size dl) :
    (memSetValue dl typ b).extractLsb' (8 * j) 8 =
      if j = 0 then b else if j < 8 ∧ b.msb = true then BitVec.allOnes 8 else 0 := by
  refine BitVec.eq_of_getLsbD_eq fun i hi => ?_
  have hlt : 8 * j + i < 8 * (typ.size dl : ℕ) := by omega
  rw [BitVec.getLsbD_extractLsb', decide_eq_true hi, Bool.true_and, memSetValue,
    BitVec.getLsbD_setWidth, decide_eq_true hlt, Bool.true_and, BitVec.getLsbD_signExtend]
  by_cases hj0 : j = 0
  · rw [if_pos hj0, hj0, Nat.mul_zero, Nat.zero_add, if_pos hi, decide_eq_true (by omega),
      Bool.true_and]
  · rw [if_neg hj0, if_neg (by omega)]
    by_cases h8 : j < 8
    · rw [decide_eq_true (by omega), Bool.true_and]
      cases b.msb with
      | true => rw [if_pos ⟨h8, rfl⟩, BitVec.getLsbD_allOnes, decide_eq_true hi]
      | false => rw [if_neg fun h => Bool.false_ne_true h.2]; exact BitVec.getLsbD_zero.symm
    · rw [decide_eq_false (by omega), Bool.false_and, if_neg fun h => h8 h.1]
      exact BitVec.getLsbD_zero.symm

theorem forall_byteOf_iff {size width : ℕ} {val : BitVec width} {b : BitVec 8} :
    (∀ j < size, byteOf dl size val j = b) ↔ ∀ j < size, val.extractLsb' (8 * j) 8 = b := by
  unfold byteOf
  cases dl.bigEndian with
  | false => exact Iff.rfl
  | true =>
    refine ⟨fun h j hj => ?_, fun h j hj => ?_⟩
    · have hr := h (size - 1 - j) (by omega)
      rwa [if_pos rfl, show size - 1 - (size - 1 - j) = j by omega] at hr
    · exact h (size - 1 - j) (by omega)

/-- **When the constant consists of nothing but the byte.** -/
theorem forall_byteOf_memSetValue_iff (typ : Scalar) (b : BitVec 8) :
    (∀ j < (typ.size dl : ℕ), byteOf dl (typ.size dl) (memSetValue dl typ b) j = b) ↔
      (typ.size dl : ℕ) = 1 ∨ b = 0 ∨ (b = BitVec.allOnes 8 ∧ (typ.size dl : ℕ) ≤ 8) := by
  rw [forall_byteOf_iff]
  have hpos := (typ.size dl).pos
  refine ⟨fun h => ?_, fun h j hj => ?_⟩
  · by_cases h1 : (typ.size dl : ℕ) = 1
    · exact .inl h1
    have hb := h 1 (by omega)
    rw [extractLsb'_memSetValue typ b (by omega), if_neg Nat.one_ne_zero] at hb
    by_cases hmsb : b.msb = true
    · rw [if_pos ⟨by omega, hmsb⟩] at hb
      refine .inr (.inr ⟨hb.symm, not_lt.1 fun h8 => ?_⟩)
      have hb8 := h 8 h8
      rw [extractLsb'_memSetValue typ b h8, if_neg (by omega), if_neg (by omega), ← hb] at hb8
      exact absurd hb8 (by decide)
    · rw [if_neg fun hc => hmsb hc.2] at hb
      exact .inr (.inl hb.symm)
  · rw [extractLsb'_memSetValue typ b hj]
    rcases h with h | rfl | ⟨rfl, h⟩
    · rw [if_pos (by omega)]
    · rw [if_neg (fun hc : j < 8 ∧ (0 : BitVec 8).msb = true => absurd hc.2 (by decide)), ite_self]
    · rw [if_pos (⟨by omega, by decide⟩ : j < 8 ∧ (BitVec.allOnes 8).msb = true), ite_self]

/-! ## Promoting a `memset` -/

/-- The byte is not padding. -/
def Occupied (dl : DataLayout) (t : Ty) (x : ℕ) : Prop := ∃ f ∈ t.fields dl, (f.range dl).Covers x

/-- The store for a scalar. -/
def storeAt (dl : DataLayout) (t : Ty) (b : BitVec 8) (f : Field) : Emitted :=
  .store t (0 :: f.args) f.typ _ (memSetValue dl f.typ b)

variable {MS : MemSetInst} {t : Ty} {b : BitVec 8} {len src dst : ℕ}

theorem canPromote_of_getPromotionGEPType {op : PtrOperand} (h : op.getPromotionGEPType = some t) :
    op.isPromotableMemIntrinsicOperand = true := by
  cases op with
  | other => cases h
  | _ => rfl

theorem foldlM_promoteMemSet {op : PtrOperand} (ht : op.getPromotionGEPType = some t)
    (l : List Field) (insts : List Emitted) :
    l.foldlM (fun insts f => promoteMemSet dl op (some b) f.typ ([0] ++ f.args) insts) insts =
      some (insts ++ l.map (storeAt dl t b)) := by
  induction l generalizing insts with
  | nil => rw [List.map_nil, List.append_nil]; rfl
  | cons f l ih =>
    have hstep : promoteMemSet dl op (some b) f.typ ([0] ++ f.args) insts =
        some (insts ++ [storeAt dl t b f]) := by
      rw [promoteMemSet, ht]
      rfl
    rw [List.foldlM_cons, hstep, List.map_cons, ← List.singleton_append (l := l.map _),
      ← List.append_assoc]
    exact ih _

/-- What is emitted for a `memset`: it does not depend on the length. -/
theorem tryPromoteMemSet_eq (ht : MS.dest.getPromotionGEPType = some t) (hb : MS.value = some b)
    (hlen : MS.length = some len) :
    tryPromoteMemSet dl MS =
      if short t then some (true, (t.fields dl).map (storeAt dl t b)) else none := by
  have hcan : canPromoteMemIntrinsic MS.length [MS.dest] = true := by
    rw [canPromoteMemIntrinsic, hlen, List.any_cons, canPromote_of_getPromotionGEPType ht]
    rfl
  rw [tryPromoteMemSet, if_pos hcan, ht, hb]
  split
  · rename_i hshort
    change Option.map _ (promoteMemIntrinsic _ t [0] []) = _
    rw [promoteMemIntrinsic_eq dl t hshort, foldlM_promoteMemSet ht, List.nil_append]
    rfl
  · rename_i hshort
    change Option.map _ (promoteMemIntrinsic _ t [0] []) = _
    rw [promoteMemIntrinsic_eq_none t (Bool.not_eq_true _ ▸ hshort)]
    rfl

theorem exec_storeAt (hshort : short t = true) {f : Field} (hf : f ∈ t.fields dl)
    (m : Memory (BitVec 8)) :
    (storeAt dl t b f).exec dl src dst m = if f.top < 2 ^ 31 then
      some (m.store ((f.range dl).shift dst) (byteOf dl (f.typ.size dl) (memSetValue dl f.typ b)))
      else none := by
  rw [storeAt, Emitted.exec, inBoundsGEP_of_mem hshort hf]
  split <;> rfl

/-- The memory after the stores. -/
theorem execAll_storeAt (hshort : short t = true) (htop : ∀ f ∈ t.fields dl, f.top < 2 ^ 31)
    (m : Memory (BitVec 8)) :
    execAll dl src dst ((t.fields dl).map (storeAt dl t b)) m =
      some (storeAll m ((t.fields dl).map fun f => ((f.range dl).shift dst,
        byteOf dl (f.typ.size dl) (memSetValue dl f.typ b)))) := by
  rw [execAll, List.foldlM_map, storeAll, List.foldl_map]
  exact foldlM_eq_foldl (fun m f hf => by rw [exec_storeAt hshort hf, if_pos (htop f hf)]) m

/-- What is in memory after the stores. -/
theorem apply_of_execAll_storeAt (hshort : short t = true)
    (htop : ∀ f ∈ t.fields dl, f.top < 2 ^ 31) {f : Field} (hf : f ∈ t.fields dl) {x : ℕ}
    (hx : (f.range dl).Covers x) {m m' : Memory (BitVec 8)}
    (hm' : execAll dl src dst ((t.fields dl).map (storeAt dl t b)) m = some m') :
    m' (dst + x) = byteOf dl (f.typ.size dl) (memSetValue dl f.typ b) (x - f.off) := by
  rw [execAll_storeAt hshort htop] at hm'
  rw [← Option.some.inj hm']
  exact storeAll_of_covers (pairwise_fields t) hf hx dst m

/-- A `memset` of constant length becomes stores that write the byte to all of the length that is
not padding, and to nothing after it. -/
def MemSetSound (dl : DataLayout) (MS : MemSetInst) (t : Ty) (b : BitVec 8) (len : ℕ) : Prop :=
  ∃ insts, tryPromoteMemSet dl MS = some (true, insts) ∧
    ∀ (src dst : ℕ) (m : Memory (BitVec 8)), ∃ m', execAll dl src dst insts m = some m' ∧
      (∀ x < len, Occupied dl t x → m' (dst + x) = b) ∧ ∀ x, len ≤ x → m' (dst + x) = m (dst + x)

/-- What a scalar has to be like for its store to be right, whatever was in memory before. -/
theorem field_of_stores (hshort : short t = true) (htop : ∀ f ∈ t.fields dl, f.top < 2 ^ 31)
    (hrun : ∀ m, ∃ m', execAll dl 0 0 ((t.fields dl).map (storeAt dl t b)) m = some m' ∧
      (∀ x < len, Occupied dl t x → m' (0 + x) = b) ∧ ∀ x, len ≤ x → m' (0 + x) = m (0 + x))
    {f : Field} (hf : f ∈ t.fields dl) :
    f.off + f.typ.size dl ≤ len ∧ ((f.typ.size dl : ℕ) = 1 ∨ b = 0 ∨
      (b = BitVec.allOnes 8 ∧ (f.typ.size dl : ℕ) ≤ 8)) := by
  have hbyte : ∀ j < (f.typ.size dl : ℕ), ∀ c : BitVec 8,
      byteOf dl (f.typ.size dl) (memSetValue dl f.typ b) j = if f.off + j < len then b else c := by
    intro j hj c
    obtain ⟨m', hm', hset, hkeep⟩ := hrun fun _ => c
    have hcov : (f.range dl).Covers (f.off + j) :=
      ⟨Nat.le_add_right _ _, Nat.add_lt_add_left hj _⟩
    have hval := apply_of_execAll_storeAt hshort htop hf hcov hm'
    rw [Nat.add_sub_cancel_left] at hval
    rw [← hval]
    split
    · rename_i hlt
      exact hset _ hlt ⟨f, hf, hcov⟩
    · rename_i hlt
      exact hkeep _ (not_lt.1 hlt)
  have hend : ∀ j < (f.typ.size dl : ℕ), f.off + j < len := by
    intro j hj
    by_contra hlt
    -- the byte that is stored cannot be what was there in both of two memories
    have h0 := hbyte j hj 0
    have h1 := hbyte j hj 1
    rw [h0, if_neg hlt, if_neg hlt] at h1
    exact absurd h1 (by decide)
  refine ⟨?_, ?_⟩
  · have hpos := (f.typ.size dl).pos
    have hlast := hend (f.typ.size dl - 1) (by omega)
    omega
  · refine (forall_byteOf_memSetValue_iff f.typ b).1 fun j hj => ?_
    rw [hbyte j hj 0, if_pos (hend j hj)]

/-- **When a `memset` is promoted to stores that do the same.** -/
theorem promoteMemSet_sound_iff (dl : DataLayout) (MS : MemSetInst) (t : Ty)
    (b : BitVec 8) (len : ℕ)
    (ht : MS.dest.getPromotionGEPType = some t) (hb : MS.value = some b)
    (hlen : MS.length = some len) :
    MemSetSound dl MS t b len ↔ short t = true ∧ ∀ f ∈ t.fields dl, f.top < 2 ^ 31 ∧
      f.off + f.typ.size dl ≤ len ∧ ((f.typ.size dl : ℕ) = 1 ∨ b = 0 ∨
        (b = BitVec.allOnes 8 ∧ (f.typ.size dl : ℕ) ≤ 8)) := by
  rw [MemSetSound, tryPromoteMemSet_eq ht hb hlen]
  refine ⟨?_, ?_⟩
  · rintro ⟨insts, hinsts, hrun⟩
    split at hinsts
    · rename_i hshort
      obtain rfl : (t.fields dl).map (storeAt dl t b) = insts :=
        congrArg Prod.snd (Option.some.inj hinsts)
      have htop : ∀ f ∈ t.fields dl, f.top < 2 ^ 31 := by
        intro f hf
        by_contra hlt
        obtain ⟨m', hm', -⟩ := hrun 0 0 fun _ => 0
        rw [execAll_eq_none (List.mem_map_of_mem hf) fun m => by
          rw [exec_storeAt hshort hf, if_neg hlt]] at hm'
        cases hm'
      exact ⟨hshort, fun f hf => ⟨htop f hf, field_of_stores hshort htop (hrun 0 0) hf⟩⟩
    · cases hinsts
  · rintro ⟨hshort, hall⟩
    have htop : ∀ f ∈ t.fields dl, f.top < 2 ^ 31 := fun f hf => (hall f hf).1
    refine ⟨_, if_pos hshort, fun src dst m => ⟨_, execAll_storeAt hshort htop m, ?_, ?_⟩⟩
    · rintro x - ⟨f, hf, hx⟩
      rw [storeAll_of_covers (pairwise_fields t) hf hx dst m]
      refine (forall_byteOf_memSetValue_iff f.typ b).2 (hall f hf).2.2 _ ?_
      have hstart := hx.1
      have hstop : x < f.off + f.typ.size dl := hx.2
      rw [Field.start_range] at hstart
      omega
    · intro x hx
      refine storeAll_of_forall_ne (fun f hf y hy heq => ?_) m
      have hstop : y < f.off + f.typ.size dl := hy.2
      have hend := (hall f hf).2.1
      omega

/-- No scalar is on both sides of the length. -/
def EndsOnField (dl : DataLayout) (t : Ty) (len : ℕ) : Prop :=
  ∀ f ∈ t.fields dl, f.off + f.typ.size dl ≤ len ∨ len ≤ f.off

instance (t : Ty) (len : ℕ) : Decidable (EndsOnField dl t len) :=
  inferInstanceAs (Decidable (∀ f ∈ t.fields dl, _))

/-- A struct of two integers of 32 bits. -/
def pair : Ty := .struct false [.scalar (.int 4), .scalar (.int 4)]

/-- Clearing all of a struct. -/
theorem memSetSound_pair :
    MemSetSound x86 ⟨.alloca pair, some 0, some 8⟩ pair 0 8 :=
  (promoteMemSet_sound_iff x86 _ pair 0 8 rfl rfl rfl).2 ⟨by decide, by decide⟩

/-- Setting the bytes of the first element of a struct to 1: the element becomes 1, and so does the
other one. -/
theorem not_memSetSound_pair :
    (4 ≤ pair.storeSize x86 ∧ EndsOnField x86 pair 4) ∧
      ¬ MemSetSound x86 ⟨.alloca pair, some 1, some 4⟩ pair 1 4 := by
  refine ⟨by decide, ?_⟩
  rintro ⟨insts, hinsts, hrun⟩
  obtain rfl : (pair.fields x86).map (storeAt x86 pair 1) = insts :=
    congrArg Prod.snd (Option.some.inj hinsts)
  obtain ⟨m', hm', hset, -⟩ := hrun 0 0 fun _ => 0
  have hzero : m' 1 = 0 := (congrFun (Option.some.inj hm') 1).symm
  have hone : m' (0 + 1) = 1 := hset 1 (by decide) ⟨⟨.int 4, [0], 0, 0⟩, by decide, by decide⟩
  exact absurd (hzero.symm.trans hone) (by decide)

/-! ## Promoting a `memcpy` -/

/-- Both operands are used with the type. -/
def MemCpyInst.HasType (MI : MemCpyInst) (t : Ty) : Prop :=
  ∃ src dst, getRecastedOperands MI.source.lowerConstExpr MI.dest.lowerConstExpr = some (src, dst) ∧
    src.getPromotionGEPType = some t ∧ dst.getPromotionGEPType = some t

/-- The load and the store for a scalar. -/
def copyAt (t : Ty) (f : Field) : Emitted := .copy t t (0 :: f.args) f.typ

/-- Whether an access reads or writes the byte that is `x` bytes after the start of an operand. -/
def Emitted.Touches (dl : DataLayout) (x : ℕ) : Emitted → Prop
  | store dstTyp args typ _ _ =>
    ∃ off, inBoundsGEP dl dstTyp args = some off ∧ (Range.mk off (typ.size dl)).Covers x
  | copy srcTyp dstTyp args typ =>
    ∃ off, (inBoundsGEP dl srcTyp args = some off ∨ inBoundsGEP dl dstTyp args = some off) ∧
      (Range.mk off (typ.size dl)).Covers x

/-- A `memcpy` of constant length becomes accesses within the length which copy all of it that is
not padding, and change nothing else. -/
def MemCpySound (dl : DataLayout) (MI : MemCpyInst) (t : Ty) (len : ℕ) : Prop :=
  ∃ insts, tryPromoteMemCpy dl MI = some (true, insts) ∧
    (∀ e ∈ insts, ∀ x, e.Touches dl x → x < len) ∧
    ∀ (src dst : ℕ) (m : Memory (BitVec 8)), (src + len ≤ dst ∨ dst + len ≤ src) →
      ∃ m', execAll dl src dst insts m = some m' ∧
        (∀ x < len, Occupied dl t x → m' (dst + x) = m (src + x)) ∧
        ∀ a, (∀ x < len, Occupied dl t x → a ≠ dst + x) → m' a = m a

section Copy

variable {MI : MemCpyInst} {sop dop : PtrOperand} {l : List Field} {r : ℕ} {insts : List Emitted}

/-- The copies of some scalars, after those that were emitted before. -/
def copyFields (dl : DataLayout) (dop sop : PtrOperand) (l : List Field) (st : ℕ × List Emitted) :
    Option (ℕ × List Emitted) :=
  l.foldlM (fun st f => promoteMemCpy dl dop sop f.typ ([0] ++ f.args) st) st

theorem copyFields_append (l' : List Field) (st : ℕ × List Emitted) :
    copyFields dl dop sop (l ++ l') st =
      (copyFields dl dop sop l st).bind (copyFields dl dop sop l') :=
  List.foldlM_append

theorem copyFields_zero : copyFields dl dop sop l (0, insts) = some (0, insts) := by
  induction l with
  | nil => rfl
  | cons f l ih => exact ih

variable (hs : sop.getPromotionGEPType = some t) (hd : dop.getPromotionGEPType = some t)
include hs hd

theorem promoteMemCpy_eq (f : Field) (hr : r ≠ 0) :
    promoteMemCpy dl dop sop f.typ ([0] ++ f.args) (r, insts) =
      if (f.typ.size dl : ℕ) ≤ r then some (r - f.typ.size dl, insts ++ [copyAt t f])
        else none := by
  rw [promoteMemCpy, if_neg hr, hs, hd]
  rfl

/-- As long as the length is enough for the scalars, all of them are copied. -/
theorem copyFields_of_sum_le (hsum : ((l.map (Field.range dl)).map Range.size).sum ≤ r) :
    copyFields dl dop sop l (r, insts) =
      some (r - ((l.map (Field.range dl)).map Range.size).sum, insts ++ l.map (copyAt t)) := by
  induction l generalizing r insts with
  | nil =>
    change some (r, insts) = some (r - 0, insts ++ [])
    rw [List.append_nil, Nat.sub_zero]
  | cons f l ih =>
    have hpos := (f.typ.size dl).pos
    rw [List.map_cons, List.map_cons, List.sum_cons, Field.size_range] at hsum ⊢
    rw [copyFields, List.foldlM_cons, promoteMemCpy_eq hs hd f (by omega), if_pos (by omega)]
    refine (ih (by omega)).trans ?_
    rw [List.append_assoc, List.map_cons, Nat.sub_sub]
    rfl

/-- What was emitted stays. -/
theorem mem_of_copyFields {st : ℕ × List Emitted} {e : Emitted} (he : e ∈ insts)
    (h : copyFields dl dop sop l (r, insts) = some st) : e ∈ st.2 := by
  induction l generalizing r insts with
  | nil =>
    obtain rfl := Option.some.inj h
    exact he
  | cons f l ih =>
    by_cases hr : r = 0
    · rw [hr, copyFields_zero] at h
      obtain rfl := Option.some.inj h
      exact he
    · rw [copyFields, List.foldlM_cons, promoteMemCpy_eq hs hd f hr] at h
      split at h
      · exact ih (List.mem_append_left _ he) h
      · cases h

/-- If there is some length left then the next scalar is copied, or there is no result. -/
theorem copyAt_mem_of_copyFields {st : ℕ × List Emitted} {f : Field} (hr : r ≠ 0)
    (h : copyFields dl dop sop (f :: l) (r, insts) = some st) : copyAt t f ∈ st.2 := by
  rw [copyFields, List.foldlM_cons, promoteMemCpy_eq hs hd f hr] at h
  split at h
  · exact mem_of_copyFields hs hd (List.mem_append_right _ (List.mem_singleton.2 rfl)) h
  · cases h

end Copy

theorem canPromote_of_getRecastedOperands {op op' : PtrOperand} {ops : PtrOperand × PtrOperand}
    (h : getRecastedOperands op.lowerConstExpr op'.lowerConstExpr = some ops) :
    [op', op].any PtrOperand.isPromotableMemIntrinsicOperand = true := by
  cases op' with
  | other =>
    cases op with
    | other => cases h
    | _ => rfl
  | _ => rfl

/-- What is emitted for a `memcpy`. -/
theorem tryPromoteMemCpy_eq {MI : MemCpyInst} (hlen : MI.length = some len) (h0 : len ≠ 0)
    (hT : MI.HasType t) (hsize : len ≤ t.storeSize dl) :
    ∃ sop dop, PtrOperand.getPromotionGEPType sop = some t ∧ dop.getPromotionGEPType = some t ∧
      tryPromoteMemCpy dl MI = if short t then
        (copyFields dl dop sop (t.fields dl) (len, [])).map fun st => (true, st.2) else none := by
  obtain ⟨sop, dop, hops, hs, hd⟩ := hT
  have hcan : canPromoteMemIntrinsic MI.length [MI.dest, MI.source] = true := by
    rw [canPromoteMemIntrinsic, hlen, canPromote_of_getRecastedOperands hops]
    rfl
  refine ⟨sop, dop, hs, hd, ?_⟩
  rw [tryPromoteMemCpy, if_pos hcan, hlen, hops]
  change (if len = 0 then _ else dop.getPromotionGEPType.bind _) = _
  rw [if_neg h0, hd]
  change (if len ≤ t.storeSize dl then _ else _) = _
  rw [if_pos hsize]
  split
  · rename_i hshort
    rw [promoteMemIntrinsic_eq dl t hshort]
    rfl
  · rename_i hshort
    rw [promoteMemIntrinsic_eq_none t (Bool.not_eq_true _ ▸ hshort)]
    rfl

theorem exec_copyAt (hshort : short t = true) {f : Field} (hf : f ∈ t.fields dl)
    (m : Memory (BitVec 8)) :
    (copyAt t f).exec dl src dst m = if f.top < 2 ^ 31 then
      some (m.store ((f.range dl).shift dst) fun j => m (src + (f.range dl).start + j))
        else none := by
  rw [copyAt, Emitted.exec, inBoundsGEP_of_mem hshort hf]
  split <;> rfl

theorem execAll_copyAt (hshort : short t = true) {l : List Field} (hl : l ⊆ t.fields dl)
    (htop : ∀ f ∈ l, f.top < 2 ^ 31) (m : Memory (BitVec 8)) :
    execAll dl src dst (l.map (copyAt t)) m =
      some (copyAll m src dst (l.map (Field.range dl))) := by
  rw [execAll, List.foldlM_map, copyAll, List.foldl_map]
  exact foldlM_eq_foldl (fun m f hf => by rw [exec_copyAt hshort (hl hf), if_pos (htop f hf)]) m

/-! ### The scalars before the length and those after it -/

/-- The scalars of a type are those of `l₁`, before the length, and those of `l₂`, after it. -/
structure SplitAt (dl : DataLayout) (t : Ty) (len : ℕ) (l₁ l₂ : List Field) : Prop where
  fields : t.fields dl = l₁ ++ l₂
  laid : Laid 0 len (l₁.map (Field.range dl))
  after : ∀ f ∈ l₂, len ≤ f.off

theorem exists_splitAt (hsize : len ≤ t.storeSize dl) (hend : EndsOnField dl t len) :
    ∃ l₁ l₂, SplitAt dl t len l₁ l₂ := by
  have hcut : ∀ r ∈ (t.fields dl).map (Field.range dl), r.stop ≤ len ∨ len ≤ r.start := by
    intro r hr
    obtain ⟨f, hf, rfl⟩ := List.mem_map.1 hr
    exact hend f hf
  obtain ⟨m₁, m₂, hm, h₁, h₂⟩ := t.laid_fields.exists_split (Nat.zero_le len) hsize hcut
  obtain ⟨l₁, l₂, hl, rfl, rfl⟩ := List.map_eq_append_iff.1 hm
  exact ⟨l₁, l₂, hl, h₁, fun f hf => h₂.le_start (List.mem_map_of_mem hf)⟩

namespace SplitAt

variable {l₁ l₂ : List Field}

theorem subset (h : SplitAt dl t len l₁ l₂) : l₁ ⊆ t.fields dl :=
  h.fields ▸ List.subset_append_left l₁ l₂

theorem stop_le (h : SplitAt dl t len l₁ l₂) {f : Field} (hf : f ∈ l₁) : (f.range dl).stop ≤ len :=
  h.laid.stop_le (List.mem_map_of_mem hf)

theorem off_lt (h : SplitAt dl t len l₁ l₂) {f : Field} (hf : f ∈ l₁) : f.off < len :=
  (Nat.lt_add_of_pos_right (f.typ.size dl).pos).trans_le (h.stop_le hf)

theorem mem_of_off_lt (h : SplitAt dl t len l₁ l₂) {f : Field} (hf : f ∈ t.fields dl)
    (hlt : f.off < len) : f ∈ l₁ :=
  (List.mem_append.1 (h.fields ▸ hf)).resolve_right fun hf => absurd (h.after f hf) (not_le.2 hlt)

theorem sum_le (h : SplitAt dl t len l₁ l₂) :
    ((l₁.map (Field.range dl)).map Range.size).sum ≤ len :=
  (Nat.zero_add _).symm.trans_le h.laid.sum_size_le

/-- The sizes add up to the length if there is no padding in it. -/
theorem sum_eq_iff (h : SplitAt dl t len l₁ l₂) :
    ((l₁.map (Field.range dl)).map Range.size).sum = len ↔ ∀ x < len, Occupied dl t x := by
  have hpos : ∀ r ∈ l₁.map (Field.range dl), 0 < r.size := by
    intro r hr
    obtain ⟨f, -, rfl⟩ := List.mem_map.1 hr
    exact (f.typ.size dl).pos
  have hsum := h.laid.sum_size_eq_iff hpos
  rw [Nat.zero_add] at hsum
  rw [hsum]
  refine ⟨fun hall x hx => ?_, ?_⟩
  · obtain ⟨r, hr, hcov⟩ := hall x (Nat.zero_le x) hx
    obtain ⟨f, hf, rfl⟩ := List.mem_map.1 hr
    exact ⟨f, h.subset hf, hcov⟩
  · rintro hall x - hx
    obtain ⟨f, hf, hcov⟩ := hall x hx
    exact ⟨_, List.mem_map_of_mem (h.mem_of_off_lt hf (hcov.1.trans_lt hx)), hcov⟩

end SplitAt

theorem touches_copyAt (hshort : short t = true) {f : Field} (hf : f ∈ t.fields dl) {x : ℕ} :
    (copyAt t f).Touches dl x ↔ f.top < 2 ^ 31 ∧ (f.range dl).Covers x := by
  rw [copyAt, Emitted.Touches, inBoundsGEP_of_mem hshort hf]
  split
  · rename_i htop
    refine ⟨?_, ?_⟩
    · rintro ⟨off, hoff, hcov⟩
      obtain rfl : f.off = off := Option.some.inj (or_self_iff.1 hoff)
      exact ⟨htop, hcov⟩
    · exact fun h => ⟨f.off, .inl rfl, h.2⟩
  · rename_i htop
    refine ⟨?_, ?_⟩
    · rintro ⟨off, hoff, -⟩
      cases or_self_iff.1 hoff
    · exact fun h => absurd h.1 htop

/-- Copying the scalars before the length does what a `memcpy` does. -/
theorem SplitAt.copyAll_sound {l₁ l₂ : List Field} (h : SplitAt dl t len l₁ l₂)
    (hdisj : src + len ≤ dst ∨ dst + len ≤ src) (m : Memory (BitVec 8)) :
    (∀ x < len, Occupied dl t x →
      copyAll m src dst (l₁.map (Field.range dl)) (dst + x) = m (src + x)) ∧
    ∀ a, (∀ x < len, Occupied dl t x → a ≠ dst + x) →
      copyAll m src dst (l₁.map (Field.range dl)) a = m a := by
  have hlt : ∀ f ∈ l₁, ∀ x, (f.range dl).Covers x → x < len := fun f hf x hx =>
    hx.2.trans_le (h.stop_le hf)
  have hread : copyAll m src dst (l₁.map (Field.range dl)) =
      storeAll m (l₁.map fun f => ((f.range dl).shift dst, fun j => m (src + f.off + j))) := by
    rw [copyAll_eq_storeAll, List.map_map]
    · rfl
    · intro r hr s hs x y hx hy
      obtain ⟨f, hf, rfl⟩ := List.mem_map.1 hr
      obtain ⟨g, hg, rfl⟩ := List.mem_map.1 hs
      have hxl := hlt f hf x hx
      have hyl := hlt g hg y hy
      omega
  have hpw : l₁.Pairwise fun f g => (f.range dl).stop ≤ (g.range dl).start :=
    (List.pairwise_append.1 (h.fields ▸ pairwise_fields t)).1
  rw [hread]
  refine ⟨?_, fun a ha => ?_⟩
  · rintro x hx ⟨f, hf, hcov⟩
    have hfl := h.mem_of_off_lt hf (hcov.1.trans_lt hx)
    rw [storeAll_of_covers hpw hfl hcov dst m, Nat.add_assoc,
      Nat.add_sub_cancel' (show f.off ≤ x from hcov.1)]
  · refine storeAll_of_forall_ne (fun f hf x hx => ?_) m
    exact ha x (hlt f hf x hx) ⟨f, h.subset hf, hx⟩

/-- The scalars before the length are copied in any case. -/
theorem SplitAt.copyFields_eq {l₁ l₂ : List Field} {sop dop : PtrOperand}
    (h : SplitAt dl t len l₁ l₂) (hs : sop.getPromotionGEPType = some t)
    (hd : dop.getPromotionGEPType = some t) :
    copyFields dl dop sop (t.fields dl) (len, []) = copyFields dl dop sop l₂
      (len - ((l₁.map (Field.range dl)).map Range.size).sum, l₁.map (copyAt t)) := by
  rw [h.fields, copyFields_append, copyFields_of_sum_le hs hd h.sum_le]
  rfl

/-- Nothing else is copied if there is no padding or nothing else. -/
theorem SplitAt.copyFields_done {l₁ l₂ : List Field} {sop dop : PtrOperand} {insts : List Emitted}
    (h : SplitAt dl t len l₁ l₂)
    (hpad : (∀ x < len, Occupied dl t x) ∨ ∀ f ∈ t.fields dl, f.off < len) :
    ∃ r, copyFields dl dop sop l₂ (len - ((l₁.map (Field.range dl)).map Range.size).sum, insts) =
      some (r, insts) := by
  rcases hpad with hpad | hpad
  · rw [h.sum_eq_iff.2 hpad, Nat.sub_self]
    exact ⟨0, copyFields_zero⟩
  · cases l₂ with
    | nil => exact ⟨_, rfl⟩
    | cons g l₂ =>
      have hlt := hpad g (h.fields ▸ List.mem_append_right _ (List.mem_cons_self ..))
      exact absurd (h.after g (List.mem_cons_self ..)) (not_le.2 hlt)

/-- A `memcpy` of length zero is only removed. -/
theorem memCpySound_zero {MI : MemCpyInst} (hT : MI.HasType t) (hlen : MI.length = some 0) :
    MemCpySound dl MI t 0 := by
  obtain ⟨sop, dop, hops, -, -⟩ := hT
  have hcan : canPromoteMemIntrinsic MI.length [MI.dest, MI.source] = true := by
    rw [canPromoteMemIntrinsic, hlen, canPromote_of_getRecastedOperands hops]
    rfl
  refine ⟨[], ?_, fun e he => absurd he List.not_mem_nil, fun src dst m _ => ⟨m, rfl, ?_, ?_⟩⟩
  · rw [tryPromoteMemCpy, if_pos hcan, hlen]
    rfl
  · exact fun x hx => absurd hx (Nat.not_lt_zero x)
  · exact fun _ _ => rfl

/-- **When a `memcpy` is promoted to accesses that do the same**: there is no padding in its length,
or nothing after it. -/
theorem promoteMemCpy_sound_iff (dl : DataLayout) (MI : MemCpyInst) (t : Ty) (len : ℕ)
    (hT : MI.HasType t) (hlen : MI.length = some len) (hsize : len ≤ t.storeSize dl)
    (hend : EndsOnField dl t len) :
    MemCpySound dl MI t len ↔ len = 0 ∨ (short t = true ∧
      (∀ f ∈ t.fields dl, f.off < len → f.top < 2 ^ 31) ∧
      ((∀ x < len, Occupied dl t x) ∨ ∀ f ∈ t.fields dl, f.off < len)) := by
  by_cases h0 : len = 0
  · refine ⟨fun _ => .inl h0, fun _ => ?_⟩
    rw [h0] at hlen ⊢
    exact memCpySound_zero hT hlen
  obtain ⟨sop, dop, hs, hd, heq⟩ := tryPromoteMemCpy_eq hlen h0 hT hsize
  obtain ⟨l₁, l₂, hl⟩ := exists_splitAt hsize hend
  rw [MemCpySound, heq, hl.copyFields_eq hs hd]
  refine ⟨?_, ?_⟩
  · rintro ⟨insts, hinsts, htouch, hrun⟩
    refine .inr ?_
    split at hinsts
    · rename_i hshort
      obtain ⟨st, hst, heq⟩ := Option.map_eq_some_iff.1 hinsts
      obtain rfl : st.2 = insts := congrArg Prod.snd heq
      have htop : ∀ f ∈ t.fields dl, copyAt t f ∈ st.2 → f.top < 2 ^ 31 := by
        intro f hf hmem
        by_contra hlt
        obtain ⟨m', hm', -⟩ := hrun 0 len (fun _ => 0) (.inl (Nat.zero_add len).le)
        rw [execAll_eq_none hmem fun m => by rw [exec_copyAt hshort hf, if_neg hlt]] at hm'
        cases hm'
      refine ⟨hshort, fun f hf hlt => htop f hf ?_, ?_⟩
      · exact mem_of_copyFields hs hd (List.mem_map_of_mem (hl.mem_of_off_lt hf hlt)) hst
      · by_cases hrest : len - ((l₁.map (Field.range dl)).map Range.size).sum = 0
        · have hsum := hl.sum_le
          exact .inl (hl.sum_eq_iff.1 (by omega))
        · refine .inr fun f hf => hl.off_lt ?_
          cases l₂ with
          | nil => rwa [hl.fields, List.append_nil] at hf
          | cons g l₂ =>
            -- what is left of the length is used for the next scalar
            have hg : g ∈ t.fields dl :=
              hl.fields ▸ List.mem_append_right _ (List.mem_cons_self ..)
            have hmem := copyAt_mem_of_copyFields hs hd hrest hst
            have hcov : (g.range dl).Covers g.off :=
              ⟨le_rfl, Nat.lt_add_of_pos_right (g.typ.size dl).pos⟩
            have hlt := htouch _ hmem _ ((touches_copyAt hshort hg).2 ⟨htop g hg hmem, hcov⟩)
            exact absurd (hl.after g (List.mem_cons_self ..)) (not_le.2 hlt)
    · cases hinsts
  · rintro (h | ⟨hshort, htop, hpad⟩)
    · exact absurd h h0
    obtain ⟨r, hr⟩ := hl.copyFields_done hpad
    refine ⟨l₁.map (copyAt t), by rw [if_pos hshort, hr]; rfl, ?_, fun src dst m hdisj => ?_⟩
    · intro e he x hx
      obtain ⟨f, hf, rfl⟩ := List.mem_map.1 he
      have hcov := ((touches_copyAt hshort (hl.subset hf)).1 hx).2
      exact hcov.2.trans_le (hl.stop_le hf)
    · have htop₁ : ∀ f ∈ l₁, f.top < 2 ^ 31 := fun f hf => htop f (hl.subset hf) (hl.off_lt hf)
      exact ⟨_, execAll_copyAt hshort hl.subset htop₁ m, hl.copyAll_sound hdisj m⟩

/-- Copying the first element of a struct without padding. -/
theorem memCpySound_pair : MemCpySound x86 ⟨.alloca pair, .other, some 4⟩ pair 4 :=
  (promoteMemCpy_sound_iff x86 ⟨.alloca pair, .other, some 4⟩ pair 4
    ⟨.gep pair, .alloca pair, rfl, rfl, rfl⟩ rfl (by decide) (by decide)).2
    (.inr ⟨by decide, by decide, .inl fun x hx =>
      ⟨⟨.int 4, [0], 0, 0⟩, by decide, Nat.zero_le x, hx⟩⟩)

/-- A struct with padding after its first element and after its last one. -/
def padded : Ty :=
  .struct false [.scalar (.int ⟨1, Nat.one_pos⟩), .scalar (.int 4), .scalar (.int ⟨1, Nat.one_pos⟩)]

/-- Copying the first element of a struct with the padding after it: the check of the length fails.
Copying the first two: what is left of the length is used to copy the third one. -/
theorem not_memCpySound_padded :
    (EndsOnField x86 padded 4 ∧ tryPromoteMemCpy x86 ⟨.alloca padded, .other, some 4⟩ = none ∧
      ¬ MemCpySound x86 ⟨.alloca padded, .other, some 4⟩ padded 4) ∧
    (EndsOnField x86 padded 8 ∧ ¬ MemCpySound x86 ⟨.alloca padded, .other, some 8⟩ padded 8) := by
  refine ⟨⟨by decide, rfl, fun h => ?_⟩, by decide, fun h => ?_⟩
  · obtain ⟨insts, hinsts, -⟩ := h
    cases hinsts
  · obtain ⟨insts, hinsts, htouch, -⟩ := h
    obtain rfl : (padded.fields x86).map (copyAt padded) = insts :=
      congrArg Prod.snd (Option.some.inj hinsts)
    have hlast : copyAt padded ⟨.int 1, [2], 8, 0⟩ ∈ (padded.fields x86).map (copyAt padded) :=
      List.mem_map_of_mem (by decide)
    exact absurd (htouch _ hlast 8 ⟨8, .inl rfl, by decide⟩) (lt_irrefl 8)

end

end PromoteMemIntrinsicPass

end GenMC
