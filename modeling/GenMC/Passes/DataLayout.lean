import GenMC.Library.ByteRanges
import Mathlib.Data.PNat.Basic

/-!
# Types and their layout

The types of LLVM that consist of integers of whole bytes and of pointers, and where a data layout
puts what they consist of: an array has its elements at multiples of their allocation size, and a
struct has its elements one after the other, at the next multiple of their alignment unless it is
packed.

* `Ty.fields` is a type taken apart into its scalars, each with the indices that lead to it and with
  its offset.
* `Ty.laid_fields`: the scalars of a type follow each other, within its size.
* `gepOffset_of_mem`: a GEP with the indices of a scalar computes its offset, if the array indices
  are not negative when read as signed.
-/

set_option autoImplicit false

namespace GenMC

/-- The types without parts. -/
inductive Scalar
  | int (bytes : ℕ+)
  | ptr
deriving DecidableEq

/-- Types.  A struct has fewer than `2 ^ 32` elements, so that the numbers of them do not wrap. -/
inductive Ty
  | scalar (s : Scalar)
  | array (n : ℕ) (elem : Ty)
  | struct (packed : Bool) (elems : List Ty)

/-- What a data layout says about the sizes and the ABI alignments of types. -/
structure DataLayout where
  bigEndian : Bool
  intAlign : ℕ+ → ℕ+
  pointerSize : ℕ+
  pointerAlign : ℕ+
  aggregateAlign : ℕ+

/-- The layout of 64-bit x86. -/
def DataLayout.x86 : DataLayout where
  bigEndian := false
  intAlign k := Nat.toPNat' <| if (k : ℕ) ≤ 1 then 1 else if (k : ℕ) ≤ 2 then 2
    else if (k : ℕ) ≤ 4 then 4 else if (k : ℕ) ≤ 8 then 8 else 16
  pointerSize := Nat.toPNat' 8
  pointerAlign := Nat.toPNat' 8
  aggregateAlign := Nat.toPNat' 1

/-- The next multiple of an alignment. -/
def alignTo (size : ℕ) (a : ℕ+) : ℕ := (size + a - 1) / a * a

theorem le_alignTo (size : ℕ) (a : ℕ+) : size ≤ alignTo size a := by
  have hdiv := Nat.div_add_mod (size + a - 1) a
  have hmod := Nat.mod_lt (size + a - 1) a.pos
  rw [alignTo, Nat.mul_comm]
  omega

/-! ## Sizes -/

section Layout

variable (dl : DataLayout)

def Scalar.size : Scalar → ℕ+
  | int bytes => bytes
  | ptr => dl.pointerSize

def Scalar.align : Scalar → ℕ+
  | int bytes => dl.intAlign bytes
  | ptr => dl.pointerAlign

mutual

/-- The ABI alignment of a type. -/
def Ty.align : Ty → ℕ+
  | .scalar s => s.align dl
  | .array _ t => t.align
  | .struct packed ts => if packed then 1 else max dl.aggregateAlign (Ty.maxAlign ts)

def Ty.maxAlign : List Ty → ℕ+
  | [] => 1
  | t :: ts => max t.align (Ty.maxAlign ts)

end

/-- Where an element is put that comes after `off` bytes. -/
def Ty.place (packed : Bool) (off : ℕ) (t : Ty) : ℕ :=
  if packed then off else alignTo off (t.align dl)

mutual

/-- The bytes that a store of the type overwrites. -/
def Ty.storeSize : Ty → ℕ
  | .scalar s => s.size dl
  | .array n t => n * alignTo t.storeSize (t.align dl)
  | .struct packed ts =>
    alignTo (Ty.structEnd packed 0 ts) (if packed then 1 else Ty.maxAlign dl ts)

/-- Where the elements of a struct end of which the first one comes after `off` bytes. -/
def Ty.structEnd (packed : Bool) (off : ℕ) : List Ty → ℕ
  | [] => off
  | t :: ts =>
    Ty.structEnd packed (t.place dl packed off + alignTo t.storeSize (t.align dl)) ts

end

/-- The distance between two values of the type in an array. -/
def Ty.allocSize (t : Ty) : ℕ := alignTo (t.storeSize dl) (t.align dl)

theorem Ty.storeSize_le_allocSize (t : Ty) : t.storeSize dl ≤ t.allocSize dl := le_alignTo _ _

theorem Ty.le_place (packed : Bool) (off : ℕ) (t : Ty) : off ≤ t.place dl packed off := by
  rw [Ty.place]
  split
  · exact le_rfl
  · exact le_alignTo _ _

/-! ## The scalars of a type -/

/-- A scalar in a type. -/
structure Field where
  typ : Scalar
  /-- The numbers of the elements it is in, from the outside. -/
  args : List ℕ
  off : ℕ
  /-- The largest index of an array on the way. -/
  top : ℕ
deriving DecidableEq

/-- The bytes of a scalar. -/
def Field.range (f : Field) : Range := ⟨f.off, f.typ.size dl⟩

@[simp] theorem Field.start_range (f : Field) : (f.range dl).start = f.off := rfl

@[simp] theorem Field.size_range (f : Field) : (f.range dl).size = f.typ.size dl := rfl

/-- A scalar of an element of a struct. -/
def Field.inStruct (i off : ℕ) (f : Field) : Field :=
  { f with args := i :: f.args, off := off + f.off }

/-- A scalar of an element of an array. -/
def Field.inArray (i off : ℕ) (f : Field) : Field :=
  { f with args := i :: f.args, off := off + f.off, top := max i f.top }

mutual

/-- The scalars of a type, in their order. -/
def Ty.fields : Ty → List Field
  | .scalar s => [⟨s, [], 0, 0⟩]
  | .array n t =>
    (List.range n).flatMap fun i => t.fields.map (.inArray i (i * t.allocSize dl))
  | .struct packed ts => Ty.structFields packed 0 0 ts

/-- The scalars of the elements of a struct from the one with number `i` on. -/
def Ty.structFields (packed : Bool) (i off : ℕ) : List Ty → List Field
  | [] => []
  | t :: ts => t.fields.map (.inStruct i (t.place dl packed off)) ++
    Ty.structFields packed (i + 1) (t.place dl packed off + t.allocSize dl) ts

end

variable {dl}

theorem map_range_inStruct (i off : ℕ) (l : List Field) :
    (l.map (Field.inStruct i off)).map (Field.range dl) =
      (l.map (Field.range dl)).map (Range.shift off) := by
  rw [List.map_map, List.map_map]
  rfl

theorem map_range_inArray (i off : ℕ) (l : List Field) :
    (l.map (Field.inArray i off)).map (Field.range dl) =
      (l.map (Field.range dl)).map (Range.shift off) := by
  rw [List.map_map, List.map_map]
  rfl

theorem laid_arrayFields {l : List Field} {size : ℕ} (h : Laid 0 size (l.map (Field.range dl)))
    (n : ℕ) :
    Laid 0 (n * size)
      (((List.range n).flatMap fun i => l.map (.inArray i (i * size))).map (Field.range dl)) := by
  induction n with
  | zero => exact Nat.zero_le _
  | succ n ih =>
    rw [List.range_succ, List.flatMap_append, List.map_append, List.flatMap_singleton,
      map_range_inArray, Nat.succ_mul]
    exact ih.append (h.shift (n * size))

mutual

/-- **The scalars of a type follow each other.** -/
theorem Ty.laid_fields : ∀ t : Ty, Laid 0 (t.storeSize dl) ((t.fields dl).map (Field.range dl))
  | .scalar s => by
    rw [Ty.fields, Ty.storeSize]
    exact ⟨le_rfl, (Nat.zero_add _).le⟩
  | .array n t => by
    rw [Ty.fields, Ty.storeSize]
    exact laid_arrayFields ((Ty.laid_fields t).mono_right (t.storeSize_le_allocSize dl)) n
  | .struct packed ts => by
    rw [Ty.fields, Ty.storeSize]
    exact (Ty.laid_structFields packed 0 0 ts).mono_right (le_alignTo _ _)

theorem Ty.laid_structFields (packed : Bool) : ∀ (i off : ℕ) (ts : List Ty),
    Laid off (Ty.structEnd dl packed off ts)
      ((Ty.structFields dl packed i off ts).map (Field.range dl))
  | i, off, [] => by
    rw [Ty.structFields, Ty.structEnd]
    exact le_rfl
  | i, off, t :: ts => by
    rw [Ty.structFields, Ty.structEnd, List.map_append, map_range_inStruct]
    have ht := ((Ty.laid_fields t).mono_right (t.storeSize_le_allocSize dl)).shift
      (t.place dl packed off)
    exact (ht.mono_left (t.le_place dl packed off)).append (Ty.laid_structFields packed _ _ ts)

end

/-! ## Offsets -/

variable (dl)

/-- An element of a struct, and where it is. -/
def Ty.structElement (packed : Bool) (off : ℕ) : List Ty → ℕ → Option (Ty × ℕ)
  | [], _ => none
  | t :: _, 0 => some (t, t.place dl packed off)
  | t :: ts, i + 1 => Ty.structElement packed (t.place dl packed off + t.allocSize dl) ts i

/-- What a GEP adds to the address of a value of the type.  Indices are constants of 32 bits: those
of arrays are signed, and a negative one leaves the array. -/
def gepOffset : Ty → List ℕ → Option ℕ
  | _, [] => some 0
  | .scalar _, _ :: _ => none
  | .array _ t, i :: args =>
    let idx := (BitVec.ofNat 32 i).toInt
    if 0 ≤ idx then (gepOffset t args).map (idx.toNat * t.allocSize dl + ·) else none
  | .struct packed ts, i :: args =>
    match Ty.structElement dl packed 0 ts i with
    | some (t, off) => (gepOffset t args).map (off + ·)
    | none => none

variable {dl}

theorem toInt_of_lt {i : ℕ} (h : i < 2 ^ 31) : (BitVec.ofNat 32 i).toInt = i := by
  rw [BitVec.toInt_eq_toNat_cond, BitVec.toNat_ofNat]
  split <;> omega

theorem toInt_of_le {i : ℕ} (h : 2 ^ 31 ≤ i) (h' : i < 2 ^ 32) : (BitVec.ofNat 32 i).toInt < 0 := by
  rw [BitVec.toInt_eq_toNat_cond, BitVec.toNat_ofNat]
  split <;> omega

theorem mem_structFields {packed : Bool} {ts : List Ty} {i off : ℕ} {f : Field}
    (h : f ∈ Ty.structFields dl packed i off ts) :
    ∃ j t o, Ty.structElement dl packed off ts j = some (t, o) ∧
      ∃ g ∈ t.fields dl, f = g.inStruct (i + j) o := by
  induction ts generalizing i off with
  | nil =>
    rw [Ty.structFields] at h
    cases h
  | cons t ts ih =>
    rw [Ty.structFields] at h
    rcases List.mem_append.1 h with h | h
    · obtain ⟨g, hg, rfl⟩ := List.mem_map.1 h
      exact ⟨0, t, _, rfl, g, hg, rfl⟩
    · obtain ⟨j, u, o, hj, g, hg, rfl⟩ := ih h
      exact ⟨j + 1, u, o, hj, g, hg, by rw [Nat.add_assoc, Nat.add_comm 1 j]⟩

/-- **The offset of a scalar**, or none if an index on the way to it is read as a negative one. -/
theorem gepOffset_of_mem {t : Ty} {f : Field} (hf : f ∈ t.fields dl) (htop : f.top < 2 ^ 32) :
    gepOffset dl t f.args = if f.top < 2 ^ 31 then some f.off else none := by
  obtain ⟨typ, args, off, top⟩ := f
  induction args generalizing t off top with
  | nil =>
    cases t with
    | scalar s =>
      rw [Ty.fields] at hf
      cases List.mem_singleton.1 hf
      rfl
    | array n t =>
      rw [Ty.fields] at hf
      obtain ⟨i, -, hi⟩ := List.mem_flatMap.1 hf
      obtain ⟨g, -, hg⟩ := List.mem_map.1 hi
      cases congrArg Field.args hg
    | struct packed ts =>
      rw [Ty.fields] at hf
      obtain ⟨j, t, o, -, g, -, hg⟩ := mem_structFields hf
      cases congrArg Field.args hg
  | cons i args ih =>
    cases t with
    | scalar s =>
      rw [Ty.fields] at hf
      cases congrArg Field.args (List.mem_singleton.1 hf)
    | array n t =>
      rw [Ty.fields] at hf
      obtain ⟨j, -, hj⟩ := List.mem_flatMap.1 hf
      obtain ⟨⟨typ', args', off', top'⟩, hg, hfg⟩ := List.mem_map.1 hj
      obtain ⟨rfl, hargs, rfl, rfl⟩ := Field.mk.inj hfg
      obtain ⟨rfl, rfl⟩ := List.cons.inj hargs
      obtain ⟨hj32, htop'⟩ := max_lt_iff.1 htop
      rw [gepOffset]
      dsimp only at hg ⊢
      by_cases hj31 : j < 2 ^ 31
      · rw [if_pos (by rw [toInt_of_lt hj31]; exact Int.natCast_nonneg j), ih _ _ hg htop',
          toInt_of_lt hj31, Int.toNat_natCast]
        by_cases htop31 : top' < 2 ^ 31
        · rw [if_pos htop31, if_pos (max_lt hj31 htop31)]
          rfl
        · rw [if_neg htop31, if_neg fun h => htop31 (max_lt_iff.1 h).2]
          rfl
      · rw [if_neg (not_le.2 (toInt_of_le (not_lt.1 hj31) hj32)),
          if_neg fun h => hj31 (max_lt_iff.1 h).1]
    | struct packed ts =>
      rw [Ty.fields] at hf
      obtain ⟨j, t, o, hj, ⟨typ', args', off', top'⟩, hg, hfg⟩ := mem_structFields hf
      obtain ⟨rfl, hargs, rfl, rfl⟩ := Field.mk.inj hfg
      obtain ⟨rfl, rfl⟩ := List.cons.inj hargs
      rw [gepOffset, Nat.zero_add, hj]
      dsimp only
      rw [ih _ _ hg htop]
      split <;> rfl

end Layout

end GenMC
