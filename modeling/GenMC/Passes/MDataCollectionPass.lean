import GenMC.Passes.DataLayout
import GenMC.Support.NameInfo

/-!
# Names for the parts of a variable

`collectVarName` follows the type of a variable and its debug information together, down to the
scalars, and records the name of each at its offset.  The offsets are sums of allocation sizes, so
that the padding between the elements of a struct is left out.

Names and offsets are meant to be those of the type as it was declared (`CType.vars`), of which the
debug information is a description (`Describes`).  A run without result is one that dereferences a
null pointer or reads past the end of a list of nodes, or a loop over an array that never ends.

* `collectVarName_of_leads`: what is recorded, and that it is everything exactly if the debug
  information leads to all scalars (`Followed`).
* `collectVarName_exact_iff`: **the names are found at the offsets** if, moreover, the padding that
  is left out before a scalar is smaller than its distance from the scalar before it.
-/

set_option autoImplicit false

namespace GenMC

namespace MDataCollectionPass

open DataLayout (x86)

/-! ## Debug information -/

/-- Tags of derived types. -/
inductive DITag
  | member
  | variable
  | typedef
  | constType
  /-- The other qualifiers. -/
  | qualifier
  | other
deriving DecidableEq

/-- Nodes of the debug information, as a tree: what a pointer points to is never read. -/
inductive DINode
  | null
  /-- What is no type, such as the bounds of an array. -/
  | other
  /-- A type that is neither derived nor composite. -/
  | basic
  | derived (tag : DITag) (name : String) (baseType : DINode)
  | composite (baseType : DINode) (elements : List DINode)

/-- The type of the elements of an array, which is the first argument if it has no base type. -/
def elementType : DINode → Option DINode
  | .null => none
  | .composite .null elements => some (.composite .null elements)
  | .composite baseType _ => some baseType
  | dit => some dit

/-- What a derived type leads to. -/
def stripDerived : DINode → Option DINode
  | .null => none
  | .derived _ _ baseType => stripDerived baseType
  | dit => some dit

/-- What describes the elements of a struct.  The inner `none` is a bug report. -/
def structElements : DINode → Option (Option (List DINode))
  | .null => none
  | .composite _ elements => some (some elements)
  | .derived _ _ baseType =>
    match stripDerived baseType with
    | none => none
    | some (.composite _ elements) => some (some elements)
    | some _ => some none
  | _ => some (some [])

/-- Skips constant class members, from the node with number `i` on. -/
def skipConst : List DINode → ℕ → Option (DINode × ℕ)
  | [], _ => none
  | didt :: rest, i =>
    match didt with
    | .derived .variable _ .null => none
    | .derived .variable _ (.derived .constType _ _) => skipConst rest (i + 1)
    | _ => some (didt, i)

/-! ## Collecting names -/

section

variable (dl : DataLayout)

/-- A number as an `unsigned int`. -/
def toOffset (n : ℕ) : Offset := Fin.ofNat (2 ^ 32) n

mutual

/-- Records the names of the scalars of a type that starts at `ptr`. -/
def collectVarName : Ty → Offset → DINode → String → NameInfo → Option NameInfo
  | .scalar _, ptr, _, nameBuilder, info => some (info.addOffsetInfo ptr nameBuilder)
  | .array n typ, ptr, dit, nameBuilder, info => do
    let newDit ← elementType dit
    let elemSize := typ.allocSize dl
    -- the counter has 32 bits, so that it never gets to a larger number of elements
    if n < 2 ^ 32 then
      (List.range n).foldlM (fun info i =>
        collectVarName typ (ptr + toOffset (i * elemSize)) newDit
          (nameBuilder ++ ("[" ++ toString i ++ "]")) info) info
    else none
  | .struct _ elems, ptr, dit, nameBuilder, info => do
    match ← structElements dit with
    | none => some info
    | some dictElems =>
      let minSize := min dictElems.length elems.length
      collectElements dictElems minSize elems ptr 0 0 nameBuilder info

/-- Goes on with the elements of a struct, of which the next one is described by the node `i`. -/
def collectElements (dictElems : List DINode) (minSize : ℕ) :
    List Ty → Offset → Offset → ℕ → String → NameInfo → Option NameInfo
  | [], _, _, _, _, info => some info
  | typ :: elems, ptr, offset, i, nameBuilder, info =>
    if i < minSize then do
      let elemSize := typ.allocSize dl
      let (didt, i) ← skipConst (dictElems.drop i) i
      let info ← match didt with
        | .derived _ _ .null => none
        | .derived _ name ditb =>
          collectVarName typ (ptr + offset) ditb (nameBuilder ++ ("." ++ name)) info
        | _ => some info
      collectElements dictElems minSize elems ptr (offset + toOffset elemSize) (i + 1) nameBuilder
        info
    else some info

end

end

/-! ## Declarations -/

mutual

/-- A type as it was declared. -/
inductive CType
  | scalar (s : Scalar)
  | array (n : ℕ) (elem : CType)
  | struct (packed : Bool) (members : Members)

/-- The members of a struct, with their names. -/
inductive Members
  | nil
  | cons (name : String) (type : CType) (rest : Members)

end

mutual

/-- The type that it is compiled to. -/
def CType.ty : CType → Ty
  | .scalar s => .scalar s
  | .array n t => .array n t.ty
  | .struct packed ms => .struct packed ms.tys

def Members.tys : Members → List Ty
  | .nil => []
  | .cons _ t ms => t.ty :: ms.tys

end

/-- A scalar of a variable. -/
structure Var where
  /-- Its access path. -/
  name : String
  off : ℕ
  /-- How much of the offset is padding between the elements of structs that it is in. -/
  pad : ℕ
deriving DecidableEq

namespace Var

/-- The offset without the padding. -/
def place (v : Var) : ℕ := v.off - v.pad

/-- A scalar of the element with number `i` of an array. -/
def inArray (i off : ℕ) (v : Var) : Var := ⟨"[" ++ toString i ++ "]" ++ v.name, off + v.off, v.pad⟩

/-- A scalar of a member of a struct. -/
def inStruct (member : String) (off pad : ℕ) (v : Var) : Var :=
  ⟨"." ++ member ++ v.name, off + v.off, pad + v.pad⟩

end Var

section

variable (dl : DataLayout)

mutual

/-- The scalars of a variable, in their order. -/
def CType.vars : CType → List Var
  | .scalar _ => [⟨"", 0, 0⟩]
  | .array n t => (List.range n).flatMap fun i => t.vars.map (.inArray i (i * t.ty.allocSize dl))
  | .struct packed ms => ms.vars packed 0 0

/-- The scalars of the members of a struct that come after `off` bytes, of which `pad` are
padding. -/
def Members.vars (packed : Bool) : Members → ℕ → ℕ → List Var
  | .nil, _, _ => []
  | .cons name t ms, off, pad =>
    let start := t.ty.place dl packed off
    let pad := pad + (start - off)
    t.vars.map (.inStruct name start pad) ++ ms.vars packed (start + t.ty.allocSize dl) pad

end

mutual

/-- **The offsets are those of the data layout.** -/
theorem CType.map_off_vars : ∀ t : CType, (t.vars dl).map Var.off = (t.ty.fields dl).map Field.off
  | .scalar s => by
    rw [CType.vars, CType.ty, Ty.fields]
    rfl
  | .array n t => by
    rw [CType.vars, CType.ty, Ty.fields, List.map_flatMap, List.map_flatMap]
    congr 1
    funext i
    have h := congrArg (List.map (i * t.ty.allocSize dl + ·)) (CType.map_off_vars t)
    rw [List.map_map, List.map_map] at h ⊢
    exact h
  | .struct packed ms => by
    rw [CType.vars, CType.ty, Ty.fields]
    exact Members.map_off_vars packed ms 0 0 0

theorem Members.map_off_vars (packed : Bool) : ∀ (ms : Members) (i off pad : ℕ),
    (ms.vars dl packed off pad).map Var.off =
      (Ty.structFields dl packed i off ms.tys).map Field.off
  | .nil, i, off, pad => by
    rw [Members.vars, Members.tys, Ty.structFields]
    rfl
  | .cons name t ms, i, off, pad => by
    rw [Members.vars, Members.tys, Ty.structFields, List.map_append, List.map_append,
      Members.map_off_vars packed ms (i + 1)]
    congr 1
    have h := congrArg (List.map (t.ty.place dl packed off + ·)) (CType.map_off_vars t)
    rw [List.map_map, List.map_map] at h ⊢
    exact h

end

mutual

theorem CType.pad_le : ∀ (t : CType), ∀ v ∈ t.vars dl, v.pad ≤ v.off
  | .scalar s, v, hv => by
    rw [CType.vars] at hv
    cases List.mem_singleton.1 hv
    exact le_rfl
  | .array n t, v, hv => by
    rw [CType.vars] at hv
    obtain ⟨i, -, hi⟩ := List.mem_flatMap.1 hv
    obtain ⟨u, hu, rfl⟩ := List.mem_map.1 hi
    exact (t.pad_le u hu).trans (Nat.le_add_left _ _)
  | .struct packed ms, v, hv => by
    rw [CType.vars] at hv
    exact ms.pad_le packed le_rfl v hv

theorem Members.pad_le (packed : Bool) : ∀ (ms : Members) {off pad : ℕ} (_ : pad ≤ off),
    ∀ v ∈ ms.vars dl packed off pad, v.pad ≤ v.off
  | .nil, _, _, _, v, hv => by
    rw [Members.vars] at hv
    cases hv
  | .cons name t ms, off, pad, hle, v, hv => by
    have hplace := t.ty.le_place dl packed off
    rw [Members.vars] at hv
    rcases List.mem_append.1 hv with hv | hv
    · obtain ⟨u, hu, rfl⟩ := List.mem_map.1 hv
      have := t.pad_le u hu
      simp only [Var.inStruct]
      omega
    · exact ms.pad_le packed (by omega) v hv

end

/-- The byte at which a scalar is recorded. -/
def Var.range (v : Var) : Range := ⟨v.place, 1⟩

theorem map_range_inArray {l : List Var} (hl : ∀ v ∈ l, v.pad ≤ v.off) (i off : ℕ) :
    (l.map (Var.inArray i off)).map Var.range = (l.map Var.range).map (Range.shift off) := by
  rw [List.map_map, List.map_map]
  refine List.map_congr_left fun v hv => ?_
  change (⟨off + v.off - v.pad, 1⟩ : Range) = ⟨off + (v.off - v.pad), 1⟩
  rw [Nat.add_sub_assoc (hl v hv)]

theorem map_range_inStruct {l : List Var} (hl : ∀ v ∈ l, v.pad ≤ v.off) (name : String)
    {off pad : ℕ} (hle : pad ≤ off) :
    (l.map (Var.inStruct name off pad)).map Var.range =
      (l.map Var.range).map (Range.shift (off - pad)) := by
  rw [List.map_map, List.map_map]
  refine List.map_congr_left fun v hv => ?_
  have hv := hl v hv
  have hplace : off + v.off - (pad + v.pad) = off - pad + (v.off - v.pad) := by omega
  change (⟨off + v.off - (pad + v.pad), 1⟩ : Range) = ⟨off - pad + (v.off - v.pad), 1⟩
  rw [hplace]

mutual

/-- The offsets that are recorded ascend as well, within the size of the type. -/
theorem CType.laid_vars : ∀ t : CType, Laid 0 (t.ty.allocSize dl) ((t.vars dl).map Var.range)
  | .scalar s => by
    rw [CType.vars, CType.ty]
    exact ⟨Nat.zero_le _, s.size dl |>.pos.trans_le (Ty.storeSize_le_allocSize dl (.scalar s))⟩
  | .array n t => by
    rw [CType.vars, CType.ty]
    refine Laid.mono_right ?_ (Ty.storeSize_le_allocSize dl _)
    rw [Ty.storeSize]
    change Laid 0 (n * t.ty.allocSize dl) _
    induction n with
    | zero => exact Nat.zero_le _
    | succ n ih =>
      rw [List.range_succ, List.flatMap_append, List.map_append, List.flatMap_singleton,
        map_range_inArray (t.pad_le dl), Nat.succ_mul]
      exact ih.append (t.laid_vars.shift (n * t.ty.allocSize dl))
  | .struct packed ms => by
    rw [CType.vars, CType.ty]
    have h := ms.laid_vars packed (Nat.le_refl 0)
    exact h.mono_right ((le_alignTo _ _).trans
      (Ty.storeSize_le_allocSize dl (.struct packed ms.tys)))

theorem Members.laid_vars (packed : Bool) : ∀ (ms : Members) {off pad : ℕ} (_ : pad ≤ off),
    Laid (off - pad) (Ty.structEnd dl packed off ms.tys) ((ms.vars dl packed off pad).map Var.range)
  | .nil, off, pad, _ => by
    rw [Members.vars, Members.tys, Ty.structEnd]
    exact Nat.sub_le off pad
  | .cons name t ms, off, pad, hle => by
    have hplace := t.ty.le_place dl packed off
    have halloc : t.ty.allocSize dl = alignTo (t.ty.storeSize dl) (t.ty.align dl) := rfl
    rw [Members.vars, Members.tys, Ty.structEnd, List.map_append,
      map_range_inStruct (t.pad_le dl) name (by omega)]
    refine ((t.laid_vars.shift _).mono_left (by omega)).append
      ((ms.laid_vars packed (by omega)).mono_left ?_)
    omega

end

/-- The scalars, with the bytes at which they are recorded, in ascending order. -/
theorem CType.pairwise_place (t : CType) : (t.vars dl).Pairwise fun v u => v.place < u.place :=
  (List.pairwise_map.1 (t.laid_vars dl).pairwise).imp fun h => (Nat.lt_succ_self _).trans_le h

end

/-! ## Descriptions of declarations -/

mutual

/-- The debug information of a type: an array, with all its dimensions, is described by one node or
by several, a struct has one member for each of its elements, and typedefs and qualifiers may stand
before everything. -/
inductive Describes : DINode → CType → Prop
  | scalar {dit : DINode} {s : Scalar} (h : dit ≠ .null) : Describes dit (.scalar s)
  | array {baseType : DINode} {n dims : ℕ} {t : CType} (h : Describes baseType t) :
      Describes (.composite baseType (List.replicate dims .other)) (.array n t)
  | dimension {baseType : DINode} {n m dims : ℕ} {t : CType}
      (h : Describes (.composite baseType (List.replicate dims .other)) (.array m t)) :
      Describes (.composite baseType (List.replicate dims .other)) (.array n (.array m t))
  | derived {tag : DITag} {name : String} {baseType : DINode} {t : CType}
      (htag : tag = .typedef ∨ tag = .constType ∨ tag = .qualifier) (h : Describes baseType t) :
      Describes (.derived tag name baseType) t
  | struct {elements : List DINode} {packed : Bool} {ms : Members}
      (h : DescribesAll elements ms) : Describes (.composite .null elements) (.struct packed ms)

inductive DescribesAll : List DINode → Members → Prop
  | nil : DescribesAll [] .nil
  | cons {name : String} {baseType : DINode} {t : CType} {elements : List DINode} {ms : Members}
      (h : Describes baseType t) (hs : DescribesAll elements ms) :
      DescribesAll (.derived .member name baseType :: elements) (.cons name t ms)

end

mutual

/-- The code gets from a node to the members of all structs, or else to a node without any. -/
inductive Leads : DINode → CType → Prop
  | scalar {dit : DINode} {s : Scalar} : Leads dit (.scalar s)
  | array {dit dit' : DINode} {n : ℕ} {t : CType} (hdit : elementType dit = some dit')
      (h : Leads dit' t) : Leads dit (.array n t)
  | struct {dit : DINode} {elements : List DINode} {packed : Bool} {ms : Members}
      (hdit : structElements dit = some (some elements)) (h : LeadsAll elements ms) :
      Leads dit (.struct packed ms)
  | hidden {dit : DINode} {dims : ℕ} {packed : Bool} {ms : Members}
      (hdit : structElements dit = some (some (List.replicate dims .other))) :
      Leads dit (.struct packed ms)

inductive LeadsAll : List DINode → Members → Prop
  | nil : LeadsAll [] .nil
  | cons {name : String} {baseType : DINode} {t : CType} {elements : List DINode} {ms : Members}
      (hbase : baseType ≠ .null) (h : Leads baseType t) (hs : LeadsAll elements ms) :
      LeadsAll (.derived .member name baseType :: elements) (.cons name t ms)

end

namespace DINode

/-- The element type of what is not null. -/
def inner : DINode → DINode
  | composite null elements => composite null elements
  | composite baseType _ => baseType
  | dit => dit

theorem elementType_eq {dit : DINode} (h : dit ≠ null) : elementType dit = some dit.inner := by
  cases dit with
  | null => exact absurd rfl h
  | composite baseType elements => cases baseType <;> rfl
  | _ => rfl

theorem inner_ne_null {dit : DINode} (h : dit ≠ null) : dit.inner ≠ null := by
  cases dit with
  | null => exact absurd rfl h
  | composite baseType elements => cases baseType <;> exact DINode.noConfusion
  | _ => exact h

theorem iterate_inner_ne_null {dit : DINode} (h : dit ≠ null) (k : ℕ) : inner^[k] dit ≠ null := by
  induction k with
  | zero => exact h
  | succ k ih =>
    rw [Function.iterate_succ_apply']
    exact inner_ne_null ih

end DINode

theorem Describes.ne_null {dit : DINode} {t : CType} (h : Describes dit t) : dit ≠ .null := by
  cases h with
  | scalar h => exact h
  | _ => exact DINode.noConfusion

/-- Behind typedefs and qualifiers there is a composite node. -/
theorem Describes.stripDerived_eq {dit : DINode} {t : CType} (h : Describes dit t)
    (hscalar : ∀ s, t ≠ .scalar s) : ∃ baseType elements,
      stripDerived dit = some (.composite baseType elements) ∧
      ((∃ n u, t = .array n u) → ∃ dims, elements = List.replicate dims .other) := by
  match h with
  | .scalar _ => exact absurd rfl (hscalar _)
  | @Describes.array _ _ dims _ _ => exact ⟨_, _, rfl, fun _ => ⟨dims, rfl⟩⟩
  | @Describes.dimension _ _ _ dims _ _ => exact ⟨_, _, rfl, fun _ => ⟨dims, rfl⟩⟩
  | .derived _ h => exact h.stripDerived_eq hscalar
  | .struct _ => exact ⟨_, _, rfl, fun ⟨_, _, h⟩ => by cases h⟩

theorem structElements_of_stripDerived {dit baseType : DINode} {elements : List DINode}
    (h : stripDerived dit = some (.composite baseType elements)) :
    structElements dit = some (some elements) := by
  cases dit with
  | derived tag name base =>
    rw [stripDerived] at h
    rw [structElements, h]
  | composite base elements' =>
    cases h
    rfl
  | _ => cases h

/-- A node that stands for the bounds of an array, at every level, leads to no members. -/
theorem leads_of_hidden {dit : DINode} {dims : ℕ} (hne : dit ≠ .null) (hinner : dit.inner = dit)
    (h : structElements dit = some (some (List.replicate dims .other))) : ∀ t : CType, Leads dit t
  | .scalar _ => .scalar
  | .array _ t => .array ((DINode.elementType_eq hne).trans (by rw [hinner]))
      (leads_of_hidden hne hinner h t)
  | .struct _ _ => .hidden h

mutual

/-- **The code finds the members that are described, or none.**  It goes down one node for each
dimension of an array, which may be too many, but then nothing comes of it. -/
theorem Describes.leads : ∀ {dit : DINode} {t : CType}, Describes dit t →
    ∀ k, Leads (DINode.inner^[k] dit) t
  | _, _, .scalar _, _ => .scalar
  | _, _, @Describes.array baseType n dims t h, k => by
    have hbase := h.ne_null
    have hinner : (DINode.composite baseType (List.replicate dims .other)).inner = baseType := by
      cases baseType with
      | null => exact absurd rfl hbase
      | _ => rfl
    refine .array (DINode.elementType_eq (DINode.iterate_inner_ne_null DINode.noConfusion k)) ?_
    rw [← Function.iterate_succ_apply' (f := DINode.inner), Function.iterate_succ_apply, hinner]
    exact h.leads k
  | _, _, .dimension h, k => by
    refine .array (DINode.elementType_eq (DINode.iterate_inner_ne_null DINode.noConfusion k)) ?_
    rw [← Function.iterate_succ_apply' (f := DINode.inner)]
    exact h.leads (k + 1)
  | _, _, @Describes.derived tag name baseType t htag h, k => by
    rw [Function.iterate_fixed (by rfl)]
    have hleads := h.leads 0
    cases t with
    | scalar s => exact .scalar
    | array n u =>
      obtain ⟨b, elements, hstrip, hdims⟩ := h.stripDerived_eq (fun _ => CType.noConfusion)
      obtain ⟨dims, rfl⟩ := hdims ⟨n, u, rfl⟩
      refine @leads_of_hidden _ dims DINode.noConfusion rfl ?_ _
      rw [structElements, hstrip]
    | struct packed ms =>
      obtain ⟨b, elements, hstrip, -⟩ := h.stripDerived_eq (fun _ => CType.noConfusion)
      have helems := structElements_of_stripDerived hstrip
      have hderived : structElements (.derived tag name baseType) = some (some elements) := by
        rw [structElements, hstrip]
      cases hleads with
      | struct hdit hall =>
        rw [Function.iterate_zero_apply, helems] at hdit
        cases hdit
        exact .struct hderived hall
      | hidden hdit =>
        rw [Function.iterate_zero_apply, helems] at hdit
        cases hdit
        exact .hidden hderived
  | _, _, .struct h, k => by
    rw [Function.iterate_fixed (by rfl)]
    exact .struct rfl h.leadsAll

theorem DescribesAll.leadsAll : ∀ {elements : List DINode} {ms : Members},
    DescribesAll elements ms → LeadsAll elements ms
  | _, _, .nil => .nil
  | _, _, .cons h hs => .cons h.ne_null (h.leads 0) hs.leadsAll

end

/-! ## What is recorded -/

section

variable (dl : DataLayout)

mutual

/-- The code gets to all scalars of a type, and its loops over arrays come to an end. -/
def CType.Followed : CType → DINode → Prop
  | .scalar _, _ => True
  | .array n t, dit => n < 2 ^ 32 ∧ (n = 0 ∨ ∃ dit', elementType dit = some dit' ∧ t.Followed dit')
  | .struct _ ms, dit => ∃ elements, structElements dit = some (some elements) ∧
    ms.Followed elements

def Members.Followed : Members → List DINode → Prop
  | .nil, _ => True
  | .cons _ t ms, [] => t.vars dl = [] ∧ ms.Followed []
  | .cons _ t ms, dit :: elements =>
    match dit with
    | .derived _ _ baseType => t.Followed baseType ∧ ms.Followed elements
    | _ => t.vars dl = [] ∧ ms.Followed elements

end

end

/-- Records scalars one after the other. -/
def record (ptr : Offset) (nameBuilder : String) (l : List Var) (info : NameInfo) : NameInfo :=
  l.foldl (fun info v => info.addOffsetInfo (ptr + toOffset v.place) (nameBuilder ++ v.name)) info

theorem record_append (ptr : Offset) (nameBuilder : String) (l l' : List Var) (info : NameInfo) :
    record ptr nameBuilder (l ++ l') info =
      record ptr nameBuilder l' (record ptr nameBuilder l info) := List.foldl_append

theorem toOffset_add (m n : ℕ) : toOffset (m + n) = toOffset m + toOffset n :=
  Fin.ext (by simp [toOffset, Fin.val_add])

theorem record_inArray {l : List Var} (hl : ∀ v ∈ l, v.pad ≤ v.off) (ptr : Offset)
    (nameBuilder : String) (i off : ℕ) (info : NameInfo) :
    record ptr nameBuilder (l.map (.inArray i off)) info =
      record (ptr + toOffset off) (nameBuilder ++ ("[" ++ toString i ++ "]")) l info := by
  rw [record, record, List.foldl_map]
  refine List.foldl_ext _ _ _ fun info v hv => ?_
  have hplace : (v.inArray i off).place = off + v.place := Nat.add_sub_assoc (hl v hv) off
  rw [hplace, toOffset_add, add_assoc, String.append_assoc]
  rfl

theorem record_inStruct {l : List Var} (hl : ∀ v ∈ l, v.pad ≤ v.off) (ptr : Offset)
    (nameBuilder name : String) {off pad : ℕ} (hle : pad ≤ off) (info : NameInfo) :
    record ptr nameBuilder (l.map (.inStruct name off pad)) info =
      record (ptr + toOffset (off - pad)) (nameBuilder ++ ("." ++ name)) l info := by
  rw [record, record, List.foldl_map]
  refine List.foldl_ext _ _ _ fun info v hv => ?_
  have hv := hl v hv
  have hplace : (v.inStruct name off pad).place = off - pad + v.place := by
    change off + v.off - (pad + v.pad) = off - pad + (v.off - v.pad)
    omega
  rw [hplace, toOffset_add, add_assoc, String.append_assoc]
  rfl

/-- A run records some of the scalars, all of them only if it gets to all, or it has no result. -/
def Outcome (run : Offset → String → NameInfo → Option NameInfo) (vars : List Var)
    (followed : Prop) : Prop :=
  ((∀ ptr nameBuilder info, run ptr nameBuilder info = none) ∧ ¬ followed) ∨
    ∃ l, l.Sublist vars ∧ (followed ↔ vars.length ≤ l.length) ∧
      ∀ ptr nameBuilder info, run ptr nameBuilder info = some (record ptr nameBuilder l info)

section

variable {dl : DataLayout}

theorem foldlM_record {run : Offset → String → NameInfo → Option NameInfo} {l : List Var}
    (hl : ∀ v ∈ l, v.pad ≤ v.off)
    (hrun : ∀ ptr nameBuilder info, run ptr nameBuilder info = some (record ptr nameBuilder l info))
    (size n : ℕ) (ptr : Offset) (nameBuilder : String) (info : NameInfo) :
    (List.range n).foldlM (fun info i =>
        run (ptr + toOffset (i * size)) (nameBuilder ++ ("[" ++ toString i ++ "]")) info) info =
      some (record ptr nameBuilder
        ((List.range n).flatMap fun i => l.map (.inArray i (i * size))) info) := by
  induction n with
  | zero => rfl
  | succ n ih =>
    rw [List.range_succ, List.foldlM_append, ih, List.flatMap_append, List.flatMap_singleton,
      record_append, record_inArray hl]
    simp [hrun]

/-- **An array.** -/
theorem outcome_array {t : CType} {dit dit' : DINode} (hdit : elementType dit = some dit')
    (h : Outcome (fun ptr => collectVarName dl t.ty ptr dit') (t.vars dl) (t.Followed dl dit'))
    (n : ℕ) : Outcome (fun ptr => collectVarName dl (CType.array n t).ty ptr dit)
      ((CType.array n t).vars dl) ((CType.array n t).Followed dl dit) := by
  have hfollowed : (CType.array n t).Followed dl dit ↔
      n < 2 ^ 32 ∧ (n = 0 ∨ t.Followed dl dit') := by
    rw [CType.Followed, hdit]
    simp
  rw [Outcome, hfollowed]
  simp only [CType.ty, collectVarName, hdit, Option.bind_eq_bind, Option.bind_some]
  by_cases hn : n < 2 ^ 32
  · simp only [if_pos hn]
    rcases h with ⟨hnone, hnot⟩ | ⟨l, hsub, hiff, hsome⟩
    · cases n with
      | zero => exact .inr ⟨[], List.nil_sublist _, by simp [CType.vars], fun _ _ _ => rfl⟩
      | succ n =>
        refine .inl ⟨fun ptr nameBuilder info => ?_, by simp [hnot]⟩
        rw [List.range_succ_eq_map, List.foldlM_cons]
        simp [hnone]
    · have hl : ∀ v ∈ l, v.pad ≤ v.off := fun v hv => t.pad_le dl v (hsub.subset hv)
      refine .inr ⟨_, ?_, ?_, fun ptr nameBuilder info =>
        foldlM_record hl hsome (t.ty.allocSize dl) n ptr nameBuilder info⟩
      · exact List.Sublist.flatMap_right _ fun i _ => hsub.map _
      · rw [CType.vars, List.length_flatMap, List.length_flatMap]
        simp only [List.length_map, List.map_const', List.length_range, List.sum_replicate,
          smul_eq_mul]
        rw [hiff]
        rcases Nat.eq_zero_or_pos n with rfl | hpos
        · simp
        · rw [Nat.mul_le_mul_left_iff hpos]
          exact ⟨fun h => h.2.resolve_left hpos.ne', fun h => ⟨hn, .inr h⟩⟩
  · simp only [if_neg hn]
    exact .inl ⟨fun _ _ _ => trivial, fun h => hn h.1⟩

theorem LeadsAll.length_tys {elements : List DINode} {ms : Members} (h : LeadsAll elements ms) :
    ms.tys.length = elements.length := by
  match h with
  | .nil => rfl
  | .cons _ _ hs => rw [Members.tys, List.length_cons, List.length_cons, hs.length_tys]

/-- **A member**, and those after it. -/
theorem outcome_cons {name : String} {baseType : DINode} {t : CType} {ms : Members}
    {dictElems elements : List DINode} {i off pad : ℕ} {packed : Bool}
    (hbase : baseType ≠ .null) (hle : pad ≤ off)
    (hdrop : dictElems.drop i = .derived .member name baseType :: elements)
    (h : Outcome (fun ptr => collectVarName dl t.ty ptr baseType) (t.vars dl)
      (t.Followed dl baseType))
    (hs : Outcome (fun ptr => collectElements dl dictElems dictElems.length ms.tys ptr
        (toOffset (off - pad) + toOffset (t.ty.allocSize dl)) (i + 1))
      (ms.vars dl packed (t.ty.place dl packed off + t.ty.allocSize dl)
        (pad + (t.ty.place dl packed off - off))) (ms.Followed dl elements)) :
    Outcome (fun ptr => collectElements dl dictElems dictElems.length
      (Members.cons name t ms).tys ptr
        (toOffset (off - pad)) i)
      ((Members.cons name t ms).vars dl packed off pad)
      ((Members.cons name t ms).Followed dl (.derived .member name baseType :: elements)) := by
  have hplace := t.ty.le_place dl packed off
  have hi : i < dictElems.length := by
    by_contra hi
    rw [List.drop_eq_nil_of_le (not_lt.1 hi)] at hdrop
    cases hdrop
  have hstep : ∀ ptr nameBuilder info,
      collectElements dl dictElems dictElems.length (Members.cons name t ms).tys ptr
          (toOffset (off - pad)) i nameBuilder info =
        (collectVarName dl t.ty (ptr + toOffset (off - pad)) baseType
          (nameBuilder ++ ("." ++ name)) info).bind fun info =>
            collectElements dl dictElems dictElems.length ms.tys ptr
              (toOffset (off - pad) + toOffset (t.ty.allocSize dl)) (i + 1) nameBuilder info := by
    intro ptr nameBuilder info
    rw [Members.tys, collectElements, if_pos hi, hdrop]
    cases baseType with
    | null => exact absurd rfl hbase
    | _ => rfl
  rw [Outcome, Members.Followed, Members.vars]
  simp only [hstep]
  rcases h with ⟨hnone, hnot⟩ | ⟨l, hsub, hiff, hsome⟩
  · dsimp only at hnone
    refine .inl ⟨fun ptr nameBuilder info => ?_, fun h => hnot h.1⟩
    rw [hnone]
    rfl
  dsimp only at hsome
  rcases hs with ⟨hnone', hnot'⟩ | ⟨l', hsub', hiff', hsome'⟩
  · dsimp only at hnone'
    refine .inl ⟨fun ptr nameBuilder info => ?_, fun h => hnot' h.2⟩
    rw [hsome, Option.bind_some, hnone']
  dsimp only at hsome'
  have hl : ∀ v ∈ l, v.pad ≤ v.off := fun v hv => t.pad_le dl v (hsub.subset hv)
  have hlen := hsub.length_le
  have hlen' := hsub'.length_le
  refine .inr ⟨_ ++ l', (hsub.map _).append hsub', ?_, fun ptr nameBuilder info => ?_⟩
  · rw [hiff, hiff', List.length_append, List.length_append, List.length_map, List.length_map]
    omega
  · have hstart : t.ty.place dl packed off - (pad + (t.ty.place dl packed off - off)) =
      off - pad := by
      omega
    rw [hsome, Option.bind_some, hsome', record_append,
      record_inStruct hl ptr nameBuilder name (by omega), hstart]

theorem drop_succ_of_drop {α : Type*} {l l' : List α} {a : α} {i : ℕ} (h : l.drop i = a :: l') :
    l.drop (i + 1) = l' := by
  rw [← List.tail_drop, h, List.tail_cons]

/-- Nodes that describe no members. -/
theorem collectElements_hidden {dictElems : List DINode} {minSize k : ℕ}
    (hmin : minSize ≤ dictElems.length) (tys : List Ty) (ptr offset : Offset) {i : ℕ}
    (hdrop : dictElems.drop i = List.replicate k .other) (nameBuilder : String) (info : NameInfo) :
    collectElements dl dictElems minSize tys ptr offset i nameBuilder info = some info := by
  induction tys generalizing offset i k with
  | nil => rfl
  | cons typ tys ih =>
    rw [collectElements]
    split
    · rename_i hi
      cases k with
      | zero =>
        rw [List.replicate_zero, List.drop_eq_nil_iff] at hdrop
        omega
      | succ k =>
        rw [List.replicate_succ] at hdrop
        rw [hdrop]
        exact ih (offset + toOffset (typ.allocSize dl)) (drop_succ_of_drop hdrop)
    · rfl

theorem Members.followed_hidden (packed : Bool) : ∀ (ms : Members) (k off pad : ℕ),
    ms.Followed dl (List.replicate k .other) ↔ ms.vars dl packed off pad = []
  | .nil, k, off, pad => by
    rw [Members.Followed, Members.vars]
    simp
  | .cons name t ms, k, off, pad => by
    rw [Members.vars, List.append_eq_nil_iff, List.map_eq_nil_iff]
    cases k with
    | zero =>
      rw [List.replicate_zero, Members.Followed]
      exact and_congr_right fun _ => ms.followed_hidden packed 0 _ _
    | succ k =>
      rw [List.replicate_succ, Members.Followed]
      · exact and_congr_right fun _ => ms.followed_hidden packed k _ _
      · exact fun _ _ _ => DINode.noConfusion

mutual

/-- **What is recorded.** -/
theorem outcome_of_leads : ∀ {t : CType} {dit : DINode}, Leads dit t →
    Outcome (fun ptr => collectVarName dl t.ty ptr dit) (t.vars dl) (t.Followed dl dit)
  | .scalar s, dit, _ => by
    refine .inr ⟨[⟨"", 0, 0⟩], by rw [CType.vars], by simp [CType.Followed, CType.vars], ?_⟩
    intro ptr nameBuilder info
    simp [CType.ty, collectVarName, record, Var.place, toOffset]
  | .array n t, dit, .array hdit h => outcome_array hdit (outcome_of_leads h) n
  | .struct packed ms, dit, @Leads.struct _ elements _ _ hdit h => by
    have hs := outcome_of_leadsAll packed h elements 0 0 0 rfl le_rfl
    rw [CType.vars, CType.Followed, hdit]
    simpa [CType.ty, collectVarName, hdit, h.length_tys, toOffset] using hs
  | .struct packed ms, dit, @Leads.hidden _ dims _ _ hdit => by
    refine .inr ⟨[], List.nil_sublist _, ?_, fun ptr nameBuilder info => ?_⟩
    · rw [CType.vars, CType.Followed, hdit]
      simpa using ms.followed_hidden packed dims 0 0
    · simp only [CType.ty, collectVarName, hdit, Option.bind_eq_bind, Option.bind_some]
      exact collectElements_hidden (min_le_left _ _) ms.tys ptr 0 (i := 0) rfl nameBuilder info

theorem outcome_of_leadsAll (packed : Bool) : ∀ {ms : Members} {elements : List DINode},
    LeadsAll elements ms → ∀ (dictElems : List DINode) (i off pad : ℕ),
    dictElems.drop i = elements → pad ≤ off →
    Outcome (fun ptr => collectElements dl dictElems dictElems.length ms.tys ptr
      (toOffset (off - pad)) i) (ms.vars dl packed off pad) (ms.Followed dl elements)
  | .nil, _, _, _, _, _, _, _, _ => by
    refine .inr ⟨[], List.nil_sublist _, by simp [Members.Followed, Members.vars], ?_⟩
    intro ptr nameBuilder info
    rfl
  | .cons name t ms, _, .cons hbase h hs, dictElems, i, off, pad, hdrop, hle => by
    have hplace := t.ty.le_place dl packed off
    have hoff : t.ty.place dl packed off + t.ty.allocSize dl -
        (pad + (t.ty.place dl packed off - off)) = off - pad + t.ty.allocSize dl := by omega
    refine outcome_cons hbase hle hdrop (outcome_of_leads h) ?_
    have hrest := outcome_of_leadsAll packed hs dictElems (i + 1)
      (t.ty.place dl packed off + t.ty.allocSize dl) (pad + (t.ty.place dl packed off - off))
      (drop_succ_of_drop hdrop) (by omega)
    rwa [hoff, toOffset_add] at hrest

end

end

/-! ## What is found -/

/-- A declaration: different scalars have different access paths. -/
structure Declaration where
  type : CType
  distinct : ∀ dl : DataLayout, ((type.vars dl).map Var.name).Nodup

section

variable (dl : DataLayout)

/-- The names of a variable. -/
def collectNames (typ : Ty) (dit : DINode) : Option NameInfo :=
  collectVarName dl typ 0 dit "" NameInfo.empty

/-- Each scalar is found at its offset. -/
def NamesExact (t : CType) (dit : DINode) : Prop :=
  ∃ info, collectNames dl t.ty dit = some info ∧
    ∀ v ∈ t.vars dl, ∃ o : Offset, o.val = v.off ∧ info.getNameAtOffset o = some v.name

/-- Offsets have 32 bits, and the padding before a scalar is smaller than its distance from those
before it. -/
structure PaddingFits (t : CType) : Prop where
  off : ∀ v ∈ t.vars dl, v.off < 2 ^ 32
  pad : ∀ v ∈ t.vars dl, ∀ u ∈ t.vars dl, v.off < u.off → u.pad < u.off - v.off

variable {dl}

theorem CType.pairwise_off (t : CType) : (t.vars dl).Pairwise fun v u => v.off < u.off := by
  have h := List.pairwise_map.1 (Ty.laid_fields (t.ty) : Laid 0 (t.ty.storeSize dl) _).pairwise
  have hlt : ((t.ty.fields dl).map Field.off).Pairwise (· < ·) :=
    List.pairwise_map.2 (h.imp fun {f g} hfg =>
      (Nat.lt_add_of_pos_right (f.typ.size dl).pos).trans_le hfg)
  rw [← t.map_off_vars dl] at hlt
  exact List.pairwise_map.1 hlt

/-- Scalars are recorded in their order. -/
theorem CType.place_lt_iff {t : CType} {v u : Var} (hv : v ∈ t.vars dl) (hu : u ∈ t.vars dl) :
    v.place < u.place ↔ v.off < u.off := by
  have h := (t.pairwise_place dl).and t.pairwise_off
  exact List.Pairwise.forall_of_forall_of_flip (R := fun v u => v.place < u.place ↔ v.off < u.off)
    (fun _ _ => by simp) (h.imp fun h => iff_of_true h.1 h.2)
    (h.imp fun h => iff_of_false h.1.not_gt h.2.not_gt) hv hu

/-- The entry of a scalar. -/
def Var.entry (v : Var) : OffsetName := (toOffset v.place, v.name)

theorem record_eq_addAll (l : List Var) :
    record 0 "" l NameInfo.empty = NameInfo.addAll (l.map Var.entry) := by
  rw [record, NameInfo.addAll, List.foldl_map]
  simp [Var.entry]

theorem Var.val_entry {v : Var} (h : v.off < 2 ^ 32) : v.entry.1.val = v.place :=
  Nat.mod_eq_of_lt ((Nat.sub_le _ _).trans_lt h)

/-- The entries ascend if the offsets have 32 bits. -/
theorem ascending_entries {t : CType} (h : ∀ v ∈ t.vars dl, v.off < 2 ^ 32) :
    ((t.vars dl).map Var.entry).Pairwise (·.1 < ·.1) := by
  refine List.pairwise_map.2 ((t.pairwise_place dl).imp_of_mem fun hv hu hlt => ?_)
  rw [Fin.lt_def, Var.val_entry (h _ hv), Var.val_entry (h _ hu)]
  exact hlt

/-- **The names are found** if everything is recorded and little padding is left out. -/
theorem namesExact_of_fits {t : CType} {dit : DINode} (h : Describes dit t)
    (hfollowed : t.Followed dl dit) (hfits : PaddingFits dl t) : NamesExact dl t dit := by
  rcases @outcome_of_leads dl _ _ (h.leads 0) with ⟨-, hnot⟩ | ⟨l, hsub, hiff, hsome⟩
  · exact absurd hfollowed hnot
  obtain rfl := hsub.eq_of_length_le (hiff.1 hfollowed)
  refine ⟨_, hsome 0 "" NameInfo.empty, fun v hv => ⟨⟨v.off, hfits.off v hv⟩, rfl, ?_⟩⟩
  rw [record_eq_addAll]
  refine NameInfo.getNameAtOffset_of_ascending (c := v.entry) (ascending_entries hfits.off) ?_
  refine ⟨List.mem_map_of_mem hv, ?_, fun c hc hle => ?_⟩
  · rw [Fin.le_def, Var.val_entry (hfits.off v hv)]
    exact Nat.sub_le _ _
  · obtain ⟨u, hu, rfl⟩ := List.mem_map.1 hc
    rw [Fin.le_def, Var.val_entry (hfits.off u hu)] at hle
    rw [Fin.le_def, Var.val_entry (hfits.off u hu), Var.val_entry (hfits.off v hv)]
    refine not_lt.1 fun hlt => ?_
    have hpad := hfits.pad v hv u hu ((CType.place_lt_iff hv hu).1 hlt)
    have hplace : u.place = u.off - u.pad := rfl
    simp only at hle
    omega

theorem Members.name_ne_empty (packed : Bool) : ∀ (ms : Members) (off pad : ℕ),
    ∀ v ∈ ms.vars dl packed off pad, v.name ≠ ""
  | .nil, off, pad, v, hv => by
    rw [Members.vars] at hv
    cases hv
  | .cons name t ms, off, pad, v, hv => by
    rw [Members.vars] at hv
    rcases List.mem_append.1 hv with hv | hv
    · obtain ⟨u, -, rfl⟩ := List.mem_map.1 hv
      simp [Var.inStruct]
    · exact ms.name_ne_empty packed _ _ v hv

/-- Only scalars have empty access paths. -/
theorem CType.name_ne_empty {t : CType} (ht : ∀ s, t ≠ .scalar s) :
    ∀ v ∈ t.vars dl, v.name ≠ "" := by
  intro v hv
  cases t with
  | scalar s => exact absurd rfl (ht s)
  | array n t =>
    rw [CType.vars] at hv
    obtain ⟨i, -, hi⟩ := List.mem_flatMap.1 hv
    obtain ⟨u, -, rfl⟩ := List.mem_map.1 hi
    simp [Var.inArray]
  | struct packed ms =>
    rw [CType.vars] at hv
    exact ms.name_ne_empty packed 0 0 v hv

/-- Everything is recorded if everything is found. -/
theorem length_le_of_found (d : Declaration) {l : List Var} (hsub : l.Sublist (d.type.vars dl))
    (hscalar : ∀ s, d.type ≠ .scalar s)
    (hexact : ∀ v ∈ d.type.vars dl, ∃ o, (NameInfo.addAll (l.map Var.entry)).getNameAtOffset o =
      some v.name) : (d.type.vars dl).length ≤ l.length := by
  refine (List.subperm_of_subset (d.distinct dl).of_map fun v hv => ?_).length_le
  obtain ⟨o, ho⟩ := hexact v hv
  obtain ⟨c, hc, hname⟩ := NameInfo.exists_of_getNameAtOffset ho (CType.name_ne_empty hscalar v hv)
  obtain ⟨u, hu, rfl⟩ := List.mem_map.1 hc
  rwa [← List.inj_on_of_nodup_map (d.distinct dl) (hsub.subset hu) hv hname]

/-- What is found at the offset of a scalar is recorded last up to there. -/
theorem pad_lt_of_found (d : Declaration) (hoff : ∀ v ∈ d.type.vars dl, v.off < 2 ^ 32) {v u : Var}
    (hv : v ∈ d.type.vars dl) (hu : u ∈ d.type.vars dl) (hlt : v.off < u.off) {o : Offset}
    (ho : o.val = v.off)
      (hfound : (NameInfo.addAll ((d.type.vars dl).map Var.entry)).getNameAtOffset o =
      some v.name) : u.pad < u.off - v.off := by
  by_contra hpad
  have hle : ∀ w ∈ d.type.vars dl, w.place ≤ v.off → w.entry.1 ≤ o := by
    intro w hw hwv
    rw [Fin.le_def, Var.val_entry (hoff w hw), ho]
    exact hwv
  obtain ⟨c, hc⟩ : ∃ c, Floor.IsFloor Prod.fst ((d.type.vars dl).map Var.entry) o c :=
    Floor.exists_isFloor (List.mem_map_of_mem hv) (hle v hv (Nat.sub_le _ _))
  obtain ⟨w, hw, rfl⟩ := List.mem_map.1 hc.mem
  have hname := (NameInfo.getNameAtOffset_of_ascending (ascending_entries hoff) hc).symm.trans
      hfound
  obtain rfl := List.inj_on_of_nodup_map (d.distinct dl) hw hv (Option.some.inj hname)
  have hplace : u.place = u.off - u.pad := rfl
  have hgreatest := hc.greatest u.entry (List.mem_map_of_mem hu) (hle u hu (by omega))
  rw [Fin.le_def, Var.val_entry (hoff u hu), Var.val_entry (hoff w hw)] at hgreatest
  exact absurd ((CType.place_lt_iff hw hu).2 hlt) (not_lt.2 hgreatest)

/-- What has to hold for the names to be found. -/
theorem fits_of_namesExact {d : Declaration} {dit : DINode} (h : Describes dit d.type)
    (hnames : NamesExact dl d.type dit) : d.type.Followed dl dit ∧ PaddingFits dl d.type := by
  obtain ⟨info, hinfo, hexact⟩ := hnames
  have hoff : ∀ v ∈ d.type.vars dl, v.off < 2 ^ 32 := by
    intro v hv
    obtain ⟨o, ho, -⟩ := hexact v hv
    exact ho ▸ o.isLt
  rcases @outcome_of_leads dl _ _ (h.leads 0) with ⟨hnone, -⟩ | ⟨l, hsub, hiff, hsome⟩
  · cases (hnone 0 "" NameInfo.empty).symm.trans hinfo
  obtain rfl := Option.some.inj ((hsome 0 "" NameInfo.empty).symm.trans hinfo)
  rw [record_eq_addAll] at hexact
  have hfollowed : d.type.Followed dl dit := by
    by_cases hscalar : ∀ s, d.type ≠ .scalar s
    · refine hiff.2 (length_le_of_found d hsub hscalar fun v hv => ?_)
      obtain ⟨o, -, ho⟩ := hexact v hv
      exact ⟨o, ho⟩
    · obtain ⟨s, hs⟩ := not_forall_not.1 hscalar
      rw [hs]
      trivial
  obtain rfl := hsub.eq_of_length_le (hiff.1 hfollowed)
  refine ⟨hfollowed, hoff, fun v hv u hu hlt => ?_⟩
  obtain ⟨o, ho, hfound⟩ := hexact v hv
  exact pad_lt_of_found d hoff hv hu hlt ho hfound

end

/-- **When the names are found.** -/
theorem collectVarName_exact_iff (dl : DataLayout) (d : Declaration) {dit : DINode}
    (h : Describes dit d.type) :
    NamesExact dl d.type dit ↔ d.type.Followed dl dit ∧ PaddingFits dl d.type :=
  ⟨fits_of_namesExact h, fun hfits => namesExact_of_fits h hfits.1 hfits.2⟩

/-- The members of a struct of integers with some sizes, all called differently. -/
def intMembers : List (String × ℕ) → Members
  | [] => .nil
  | (name, bytes) :: l => .cons name (.scalar (.int bytes.toPNat')) (intMembers l)

/-- The nodes for them. -/
def intNodes (l : List (String × ℕ)) : List DINode :=
  l.map fun m => .derived .member m.1 .basic

theorem describes_intNodes (l : List (String × ℕ)) :
    Describes (.composite .null (intNodes l)) (.struct false (intMembers l)) := by
  refine .struct ?_
  induction l with
  | nil => exact .nil
  | cons m l ih => exact .cons (.scalar DINode.noConfusion) ih

/-- Three bytes of padding, which are left out. -/
def charInt : Declaration where
  type := .struct false (intMembers [("a", 1), ("b", 4), ("c", 1)])
  distinct dl := by simp [intMembers, CType.vars, Members.vars, Var.inStruct]

/-- Seven bytes of padding, before two single bytes. -/
def charLong : Declaration where
  type := .struct false (intMembers [("a", 1), ("b", 8), ("c", 1), ("d", 1)])
  distinct dl := by simp [intMembers, CType.vars, Members.vars, Var.inStruct]

theorem vars_charInt : charInt.type.vars x86 = [⟨".a", 0, 0⟩, ⟨".b", 4, 3⟩, ⟨".c", 8, 3⟩] := by
  decide

theorem vars_charLong : charLong.type.vars x86 =
    [⟨".a", 0, 0⟩, ⟨".b", 8, 7⟩, ⟨".c", 16, 7⟩, ⟨".d", 17, 7⟩] := by
  decide

theorem namesExact_charInt :
    NamesExact x86 charInt.type (.composite .null (intNodes [("a", 1), ("b", 4), ("c", 1)])) := by
  refine (collectVarName_exact_iff x86 charInt (describes_intNodes _)).2
    ⟨⟨_, rfl, trivial, trivial, trivial, trivial⟩, ?_, ?_⟩
  · rw [vars_charInt]
    decide
  · rw [vars_charInt]
    decide

/-- The third member is taken for the last one. -/
theorem not_namesExact_charLong :
    Describes (.composite .null (intNodes [("a", 1), ("b", 8), ("c", 1), ("d", 1)])) charLong.type ∧
      ¬ NamesExact x86 charLong.type
        (.composite .null (intNodes [("a", 1), ("b", 8), ("c", 1), ("d", 1)])) := by
  refine ⟨describes_intNodes _, fun h => ?_⟩
  have hpad := (fits_of_namesExact (d := charLong) (describes_intNodes _) h).2.pad
  rw [vars_charLong] at hpad
  revert hpad
  decide

end MDataCollectionPass

end GenMC
