import GenMC.Library.Worklist
import GenMC.Passes.PointerIR
import Mathlib.Data.List.Dedup

/-!
# Allocations that escape

`calculate` follows the results of each allocation along def-use chains and collects the
instructions at which the address leaves the function: returns, calls, and writes to memory that is
not known to have been allocated by the function itself.  Loads count as well if so configured.  An
allocation escapes if there is any such instruction.

* `strip_ends`: what an instruction is based on is found in the rounds that there are.
* `exists_calculate`: the analysis comes to an end, and `escapes_iff` says what it finds.
* `Inv` is what holds of an allocation without such an instruction: registers that hold its address
  are reached by the chains, and memory that holds it is its own.
* `escapes_of_reach`: an allocation that can be got hold of outside escapes, if no excused write of
  the run writes its address to memory of another allocation, and if what it returns is not known
  outside from the start.  Such a write is not followed up, whatever becomes of the other allocation
  (`not_escapes_linked`), nor is it looked at what a function does that allocates for the caller.
-/

set_option autoImplicit false

namespace GenMC
namespace EscapeAnalysis

open PointerIR Relation

/-! ## The analysis -/

/-- Goes from an instruction to what it is based on, as long as there is something. -/
def strip (F : Func) (through : Op → Option Opd) : ℕ → Opd → Opd
  | fuel + 1, .inst l =>
    match (F.at? l).bind through with
    | some v => strip F through fuel v
    | none => .inst l
  | _, v => v

def stripCastsGEPs (F : Func) : Opd → Opd
  | .inst l => strip F Op.base (F.rank l + 1) (.inst l)
  | v => v

/-- What `stripPointerCasts` looks through. -/
def pointerBase : Op → Option Opd
  | .cast true v => some v
  | .gep ptr idx => if idx.all (· = .const 0) then some ptr else none
  | _ => none

def stripPointerCasts (F : Func) (l : Loc) : Opd := strip F pointerBase (F.rank l + 1) (.inst l)

def isAllocation : Op → Bool
  | .alloca => true
  | .call .alloc _ => true
  | _ => false

def isAlloc (F : Func) (l : Loc) : Bool :=
  match stripPointerCasts F l with
  | .inst q => (F.at? q).any isAllocation
  | _ => false

def allocs (F : Func) : List Loc := F.locs.filter (isAlloc F)

/-- The allocation whose memory a pointer is to, if it is based on one. -/
def writesDynamicMemory (F : Func) : Opd → Option Loc
  | .inst l =>
    match stripCastsGEPs F (.inst l) with
    | .inst q => if q ∈ allocs F then some q else none
    | _ => none
  | _ => none

/-- Whether an instruction that uses an address lets it escape. -/
def isEscapePoint (F : Func) (loadsEscape : Bool) (u : Loc) : Bool :=
  match F.at? u with
  | some (.call .clean _) => false
  | some (.ret _) => true
  | some (.call _ _) => true
  | some (.invoke _ _) => true
  | some (.store _ ptr) => (writesDynamicMemory F ptr).isNone
  | some (.cmpXchg ptr _ _) => (writesDynamicMemory F ptr).isNone
  | some (.rmw ptr _) => (writesDynamicMemory F ptr).isNone
  | some (.load _) => loadsEscape
  | _ => false

/-- Follows an allocation, and collects the escape points on the way. -/
def escapePointsOf (F : Func) (loadsEscape : Bool) (i : Loc) : Option (List Loc) :=
  Worklist.loop F.users (fun current => (F.users current).filter (isEscapePoint F loadsEscape))
    (Worklist.unvisited F.users F.locs [] + 2) [i] [] []

/-- The escape points of each allocation. -/
def calculate (F : Func) (loadsEscape : Bool) : Option (List (Loc × List Loc)) :=
  (allocs F).mapM fun i => ((escapePointsOf F loadsEscape i).map List.dedup).map fun points =>
    (i, points)

def escapes (escapePoints : List (Loc × List Loc)) (v : Loc) : Bool :=
  match escapePoints.lookup v with
  | none => false
  | some points => !points.isEmpty

/-! ## What it finds -/

section Calculate

variable {F : Func} {loadsEscape : Bool} {l q u : Loc}

/-- The instructions that an allocation is followed to. -/
def Follows (F : Func) : Loc → Loc → Prop := ReflTransGen fun r u => u ∈ F.users r

theorem mem_locs_of_mem_users (h : u ∈ F.users l) : u ∈ F.locs := (List.mem_filter.1 h).1

theorem isSome_escapePointsOf (loadsEscape : Bool) {i : Loc} (hi : i ∈ F.locs) :
    (escapePointsOf F loadsEscape i).isSome := by
  refine Worklist.isSome_loop (fun _ _ _ => mem_locs_of_mem_users) (fun a ha => ?_) ?_
  · rwa [List.mem_singleton.1 ha]
  · rw [List.length_singleton, Nat.add_comm]
    exact Nat.lt_succ_self _

theorem exists_mapM {α β : Type*} {f : α → Option β} {l : List α} (h : ∀ a ∈ l, (f a).isSome) :
    ∃ res, l.mapM f = some res := by
  induction l with
  | nil => exact ⟨[], rfl⟩
  | cons a l ih =>
    obtain ⟨b, hb⟩ := Option.isSome_iff_exists.1 (h a (List.mem_cons_self ..))
    obtain ⟨res, hres⟩ := ih fun a ha => h a (List.mem_cons_of_mem _ ha)
    refine ⟨b :: res, ?_⟩
    rw [List.mapM_cons, hb, hres]
    rfl

/-- A table with an entry for each element of a list. -/
theorem lookup_of_mapM {α β : Type*} [DecidableEq α] {f : α → Option β} {l : List α}
    {res : List (α × β)} (h : (l.mapM fun a => (f a).map fun b => (a, b)) = some res) {a : α}
    (ha : a ∈ l) : res.lookup a = f a := by
  induction l generalizing res with
  | nil => cases ha
  | cons c l ih =>
    rw [List.mapM_cons] at h
    obtain ⟨p, hp, h⟩ := Option.bind_eq_some_iff.1 h
    obtain ⟨rest, hrest, h⟩ := Option.bind_eq_some_iff.1 h
    obtain rfl := Option.some.inj h
    obtain ⟨b, hb, rfl⟩ := Option.map_eq_some_iff.1 hp
    by_cases hac : a = c
    · rw [hac, List.lookup_cons_self, hb]
    · rw [List.lookup_cons, beq_false_of_ne hac]
      exact ih hrest ((List.mem_cons.1 ha).resolve_left hac)

/-- **The analysis comes to an end.** -/
theorem exists_calculate (F : Func) (loadsEscape : Bool) :
    ∃ escapePoints, calculate F loadsEscape = some escapePoints :=
  exists_mapM fun i hi => by
    rw [Option.isSome_map, Option.isSome_map]
    exact isSome_escapePointsOf loadsEscape (List.mem_filter.1 hi).1

/-- **The allocations that escape**: there is an escape point among the users of what the allocation
is followed to. -/
theorem escapes_iff {escapePoints : List (Loc × List Loc)}
    (h : calculate F loadsEscape = some escapePoints) {a : Loc} (ha : a ∈ allocs F) :
    escapes escapePoints a = true ↔
      ∃ r u, Follows F a r ∧ u ∈ F.users r ∧ isEscapePoint F loadsEscape u = true := by
  obtain ⟨points, hpoints⟩ := Option.isSome_iff_exists.1
    (isSome_escapePointsOf loadsEscape (List.mem_filter.1 ha).1)
  rw [escapes, lookup_of_mapM h ha, hpoints]
  have hmem : ∀ u, u ∈ points ↔
      ∃ r, Follows F a r ∧ u ∈ (F.users r).filter (isEscapePoint F loadsEscape) :=
    Worklist.mem_of_loop hpoints
  simp only [List.mem_filter] at hmem
  change (!points.dedup.isEmpty) = true ↔ _
  rw [Bool.not_eq_true', List.isEmpty_eq_false_iff_exists_mem]
  refine ⟨?_, ?_⟩
  · rintro ⟨u, hu⟩
    obtain ⟨r, hr, hur, hesc⟩ := (hmem u).1 (List.mem_dedup.1 hu)
    exact ⟨r, u, hr, hur, hesc⟩
  · rintro ⟨r, u, hr, hur, hesc⟩
    exact ⟨u, List.mem_dedup.2 ((hmem u).2 ⟨r, hr, hur, hesc⟩)⟩

/-! ## Casts -/

variable {through : Op → Option Opd}

theorem strip_of_none {fuel : ℕ} (h : (F.at? l).bind through = none) :
    strip F through fuel (.inst l) = .inst l := by
  cases fuel with
  | zero => rfl
  | succ fuel => rw [strip, h]

theorem strip_of_some {fuel : ℕ} {v : Opd} (h : (F.at? l).bind through = some v) :
    strip F through (fuel + 1) (.inst l) = strip F through fuel v := by
  rw [strip, h]

/-- The rounds are enough: nothing is left to be stripped. -/
theorem bind_eq_none_of_strip {fuel : ℕ} (hthrough : ∀ op v, through op = some v → op.base = some v)
    (h : F.rank l < fuel) (hs : strip F through fuel (.inst l) = .inst q) :
    (F.at? q).bind through = none := by
  induction fuel generalizing l with
  | zero => cases h
  | succ fuel ih =>
    cases hb : (F.at? l).bind through with
    | none =>
      rw [strip_of_none hb] at hs
      obtain rfl := Opd.inst.inj hs
      exact hb
    | some v =>
      rw [strip_of_some hb] at hs
      cases v with
      | inst l' =>
        obtain ⟨op, hop, hbase⟩ := Option.bind_eq_some_iff.1 hb
        have hlt := F.rank_lt_of_base hop (hthrough op _ hbase)
        exact ih (hlt.trans_le (Nat.lt_succ_iff.1 h)) hs
      | _ => cases fuel <;> cases hs

theorem base_of_pointerBase {op : Op} {v : Opd} (h : pointerBase op = some v) :
    op.base = some v := by
  cases op with
  | cast pointer w =>
    cases pointer with
    | true => exact h
    | false => cases h
  | gep ptr idx =>
    rw [pointerBase] at h
    split at h
    · exact h
    · cases h
  | _ => cases h

/-- **Both ways of stripping end at what is based on nothing.** -/
theorem strip_ends :
    (stripCastsGEPs F (.inst l) = .inst q → (F.at? q).bind Op.base = none) ∧
      (stripPointerCasts F l = .inst q → (F.at? q).bind pointerBase = none) :=
  ⟨bind_eq_none_of_strip (fun _ _ h => h) (Nat.lt_succ_self _),
    bind_eq_none_of_strip (fun _ _ => base_of_pointerBase) (Nat.lt_succ_self _)⟩

theorem base_of_isAllocation {op : Op} (h : isAllocation op = true) :
    op.base = none ∧ pointerBase op = none := by
  cases op with
  | cast _ _ => cases h
  | gep _ _ => cases h
  | _ => exact ⟨rfl, rfl⟩

theorem isAlloc_eq (h : (F.at? l).bind pointerBase = none) :
    isAlloc F l = (F.at? l).any isAllocation := by
  rw [isAlloc, stripPointerCasts, strip_of_none h]

theorem mem_allocs {op : Op} (hop : F.at? l = some op) (h : isAllocation op = true) :
    l ∈ allocs F := by
  refine List.mem_filter.2 ⟨F.mem_locs hop, ?_⟩
  rw [isAlloc_eq (by rw [hop]; exact (base_of_isAllocation h).2), hop]
  exact h

end Calculate

/-! ## What is hidden outside -/

/-- No write that is excused writes the address of the allocation `a` to memory other than its
own. -/
def KeepsApart (F : Func) (ctx : Context) (a : Loc) (pc : Option Loc) (s : State) : Prop :=
  ∀ l ∈ pc, ∀ op, F.at? l = some op → ∀ v ptr, Writes ctx s op v ptr →
    (writesDynamicMemory F ptr).isSome → ∀ o off, ptr.value ctx s = .ptr o off →
      (v.value ctx s).All fun o' => s.site o' = some a → s.site o = some a

/-- What the allocation `a` returns in a step is not known outside by then. -/
def ReturnsHidden (a : Loc) (s s' : State) : Prop :=
  ∀ o, s.site o ≠ some a → s'.site o = some a → ¬ Reach s' o

/-- What holds in a run, of an allocation `a` without escape points: the registers with its address
are among those in `R`, and only its own memory holds it. -/
structure Inv (ctx : Context) (a : Loc) (R : Loc → Prop) (s : State) : Prop where
  count_le : ctx.count ≤ s.next
  outside : ∀ o < ctx.count, s.site o = none
  fresh : ∀ o, s.next ≤ o → s.site o = none
  regs_lt : ∀ l, (s.regs l).All (· < s.next)
  mem_lt : ∀ o off, (s.mem o off).All (· < s.next)
  published_lt : ∀ v ∈ s.published, v.All (· < s.next)
  regs : ∀ l, (s.regs l).All fun o => s.site o = some a → R l
  mem : ∀ o off, (s.mem o off).All fun o' => s.site o' = some a → s.site o = some a
  published : ∀ v ∈ s.published, v.All fun o => s.site o ≠ some a

section Hidden

variable {F : Func} {ctx : Context} {a l : Loc} {R : Loc → Prop} {s s' : State}

/-- The allocation cannot be got hold of. -/
theorem Inv.site_of_reach (h : Inv ctx a R s) {o : ℕ} (ho : Reach s o) :
    o < s.next ∧ s.site o ≠ some a := by
  induction ho with
  | outside ho hs => exact ⟨ho, fun ha => Option.some_ne_none a (ha.symm.trans hs)⟩
  | published hp => exact ⟨h.published_lt _ hp, h.published _ hp⟩
  | @mem o o' off off' _ hm ih =>
    have hlt := h.mem_lt o off
    have hsite := h.mem o off
    rw [hm] at hlt hsite
    exact ⟨hlt, fun ha => ih.2 (hsite ha)⟩

/-! ### What a step does to the state -/

theorem site_env (h : EnvStep s s') : s'.site = s.site := by
  cases h with
  | write _ _ => rfl
  | create => rfl

theorem site_envs (h : ReflTransGen EnvStep s s') : s'.site = s.site := by
  induction h with
  | refl => rfl
  | tail _ hstep ih => exact (site_env hstep).trans ih

theorem published_envs (h : ReflTransGen EnvStep s s') : s'.published = s.published := by
  induction h with
  | refl => rfl
  | tail _ hstep ih =>
    cases hstep with
    | write _ _ => exact ih
    | create => exact ih

theorem Inv.set (h : Inv ctx a R s) {v : Val} (hlt : v.All (· < s.next))
    (hR : v.All fun o => s.site o = some a → R l) : Inv ctx a R (s.set l v) where
  count_le := h.count_le
  outside := h.outside
  fresh := h.fresh
  regs_lt l' := by
    rw [State.regs_set]
    split
    · exact hlt
    · exact h.regs_lt l'
  mem_lt := h.mem_lt
  published_lt := h.published_lt
  regs l' := by
    rw [State.regs_set]
    split
    · rename_i hl
      exact hl ▸ hR
    · exact h.regs l'
  mem := h.mem
  published := h.published

theorem Inv.write (h : Inv ctx a R s) {o : ℕ} {off : ℤ} {v : Val} (hlt : v.All (· < s.next))
    (hv : v.All fun o' => s.site o' = some a → s.site o = some a) :
    Inv ctx a R (s.write o off v) where
  count_le := h.count_le
  outside := h.outside
  fresh := h.fresh
  regs_lt := h.regs_lt
  mem_lt o' off' := by
    rw [State.mem_write]
    split
    · exact hlt
    · exact h.mem_lt o' off'
  published_lt := h.published_lt
  regs := h.regs
  mem o' off' := by
    rw [State.mem_write]
    split
    · rename_i ho
      exact ho.1 ▸ hv
    · exact h.mem o' off'
  published := h.published

theorem Inv.publish (h : Inv ctx a R s) {vals : List Val} (hlt : ∀ v ∈ vals, v.All (· < s.next))
    (hv : ∀ v ∈ vals, v.All fun o => s.site o ≠ some a) : Inv ctx a R (s.publish vals) :=
  { h with
    published_lt := fun v hmem => (List.mem_append.1 hmem).elim (hlt v) (h.published_lt v)
    published := fun v hmem => (List.mem_append.1 hmem).elim (hv v) (h.published v) }

theorem site_alloc_of_lt {o : ℕ} (ho : o < s.next) : (s.alloc l).site o = s.site o := by
  rw [State.site_alloc, if_neg ho.ne]

/-- Nothing refers to a new object yet but the register of the allocation. -/
theorem Inv.alloc (h : Inv ctx a R s) (ha : R a) : Inv ctx a R (s.alloc l) where
  count_le := h.count_le.trans (Nat.le_succ _)
  outside o ho := by
    rw [site_alloc_of_lt (ho.trans_le h.count_le)]
    exact h.outside o ho
  fresh o ho := by
    have hlt : s.next < o := ho
    rw [State.site_alloc, if_neg hlt.ne']
    exact h.fresh o hlt.le
  regs_lt l' := by
    rw [State.regs_alloc]
    split
    · exact Nat.lt_succ_self s.next
    · exact (h.regs_lt l').imp fun _ => Nat.lt_succ_of_lt
  mem_lt o off := (h.mem_lt o off).imp fun _ => Nat.lt_succ_of_lt
  published_lt v hv := (h.published_lt v hv).imp fun _ => Nat.lt_succ_of_lt
  regs l' := by
    rw [State.regs_alloc]
    split
    · rename_i hl
      intro hsite
      rw [State.site_alloc, if_pos rfl] at hsite
      rw [hl, Option.some.inj hsite]
      exact ha
    · exact ((h.regs_lt l').and (h.regs l')).imp fun o ho => by
        rw [site_alloc_of_lt ho.1]
        exact ho.2
  mem o off := ((h.mem_lt o off).and (h.mem o off)).imp fun o' ho => by
    rw [site_alloc_of_lt ho.1]
    intro hsite
    have hsite := ho.2 hsite
    rw [site_alloc_of_lt]
    · exact hsite
    · by_contra hle
      exact Option.some_ne_none a (hsite.symm.trans (h.fresh o (not_lt.1 hle)))
  published v hv := ((h.published_lt v hv).and (h.published v hv)).imp fun o ho => by
    rw [site_alloc_of_lt ho.1]
    exact ho.2

/-- A value that is known outside. -/
theorem Inv.set_known (h : Inv ctx a R s) {v : Val} (hv : v.All (Reach s)) :
    Inv ctx a R (s.set l v) :=
  h.set (hv.imp fun _ ho => (h.site_of_reach ho).1)
    (hv.imp fun _ ho ha => absurd ha (h.site_of_reach ho).2)

theorem Inv.env (h : Inv ctx a R s) (hstep : EnvStep s s') : Inv ctx a R s' := by
  cases hstep with
  | write ho hv =>
    refine h.write (hv.imp fun o ho => (h.site_of_reach ho).1) ?_
    exact hv.imp fun o ho ha => absurd ha (h.site_of_reach ho).2
  | create =>
    exact { h with
      count_le := h.count_le.trans (Nat.le_succ _)
      fresh := fun o ho => h.fresh o (Nat.le_of_succ_le ho)
      regs_lt := fun l => (h.regs_lt l).imp fun _ => Nat.lt_succ_of_lt
      mem_lt := fun o off => (h.mem_lt o off).imp fun _ => Nat.lt_succ_of_lt
      published_lt := fun v hv => (h.published_lt v hv).imp fun _ => Nat.lt_succ_of_lt }

theorem Inv.envs (h : Inv ctx a R s) (hsteps : ReflTransGen EnvStep s s') : Inv ctx a R s' := by
  induction hsteps with
  | refl => exact h
  | tail _ hstep ih => exact ih.env hstep

/-! ### What an instruction does -/

theorem Inv.value_lt (h : Inv ctx a R s) (v : Opd) : (v.value ctx s).All (· < s.next) := by
  cases v with
  | const n => trivial
  | global g => exact (ctx.global_lt g).imp fun _ ho => ho.trans_le h.count_le
  | arg i => exact (ctx.arg_lt i).imp fun _ ho => ho.trans_le h.count_le
  | inst l => exact h.regs_lt l

/-- Only registers hold the address. -/
theorem Inv.value_site (h : Inv ctx a R s) (v : Opd) :
    (v.value ctx s).All fun o => s.site o = some a → ∃ r, v = .inst r ∧ R r := by
  have hout : ∀ o < ctx.count, s.site o = some a → ∃ r, v = .inst r ∧ R r := fun o ho ha =>
    absurd (ha.symm.trans (h.outside o ho)) (Option.some_ne_none a)
  cases v with
  | const n => trivial
  | global g => exact (ctx.global_lt g).imp hout
  | arg i => exact (ctx.arg_lt i).imp hout
  | inst l => exact (h.regs l).imp fun _ ho ha => ⟨l, rfl, ho ha⟩

variable {loadsEscape : Bool} {op : Op}

theorem isEscapePoint_of_writes {v ptr : Opd} (hop : F.at? l = some op)
    (hw : Writes ctx s op v ptr) :
    isEscapePoint F loadsEscape l = (writesDynamicMemory F ptr).isNone := by
  rw [isEscapePoint, hop]
  cases hw with
  | store => rfl
  | cmpXchg _ _ => rfl
  | rmw => rfl

theorem isEscapePoint_of_call {callee : Callee} {args : List Opd}
    (hop : F.at? l = some (.call callee args)) (hc : callee ≠ .clean) :
    isEscapePoint F loadsEscape l = true := by
  rw [isEscapePoint, hop]
  cases callee with
  | clean => exact absurd rfl hc
  | _ => rfl

section NoEscape

variable (hno : ∀ r, Follows F a r → ∀ u ∈ F.users r, isEscapePoint F loadsEscape u = false)
include hno

/-- An instruction that uses the address is followed, and it is no escape point. -/
theorem Inv.use (h : Inv ctx a (Follows F a) s) (hop : F.at? l = some op) {v : Opd}
    (hv : v ∈ op.operands) : (v.value ctx s).All fun o => s.site o = some a →
      Follows F a l ∧ isEscapePoint F loadsEscape l = false :=
  (h.value_site v).imp fun o ho ha => by
    obtain ⟨r, rfl, hr⟩ := ho ha
    have hu := F.mem_users hop hv
    exact ⟨hr.tail hu, hno r hr l hu⟩

/-- Memory that the address is written to is that of the allocation. -/
theorem Inv.written (h : Inv ctx a (Follows F a) s) (hop : F.at? l = some op)
    (hkeep : KeepsApart F ctx a (some l) s) {v ptr : Opd} (hw : Writes ctx s op v ptr)
    (hv : v ∈ op.operands) {o : ℕ} {off : ℤ} (ho : ptr.value ctx s = .ptr o off) :
    (v.value ctx s).All fun o' => s.site o' = some a → s.site o = some a := by
  cases hq : writesDynamicMemory F ptr with
  | none =>
    refine (h.use hno hop hv).imp fun o' ho' ha => ?_
    have hesc := (ho' ha).2
    rw [isEscapePoint_of_writes hop hw, hq] at hesc
    cases hesc
  | some q =>
    have hsome : (writesDynamicMemory F ptr).isSome := by rw [hq]; rfl
    exact hkeep l rfl op hop v ptr hw hsome o off ho

theorem Inv.publish_args (h : Inv ctx a (Follows F a) s) (hop : F.at? l = some op)
    (hesc : isEscapePoint F loadsEscape l = true) {args : List Opd} (hargs : args ⊆ op.operands) :
    Inv ctx a (Follows F a) (s.publish (args.map (·.value ctx s))) := by
  refine h.publish (fun w hw => ?_) fun w hw => ?_
  · obtain ⟨v, -, rfl⟩ := List.mem_map.1 hw
    exact h.value_lt v
  · obtain ⟨v, hv, rfl⟩ := List.mem_map.1 hw
    refine (h.use hno hop (hargs hv)).imp fun o ho ha => ?_
    exact Bool.false_ne_true ((ho ha).2.symm.trans hesc)

/-- A result that is computed from operands. -/
theorem Inv.derived (h : Inv ctx a (Follows F a) s) (hop : F.at? l = some op) {ops : List Opd}
    (hops : ops ⊆ op.operands) {v : Val} (hv : Derived (ops.map (·.value ctx s)) v) :
    v.All (· < s.next) ∧ v.All fun o => s.site o = some a → Follows F a l := by
  refine ⟨hv.all fun w hw => ?_, hv.all fun w hw => ?_⟩
  · obtain ⟨x, -, rfl⟩ := List.mem_map.1 hw
    exact h.value_lt x
  · obtain ⟨x, hx, rfl⟩ := List.mem_map.1 hw
    exact (h.use hno hop (hops hx)).imp fun o ho ha => (ho ha).1

/-- What is read from memory. -/
theorem Inv.read (h : Inv ctx a (Follows F a) s) (hop : F.at? l = some op) {ptr : Opd}
    (hptr : ptr ∈ op.operands) {o : ℕ} {off : ℤ} (ho : ptr.value ctx s = .ptr o off) :
    (s.mem o off).All fun o' => s.site o' = some a → Follows F a l := by
  have huse := h.use hno hop hptr
  rw [ho] at huse
  exact (h.mem o off).imp fun o' ho' ha => (huse (ho' ha)).1

omit hno in
/-- A new object of another allocation that is published right away. -/
theorem Inv.alloc_publish (h : Inv ctx a (Follows F a) s) (hl : l ≠ a) :
    Inv ctx a (Follows F a) ((s.alloc l).publish [.ptr s.next 0]) := by
  refine (h.alloc .refl).publish (fun v hv => ?_) fun v hv => ?_
  · rw [List.mem_singleton.1 hv]
    exact Nat.lt_succ_self s.next
  · rw [List.mem_singleton.1 hv]
    show (s.alloc l).site s.next ≠ some a
    rw [State.site_alloc, if_pos rfl]
    exact fun hla => hl (Option.some.inj hla)

/-- **An instruction keeps the address hidden.** -/
theorem Inv.effect (h : Inv ctx a (Follows F a) s) (hop : F.at? l = some op)
    (hkeep : KeepsApart F ctx a (some l) s) (hhidden : ReturnsHidden a s s')
    (he : Effect ctx l s op s') : Inv ctx a (Follows F a) s' := by
  cases he with
  | alloca => exact h.alloc .refl
  | @cast ptr v =>
    exact h.set (h.value_lt v)
      ((h.use hno hop (List.mem_singleton_self v)).imp fun o ho ha => (ho ha).1)
  | @gep ptr idx w hw =>
    have hd := h.derived hno hop (List.cons_subset_cons ptr (List.nil_subset idx)) hw
    exact h.set hd.1 hd.2
  | phi => exact h
  | load ho => exact h.set (h.mem_lt _ _) (h.read hno hop (List.mem_singleton_self _) ho)
  | @store v ptr o off ho =>
    exact h.write (h.value_lt v) (h.written hno hop hkeep .store (List.mem_cons_self ..) ho)
  | @cmpXchg ptr cmp new o off ho heq =>
    have hw : Inv ctx a (Follows F a) (s.write o off (new.value ctx s)) :=
      h.write (h.value_lt new)
        (h.written hno hop hkeep (.cmpXchg ho heq) (by simp [Op.operands]) ho)
    exact hw.set (h.mem_lt o off) (h.read hno hop (List.mem_cons_self ..) ho)
  | @cmpXchg_fail ptr cmp new o off ho hne =>
    exact h.set (h.mem_lt o off) (h.read hno hop (List.mem_cons_self ..) ho)
  | @rmw ptr v o off w ho hd =>
    have hlt : w.All (· < s.next) := hd.all fun x hx => by
      rcases List.mem_cons.1 hx with rfl | hx
      · exact h.mem_lt o off
      · rw [List.mem_singleton.1 hx]
        exact h.value_lt v
    have hmem : w.All fun o' => s.site o' = some a → s.site o = some a := hd.all fun x hx => by
      rcases List.mem_cons.1 hx with rfl | hx
      · exact h.mem o off
      · rw [List.mem_singleton.1 hx]
        exact h.written hno hop hkeep .rmw (by simp [Op.operands]) ho
    exact (h.write hlt hmem).set (h.mem_lt o off) (h.read hno hop (List.mem_cons_self ..) ho)
  | clean hd =>
    have hd := h.derived hno hop (List.Subset.refl _) hd
    exact h.set hd.1 hd.2
  | allocCall henv =>
    have hesc : isEscapePoint F loadsEscape l = true := isEscapePoint_of_call hop (by decide)
    exact ((h.publish_args hno hop hesc (List.Subset.refl _)).envs henv).alloc .refl
  | @allocPublished args u _ henv henv' =>
    have hesc : isEscapePoint F loadsEscape l = true := isEscapePoint_of_call hop (by decide)
    have hu := (h.publish_args hno hop hesc (List.Subset.refl _)).envs henv
    by_cases hl : l = a
    · -- the object of the allocation itself would be known outside
      have hnone : s.site u.next = none := by
        rw [← hu.fresh u.next le_rfl, site_envs henv]
        rfl
      have hsite : s'.site u.next = some a := by
        rw [site_envs henv', ← hl]
        exact (State.site_alloc u l u.next).trans (if_pos rfl)
      have hmem : .ptr u.next 0 ∈ s'.published := by
        rw [published_envs henv']
        exact List.mem_cons_self
      exact absurd (Reach.published hmem) (hhidden u.next (by simp [hnone]) hsite)
    · exact (hu.alloc_publish hl).envs henv'
  | call hc henv hv =>
    have hesc : isEscapePoint F loadsEscape l = true := isEscapePoint_of_call hop hc
    exact ((h.publish_args hno hop hesc (List.Subset.refl _)).envs henv).set_known hv
  | invoke henv hv =>
    have hesc : isEscapePoint F loadsEscape l = true := by rw [isEscapePoint, hop]
    exact ((h.publish_args hno hop hesc (List.Subset.refl _)).envs henv).set_known hv
  | ret => exact h.publish_args hno hop (by rw [isEscapePoint, hop]) (List.Subset.refl _)
  | br => exact h
  | other hd =>
    have hd := h.derived hno hop (List.Subset.refl _) hd
    exact h.set hd.1 hd.2

theorem Inv.enter (h : Inv ctx a (Follows F a) s) (pred target : ℕ) :
    Inv ctx a (Follows F a) (PointerIR.enter F ctx pred target s) := by
  have hregs : ∀ l, (PointerIR.enter F ctx pred target s).regs l = s.regs l ∨ ∃ incoming v,
      F.at? l = some (.phi incoming) ∧ v ∈ (Op.phi incoming).operands ∧
        (PointerIR.enter F ctx pred target s).regs l = v.value ctx s := by
    intro l
    rw [PointerIR.enter]
    dsimp only
    split
    · split
      · rename_i incoming hop
        split
        · rename_i p hp
          exact .inr ⟨incoming, p.2, hop, List.mem_map_of_mem (List.mem_of_find?_eq_some hp), rfl⟩
        · exact .inl rfl
      · exact .inl rfl
    · exact .inl rfl
  refine { h with regs_lt := fun l => ?_, regs := fun l => ?_ }
  · rcases hregs l with hl | ⟨incoming, v, hop, hv, hl⟩
    · rw [hl]
      exact h.regs_lt l
    · rw [hl]
      exact h.value_lt v
  · rcases hregs l with hl | ⟨incoming, v, hop, hv, hl⟩
    · rw [hl]
      exact h.regs l
    · rw [hl]
      exact (h.use hno hop hv).imp fun o ho ha => (ho ha).1

end NoEscape

/-- Registers do not matter outside. -/
theorem reach_enter (pred target : ℕ) {o : ℕ} (h : Reach s o) :
    Reach (PointerIR.enter F ctx pred target s) o := by
  induction h with
  | outside hlt hs => exact .outside hlt hs
  | published hp => exact .published hp
  | mem _ hm ih => exact .mem ih hm

theorem inv_initial (a : Loc) (R : Loc → Prop) (h : Initial ctx s) : Inv ctx a R s where
  count_le := h.next.ge
  outside o _ := h.site o
  fresh o _ := h.site o
  regs_lt l := by
    obtain ⟨n, hn⟩ := h.regs l
    rw [hn]
    trivial
  mem_lt o off := h.next ▸ h.mem o off
  published_lt v hv := by
    rw [h.published] at hv
    cases hv
  regs l := by
    obtain ⟨n, hn⟩ := h.regs l
    rw [hn]
    trivial
  mem o off := (h.mem o off).imp fun o' _ ha =>
    absurd (ha.symm.trans (h.site o')) (Option.some_ne_none a)
  published v hv := by
    rw [h.published] at hv
    cases hv

end Hidden

/-! ## Runs -/

/-- A step that is no excused write of the address of the allocation `a`, and that returns nothing
from `a` that is known outside. -/
inductive ApartStep (F : Func) (ctx : Context) (a : Loc) :
    Option Loc × State → Option Loc × State → Prop
  | step {c c' : Option Loc × State} (h : Step F ctx c c') (hkeep : KeepsApart F ctx a c.1 c.2)
      (hhidden : ReturnsHidden a c.2 c'.2) : ApartStep F ctx a c c'
  | env {pc : Option Loc} {s s' : State} (h : EnvStep s s') : ApartStep F ctx a (pc, s) (pc, s')

section Run

variable {F : Func} {ctx : Context} {a : Loc} {loadsEscape : Bool} {c c' : Option Loc × State}

theorem Inv.step (hno : ∀ r, Follows F a r → ∀ u ∈ F.users r, isEscapePoint F loadsEscape u = false)
    (h : Inv ctx a (Follows F a) c.2) (hstep : ApartStep F ctx a c c') :
    Inv ctx a (Follows F a) c'.2 := by
  cases hstep with
  | env henv => exact h.env henv
  | step hstep hkeep hhidden =>
    cases hstep with
    | seq hop _ he => exact h.effect hno hop hkeep hhidden he
    | @jump l s s' op targets target hop _ _ he =>
      have hs' : ReturnsHidden a s s' := fun o ho ho' hreach =>
        hhidden o ho ho' (reach_enter _ _ hreach)
      exact (h.effect hno hop hkeep hs' he).enter hno _ _
    | ret hop he => exact h.effect hno hop hkeep hhidden he
    | env henv => exact h.env henv

/-- An object is allocated by an allocation. -/
def Allocated (F : Func) (s : State) : Prop :=
  ∀ o q, s.site o = some q → ∃ op, F.at? q = some op ∧ isAllocation op = true

theorem Allocated.alloc {s : State} (h : Allocated F s) {l : Loc} {op : Op}
    (hop : F.at? l = some op) (halloc : isAllocation op = true) : Allocated F (s.alloc l) := by
  intro o q hq
  rw [State.site_alloc] at hq
  split at hq
  · obtain rfl := Option.some.inj hq
    exact ⟨op, hop, halloc⟩
  · exact h o q hq

theorem Allocated.effect {l : Loc} {s s' : State} {op : Op} (h : Allocated F s)
    (hop : F.at? l = some op) (he : Effect ctx l s op s') : Allocated F s' := by
  have henv : ∀ {vals : List Val} {t : State}, ReflTransGen EnvStep (s.publish vals) t →
      Allocated F t := by
    intro vals t ht
    rw [Allocated, site_envs ht]
    exact h
  cases he with
  | alloca => exact h.alloc hop rfl
  | allocCall ht => exact (henv ht).alloc hop rfl
  | @allocPublished _ u _ ht ht' =>
    have hs : Allocated F (u.alloc l) := (henv ht).alloc hop rfl
    rw [Allocated, site_envs ht']
    exact hs
  | call _ ht _ =>
    have hs := henv ht
    exact hs
  | invoke ht _ =>
    have hs := henv ht
    exact hs
  | _ => exact h

theorem Allocated.step (h : Allocated F c.2) (hstep : ApartStep F ctx a c c') :
    Allocated F c'.2 := by
  have henv : ∀ {t : State}, EnvStep c.2 t → Allocated F t := by
    intro t ht
    rw [Allocated, site_env ht]
    exact h
  cases hstep with
  | env ht => exact henv ht
  | step hstep _ _ =>
    cases hstep with
    | seq hop _ he => exact h.effect hop he
    | jump hop _ _ he =>
      have hs := Allocated.effect h hop he
      exact hs
    | ret hop he => exact h.effect hop he
    | env ht => exact henv ht

variable {s₀ : State}

theorem inv_of_run (hinit : Initial ctx s₀)
    (hno : ∀ r, Follows F a r → ∀ u ∈ F.users r, isEscapePoint F loadsEscape u = false)
    (hrun : ReflTransGen (ApartStep F ctx a) (some ⟨0, 0⟩, s₀) c) :
      Inv ctx a (Follows F a) c.2 := by
  induction hrun with
  | refl => exact inv_initial a _ hinit
  | tail _ hstep ih => exact ih.step hno hstep

theorem allocated_of_run (hinit : Initial ctx s₀)
    (hrun : ReflTransGen (ApartStep F ctx a) (some ⟨0, 0⟩, s₀) c) : Allocated F c.2 := by
  induction hrun with
  | refl => exact fun o q hq => absurd (hq.symm.trans (hinit.site o)) (Option.some_ne_none q)
  | tail _ hstep ih => exact ih.step hstep

end Run

/-- **The analysis is sound for an allocation that the run keeps apart from the others**, and that
returns nothing that is known outside: if it can be got hold of outside the function, it escapes. -/
theorem escapes_of_reach (F : Func) (ctx : Context) (loadsEscape : Bool) :
    ∃ escapePoints, calculate F loadsEscape = some escapePoints ∧
      ∀ a s₀, Initial ctx s₀ → ∀ c, ReflTransGen (ApartStep F ctx a) (some ⟨0, 0⟩, s₀) c →
        ∀ o, c.2.site o = some a → Reach c.2 o → escapes escapePoints a = true := by
  obtain ⟨escapePoints, hcalc⟩ := exists_calculate F loadsEscape
  refine ⟨escapePoints, hcalc, fun a s₀ hinit c hrun o hsite hreach => ?_⟩
  obtain ⟨op, hop, halloc⟩ := allocated_of_run hinit hrun o a hsite
  by_contra hesc
  rw [escapes_iff hcalc (mem_allocs hop halloc)] at hesc
  have hno : ∀ r, Follows F a r → ∀ u ∈ F.users r, isEscapePoint F loadsEscape u = false :=
    fun r hr u hu => Bool.eq_false_iff.2 fun h => hesc ⟨r, u, hr, hu, h⟩
  have hinv := inv_of_run hinit hno hrun
  exact (hinv.site_of_reach hreach).2 hsite

/-! ## Two functions -/

/-- A function without casts. -/
def withoutCasts (blocks : List (List Op))
    (h : ∀ l ∈ allLocs blocks, (opAt blocks l).bind Op.base = none) : Func where
  blocks := blocks
  rank _ := 0
  rank_lt l hl l' hl' := by
    rw [h l hl] at hl'
    cases hl'

/-- Neither globals nor arguments. -/
def noContext : Context where
  global _ := .int 0
  arg _ := .int 0
  count := 0
  global_lt _ := trivial
  arg_lt _ := trivial

def start : State where
  regs _ := .int 0
  mem _ _ := .int 0
  site _ := none
  next := 0
  published := []

theorem initial_start : Initial noContext start where
  regs _ := ⟨0, rfl⟩
  mem _ _ := trivial
  site _ := rfl
  next := rfl
  published := rfl

/-- Returns an allocation. -/
def returns : Func :=
  withoutCasts [[.call .alloc [], .ret (some (.inst ⟨0, 0⟩))]] (by decide)

/-- Nothing is known outside about the new object. -/
theorem returnsHidden_start : ReturnsHidden ⟨0, 0⟩ start ((start.publish []).alloc ⟨0, 0⟩) := by
  intro o _ ho hreach
  have hzero : o = 0 := by
    rw [State.site_alloc] at ho
    split at ho
    · assumption
    · exact absurd ho (Option.some_ne_none _).symm
  subst hzero
  cases hreach with
  | outside _ hs => exact absurd (ho.symm.trans hs) (Option.some_ne_none _)
  | published hp => exact absurd hp List.not_mem_nil
  | mem _ hm => exact Val.noConfusion hm

/-- An allocation that is returned escapes. -/
theorem escapes_returns :
    ∃ escapePoints, calculate returns true = some escapePoints ∧
      escapes escapePoints ⟨0, 0⟩ = true := by
  obtain ⟨escapePoints, hcalc, hsound⟩ := escapes_of_reach returns noContext true
  refine ⟨escapePoints, hcalc, hsound ⟨0, 0⟩ start initial_start
    (none, ((start.publish []).alloc ⟨0, 0⟩).publish [.ptr 0 0]) ?_ 0 rfl
    (.published (List.mem_cons_self ..))⟩
  have h1 : ApartStep returns noContext ⟨0, 0⟩ (some ⟨0, 0⟩, start)
      (some ⟨0, 1⟩, (start.publish []).alloc ⟨0, 0⟩) :=
    .step (.seq rfl rfl (.allocCall .refl)) (fun l hl op hop v ptr hw => by
      obtain rfl := Option.some.inj hl
      obtain rfl := Option.some.inj hop
      cases hw) returnsHidden_start
  have h2 : ApartStep returns noContext ⟨0, 0⟩ (some ⟨0, 1⟩, (start.publish []).alloc ⟨0, 0⟩)
      (none, ((start.publish []).alloc ⟨0, 0⟩).publish [.ptr 0 0]) :=
    .step (.ret rfl .ret) (fun l hl op hop v ptr hw => by
      obtain rfl := Option.some.inj hl
      obtain rfl := Option.some.inj hop
      cases hw) fun o ho ho' => absurd ho' ho
  exact (ReflTransGen.single h1).tail h2

/-- Writes an allocation to another one, and returns that one. -/
def linked : Func :=
  withoutCasts [[.call .alloc [], .call .alloc [], .store (.inst ⟨0, 0⟩) (.inst ⟨0, 1⟩),
    .ret (some (.inst ⟨0, 1⟩))]] (by decide)

/-- The allocation that can be found in the returned one does not escape. -/
theorem not_escapes_linked :
    ∃ escapePoints c o, calculate linked true = some escapePoints ∧ Initial noContext start ∧
      ReflTransGen (Step linked noContext) (some ⟨0, 0⟩, start) c ∧
      c.2.site o = some ⟨0, 0⟩ ∧ Reach c.2 o ∧ escapes escapePoints ⟨0, 0⟩ = false := by
  let s₁ := (start.publish []).alloc ⟨0, 0⟩
  let s₂ := (s₁.publish []).alloc ⟨0, 1⟩
  let s₃ := s₂.write 1 0 (.ptr 0 0)
  let s₄ := s₃.publish [.ptr 1 0]
  have h1 : Step linked noContext (some ⟨0, 0⟩, start) (some ⟨0, 1⟩, s₁) :=
    .seq rfl rfl (.allocCall .refl)
  have h2 : Step linked noContext (some ⟨0, 1⟩, s₁) (some ⟨0, 2⟩, s₂) :=
    .seq rfl rfl (.allocCall .refl)
  have h3 : Step linked noContext (some ⟨0, 2⟩, s₂) (some ⟨0, 3⟩, s₃) :=
    .seq rfl rfl (.store (show s₂.regs ⟨0, 1⟩ = .ptr 1 0 from rfl))
  have h4 : Step linked noContext (some ⟨0, 3⟩, s₃) (none, s₄) := .ret rfl .ret
  refine ⟨_, (none, s₄), 0, rfl, initial_start, ?_, rfl, ?_, by decide⟩
  · exact (((ReflTransGen.single h1).tail h2).tail h3).tail h4
  · exact .mem (.published (List.mem_cons_self ..)) (show s₄.mem 1 0 = .ptr 0 0 from rfl)

end EscapeAnalysis
end GenMC
