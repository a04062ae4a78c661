import GenMC.ADT.VSet
import GenMC.Execution.Allocation
import GenMC.Library.RangeSearch
import Mathlib.Data.Prod.Lex

/-!
# The ranges of the static variables

The addresses of static variables are handed out before an execution starts, and their ranges are
kept in a set that is sorted by their starts.  To see whether an address is static, the set is
searched by halving for the first range that does not end before the address
(`StaticState.isStatic`).

The order of the set is not the order of the allocations: the flags of an address are above its
index.  `StaticState.isStatic_exact` says that the search is **exact** nevertheless, as the ranges
do not overlap.
-/

set_option autoImplicit false

namespace GenMC.Storage

open SAddr SAddrAllocator RangeSearch

/-- The state of an execution, with the ranges of its static variables. -/
structure StaticState where
  state : ExecutionState
  staticRanges : VSet (SAddr ×ₗ SAddr)

namespace StaticState

def init : StaticState := ⟨ExecutionState.init, VSet.empty⟩

def addStaticRange (s : StaticState) (size alignment : Width) (persistent internal : Bool) :
    Option (SAddr × StaticState) :=
  (s.state.addStaticRange size alignment persistent internal).map fun p =>
    (p.1, ⟨p.2, s.staticRanges.insert (toLex (p.1, ⟨p.1.addr + size - 1⟩))⟩)

def isStatic (s : StaticState) (addr : SAddr) : Bool :=
  let ranges := s.staticRanges.vset.map ofLex
  match ranges[lowerBound ranges (·.2 < addr)]? with
  | none => false
  | some range => decide (range.1 ≤ addr) && decide (addr ≤ range.2)

/-- The arguments of a call. -/
structure Call where
  size : Width
  alignment : Width
  persistent : Bool
  internal : Bool
deriving DecidableEq, Repr

/-- There is something to allocate, and the alignment is a power of two, or 0 for none. -/
structure Call.Valid (c : Call) : Prop where
  size : 1 ≤ c.size.toNat
  alignment : c.alignment = 0 ∨ ∃ k, c.alignment.toNat = 2 ^ k

/-- A sequence of calls, with the addresses that they return. -/
def addStaticRanges (s : StaticState) : List Call → Option (List SAddr × StaticState)
  | [] => some ([], s)
  | c :: cs => do
    let (addr, s') ← s.addStaticRange c.size c.alignment c.persistent c.internal
    let (addrs, s'') ← s'.addStaticRanges cs
    some (addr :: addrs, s'')

/-! ## One call -/

/-- A call with some alignment, as a request to the allocator. -/
def Call.request (c : Call) (alignment : Width) : Request :=
  ⟨.static, 0, c.size, alignment, c.persistent, c.internal⟩

theorem Call.Valid.request {c : Call} (h : c.Valid) {alignment : Width} {k : ℕ} (hk : k ≤ 32)
    (hal : alignment.toNat = 2 ^ k) : (c.request alignment).Valid :=
  ⟨Nat.zero_le _, h.size, k, hk, hal⟩

theorem Call.Valid.size_ne_zero {c : Call} (h : c.Valid) : c.size ≠ 0 :=
  (h.request (Nat.zero_le 32) (show (1 : Width).toNat = 2 ^ 0 from rfl)).size_ne_zero

/-- At the start of a pool, all alignments are the same. -/
theorem allocate_zero (allocFun : Width → Width → Bool → Bool → Option SAddr) (thread : BitVec 32)
    {size alignment : Width} (durable internal : Bool) {k : ℕ} (hal : alignment.toNat = 2 ^ k)
    (hsize : size ≠ 0) :
    allocate allocFun 0 thread size alignment durable internal =
      allocate allocFun 0 thread size 1 durable internal := by
  have hnew : (0 + (alignment - 1)) &&& ~~~(alignment - 1) = 0 := by
    rw [show 0 + (alignment - 1) = alignment - 1 from BitVec.zero_add _]
    exact BitVec.and_not_self _
  rw [allocate_of_pow allocFun 0 thread durable internal hal hsize, hnew,
    allocate_of_pow allocFun 0 thread durable internal (k := 0) rfl hsize]
  rfl

/-- What a call does to the allocator: it returns null and leaves it as it is, or it is a request
with an alignment of at most 32 bits. -/
theorem Call.Valid.allocStatic {c : Call} (h : c.Valid) {a : SAddrAllocator} (ha : a.Bounded) :
    a.allocStatic 0 c.size c.alignment c.persistent c.internal = some (null, a) ∨
      ∃ alignment : Width, (c.request alignment).Valid ∧
        a.allocStatic 0 c.size c.alignment c.persistent c.internal =
          a.alloc (c.request alignment) := by
  rcases h.alignment with h0 | ⟨k, hk⟩
  · refine .inr ⟨1, h.request (Nat.zero_le 32) rfl, ?_⟩
    rw [h0]
    rfl
  by_cases hlarge : 32 < k
  · by_cases hpool : a.staticPool 0 = 0
    · refine .inr ⟨1, h.request (Nat.zero_le 32) rfl, ?_⟩
      have heq := allocate_zero createStatic 0 c.persistent c.internal hk h.size_ne_zero
      rw [SAddrAllocator.allocStatic, hpool, heq, ← hpool]
      rfl
    · left
      have hpos : 0 < (a.staticPool 0).toNat :=
        Nat.pos_of_ne_zero fun h0 => hpool (BitVec.eq_of_toNat_eq h0)
      rw [SAddrAllocator.allocStatic,
        allocate_of_large createStatic 0 c.persistent c.internal hk hlarge (ha.static 0) hpos
          h.size_ne_zero, Option.map_some, Function.update_eq_self]
  · exact .inr ⟨c.alignment, h.request (not_lt.1 hlarge) hk, rfl⟩

/-- The range of an allocation, with both ends. -/
def range (size : Width) (addr : SAddr) : SAddr ×ₗ SAddr := toLex (addr, ⟨addr.addr + size - 1⟩)

/-- What a call does: it fails never, and if it returns an address, then so does the allocator. -/
theorem addStaticRange_eq {s : StaticState} (hs : s.state.alloctor.Bounded) {c : Call}
    (hc : c.Valid) : ∃ addr s',
      s.addStaticRange c.size c.alignment c.persistent c.internal = some (addr, s') ∧
      s'.state.alloctor.Bounded ∧ s'.staticRanges = s.staticRanges.insert (range c.size addr) ∧
      (addr ≠ null → ∃ q : Request, q.Valid ∧ q.size = c.size ∧
        s.state.alloctor.alloc q = some (addr, s'.state.alloctor)) := by
  rcases hc.allocStatic hs with hnull | ⟨alignment, hvalid, heq⟩
  · refine ⟨null, ⟨s.state, s.staticRanges.insert (range c.size null)⟩, ?_, hs, rfl,
      fun hne => absurd rfl hne⟩
    rw [addStaticRange, ExecutionState.addStaticRange, hnull]
    rfl
  · obtain ⟨addr, a', halloc, -, ha'⟩ := alloc_step hs hvalid
    refine ⟨addr, ⟨{ s.state with alloctor := a' }, s.staticRanges.insert (range c.size addr)⟩, ?_,
      ha', rfl, fun _ => ⟨_, hvalid, rfl, halloc⟩⟩
    rw [addStaticRange, ExecutionState.addStaticRange, heq, halloc]
    rfl

/-! ## A sequence of calls -/

/-- The sizes and the addresses of the calls. -/
def served (cs : List Call) (addrs : List SAddr) : List (Width × SAddr) :=
  (cs.map (·.size)).zip addrs

theorem addStaticRanges_eq (cs : List Call) : ∀ {s : StaticState}, s.state.alloctor.Bounded →
    s.staticRanges.Sorted → (∀ c ∈ cs, c.Valid) →
    ∃ addrs s', s.addStaticRanges cs = some (addrs, s') ∧ addrs.length = cs.length ∧
      s'.staticRanges.Sorted ∧
      (∀ x, x ∈ s'.staticRanges ↔
        x ∈ s.staticRanges ∨ ∃ p ∈ served cs addrs, x = range p.1 p.2) ∧
      ((∀ addr ∈ addrs, addr ≠ null) → ∃ qs : List Request, (∀ q ∈ qs, q.Valid) ∧
        qs.map (·.size) = cs.map (·.size) ∧
        s.state.alloctor.allocs qs = some (addrs, s'.state.alloctor)) := by
  induction cs with
  | nil =>
    intro s _ hsorted _
    exact ⟨[], s, rfl, rfl, hsorted, by simp [served], fun _ => ⟨[], by simp, rfl, rfl⟩⟩
  | cons c cs ih =>
    intro s hs hsorted hvalid
    obtain ⟨addr, s₁, hcall, hs₁, hranges, hq⟩ := addStaticRange_eq hs (hvalid c List.mem_cons_self)
    obtain ⟨addrs, s', hcalls, hlen, hsorted', hmem, hqs⟩ := ih hs₁
      (hranges ▸ hsorted.insert _) fun c hc => hvalid c (List.mem_cons_of_mem _ hc)
    refine ⟨addr :: addrs, s', ?_, congrArg (· + 1) hlen, hsorted', fun x => ?_, fun hne => ?_⟩
    · simp [addStaticRanges, hcall, hcalls]
    · have hcons : served (c :: cs) (addr :: addrs) = (c.size, addr) :: served cs addrs := rfl
      rw [hmem, hranges, VSet.mem_insert, hcons, List.exists_mem_cons_iff]
      tauto
    · obtain ⟨q, hqvalid, hsize, halloc⟩ := hq (hne addr List.mem_cons_self)
      obtain ⟨qs, hqsvalid, hsizes, hallocs⟩ :=
        hqs fun a ha => hne a (List.mem_cons_of_mem _ ha)
      refine ⟨q :: qs, List.forall_mem_cons.2 ⟨hqvalid, hqsvalid⟩, ?_, ?_⟩
      · rw [List.map_cons, List.map_cons, hsize, hsizes]
      · simp [allocs, halloc, hallocs]

/-- The bytes of an allocation. -/
def bytes (p : Width × SAddr) : Set ℕ :=
  Set.Ico p.2.addr.toNat (p.2.addr.toNat + p.1.toNat)

/-- What the allocator says about the ranges: they are inside the addresses, and apart from each
other. -/
structure Apart (l : List (Width × SAddr)) : Prop where
  size : ∀ p ∈ l, 1 ≤ p.1.toNat
  inside : ∀ p ∈ l, p.2.addr.toNat + p.1.toNat < 2 ^ 64
  disjoint : l.Pairwise fun p q => Disjoint (bytes p) (bytes q)

theorem apart_served {cs : List Call} {qs : List Request} {addrs : List SAddr}
    {a a' : SAddrAllocator}
    (ha : a.Bounded) (hq : ∀ q ∈ qs, q.Valid) (hsize : qs.map (·.size) = cs.map (·.size))
    (hallocs : a.allocs qs = some (addrs, a')) (hne : ∀ addr ∈ addrs, addr ≠ null) :
    Apart (served cs addrs) := by
  obtain ⟨addrs', a'', hallocs', -, -, -, hserved, hdisjoint⟩ := allocs_step qs ha hq
  rw [hallocs] at hallocs'
  obtain ⟨rfl, rfl⟩ := Prod.mk.injEq .. ▸ Option.some.inj hallocs'
  rw [served, ← hsize, List.zip_map_left]
  have hnull : ∀ p ∈ qs.zip addrs, p.2 ≠ null := fun p hp => hne p.2 (List.of_mem_zip hp).2
  refine ⟨fun p hp => ?_, fun p hp => ?_, ?_⟩
  · obtain ⟨q, hq', rfl⟩ := List.mem_map.1 hp
    exact (hq q.1 (List.of_mem_zip hq').1).size
  · obtain ⟨q, hq', rfl⟩ := List.mem_map.1 hp
    have hinside := (hserved q hq' (hnull q hq')).1.inside
    have hlt := q.2.addr.isLt
    rw [toNat_index, toNat_allocLimit] at hinside
    change q.2.addr.toNat + q.1.size.toNat < 2 ^ 64
    omega
  · rw [List.pairwise_map]
    exact hdisjoint.imp_of_mem fun {p q} hp hq hd => hd (hnull p hp) (hnull q hq)

section
variable {l : List (Width × SAddr)}

theorem Apart.toNat_end (h : Apart l) {p : Width × SAddr} (hp : p ∈ l) :
    (ofLex (range p.1 p.2)).2.addr.toNat = p.2.addr.toNat + p.1.toNat - 1 := by
  have hsize := h.size p hp
  have hinside := h.inside p hp
  have hadd : (p.2.addr + p.1).toNat = p.2.addr.toNat + p.1.toNat := by
    rw [BitVec.toNat_add, Nat.mod_eq_of_lt hinside]
  change (p.2.addr + p.1 - 1).toNat = _
  rw [BitVec.toNat_sub_of_le (BitVec.le_def.2 (by rw [hadd]; exact Nat.le_add_left_of_le hsize)),
    hadd]
  rfl

/-- An address is in a range if it is one of its bytes. -/
theorem Apart.mem_range_iff (h : Apart l) {p : Width × SAddr} (hp : p ∈ l) {a : SAddr} :
    (ofLex (range p.1 p.2)).1 ≤ a ∧ a ≤ (ofLex (range p.1 p.2)).2 ↔
      p.2.addr.toNat ≤ a.addr.toNat ∧ a.addr.toNat < p.2.addr.toNat + p.1.toNat := by
  have hsize := h.size p hp
  change p.2.addr.toNat ≤ a.addr.toNat ∧
    a.addr.toNat ≤ (ofLex (range p.1 p.2)).2.addr.toNat ↔ _
  rw [h.toNat_end hp]
  omega

/-- The set of the ranges can be searched. -/
theorem Apart.separated (h : Apart l) {ranges : VSet (SAddr ×ₗ SAddr)} (hsorted : ranges.Sorted)
    (hmem : ∀ x, x ∈ ranges ↔ ∃ p ∈ l, x = range p.1 p.2) :
    Separated (ranges.vset.map ofLex) := by
  refine separated_of_lex hsorted (fun r hr => ?_) fun r hr s hs hne => ?_
  · obtain ⟨p, hp, rfl⟩ := (hmem r).1 hr
    have hsize := h.size p hp
    change p.2.addr.toNat ≤ (ofLex (range p.1 p.2)).2.addr.toNat
    rw [h.toNat_end hp]
    omega
  · obtain ⟨p, hp, rfl⟩ := (hmem r).1 hr
    obtain ⟨q, hq, rfl⟩ := (hmem s).1 hs
    have hpq : p ≠ q := by
      rintro rfl
      exact hne rfl
    have hsymm : Std.Symm fun p q => Disjoint (bytes p) (bytes q) := ⟨fun _ _ h => h.symm⟩
    have hdisjoint := h.disjoint.forall hp hq hpq
    rw [bytes, bytes, Set.Ico_disjoint_Ico] at hdisjoint
    have hp' := h.size p hp
    have hq' := h.size q hq
    change (ofLex (range p.1 p.2)).2.addr.toNat < q.2.addr.toNat ∨
      (ofLex (range q.1 q.2)).2.addr.toNat < p.2.addr.toNat
    rw [h.toNat_end hp, h.toNat_end hq]
    omega

end

theorem isStatic_iff {s : StaticState} (h : Separated (s.staticRanges.vset.map ofLex)) (a : SAddr) :
    s.isStatic a = true ↔ ∃ x ∈ s.staticRanges, (ofLex x).1 ≤ a ∧ a ≤ (ofLex x).2 := by
  have hfound : s.isStatic a = true ↔ ∃ r,
      (s.staticRanges.vset.map ofLex)[lowerBound (s.staticRanges.vset.map ofLex) (·.2 < a)]? =
        some r ∧ r.1 ≤ a ∧ a ≤ r.2 := by
    rw [isStatic]
    split <;> rename_i hget
    · rw [hget]
      simp
    · rw [hget]
      simp
  rw [hfound, h.mem_lowerBound_iff]
  refine ⟨?_, ?_⟩
  · rintro ⟨r, hr, ha⟩
    obtain ⟨x, hx, rfl⟩ := List.mem_map.1 hr
    exact ⟨x, hx, ha⟩
  · rintro ⟨x, hx, ha⟩
    exact ⟨_, List.mem_map_of_mem hx, ha⟩

/-- **The lookup of static addresses is exact.**  No check fails in a sequence of valid calls, and
if none of them runs out of memory, then an address is static if and only if it is in one of the
ranges that were returned. -/
theorem isStatic_exact {cs : List Call} (h : ∀ c ∈ cs, c.Valid) :
    ∃ addrs s, init.addStaticRanges cs = some (addrs, s) ∧ addrs.length = cs.length ∧
      ((∀ addr ∈ addrs, addr ≠ null) → ∀ a, s.isStatic a = true ↔
        ∃ p ∈ cs.zip addrs, p.2.addr.toNat ≤ a.addr.toNat ∧
          a.addr.toNat < p.2.addr.toNat + p.1.size.toNat) := by
  obtain ⟨addrs, s, hcalls, hlen, hsorted, hmem, hqs⟩ :=
    addStaticRanges_eq cs (s := init) bounded_init VSet.sorted_empty h
  refine ⟨addrs, s, hcalls, hlen, fun hne a => ?_⟩
  obtain ⟨qs, hq, hsize, hallocs⟩ := hqs hne
  have hapart := apart_served bounded_init hq hsize hallocs hne
  have hmem' : ∀ x, x ∈ s.staticRanges ↔ ∃ p ∈ served cs addrs, x = range p.1 p.2 := fun x =>
    (hmem x).trans (or_iff_right List.not_mem_nil)
  rw [isStatic_iff (hapart.separated hsorted hmem')]
  refine ⟨?_, ?_⟩
  · rintro ⟨x, hx, ha⟩
    obtain ⟨p, hp, rfl⟩ := (hmem' x).1 hx
    have hbytes := (hapart.mem_range_iff hp).1 ha
    rw [served, List.zip_map_left] at hp
    obtain ⟨q, hq, rfl⟩ := List.mem_map.1 hp
    exact ⟨q, hq, hbytes⟩
  · rintro ⟨p, hp, ha⟩
    have hp' : (p.1.size, p.2) ∈ served cs addrs := by
      rw [served, List.zip_map_left]
      exact List.mem_map_of_mem hp
    exact ⟨_, (hmem' _).2 ⟨_, hp', rfl⟩, (hapart.mem_range_iff hp').2 ha⟩

/-- Two variables whose ranges are in another order in the set than they were allocated. -/
def twoCalls : List Call := [⟨8, 8, true, false⟩, ⟨2, 0, false, false⟩]

theorem isStatic_exact_twoCalls :
    ∃ addrs s, init.addStaticRanges twoCalls = some (addrs, s) ∧
      addrs = [⟨0x9000000000000000⟩, ⟨0x8000000000000008⟩] ∧
      ∀ a, s.isStatic a = true ↔ ∃ p ∈ twoCalls.zip addrs, p.2.addr.toNat ≤ a.addr.toNat ∧
        a.addr.toNat < p.2.addr.toNat + p.1.size.toNat := by
  have hvalid : ∀ c ∈ twoCalls, c.Valid := by
    intro c hc
    simp only [twoCalls, List.mem_cons, List.not_mem_nil, or_false] at hc
    rcases hc with rfl | rfl
    · exact ⟨by decide, .inr ⟨3, rfl⟩⟩
    · exact ⟨by decide, .inl rfl⟩
  obtain ⟨addrs, s, hcalls, -, hexact⟩ := isStatic_exact hvalid
  have haddrs : (init.addStaticRanges twoCalls).map (·.1) =
      some [⟨0x9000000000000000⟩, ⟨0x8000000000000008⟩] := by decide
  rw [hcalls] at haddrs
  obtain rfl := Option.some.inj haddrs
  exact ⟨_, s, hcalls, rfl, hexact (by decide)⟩

end StaticState
end GenMC.Storage
