import GenMC.Execution.ExecutionState
import Mathlib.Data.Set.Card

/-!
# Hazard pointers

A hazard pointer is a slot in memory that protects an allocation.  The state of an execution keeps
which address each slot protects, and for every byte how many slots protect the allocation that the
byte is in.

* `Allocated`, `protectors`: the allocations of a run, and the slots that protect a byte.
* `hpProtectCount_run`: **the counts are exact**, in every run.
* `isProtected_iff`: **`isProtected` asks whether all bytes of an access have a positive count.**
-/

set_option autoImplicit false

namespace GenMC
namespace ExecutionState

open Storage (SAddrAllocator)

/-! ## Allocations -/

/-- What an access of the allocator is to. -/
def toAccess (access : Storage.AAccess) : AAccess := ⟨ofStorage access.addr, access.size.toFin⟩

/-- The allocation that a call makes, unless there is no room for it. -/
def Call.allocates (s : State) : Call → Option AAccess
  | .onAlloc pos size alignment sdur styp spc =>
    (s.onAlloc pos size alignment sdur styp spc).bind fun p =>
      if p.1 = 0 then none else some ⟨p.1, size.toFin⟩
  | _ => none

/-- An allocation that was made by some calls. -/
def Allocated (calls : List Call) (A : AAccess) : Prop :=
  ∃ before s c after, calls = before ++ c :: after ∧ State.init.run before = some s ∧
    c.allocates s = some A

theorem not_allocated_nil (A : AAccess) : ¬ Allocated [] A := by
  rintro ⟨before, s, c, after, hcalls, -⟩
  exact List.append_ne_nil_of_right_ne_nil before (List.cons_ne_nil c after) hcalls.symm

theorem allocated_concat {calls : List Call} {s : State} (hrun : State.init.run calls = some s)
    {c : Call} {A : AAccess} :
    Allocated (calls ++ [c]) A ↔ Allocated calls A ∨ c.allocates s = some A := by
  refine ⟨?_, ?_⟩
  · rintro ⟨before, s', c', after, hcalls, hbefore, hA⟩
    rcases List.eq_nil_or_concat after with rfl | ⟨after, x, rfl⟩
    · obtain ⟨rfl, hc⟩ := List.append_inj' hcalls rfl
      obtain rfl := List.singleton_inj.1 hc
      rw [hrun] at hbefore
      obtain rfl := Option.some.inj hbefore
      exact .inr hA
    · rw [List.concat_eq_append, ← List.cons_append, ← List.append_assoc] at hcalls
      exact .inl ⟨before, s', c', after, (List.append_inj' hcalls rfl).1, hbefore, hA⟩
  · rintro (⟨before, s', c', after, rfl, hbefore, hA⟩ | hA)
    · exact ⟨before, s', c', after ++ [c], by simp, hbefore, hA⟩
    · exact ⟨calls, s, c, [], rfl, hrun, hA⟩

/-- A region that the allocator has handed out. -/
def Region (a : SAddrAllocator) (A : AAccess) : Prop :=
  ∃ (r : SAddrAllocator.Request) (n : ℕ), r.Valid ∧ r.storage ≠ .static ∧
    SAddrAllocator.Placed r (toStorage A.addr) n ∧ r.size.toFin = A.size ∧
    n + r.size.toNat ≤ (a.pool r).toNat

/-- The bytes of a region, without a wrap. -/
theorem at_iff_mem_bytes {r : SAddrAllocator.Request} {A : AAccess} {n : ℕ}
    (h : SAddrAllocator.Placed r (toStorage A.addr) n) (hsize : r.size.toFin = A.size) (p : SAddr) :
    A.At p ↔ p.val ∈ r.bytes (toStorage A.addr) := by
  obtain ⟨⟨addr, haddr⟩, size⟩ := A
  obtain rfl : r.size.toFin = size := hsize
  have hfits := h.fits
  have hnat : addr = r.upper * 2 ^ 32 + n := h.toNat
  have hsz : (r.size.toFin : ℕ) = r.size.toNat := rfl
  rw [SAddrAllocator.toNat_allocLimit] at hfits
  have hbytes : p.val ∈ r.bytes (toStorage ⟨addr, haddr⟩) ↔
      addr ≤ p.val ∧ p.val < addr + r.size.toNat := Iff.rfl
  rw [hbytes]
  simp only [AAccess.At, makeInterval, Fin.le_def, Fin.lt_def, Fin.val_add, hsz]
  omega

/-- A region has its first byte. -/
theorem Region.at_start {a : SAddrAllocator} {A : AAccess} (h : Region a A) : A.At A.addr := by
  obtain ⟨r, n, hr, -, hplaced, hsize, -⟩ := h
  rw [at_iff_mem_bytes hplaced hsize]
  have hpos := hr.size
  have hstart : (toStorage A.addr).addr.toNat = A.addr.val := rfl
  rw [SAddrAllocator.Request.bytes, hstart]
  exact ⟨le_rfl, by omega⟩

theorem Region.mono {a a' : SAddrAllocator} {A : AAccess} (h : Region a A)
    (hpools : ∀ r, r.storage ≠ .static → (a.pool r).toNat ≤ (a'.pool r).toNat) : Region a' A := by
  obtain ⟨r, n, hr, hstatic, hplaced, hsize, hpool⟩ := h
  exact ⟨r, n, hr, hstatic, hplaced, hsize, hpool.trans (hpools r hstatic)⟩

/-- An allocation takes a new region, or it returns null and takes nothing. -/
theorem onAlloc_region {s s' : State} (hb : s.storage.alloctor.Bounded) {pos : Event}
    {size alignment : Storage.Width} {sdur : Storage.StorageDuration} {styp : Storage.StorageType}
    {spc : Storage.AddressSpace} {addr : SAddr}
    (h : s.onAlloc pos size alignment sdur styp spc = some (addr, s')) :
    s'.storage.alloctor.Bounded ∧
      (∀ A, Region s.storage.alloctor A → Region s'.storage.alloctor A) ∧
      (addr ≠ 0 → Region s'.storage.alloctor ⟨addr, size.toFin⟩ ∧
        ∀ A p, Region s.storage.alloctor A → A.At p → ¬ AAccess.At ⟨addr, size.toFin⟩ p) := by
  obtain ⟨⟨addr', storage⟩, halloc, heq⟩ := Option.map_eq_some_iff.1 h
  obtain ⟨rfl, rfl⟩ := Prod.mk.injEq .. ▸ heq
  obtain ⟨hstatic, hal, -⟩ := Storage.ExecutionState.onAlloc_spec halloc
  have hnull : ofStorage Storage.SAddr.null = 0 := rfl
  let op : Storage.ExecutionState.AllocOp := .onAlloc pos size alignment sdur styp spc
  have hperform : s.storage.perform op = some (addr', storage) := halloc
  obtain ⟨r, hr⟩ : ∃ r, r = op.request := ⟨_, rfl⟩
  have hreq : s.storage.alloctor.alloc r = some (addr', storage.alloctor) :=
    hr ▸ Storage.ExecutionState.alloc_of_perform hperform
  have hsize : r.size = size := by rw [hr]; rfl
  have hstatic' : r.storage ≠ .static := by rw [hr]; exact hstatic
  rcases SAddrAllocator.valid_or_of_alloc hb hstatic' (by rw [hr]; exact hal) hreq with
    hvalid | ⟨haddr, hsame⟩
  · obtain ⟨addr, a', halloc', hstep, hb'⟩ := SAddrAllocator.alloc_step hb hvalid
    rw [hreq] at halloc'
    obtain ⟨rfl, rfl⟩ := Prod.mk.injEq .. ▸ Option.some.inj halloc'
    refine ⟨hb', fun A hA => hA.mono fun q _ => hstep.mono q, fun hne => ?_⟩
    have hfit : s.storage.alloctor.Fits r := by
      by_contra hunfit
      exact hne ((congrArg ofStorage (hstep.unfit hunfit).1).trans hnull)
    obtain ⟨hplaced, hend⟩ := hstep.fit hfit
    have hsize' : r.size.toFin = size.toFin := congrArg BitVec.toFin hsize
    refine ⟨⟨r, _, hvalid, hstatic', hplaced, hsize', hend.ge⟩, fun A p hA hp hp' => ?_⟩
    obtain ⟨q, m, hq, -, hplacedA, hsizeA, hendA⟩ := hA
    rw [at_iff_mem_bytes hplacedA hsizeA] at hp
    rw [at_iff_mem_bytes hplaced hsize'] at hp'
    exact (SAddrAllocator.disjoint_of_placed hq hvalid hplacedA hplaced hendA
      (SAddrAllocator.pool_le_newIndex _ hvalid)).le_bot ⟨hp, hp'⟩
  · dsimp only
    rw [hsame]
    exact ⟨hb, fun A hA => hA, fun hne => absurd ((congrArg ofStorage haddr).trans hnull) hne⟩

/-! ## What the calls leave alone -/

/-- The calls that change allocations or hazard pointers. -/
def Call.changesHazards : Call → Bool
  | .addStaticRange .. | .onATStore .. | .onAlloc .. | .onFree .. | .onProtect .. | .clear => true
  | _ => false

/-- Two states with the same allocations and the same hazard pointers. -/
structure SameHazards (s s' : State) : Prop where
  storage : s'.storage = s.storage
  hpProtectMap : s'.hpProtectMap = s.hpProtectMap
  hpProtectCount : s'.hpProtectCount = s.hpProtectCount

theorem sameHazards_of_exec {s s' : State} {c : Call} (hc : c.changesHazards = false)
    (h : s.exec c = some s') : SameHazards s s' := by
  cases c with
  | onNALoad pos access view =>
    obtain ⟨_, _, _, _, heq⟩ := State.onNALoad_eq s pos access view
    obtain rfl := heq.symm.trans (Option.some.inj h)
    exact ⟨rfl, rfl, rfl⟩
  | onATLoad pos access view =>
    obtain ⟨_, _, _, heq⟩ := State.onATLoad_eq s pos access view
    obtain rfl := heq.symm.trans (Option.some.inj h)
    exact ⟨rfl, rfl, rfl⟩
  | onNAStore pos access view val =>
    obtain ⟨_, _, _, _, _, _, -, -, rfl⟩ := State.onNAStore_eq h
    exact ⟨rfl, rfl, rfl⟩
  | onFence pos isRelease =>
    obtain ⟨_, heq⟩ := State.noteRelease_eq s pos isRelease
    obtain rfl := heq.symm.trans (Option.some.inj h)
    exact ⟨rfl, rfl, rfl⟩
  | onLoopBegin pos =>
    obtain rfl := Option.some.inj h
    exact ⟨rfl, rfl, rfl⟩
  | onSpinStart pos =>
    obtain ⟨p, hp, rfl⟩ := Option.map_eq_some_iff.1 h
    obtain ⟨_, heq⟩ := State.onSpinStart_eq hp
    rw [heq]
    exact ⟨rfl, rfl, rfl⟩
  | onDeferredValueUpdate access val =>
    obtain ⟨m, -, rfl⟩ := State.onDeferredValueUpdate_eq h
    exact ⟨rfl, rfl, rfl⟩
  | _ => cases hc

/-- An atomic store only ends what a hazard pointer protects. -/
theorem onATStore_hazards {s s' : State} {pos : Event} {access : AAccess} {view : CowView}
    {isEffectful isRelease : Bool}
    (h : s.exec (.onATStore pos access view isEffectful isRelease) = some s') :
    ∃ s₁ s₂, SameHazards s s₁ ∧ s₁.overwriteHp access.addr = some s₂ ∧ SameHazards s₂ s' := by
  obtain ⟨s₂, _, _, _, _, hhp, rfl⟩ := State.onATStore_eq h
  refine ⟨_, s₂, ?_, hhp, ⟨rfl, rfl, rfl⟩⟩
  exact ⟨rfl, rfl, rfl⟩

/-! ## Slots and counts -/

/-- A slot with this value protects the byte. -/
def Protects (Al : AAccess → Prop) (p : SAddr) (o : Option SAddr) : Prop :=
  ∃ A, Al A ∧ A.At p ∧ o = some A.addr

open Classical in
/-- How many slots protect a byte, as one of them. -/
noncomputable def weight (Al : AAccess → Prop) (p : SAddr) (o : Option SAddr) : ℤ :=
  if Protects Al p o then 1 else 0

/-- The number of values with a property, after one of them has changed. -/
theorem ncard_update {α β : Type*} [Finite α] [DecidableEq α] (f : α → β) (P : β → Prop)
    [DecidablePred P] (x : α) (b : β) :
    {y | P (Function.update f x b y)}.ncard + (if P (f x) then 1 else 0) =
      {y | P (f y)}.ncard + if P b then 1 else 0 := by
  by_cases hb : P b
  · have hset : {y | P (Function.update f x b y)} = insert x {y | P (f y)} := by
      ext y
      by_cases hy : y = x
      · subst hy
        simp [hb]
      · simp [hy]
    rw [hset, if_pos hb]
    by_cases hx : P (f x)
    · rw [if_pos hx, Set.insert_eq_of_mem (show x ∈ {y | P (f y)} from hx)]
    · rw [if_neg hx, Set.ncard_insert_of_notMem (show x ∉ {y | P (f y)} from hx)]
  · have hset : {y | P (Function.update f x b y)} = {y | P (f y)} \ {x} := by
      ext y
      by_cases hy : y = x
      · subst hy
        simp [hb]
      · simp [hy]
    rw [hset, if_neg hb]
    by_cases hx : P (f x)
    · rw [if_pos hx, Set.ncard_sdiff_singleton_add_one (show x ∈ {y | P (f y)} from hx)]
      rfl
    · rw [if_neg hx, Set.sdiff_singleton_eq_self (show x ∉ {y | P (f y)} from hx)]

/-- The allocations that a state has recorded are those that were made. -/
structure Allocations (Al : AAccess → Prop) (storage : Storage.ExecutionState) : Prop where
  bounded : storage.alloctor.Bounded
  nonNull : ∀ A, Al A → A.addr ≠ 0
  region : ∀ A, Al A → Region storage.alloctor A
  disjoint : ∀ A B p, Al A → Al B → A.At p → B.At p → A = B
  id_eq : storage.allocInfoMap.id = none
  recorded : ∀ seg ∈ storage.allocInfoMap.map, ∀ info, seg.2 = some info →
    ofStorage info.access.addr ≠ 0 → Al (toAccess info.access)

/-- The counts are those of the slots. -/
structure Counts (Al : AAccess → Prop) (s : State) : Prop where
  slots : ∀ slot a, s.hpProtectMap slot = some a → a ≠ 0 → ∃ A, Al A ∧ A.addr = a
  reachable : IntervalMap.Reachable 0 s.hpProtectCount
  counts : ∀ p, s.hpProtectCount.valueAt p = {slot | Protects Al p (s.hpProtectMap slot)}.ncard

section Slots

variable {Al : AAccess → Prop} {s s' : State}

theorem Counts.congr (h : Counts Al s) (hsame : SameHazards s s') : Counts Al s' := by
  obtain ⟨-, hmap, hcount⟩ := hsame
  refine ⟨?_, ?_, ?_⟩
  · rw [hmap]
    exact h.slots
  · rw [hcount]
    exact h.reachable
  · rw [hmap, hcount]
    exact h.counts

/-- An address that an allocation starts at protects its bytes. -/
theorem Allocations.protects_iff (h : Allocations Al s.storage) {A : AAccess} (hA : Al A)
    (p : SAddr) : Protects Al p (some A.addr) ↔ A.At p := by
  refine ⟨fun ⟨B, hB, hp, haddr⟩ => ?_, fun hp => ⟨A, hA, hp, rfl⟩⟩
  have haddr := Option.some.inj haddr
  have hB' := (h.region B hB).at_start
  rw [← haddr] at hB'
  rw [h.disjoint A B A.addr hA hB (h.region A hA).at_start hB']
  exact hp

theorem weight_none (p : SAddr) : weight Al p none = 0 :=
  if_neg fun ⟨_, _, _, h⟩ => nomatch h

theorem Allocations.weight_null (h : Allocations Al s.storage) (p : SAddr) :
    weight Al p (some 0) = 0 :=
  if_neg fun ⟨A, hA, _, haddr⟩ => h.nonNull A hA (Option.some.inj haddr).symm

/-- The number of the slots that protect a byte, after one of them has changed. -/
theorem ncard_protects_update (f : SAddr → Option SAddr) (slot : SAddr) (o : Option SAddr)
    (p : SAddr) : (({y | Protects Al p (Function.update f slot o y)}.ncard : ℕ) : ℤ) =
      {y | Protects Al p (f y)}.ncard - weight Al p (f slot) + weight Al p o := by
  classical
  have h := ncard_update f (Protects Al p) slot o
  rw [weight, weight]
  split_ifs at h ⊢ <;> omega

theorem mem_of_find {K V : Type*} [LinearOrder K] [BEq V] {m : IntervalMap K V} {p : K}
    {seg : K × V} (h : m.find p = some seg) : seg ∈ m.map := by
  rw [IntervalMap.find] at h
  split at h
  · split at h
    · cases h
    · obtain rfl := Option.some.inj h
      exact List.takeWhile_subset _ (List.mem_of_getLast? ‹_›)
  · cases h

/-- The recorded allocation of an address is one that was made. -/
theorem Allocations.of_getAllocAccess (h : Allocations Al s.storage) {addr : SAddr} {A : AAccess}
    (hA : s.getAllocAccess addr = some A) (hne : A.addr ≠ 0) : Al A := by
  obtain ⟨info, hinfo, rfl⟩ := Option.map_eq_some_iff.1 hA
  obtain ⟨entry, hentry, hvalue⟩ := Option.bind_eq_some_iff.1 hinfo
  obtain ⟨seg, hseg, rfl⟩ := Option.map_eq_some_iff.1 hentry
  exact h.recorded seg (mem_of_find hseg) info hvalue hne

/-- What `updateHpCount` does, to a slot that protects an allocation. -/
theorem updateHpCount_spec (hA : Allocations Al s.storage)
    (hreach : IntervalMap.Reachable 0 s.hpProtectCount) {slot a : SAddr} {count : ℤ}
    (hcount : count ≠ 0) (hslot : s.hpProtectMap slot = some a) (hne : a ≠ 0)
    (h : s.updateHpCount slot count = some s') :
    (∃ A, Al A ∧ A.addr = a) ∧ ∃ m, s' = { s with hpProtectCount := m } ∧
      IntervalMap.Reachable 0 m ∧
      ∀ p, m.valueAt p = s.hpProtectCount.valueAt p + count * weight Al p (some a) := by
  obtain ⟨protectedAddr, hprot, hrest⟩ := Option.bind_eq_some_iff.1 h
  rw [hslot] at hprot
  obtain rfl := Option.some.inj hprot
  obtain ⟨A, hacc, hadd⟩ := Option.bind_eq_some_iff.1 hrest
  split at hadd
  · rename_i haddr
    rw [← haddr] at hne ⊢
    have hAl := hA.of_getAllocAccess hacc hne
    refine ⟨⟨A, hAl, rfl⟩, _, (Option.some.inj hadd).symm, hreach.add _ _ _ _, fun p => ?_⟩
    rw [IntervalMap.valueAt_add_eq (by rw [hreach.id_eq]; simpa using hcount) (· + count), weight]
    by_cases hp : (makeInterval A).1 ≤ p ∧ p < (makeInterval A).2
    · rw [if_pos hp, if_pos ((hA.protects_iff hAl p).2 hp), mul_one]
    · rw [if_neg hp, if_neg (mt (hA.protects_iff hAl p).1 hp), mul_zero, add_zero]
  · cases hadd

/-- What `unprotect` does to the counts. -/
theorem unprotect_spec (hA : Allocations Al s.storage)
    (hreach : IntervalMap.Reachable 0 s.hpProtectCount) {slot : SAddr}
    (h : s.unprotect slot = some s') : ∃ m, s' = { s with hpProtectCount := m } ∧
      IntervalMap.Reachable 0 m ∧
      ∀ p, m.valueAt p = s.hpProtectCount.valueAt p - weight Al p (s.hpProtectMap slot) := by
  rw [State.unprotect] at h
  split at h
  · rename_i a hslot
    split at h
    · rename_i hne
      obtain ⟨-, m, rfl, hm, hval⟩ :=
        updateHpCount_spec hA hreach (by decide) hslot hne h
      refine ⟨m, rfl, hm, fun p => ?_⟩
      rw [hval, hslot]
      ring
    · rename_i hnull
      obtain rfl := Option.some.inj h
      obtain rfl := not_not.1 hnull
      refine ⟨_, rfl, hreach, fun p => ?_⟩
      rw [hslot, hA.weight_null, sub_zero]
  · rename_i hslot
    obtain rfl := Option.some.inj h
    refine ⟨_, rfl, hreach, fun p => ?_⟩
    rw [hslot, weight_none, sub_zero]

/-- The counts are right if those of the new value of a slot were added to those of the others. -/
theorem Counts.update (h : Counts Al s) {slot : SAddr} {o : Option SAddr}
    (hslots : ∀ a, o = some a → a ≠ 0 → ∃ A, Al A ∧ A.addr = a) {m : IntervalMap SAddr ℤ}
    (hm : IntervalMap.Reachable 0 m) (hval : ∀ p, m.valueAt p =
      s.hpProtectCount.valueAt p - weight Al p (s.hpProtectMap slot) + weight Al p o)
    (hmap : s'.hpProtectMap = Function.update s.hpProtectMap slot o)
    (hcount : s'.hpProtectCount = m) : Counts Al s' := by
  refine ⟨fun slot' a hslot' hne => ?_, hcount ▸ hm, fun p => ?_⟩
  · rw [hmap, Function.update_apply] at hslot'
    split at hslot'
    · exact hslots a hslot' hne
    · exact h.slots slot' a hslot' hne
  · rw [hcount, hval, h.counts, hmap, ncard_protects_update]

/-- A slot is protected by a new address, or by none. -/
theorem Counts.onProtect (hA : Allocations Al s.storage) (h : Counts Al s) {hpAddr protAddr : SAddr}
    (hexec : s.onProtect hpAddr protAddr = some s') : s'.storage = s.storage ∧ Counts Al s' := by
  obtain ⟨s₁, hun, hrest⟩ := Option.bind_eq_some_iff.1 hexec
  obtain ⟨m, rfl, hm, hval⟩ := unprotect_spec hA h.reachable hun
  split at hrest
  · rename_i hne
    obtain ⟨hslots, m', rfl, hm', hval'⟩ := updateHpCount_spec (s := { s with
      hpProtectCount := m, hpProtectMap := Function.update s.hpProtectMap hpAddr (some protAddr) })
      hA hm (by decide) (Function.update_self ..) hne hrest
    refine ⟨rfl, h.update (o := some protAddr) (fun a ha _ => Option.some.inj ha ▸ hslots) hm'
      (fun p => ?_) rfl rfl⟩
    rw [hval', one_mul]
    exact congrArg (· + _) (hval p)
  · rename_i hnull
    obtain rfl := Option.some.inj hrest
    refine ⟨rfl, h.update (o := some protAddr)
      (fun a ha hne => absurd (Option.some.inj ha ▸ hne) hnull) hm (fun p => ?_) rfl rfl⟩
    rw [not_not.1 hnull, hA.weight_null, add_zero]
    exact hval p

/-- A store to a slot ends what it protects. -/
theorem Counts.overwriteHp (hA : Allocations Al s.storage) (h : Counts Al s) {addr : SAddr}
    (hexec : s.overwriteHp addr = some s') : s'.storage = s.storage ∧ Counts Al s' := by
  rw [State.overwriteHp] at hexec
  split at hexec
  · rename_i hany
    obtain ⟨a, hslot, hne⟩ := (Option.any_eq_true ..).1 hany
    obtain ⟨s₁, hcount, rfl⟩ := Option.map_eq_some_iff.1 hexec
    obtain ⟨-, m, rfl, hm, hval⟩ := updateHpCount_spec hA h.reachable (by decide)
      hslot (of_decide_eq_true hne) hcount
    refine ⟨rfl, h.update (o := some 0) (fun a ha hne => absurd (Option.some.inj ha).symm hne) hm
      (fun p => ?_) rfl rfl⟩
    rw [hval, hslot, hA.weight_null]
    ring
  · obtain rfl := Option.some.inj hexec
    exact ⟨rfl, h⟩

end Slots

/-! ## Allocations -/

section Calls

variable {Al : AAccess → Prop} {s s' : State}

/-- Freeing keeps what is recorded about an allocation, but for the event that freed it. -/
theorem Allocations.setFree (h : Allocations Al s.storage) {pos : Event} {addr : SAddr}
    {isRetire : Bool} {storage : Storage.ExecutionState}
    (hfree : State.setFree s.storage pos addr isRetire = some storage) :
    Allocations Al storage := by
  obtain ⟨it, hit, hrest⟩ := Option.bind_eq_some_iff.1 hfree
  obtain ⟨oldVal, hold, hset⟩ := Option.bind_eq_some_iff.1 hrest
  obtain rfl := Option.some.inj hset
  obtain ⟨seg, hseg, rfl⟩ := Option.map_eq_some_iff.1 hit
  have hOld := h.recorded seg (mem_of_find hseg) oldVal hold
  refine ⟨h.bounded, h.nonNull, h.region, h.disjoint, (IntervalMap.id_add ..).trans h.id_eq, ?_⟩
  refine IntervalMap.forall_mem_add (P := fun x : Option Storage.AllocInfo => ∀ info,
    x = some info → ofStorage info.access.addr ≠ 0 → Al (toAccess info.access))
    (fun info hinfo => ?_)
    (fun _ _ _ info hinfo => ?_) h.recorded
  · rw [h.id_eq] at hinfo
    cases hinfo
  · obtain rfl := Option.some.inj hinfo
    exact hOld

/-- A free ends what a slot protects. -/
theorem Counts.onFree (hA : Allocations Al s.storage) (h : Counts Al s) {pos : Event} {addr : SAddr}
    {isRetire : Bool} (hexec : s.onFree pos addr isRetire = some s') :
    Allocations Al s'.storage ∧ Counts Al s' := by
  obtain ⟨storage, m, hfree, hun, rfl⟩ := State.onFree_eq hexec
  have hA' := hA.setFree hfree
  obtain ⟨m', heq, hm, hval⟩ :=
    unprotect_spec (s := { s with storage := storage }) hA' h.reachable hun
  obtain rfl : m = m' := congrArg State.hpProtectCount heq
  refine ⟨hA', h.update (o := none) (fun a ha => nomatch ha) hm (fun p => ?_) rfl rfl⟩
  rw [weight_none, add_zero]
  exact hval p

/-- Static memory is in pools of its own. -/
theorem Allocations.addStaticRange (h : Allocations Al s.storage) {size alignment : Storage.Width}
    {persistent internal : Bool}
    (hexec : s.addStaticRange size alignment persistent internal = some s') :
    Allocations Al s'.storage ∧ s'.hpProtectMap = s.hpProtectMap ∧
      s'.hpProtectCount = s.hpProtectCount := by
  obtain ⟨⟨addr, storage⟩, hstatic, rfl⟩ := Option.map_eq_some_iff.1 hexec
  obtain ⟨⟨addr', a⟩, halloc, heq⟩ := Option.map_eq_some_iff.1 hstatic
  obtain ⟨-, rfl⟩ := Prod.mk.injEq .. ▸ heq
  obtain ⟨hb, hpool⟩ := SAddrAllocator.allocStatic_eq h.bounded halloc
  refine ⟨⟨hb, h.nonNull, fun A hA => (h.region A hA).mono fun r hr => ?_, h.disjoint, h.id_eq,
    h.recorded⟩, rfl, rfl⟩
  rw [SAddrAllocator.pool, SAddrAllocator.pool]
  split
  · exact absurd ‹_› hr
  · rw [hpool]

section Alloc

variable {pos : Event} {size alignment : Storage.Width} {sdur : Storage.StorageDuration}
  {styp : Storage.StorageType} {spc : Storage.AddressSpace} {addr : SAddr}

/-- An allocation makes a new one, unless it returns null. -/
theorem Allocations.onAlloc (h : Allocations Al s.storage)
    (hexec : s.onAlloc pos size alignment sdur styp spc = some (addr, s')) :
    Allocations (fun A => Al A ∨ addr ≠ 0 ∧ A = ⟨addr, size.toFin⟩) s'.storage := by
  obtain ⟨hb, hold, hnew⟩ := onAlloc_region h.bounded hexec
  have hfresh {A : AAccess} {p : SAddr} (hA : Al A) (hne : addr ≠ 0) (hp : A.At p) :
      ¬ AAccess.At ⟨addr, size.toFin⟩ p := (hnew hne).2 A p (h.region A hA) hp
  obtain ⟨⟨addr', storage⟩, halloc, heq⟩ := Option.map_eq_some_iff.1 hexec
  obtain ⟨rfl, rfl⟩ := Prod.mk.injEq .. ▸ heq
  obtain ⟨-, -, hmap⟩ := Storage.ExecutionState.onAlloc_spec halloc
  refine ⟨hb, ?_, ?_, ?_, ?_, ?_⟩
  · rintro A (hA | ⟨hne, rfl⟩)
    · exact h.nonNull A hA
    · exact hne
  · rintro A (hA | ⟨hne, rfl⟩)
    · exact hold A (h.region A hA)
    · exact (hnew hne).1
  · rintro A B p (hA | ⟨hne, rfl⟩) (hB | ⟨hne', rfl⟩) hp hp'
    · exact h.disjoint A B p hA hB hp hp'
    · exact absurd hp' (hfresh hA hne' hp)
    · exact absurd hp (hfresh hB hne hp')
    · rfl
  · exact (congrArg IntervalMap.id hmap).trans ((IntervalMap.id_add ..).trans h.id_eq)
  · rw [hmap]
    refine IntervalMap.forall_mem_add (P := fun x : Option Storage.AllocInfo => ∀ info,
      x = some info → ofStorage info.access.addr ≠ 0 →
        Al (toAccess info.access) ∨ ofStorage addr' ≠ 0 ∧
          toAccess info.access = ⟨ofStorage addr', size.toFin⟩) (fun info hinfo => ?_)
      (fun _ _ _ info hinfo hne => ?_) fun seg hseg info hinfo hne =>
        .inl (h.recorded seg hseg info hinfo hne)
    · rw [h.id_eq] at hinfo
      cases hinfo
    · obtain rfl := Option.some.inj hinfo
      exact .inr ⟨hne, rfl⟩

/-- No slot protects a new allocation. -/
theorem Counts.onAlloc (hA : Allocations Al s.storage) (h : Counts Al s)
    (hexec : s.onAlloc pos size alignment sdur styp spc = some (addr, s')) :
    Counts (fun A => Al A ∨ addr ≠ 0 ∧ A = ⟨addr, size.toFin⟩) s' := by
  obtain ⟨-, -, hnew⟩ := onAlloc_region hA.bounded hexec
  obtain ⟨⟨addr', storage⟩, halloc, heq⟩ := Option.map_eq_some_iff.1 hexec
  obtain ⟨rfl, rfl⟩ := Prod.mk.injEq .. ▸ heq
  refine ⟨fun slot a hslot hne => ?_, h.reachable, fun p => ?_⟩
  · obtain ⟨A, hAl, haddr⟩ := h.slots slot a hslot hne
    exact ⟨A, .inl hAl, haddr⟩
  · rw [h.counts]
    refine congrArg (fun S : Set SAddr => (S.ncard : ℤ)) (Set.ext fun slot => ?_)
    refine ⟨fun ⟨A, hAl, hrest⟩ => ⟨A, .inl hAl, hrest⟩, ?_⟩
    rintro ⟨A, hAl | ⟨hne, rfl⟩, hp, hslot⟩
    · exact ⟨A, hAl, hp, hslot⟩
    · obtain ⟨B, hB, haddr⟩ := h.slots slot _ hslot hne
      have hstart := (hA.region B hB).at_start
      rw [haddr] at hstart
      exact absurd (hnew hne).1.at_start ((hnew hne).2 B _ (hA.region B hB) hstart)

end Alloc

end Calls

/-! ## Runs -/

/-- The slots that protect the allocation of a byte. -/
def protectors (calls : List Call) (s : State) (p : SAddr) : Set SAddr :=
  {slot | ∃ A, Allocated calls A ∧ A.At p ∧ s.hpProtectMap slot = some A.addr}

/-- A call keeps the allocations and the counts. -/
theorem hazards_exec {calls : List Call} {s s' : State} {c : Call}
    (hrun : State.init.run calls = some s) (hA : Allocations (Allocated calls) s.storage)
    (h : Counts (Allocated calls) s) (hclear : c ≠ .clear) (hexec : s.exec c = some s') :
    Allocations (Allocated (calls ++ [c])) s'.storage ∧ Counts (Allocated (calls ++ [c])) s' := by
  have hsame (hnone : c.allocates s = none) : Allocated (calls ++ [c]) = Allocated calls := by
    funext A
    rw [allocated_concat hrun, hnone, or_iff_left (fun h => nomatch h)]
  cases c with
  | addStaticRange size alignment persistent internal =>
    obtain ⟨hA', hmap, hcount⟩ := hA.addStaticRange hexec
    rw [hsame rfl]
    exact ⟨hA', hmap ▸ h.slots, hcount ▸ h.reachable, fun p => by rw [hmap, hcount, h.counts]⟩
  | onATStore pos access view isEffectful isRelease =>
    obtain ⟨s₁, s₂, hs₁, hhp, hs'⟩ := onATStore_hazards hexec
    obtain ⟨hstorage, h₂⟩ := (h.congr hs₁).overwriteHp (hs₁.storage ▸ hA) hhp
    rw [hsame rfl, hs'.storage, hstorage, hs₁.storage]
    exact ⟨hA, h₂.congr hs'⟩
  | onAlloc pos size alignment sdur styp spc =>
    obtain ⟨⟨addr, s₁⟩, halloc, rfl⟩ := Option.map_eq_some_iff.1 hexec
    have hnew : Allocated (calls ++ [.onAlloc pos size alignment sdur styp spc]) =
        fun A => Allocated calls A ∨ addr ≠ 0 ∧ A = ⟨addr, size.toFin⟩ := by
      funext A
      rw [allocated_concat hrun, Call.allocates, halloc, Option.bind_some]
      refine propext (or_congr_right ?_)
      split
      · exact iff_of_false (fun h => nomatch h) fun h => h.1 ‹_›
      · exact ⟨fun h => ⟨‹_›, (Option.some.inj h).symm⟩, fun h => congrArg some h.2.symm⟩
    rw [hnew]
    exact ⟨hA.onAlloc halloc, h.onAlloc hA halloc⟩
  | onFree pos addr isRetire =>
    rw [hsame rfl]
    exact h.onFree hA hexec
  | onProtect hpAddr protAddr =>
    obtain ⟨hstorage, h'⟩ := h.onProtect hA hexec
    rw [hsame rfl, hstorage]
    exact ⟨hA, h'⟩
  | clear => exact absurd rfl hclear
  | _ =>
    have hs' := sameHazards_of_exec rfl hexec
    rw [hsame rfl, hs'.storage]
    exact ⟨hA, h.congr hs'⟩

theorem hazards_run {calls : List Call} {s : State} (hrun : State.init.run calls = some s)
    (hclear : Call.clear ∉ calls) :
    Allocations (Allocated calls) s.storage ∧ Counts (Allocated calls) s := by
  refine (State.run_invariant (P := fun calls s => State.init.run calls = some s ∧
    (Call.clear ∉ calls → Allocations (Allocated calls) s.storage ∧ Counts (Allocated calls) s))
    ⟨rfl, fun _ => ?_⟩ (fun {calls s c s'} ih hexec => ⟨?_, fun hclear => ?_⟩) hrun).2 hclear
  · have hnone (A : AAccess) (hA : Allocated [] A) : False := not_allocated_nil A hA
    refine ⟨⟨SAddrAllocator.bounded_init, fun A hA => (hnone A hA).elim,
      fun A hA => (hnone A hA).elim, fun A _ _ hA => (hnone A hA).elim, rfl,
      fun seg hseg => (List.not_mem_nil hseg).elim⟩, fun slot a h => (nomatch h), .empty,
      fun p => ?_⟩
    have hempty : {slot | Protects (Allocated []) p (State.init.hpProtectMap slot)} = ∅ :=
      Set.eq_empty_of_forall_notMem fun _ ⟨A, hA, _⟩ => hnone A hA
    rw [hempty, Set.ncard_empty]
    rfl
  · rw [State.run_concat, ih.1, Option.bind_some, hexec]
  · obtain ⟨hA, h⟩ := ih.2 fun h => hclear (List.mem_append_left _ h)
    exact hazards_exec ih.1 hA h
      (fun heq => hclear (List.mem_append_right _ (List.mem_singleton.2 heq.symm))) hexec

/-- **The counts are exact**: the count of a byte is the number of the slots that protect the
allocation that it is in. -/
theorem hpProtectCount_run {calls : List Call} {s : State} (hrun : State.init.run calls = some s)
    (hclear : Call.clear ∉ calls) (p : SAddr) :
    s.hpProtectCount.valueAt p = (protectors calls s p).ncard :=
  (hazards_run hrun hclear).2.counts p

/-! ## Protected accesses -/

/-- The loop of `isProtected`, over segments in order that have the positive values of all addresses
from `lastUncovered` on. -/
theorem coversUpTo_iff {v : SAddr → ℤ} {stop : SAddr} (segs : List (IntervalMap.Entry SAddr ℤ)) :
    ∀ lastUncovered, segs.Pairwise (fun a b => a.stop ≤ b.start) →
      (∀ seg ∈ segs, seg.start < seg.stop ∧ seg.start < stop ∧ 0 < seg.value ∧
        ∀ p, seg.Has p → v p = seg.value) →
      (∀ p, lastUncovered ≤ p → p < stop → 0 < v p → ∃ seg ∈ segs, seg.Has p) →
      (State.coversUpTo stop lastUncovered segs = true ↔
        ∀ p, lastUncovered ≤ p → p < stop → 0 < v p) := by
  induction segs with
  | nil =>
    intro u _ _ hcovers
    rw [State.coversUpTo, decide_eq_true_eq]
    refine ⟨fun hle p hup hps => absurd (hup.trans_lt hps) (not_lt.2 hle), fun hall => ?_⟩
    by_contra hlt
    obtain ⟨seg, hseg, -⟩ := hcovers u le_rfl (not_le.1 hlt) (hall u le_rfl (not_le.1 hlt))
    exact List.not_mem_nil hseg
  | cons it rest ih =>
    intro u hpair hsegs hcovers
    obtain ⟨hafter, hpair⟩ := List.pairwise_cons.1 hpair
    obtain ⟨hne, hstop, hpos, hvalue⟩ := hsegs it (List.mem_cons_self ..)
    have hrest := fun seg hseg => hsegs seg (List.mem_cons_of_mem it hseg)
    -- from the end of the first segment on, the others have the positive values
    have hlater {w : SAddr} (hw : u ≤ w) (hend : it.stop ≤ w) : ∀ p, w ≤ p → p < stop → 0 < v p →
        ∃ seg ∈ rest, seg.Has p := by
      intro p hwp hps hp
      obtain ⟨seg, hseg, hhas⟩ := hcovers p (hw.trans hwp) hps hp
      rcases List.mem_cons.1 hseg with rfl | hseg
      · exact absurd hhas.2 (not_lt.2 (hend.trans hwp))
      · exact ⟨seg, hseg, hhas⟩
    rw [State.coversUpTo]
    by_cases hgap : u < it.start
    · have hstay : ¬ (it.value > 0 ∧ it.start ≤ u ∧ it.stop > u) := fun h => not_lt.2 h.2.1 hgap
      rw [if_neg hstay, if_pos hgap]
      refine iff_of_false Bool.false_ne_true fun hall => ?_
      have hus := hgap.trans hstop
      obtain ⟨seg, hseg, hhas⟩ := hcovers u le_rfl hus (hall u le_rfl hus)
      rcases List.mem_cons.1 hseg with rfl | hseg
      · exact absurd hhas.1 (not_le.2 hgap)
      · exact absurd hhas.1 (not_le.2 ((hgap.trans hne).trans_le (hafter seg hseg)))
    · have hstart := not_lt.1 hgap
      by_cases hin : u < it.stop
      · have hmove : it.value > 0 ∧ it.start ≤ u ∧ it.stop > u := ⟨hpos, hstart, hin⟩
        rw [if_pos hmove, if_neg (not_lt.2 (hstart.trans hin.le)), ih it.stop hpair hrest
          (hlater hin.le le_rfl)]
        refine ⟨fun hall p hup hps => ?_, fun hall p hp => hall p (hin.le.trans hp)⟩
        by_cases hp : p < it.stop
        · rw [hvalue p ⟨hstart.trans hup, hp⟩]
          exact hpos
        · exact hall p (not_lt.1 hp) hps
      · have hstay : ¬ (it.value > 0 ∧ it.start ≤ u ∧ it.stop > u) := fun h => hin h.2.2
        rw [if_neg hstay, if_neg hgap]
        exact ih u hpair hrest (hlater le_rfl (not_lt.1 hin))

/-- **`isProtected` asks whether every byte of the access has a positive count**, in every state
that calls lead to. -/
theorem isProtected_iff {calls : List Call} {s : State} (hrun : State.init.run calls = some s)
    (hclear : Call.clear ∉ calls) (access : AAccess) :
    s.isProtected access = true ↔ ∀ p, access.At p → 0 < s.hpProtectCount.valueAt p := by
  have hcounts := (hazards_run hrun hclear).2
  have hid := hcounts.reachable.id_eq
  have hreduced := hcounts.reachable.reduced
  rw [State.isProtected]
  by_cases hse : (makeInterval access).1 < (makeInterval access).2
  · have hmem := @IntervalMap.Reduced.mem_entriesIn _ _ _ _ _ _ _ hreduced _ _ hse
    have hpositive {p : SAddr} (hne : (s.hpProtectCount.valueAt p == s.hpProtectCount.id) = false) :
        0 < s.hpProtectCount.valueAt p := by
      rw [hid, beq_eq_false_iff_ne] at hne
      rw [hcounts.counts] at hne ⊢
      omega
    refine (coversUpTo_iff (v := s.hpProtectCount.valueAt) _ _ ?_ (fun seg hseg => ?_)
      fun p hp hps hpos => ?_).trans ⟨fun hall p hp => hall p hp.1 hp.2, fun hall p hp hps =>
        hall p ⟨hp, hps⟩⟩
    · rw [IntervalMap.entriesIn_eq_filter hse]
      exact (IntervalMap.pairwise_entries _).filter _
    · obtain ⟨hmax, q, hq, -, hqs⟩ := hmem.1 hseg
      refine ⟨hmax.nonempty, hq.1.trans_lt hqs, ?_, fun p hp => eq_of_beq (hmax.constant p hp)⟩
      rw [← hmax.value]
      refine hpositive ?_
      rw [hmax.value]
      exact hmax.ne_id
    · have hne : (s.hpProtectCount.valueAt p == s.hpProtectCount.id) = false := by
        rw [hid, beq_eq_false_iff_ne]
        exact hpos.ne'
      obtain ⟨seg, hmax, hhas⟩ := hreduced.exists_isMaximal hne
      exact ⟨seg, hmem.2 ⟨hmax, p, hhas, hp, hps⟩, hhas⟩
  · rw [IntervalMap.entriesIn_of_le (not_lt.1 hse)]
    exact iff_of_true (decide_eq_true (not_lt.1 hse)) fun p hp => absurd (hp.1.trans_lt hp.2) hse

/-- **Counts and protection are exact** in every run. -/
theorem hazardPointers_exact {calls : List Call} {s : State}
    (hrun : State.init.run calls = some s) (hclear : Call.clear ∉ calls) :
    (∀ p, s.hpProtectCount.valueAt p = (protectors calls s p).ncard) ∧
      ∀ access, s.isProtected access = true ↔
        ∀ p, access.At p → 0 < s.hpProtectCount.valueAt p :=
  ⟨hpProtectCount_run hrun hclear, isProtected_iff hrun hclear⟩

/-- An allocation that two slots protect, until one of them is stored to. -/
def protectedTwice : List Call :=
  [.onAlloc ⟨1, 1⟩ 8 8 .heap .volatile .user, .onProtect 200 0x100000008,
    .onProtect 208 0x100000008, .onATStore ⟨1, 2⟩ ⟨200, 8⟩ ⟨none, ⟨1, 2⟩⟩ false false]

theorem protectedTwice_exact : ∃ s, State.init.run protectedTwice = some s ∧
    (∀ p, s.hpProtectCount.valueAt p = (protectors protectedTwice s p).ncard) ∧
      ∀ access, s.isProtected access = true ↔
        ∀ p, access.At p → 0 < s.hpProtectCount.valueAt p := by
  obtain ⟨s, hs⟩ := Option.isSome_iff_exists.1
    (show (State.init.run protectedTwice).isSome = true by decide)
  exact ⟨s, hs, hazardPointers_exact hs (by simp [protectedTwice])⟩

-- one slot is left, and it protects all eight bytes but no more
example : (State.init.run protectedTwice).map (fun s =>
    (s.hpProtectCount.valueAt 0x100000008, s.isProtected ⟨0x100000008, 8⟩,
      s.isProtected ⟨0x10000000C, 8⟩)) = some (1, true, false) := by decide

end ExecutionState
end GenMC
