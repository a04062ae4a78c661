import GenMC.Execution.ByteHistory
import GenMC.Execution.Initialization
import GenMC.Execution.MixedSize

/-!
# Values that are known late

The value of a write that is not atomic only becomes known with the next atomic access to it.  It is
the initial value of memory if nothing was written there, and is recorded for the bytes of the
access else.

* `updateDeferredValue_iff`: **when the value is recorded as it should be.**  What decides is
  whether anything was written to the access, but recording needs a write to every byte.
-/

set_option autoImplicit false

namespace GenMC
namespace ExecutionState

/-! ## The graph -/

/-- The part of an execution graph that has values of memory. -/
structure GraphState where
  state : State
  initVals : SAddr → Option SVal

namespace GraphState

def setInitVal (g : GraphState) (addr : SAddr) (val : SVal) : Option GraphState :=
  let inserted := (g.initVals addr).isNone
  let first := (g.initVals addr).getD val
  -- an attempt to replace the initial value
  if inserted ∧ first.get ≠ val.get ∧ first.provenance ≠ val.provenance then none
  else some { g with initVals := Function.update g.initVals addr (some first) }

def updateDeferredValue (g : GraphState) (access : AAccess) (val : SVal) : Option GraphState :=
  if (g.state.getMaxAWriteView access).isEmpty && (g.state.getMaxNAWriteEvent access).isEmpty then
    g.setInitVal access.addr val
  else (g.state.onDeferredValueUpdate access val).map fun s => { g with state := s }

/-- The check never fails: a value that was just inserted is the one that was given. -/
theorem setInitVal_eq (g : GraphState) (addr : SAddr) (val : SVal) :
    g.setInitVal addr val = some { g with
      initVals := Function.update g.initVals addr (some ((g.initVals addr).getD val)) } := by
  refine if_neg ?_
  rintro ⟨hinserted, hne, -⟩
  rw [Option.isNone_iff_eq_none.1 hinserted] at hne
  exact hne rfl

end GraphState

/-! ## Bytes that were stored to -/

section Stored

variable {calls : List Call} {s : State}

/-- What the history of a byte tells about the stores to it. -/
structure Explains (calls : List Call) (p : SAddr) (b : ByteState) : Prop where
  covered : Covered calls p ↔ b.isNA.isSome = true
  kinds : Covered calls p ↔ b.naWrite.isSome = true ∨
    ∃ r ∈ calls.filterMap Call.atomicWrite, r.access.At p
  started : ∀ e ∈ b.naWrite, 0 < e.index

theorem mem_atomicWrites_concat {c : Call} {p : SAddr} :
    (∃ r ∈ (calls ++ [c]).filterMap Call.atomicWrite, r.access.At p) ↔
      (∃ r ∈ calls.filterMap Call.atomicWrite, r.access.At p) ∨
        ∃ r, c.atomicWrite = some r ∧ r.access.At p := by
  simp [or_and_right, exists_or]

/-- A call that stores nothing. -/
theorem Explains.skip {p : SAddr} {b b' : ByteState} (h : Explains calls p b) {c : Call}
    (hstore : c.store = none) (hisNA : b'.isNA = b.isNA) (hnaWrite : b'.naWrite = b.naWrite) :
    Explains (calls ++ [c]) p b' := by
  have hcovered := @covered_concat_of_not calls c p (c.not_storesTo_of_store_eq_none hstore p)
  have hatomic : c.atomicWrite = none := by cases c <;> first | rfl | cases hstore
  refine ⟨?_, ?_, ?_⟩
  · rw [hcovered, hisNA, h.covered]
  · rw [hcovered, hnaWrite, h.kinds, mem_atomicWrites_concat, hatomic]
    simp
  · rw [hnaWrite]
    exact h.started

/-- A store to the byte. -/
theorem Explains.store {p : SAddr} {b : ByteState} {c : Call} {pos : Event} {access : AAccess}
    (hstore : c.store = some (pos, access)) (hp : access.At p) (hisNA : b.isNA.isSome = true)
    (hkind : b.naWrite.isSome = true ∨ ∃ r, c.atomicWrite = some r ∧ r.access.At p)
    (hstarted : ∀ e ∈ b.naWrite, 0 < e.index) : Explains (calls ++ [c]) p b := by
  have hcovered : Covered (calls ++ [c]) p := covered_concat.2 (.inr ⟨pos, access, hstore, hp⟩)
  refine ⟨iff_of_true hcovered hisNA, iff_of_true hcovered ?_, hstarted⟩
  rw [mem_atomicWrites_concat]
  exact hkind.imp_right .inr

/-- A store to other bytes. -/
theorem Explains.other {p : SAddr} {b : ByteState} (h : Explains calls p b) {c : Call} {pos : Event}
    {access : AAccess} (hstore : c.store = some (pos, access)) (hp : ¬ access.At p) :
    Explains (calls ++ [c]) p b := by
  have hcovered : Covered (calls ++ [c]) p ↔ Covered calls p := by
    refine covered_concat_of_not ?_
    rintro ⟨pos', access', hsome, hp'⟩
    rw [hstore] at hsome
    cases hsome
    exact hp hp'
  have hatomic : ¬ ∃ r, c.atomicWrite = some r ∧ r.access.At p := by
    rintro ⟨r, hr, hp'⟩
    cases c with
    | onATStore =>
      cases hr
      cases hstore
      exact hp hp'
    | _ => cases hr
  refine ⟨hcovered.trans h.covered, ?_, h.started⟩
  rw [hcovered, mem_atomicWrites_concat, or_iff_left hatomic]
  exact h.kinds

theorem explains_history (hclear : Call.clear ∉ calls) (hstart : StoresAfterStart calls)
    (p : SAddr) : Explains calls p (history calls p) := by
  induction calls using List.reverseRecOn with
  | nil =>
    have hnone : ¬ Covered [] p := fun ⟨c, hc, _⟩ => List.not_mem_nil hc
    exact ⟨iff_of_false hnone Bool.false_ne_true, iff_of_false hnone (by simp [history,
      ByteState.init]), fun e he => nomatch he⟩
  | append_singleton calls c ih =>
    obtain ⟨hstart, hlast⟩ := storesAfterStart_concat.1 hstart
    have ih := ih (fun h => hclear (List.mem_append_left _ h)) hstart
    rw [history_concat]
    cases c with
    | onNAStore pos access view val =>
      have hwrite : Explains (calls ++ [.onNAStore pos access view val]) p
          ((history calls p).writeNA p pos access) := by
        by_cases hp : access.At p
        · rw [ByteState.writeNA, if_pos hp]
          refine .store rfl hp rfl (.inl rfl) fun e he => ?_
          obtain rfl := Option.some.inj he
          exact hlast _ access rfl
        · rw [ByteState.writeNA, if_neg hp]
          exact ih.other rfl hp
      cases val with
      | none => exact hwrite
      | some val =>
        obtain ⟨hcovered, hkinds, hstarted⟩ := hwrite
        refine ⟨?_, ?_, ?_⟩
        · rw [ByteState.step, ByteState.isNA_record]
          exact hcovered
        · rw [ByteState.step, ByteState.naWrite_record]
          exact hkinds
        · rw [ByteState.step, ByteState.naWrite_record]
          exact hstarted
    | onATStore pos access view isEffectful isRelease =>
      rw [ByteState.step]
      by_cases hp : access.At p
      · rw [if_pos hp]
        exact .store rfl hp rfl (.inr ⟨_, rfl, hp⟩) ih.started
      · rw [if_neg hp]
        exact ih.other rfl hp
    | onDeferredValueUpdate access val =>
      exact ih.skip rfl (ByteState.isNA_record ..) (ByteState.naWrite_record ..)
    | clear => exact absurd (List.mem_append_right _ (List.mem_singleton.2 rfl)) hclear
    | _ => exact ih.skip rfl rfl rfl

/-- `updateDeferredValue` takes the value for an initial one if nothing was stored. -/
theorem empty_iff (hrun : State.init.run calls = some s) (hclear : Call.clear ∉ calls)
    (hstart : StoresAfterStart calls) (access : AAccess) :
    ((s.getMaxAWriteView access).isEmpty && (s.getMaxNAWriteEvent access).isEmpty) = true ↔
      ∀ p, access.At p → ¬ Covered calls p := by
  have hexplains := explains_history hclear hstart
  have h := refines_run hrun
  have hrecords : ∀ r ∈ calls.filterMap Call.atomicWrite, 0 < r.pos.index := by
    intro r hr
    obtain ⟨c, hc, hr⟩ := List.mem_filterMap.1 hr
    cases c with
    | onATStore =>
      cases hr
      exact hstart _ hc _ _ rfl
    | _ => cases hr
  have hatomic : (s.getMaxAWriteView access).isEmpty = true ↔
      ∀ p, access.At p → ¬ ∃ r ∈ calls.filterMap Call.atomicWrite, r.access.At p := by
    rw [State.getMaxAWriteView, (maps_run hrun hclear).2]
    exact isEmpty_getMaxView_iff (id_recordAll _) (fun p => (latest_recordAll hrecords p).seen)
      (fun p => (latest_recordAll hrecords p).empty) access
  have hna : (s.getMaxNAWriteEvent access).isEmpty = true ↔
      ∀ p, access.At p → ¬ (history calls p).naWrite.isSome = true := by
    rw [State.getMaxNAWriteEvent, AdaptiveView.isEmpty, List.all_eq_true]
    refine ⟨fun hall p hp hsome => ?_, fun hnone e he => ?_⟩
    · obtain ⟨e, he⟩ := Option.isSome_iff_exists.1 hsome
      have hinit := hall e ((h.mem_getMaxNAWriteEvent access e).2 ⟨p, hp, he⟩)
      have hpos := (hexplains p).started e he
      rw [Event.isInitializer_iff.1 hinit] at hpos
      exact absurd hpos (lt_irrefl _)
    · obtain ⟨p, hp, he⟩ := (h.mem_getMaxNAWriteEvent access e).1 he
      exact absurd (by rw [he]; rfl) (hnone p hp)
  rw [Bool.and_eq_true, hatomic, hna]
  refine ⟨?_, ?_⟩
  · rintro ⟨hatomic, hna⟩ p hp hcovered
    exact ((hexplains p).kinds.1 hcovered).elim (hna p hp) (hatomic p hp)
  · exact fun hall => ⟨fun p hp hr => hall p hp ((hexplains p).kinds.2 (.inr hr)),
      fun p hp hw => hall p hp ((hexplains p).kinds.2 (.inl hw))⟩

end Stored

/-! ## When the value is recorded -/

/-- The bytes of a value are recorded for the bytes of the access whose last write was not atomic,
and no others. -/
structure Updated (calls : List Call) (access : AAccess) (val : SVal) (s s' : State) : Prop where
  written : ∀ i < access.size.val, (history calls (access.byte i).addr).isNA = some true →
    (s'.lastNAWriteVal.valueAt (access.byte i).addr == some (val.byte i)) = true
  kept : ∀ p, ¬ (access.Reaches p ∧ (history calls p).isNA = some true) →
    (s'.lastNAWriteVal.valueAt p == s.lastNAWriteVal.valueAt p) = true

section Updates

variable {calls : List Call} {g : GraphState} {access : AAccess}

/-- `onDeferredValueUpdate` needs a write to every byte of the access. -/
theorem isSome_onDeferredValueUpdate_iff (hrun : State.init.run calls = some g.state)
    (hclear : Call.clear ∉ calls) (hstart : StoresAfterStart calls) (access : AAccess)
    (val : SVal) : (g.state.onDeferredValueUpdate access val).isSome = true ↔
      ∀ i < access.size.val, Covered calls (access.byte i).addr := by
  have h := refines_run hrun
  have hloop : (g.state.onDeferredValueUpdate access val).isSome =
      ((List.range access.size).foldlM (State.updateByte g.state.lastIsNA access val)
        g.state.lastNAWriteVal).isSome := by
    rw [State.onDeferredValueUpdate]
    cases (List.range access.size).foldlM (State.updateByte g.state.lastIsNA access val)
      g.state.lastNAWriteVal <;> rfl
  rw [hloop, isSome_recordBytes h.reachableIsNA.id_eq]
  exact forall₂_congr fun i _ => by rw [h.isNA, (explains_history hclear hstart _).covered]

/-- **When a value that is known late is recorded**: if nothing was stored to the access, or every
byte of it. -/
theorem updateDeferredValue_iff (hrun : State.init.run calls = some g.state)
    (hclear : Call.clear ∉ calls) (hstart : StoresAfterStart calls) (hfits : access.Fits)
    (val : SVal) : (∃ g', g.updateDeferredValue access val = some g' ∧
      Updated calls access val g.state g'.state) ↔
      (∀ i < access.size.val, ¬ Covered calls (access.byte i).addr) ∨
        ∀ i < access.size.val, Covered calls (access.byte i).addr := by
  have h := refines_run hrun
  have hexplains := explains_history hclear hstart
  have hempty := empty_iff hrun hclear hstart access
  rw [AAccess.forall_at_iff hfits] at hempty
  rw [GraphState.updateDeferredValue]
  by_cases hnone : ∀ i < access.size.val, ¬ Covered calls (access.byte i).addr
  · rw [if_pos (hempty.2 hnone), GraphState.setInitVal_eq]
    refine iff_of_true ⟨_, rfl, fun i hi hna => absurd ?_ (hnone i hi), fun p _ => BEq.rfl⟩
      (.inl hnone)
    rw [(hexplains _).covered, hna]
    rfl
  · rw [if_neg (mt hempty.1 hnone), or_iff_right hnone,
      ← isSome_onDeferredValueUpdate_iff hrun hclear hstart access val, Option.isSome_iff_exists]
    refine ⟨?_, ?_⟩
    · rintro ⟨g', hg', -⟩
      obtain ⟨s', hs', -⟩ := Option.map_eq_some_iff.1 hg'
      exact ⟨s', hs'⟩
    · rintro ⟨s', hs'⟩
      refine ⟨_, Option.map_eq_some_iff.2 ⟨s', hs', rfl⟩, ?_⟩
      obtain ⟨m, hm, rfl⟩ := State.onDeferredValueUpdate_eq hs'
      have hvalue := (valueAt_recordBytes h.reachableIsNA.id_eq h.reachableVal
        access.size.isLt.le hm).2
      refine ⟨fun i hi hna => ?_, fun p hp => ?_⟩
      · have hoffset : ((access.byte i).addr - access.addr).val = i :=
          (AAccess.eq_byte_iff (hi.trans access.size.isLt)).1 rfl
        have hrecorded : Recorded g.state.lastIsNA access access.size (access.byte i).addr :=
          ⟨hoffset.trans_lt hi, AAccess.byte_ne_last hfits hi, (h.isNA _).trans hna⟩
        have hv := hvalue (access.byte i).addr
        rw [if_pos hrecorded, hoffset] at hv
        exact hv
      · have hv := hvalue p
        rw [if_neg fun hr => hp ⟨hr.1, (h.isNA p).symm.trans hr.2.2⟩] at hv
        exact hv

/-- The graph after a store to the first half of eight bytes. -/
theorem halfStored_updateDeferredValue : ∃ g : GraphState,
    State.init.run halfStored = some g.state ∧
      ((∃ g', g.updateDeferredValue ⟨16, 4⟩ ⟨5, 0⟩ = some g' ∧
        Updated halfStored ⟨16, 4⟩ ⟨5, 0⟩ g.state g'.state) ↔
        (∀ i < 4, ¬ Covered halfStored (AAccess.byte ⟨16, 4⟩ i).addr) ∨
          ∀ i < 4, Covered halfStored (AAccess.byte ⟨16, 4⟩ i).addr) :=
  ⟨⟨_, fun _ => none⟩, rfl, updateDeferredValue_iff rfl (by simp [halfStored])
    halfStored_afterStart (by decide) ⟨5, 0⟩⟩

/-- The update for all of the eight bytes fails. -/
theorem halfStored_not_updated : ¬ ∀ (calls : List Call) (g : GraphState) (access : AAccess)
    (val : SVal), (∀ c ∈ calls, c.store.isSome) → StoresAfterStart calls →
      State.init.run calls = some g.state → access.Fits →
        ∃ g', g.updateDeferredValue access val = some g' ∧
          Updated calls access val g.state g'.state := by
  intro hall
  obtain ⟨s, hs⟩ : ∃ s, State.init.run halfStored = some s := ⟨_, rfl⟩
  obtain ⟨g', hg', -⟩ := hall halfStored ⟨s, fun _ => none⟩ ⟨16, 8⟩ ⟨5, 0⟩
    (by simp [halfStored, Call.store]) halfStored_afterStart hs (by decide)
  have hfails : (GraphState.updateDeferredValue ⟨s, fun _ => none⟩ ⟨16, 8⟩ ⟨5, 0⟩).isSome =
      false := by
    obtain rfl := Option.some.inj hs
    decide
  rw [hg'] at hfails
  cases hfails

end Updates

end ExecutionState
end GenMC
