import GenMC.Execution.ExecutionState

/-!
# The history of a byte

The state of an execution records the writes to memory in maps from intervals.  What is recorded for
one byte does not need them: a call either writes the byte or does not.

* `ByteState`, `history`: what is known about a byte, and what is known after some calls.
* `refines_run`: **the maps say of every byte what its history does.**  The recorded values are only
  compared as words, since a map does not keep two neighbours apart that differ in their provenance.
-/

set_option autoImplicit false

namespace GenMC
namespace ExecutionState

/-! ## The bytes of an access -/

/-- The bytes of the access do not wrap around. -/
def AAccess.Fits (access : AAccess) : Prop := access.addr.val + access.size.val < 2 ^ 64

instance (access : AAccess) : Decidable access.Fits := inferInstanceAs (Decidable (_ < _))

/-- The loops over the bytes of the access get to the address. -/
def AAccess.Reaches (access : AAccess) (p : SAddr) : Prop :=
  (p - access.addr).val < access.size.val

instance (access : AAccess) (p : SAddr) : Decidable (access.Reaches p) :=
  inferInstanceAs (Decidable (_ < _))

namespace AAccess

variable {access : AAccess} {p : SAddr}

/-- An access of at most eight bytes to dynamic memory does not wrap around. -/
theorem fits_of_isDynamic (hd : isDynamic access.addr = true) (hsize : access.size.val ≤ 8) :
    access.Fits := by
  have hbit : (toStorage access.addr).isStatic = false := by
    rw [← Bool.not_eq_true']
    exact hd
  rw [Storage.SAddr.isStatic, Storage.SAddr.staticMask, Storage.SAddr.and_bit_ne_zero _ (by decide),
    decide_eq_false_iff_not] at hbit
  have haddr : (toStorage access.addr).addr.toNat = access.addr.val := rfl
  have hlt := access.addr.isLt
  rw [Fits]
  omega

theorem eq_byte_iff {n : ℕ} (hn : n < 2 ^ 64) :
    p = (access.byte n).addr ↔ (p - access.addr).val = n := by
  obtain ⟨p, hp⟩ := p
  obtain ⟨⟨a, ha⟩, size⟩ := access
  simp only [byte, Fin.ext_iff, Fin.val_add, Fin.val_sub, Fin.val_ofNat]
  omega

theorem at_byte (access : AAccess) (n : ℕ) :
    (access.byte n).At p ↔ p = (access.byte n).addr ∧ p ≠ Fin.last _ := by
  rw [At, makeInterval, show (access.byte n).size = 1 from rfl]
  generalize (access.byte n).addr = a
  obtain ⟨p, hp⟩ := p
  obtain ⟨a, ha⟩ := a
  simp only [Fin.ext_iff, Fin.le_def, Fin.lt_def, Fin.val_add, Fin.val_last, ne_eq, Fin.val_one]
  omega

theorem at_iff_reaches (h : access.Fits) : access.At p ↔ access.Reaches p := by
  obtain ⟨p, hp⟩ := p
  obtain ⟨⟨a, ha⟩, ⟨n, hn⟩⟩ := access
  simp only [Fits] at h
  simp only [At, makeInterval, Reaches, Fin.le_def, Fin.lt_def, Fin.val_add, Fin.val_sub]
  omega

/-- The bytes of an access, one by one. -/
theorem forall_at_iff (h : access.Fits) {P : SAddr → Prop} :
    (∀ p, access.At p → P p) ↔ ∀ i < access.size.val, P (access.byte i).addr := by
  refine ⟨fun hall i hi => hall _ ?_, fun hall p hp => ?_⟩
  · rw [at_iff_reaches h, Reaches, (eq_byte_iff (hi.trans access.size.isLt)).1 rfl]
    exact hi
  · rw [at_iff_reaches h] at hp
    have hp' : p = (access.byte (p - access.addr).val).addr :=
      (eq_byte_iff (p - access.addr).isLt).2 rfl
    rw [hp']
    exact hall _ hp

theorem byte_ne_last (h : access.Fits) {i : ℕ} (hi : i < access.size.val) :
    (access.byte i).addr ≠ Fin.last _ := by
  obtain ⟨⟨a, ha⟩, ⟨n, hn⟩⟩ := access
  simp only [Fits] at h
  simp only [byte, ne_eq, Fin.ext_iff, Fin.val_add, Fin.val_ofNat, Fin.val_last]
  dsimp only at hi
  omega

theorem byte_byte (access : AAccess) (i : ℕ) :
    ((access.byte i).byte 0).addr = (access.byte i).addr := add_zero _

end AAccess

/-- The byte of a value that is stored at an offset. -/
def SVal.byte (v : SVal) (i : ℕ) : SVal :=
  (v >>> SVal.ofWord (UInt64.ofNat (i * 8))) &&& SVal.ofWord 0xFF

/-! ## Histories -/

/-- What is known about the writes to a byte. -/
structure ByteState where
  /-- The last write that was not atomic. -/
  naWrite : Option Event
  /-- Whether the last write was not atomic. -/
  isNA : Option Bool
  /-- The recorded value of writes that were not atomic. -/
  naVal : Option SVal
deriving DecidableEq

namespace ByteState

def init : ByteState := ⟨none, none, none⟩

/-- The value of an access is recorded, but not over an atomic write.  There is no interval of the
last address alone. -/
def record (p : SAddr) (access : AAccess) (val : SVal) (b : ByteState) : ByteState :=
  if access.Reaches p ∧ p ≠ Fin.last _ ∧ b.isNA = some true then
    { b with naVal := some (val.byte (p - access.addr).val) }
  else b

@[simp] theorem naWrite_record (p : SAddr) (access : AAccess) (val : SVal) (b : ByteState) :
    (b.record p access val).naWrite = b.naWrite := by
  rw [record]
  split <;> rfl

@[simp] theorem isNA_record (p : SAddr) (access : AAccess) (val : SVal) (b : ByteState) :
    (b.record p access val).isNA = b.isNA := by
  rw [record]
  split <;> rfl

theorem naVal_record (p : SAddr) (access : AAccess) (val : SVal) (b : ByteState) :
    (b.record p access val).naVal =
      if access.Reaches p ∧ p ≠ Fin.last _ ∧ b.isNA = some true then
        some (val.byte (p - access.addr).val)
      else b.naVal := by
  rw [record]
  split <;> rfl

/-- A write that is not atomic. -/
def writeNA (p : SAddr) (pos : Event) (access : AAccess) (b : ByteState) : ByteState :=
  if access.At p then { b with naWrite := some pos, isNA := some true } else b

theorem writeNA_eq (p : SAddr) (pos : Event) (access : AAccess) (b : ByteState) :
    b.writeNA p pos access =
      ⟨if access.At p then some pos else b.naWrite, if access.At p then some true else b.isNA,
        b.naVal⟩ := by
  rw [writeNA]
  split <;> rfl

/-- What a call does to the byte at `p`. -/
def step (p : SAddr) (b : ByteState) : Call → ByteState
  | .onNAStore pos access _ (some val) => (b.writeNA p pos access).record p access val
  | .onNAStore pos access _ none => b.writeNA p pos access
  | .onATStore _ access _ _ _ => if access.At p then { b with isNA := some false } else b
  | .onDeferredValueUpdate access val => b.record p access val
  | .clear => init
  | _ => b

end ByteState

/-- What is known about the byte at `p` after some calls. -/
def history (calls : List Call) (p : SAddr) : ByteState := calls.foldl (ByteState.step p) .init

theorem history_concat (calls : List Call) (c : Call) (p : SAddr) :
    history (calls ++ [c]) p = (history calls p).step p c := by
  rw [history, List.foldl_append]
  rfl

/-! ## The maps -/

section Overwrite

variable {T : Type} [BEq T]

/-- What is found at an address is its value. -/
theorem bind_find [ReflBEq (Option T)] {m : IntervalMap SAddr (NonRevertibleOptional T)}
    (hid : m.id = none) (p : SAddr) : (m.find p).bind (·.2) = m.valueAt p := by
  have h := m.map_find p
  rw [hid] at h
  cases hfind : m.find p with
  | none =>
    rw [hfind] at h
    cases hval : m.valueAt p with
    | none => rfl
    | some x =>
      rw [hval, if_neg (by exact Bool.false_ne_true)] at h
      cases h
  | some seg =>
    rw [hfind] at h
    split at h
    · cases h
    · exact Option.some.inj h

theorem reachable_overwrite [EquivBEq (Option T)]
    {m : IntervalMap SAddr (NonRevertibleOptional T)} (h : IntervalMap.Reachable none m)
    (iv : SAddr × SAddr) (x : NonRevertibleOptional T) :
    IntervalMap.Reachable none (overwrite m iv x) := h.add _ _ _ _

theorem valueAt_overwrite_beq [EquivBEq (Option T)]
    {m : IntervalMap SAddr (NonRevertibleOptional T)} (hid : m.id = none) (access : AAccess) (x : T)
    (p : SAddr) : ((overwrite m (makeInterval access) (some x)).valueAt p ==
      if access.At p then some x else m.valueAt p) = true :=
  IntervalMap.valueAt_add_beq (by rw [hid]; rfl) (fun _ _ _ => BEq.rfl) p

theorem valueAt_overwrite [LawfulBEq T] {m : IntervalMap SAddr (NonRevertibleOptional T)}
    (hid : m.id = none) (access : AAccess) (x : T) (p : SAddr) :
    (overwrite m (makeInterval access) (some x)).valueAt p =
      if access.At p then some x else m.valueAt p :=
  IntervalMap.valueAt_add_eq (by rw [hid]; rfl) _ p

end Overwrite

section Record

variable {isNA : IntervalMap SAddr (NonRevertibleOptional Bool)}
  {m m' : IntervalMap SAddr (NonRevertibleOptional SVal)} {access : AAccess} {val : SVal}

/-- The part of an access that is not atomic, among its first bytes. -/
def Recorded (isNA : IntervalMap SAddr (NonRevertibleOptional Bool)) (access : AAccess) (n : ℕ)
    (p : SAddr) : Prop :=
  (p - access.addr).val < n ∧ p ≠ Fin.last _ ∧ isNA.valueAt p = some true

instance (access : AAccess) (n : ℕ) (p : SAddr) : Decidable (Recorded isNA access n p) :=
  inferInstanceAs (Decidable (_ ∧ _))

/-- One byte of `onDeferredValueUpdate`. -/
theorem updateByte_eq (hid : isNA.id = none) (i : ℕ) :
    State.updateByte isNA access val m i = (isNA.valueAt (access.byte i).addr).map fun b =>
      if b then overwrite m (makeInterval (access.byte i)) (some (val.byte i)) else m := by
  rw [State.updateByte, bind_find hid]
  cases isNA.valueAt (access.byte i).addr with
  | none => rfl
  | some b => cases b <;> rfl

theorem foldlM_range_succ {α : Type*} (f : α → ℕ → Option α) (x : α) (n : ℕ) :
    (List.range (n + 1)).foldlM f x = ((List.range n).foldlM f x).bind (f · n) := by
  rw [List.range_succ, List.foldlM_append]
  refine congrArg (((List.range n).foldlM f x).bind ·) (funext fun y => ?_)
  rw [List.foldlM_cons]
  cases f y n <;> rfl

/-- `onDeferredValueUpdate` fails if a byte was not written to. -/
theorem isSome_recordBytes (hid : isNA.id = none) (n : ℕ) :
    ((List.range n).foldlM (State.updateByte isNA access val) m).isSome = true ↔
      ∀ i < n, (isNA.valueAt (access.byte i).addr).isSome = true := by
  induction n with
  | zero => exact iff_of_true rfl fun i hi => absurd hi (Nat.not_lt_zero i)
  | succ n ih =>
    rw [foldlM_range_succ, Nat.forall_lt_succ_right, ← ih]
    cases (List.range n).foldlM (State.updateByte isNA access val) m with
    | none => exact iff_of_false Bool.false_ne_true fun h => Bool.false_ne_true h.1
    | some m₁ =>
      rw [Option.bind_some, updateByte_eq hid, Option.isSome_map]
      exact (and_iff_right rfl).symm

/-- **What the loop of `onDeferredValueUpdate` does to the recorded values.** -/
theorem valueAt_recordBytes (hid : isNA.id = none) (hm : IntervalMap.Reachable none m) {n : ℕ}
    (hn : n ≤ 2 ^ 64)
    (h : (List.range n).foldlM (State.updateByte isNA access val) m = some m') :
    IntervalMap.Reachable none m' ∧ ∀ p, (m'.valueAt p ==
      if Recorded isNA access n p then some (val.byte (p - access.addr).val)
      else m.valueAt p) = true := by
  induction n generalizing m' with
  | zero =>
    obtain rfl := Option.some.inj h
    exact ⟨hm, fun p => by rw [if_neg fun hp => Nat.not_lt_zero _ hp.1]; exact BEq.rfl⟩
  | succ n ih =>
    rw [foldlM_range_succ] at h
    obtain ⟨m₁, h₁, h⟩ := Option.bind_eq_some_iff.1 h
    obtain ⟨hreach, hval⟩ := ih (by omega) h₁
    rw [updateByte_eq hid] at h
    obtain ⟨b, hb, rfl⟩ := Option.map_eq_some_iff.1 h
    have hlast (p : SAddr) : Recorded isNA access (n + 1) p ↔
        ((access.byte n).At p ∧ b = true) ∨ Recorded isNA access n p := by
      rw [AAccess.at_byte, AAccess.eq_byte_iff (by omega)]
      refine ⟨fun ⟨hp, htop, hna⟩ => ?_, ?_⟩
      · rcases Nat.lt_succ_iff_lt_or_eq.1 hp with hp | hp
        · exact .inr ⟨hp, htop, hna⟩
        · rw [← (AAccess.eq_byte_iff (by omega)).2 hp, hna] at hb
          exact .inl ⟨⟨hp, htop⟩, (Option.some.inj hb).symm⟩
      · rintro (⟨⟨hp, htop⟩, rfl⟩ | ⟨hp, htop, hna⟩)
        · exact ⟨hp.trans_lt (Nat.lt_succ_self n), htop,
            (AAccess.eq_byte_iff (by omega)).2 hp ▸ hb⟩
        · exact ⟨Nat.lt_succ_of_lt hp, htop, hna⟩
    cases b with
    | false =>
      refine ⟨hreach, fun p => ?_⟩
      simpa only [hlast p, Bool.false_eq_true, and_false, false_or, if_false] using hval p
    | true =>
      refine ⟨reachable_overwrite hreach _ _, fun p => ?_⟩
      refine BEq.trans (valueAt_overwrite_beq hreach.id_eq (access.byte n) (val.byte n) p) ?_
      by_cases hp : (access.byte n).At p
      · have hp' := ((AAccess.at_byte access n).1 hp).1
        rw [if_pos hp, if_pos ((hlast p).2 (.inl ⟨hp, rfl⟩)),
          (AAccess.eq_byte_iff (by omega)).1 hp']
        exact BEq.rfl
      · rw [if_neg hp]
        simpa only [hlast p, hp, false_and, false_or] using hval p

end Record

/-! ## The refinement -/

/-- The maps of a state say what is known about every byte. -/
structure Refines (calls : List Call) (s : State) : Prop where
  reachableIsNA : IntervalMap.Reachable none s.lastIsNA
  reachableEvent : IntervalMap.Reachable none s.lastNAWriteEvent
  reachableVal : IntervalMap.Reachable none s.lastNAWriteVal
  isNA : ∀ p, s.lastIsNA.valueAt p = (history calls p).isNA
  naWrite : ∀ p, s.lastNAWriteEvent.valueAt p = (history calls p).naWrite
  naVal : ∀ p, (s.lastNAWriteVal.valueAt p == (history calls p).naVal) = true

/-- The values that a loop of `onDeferredValueUpdate` records are those of the history. -/
theorem naVal_recordBytes {isNA : IntervalMap SAddr (NonRevertibleOptional Bool)}
    (hid : isNA.id = none) {m m' : IntervalMap SAddr (NonRevertibleOptional SVal)}
    (hm : IntervalMap.Reachable none m) {access : AAccess} {val : SVal}
    (h : (List.range access.size).foldlM (State.updateByte isNA access val) m = some m')
    {p : SAddr} {b : ByteState} (hisNA : isNA.valueAt p = b.isNA)
    (hval : (m.valueAt p == b.naVal) = true) :
    (m'.valueAt p == (b.record p access val).naVal) = true := by
  refine BEq.trans ((valueAt_recordBytes hid hm access.size.isLt.le h).2 p) ?_
  rw [ByteState.naVal_record, ← hisNA]
  by_cases hp : access.Reaches p ∧ p ≠ Fin.last _ ∧ isNA.valueAt p = some true
  · rw [if_pos hp, if_pos (c := Recorded _ _ _ _) hp]
    exact BEq.rfl
  · rw [if_neg hp, if_neg (c := Recorded _ _ _ _) hp]
    exact hval

namespace Call

/-- The kinds of the last writes after a call. -/
theorem valueAt_onLastIsNA {m : IntervalMap SAddr (NonRevertibleOptional Bool)}
    (hm : IntervalMap.Reachable none m) (c : Call) :
    IntervalMap.Reachable none (c.onLastIsNA m) ∧ ∀ {p : SAddr} {b : ByteState},
      m.valueAt p = b.isNA → (c.onLastIsNA m).valueAt p = (b.step p c).isNA := by
  cases c with
  | onNAStore pos access view val =>
    refine ⟨reachable_overwrite hm _ _, fun {p b} h => ?_⟩
    have hwrite : (b.writeNA p pos access).isNA = if access.At p then some true else b.isNA := by
      rw [ByteState.writeNA_eq]
    rw [onLastIsNA, valueAt_overwrite hm.id_eq, h, ← hwrite]
    cases val with
    | none => rfl
    | some val => exact (ByteState.isNA_record ..).symm
  | onATStore pos access view isEffectful isRelease =>
    refine ⟨reachable_overwrite hm _ _, fun {p b} h => ?_⟩
    rw [onLastIsNA, valueAt_overwrite hm.id_eq, h, ByteState.step]
    split <;> rfl
  | onDeferredValueUpdate access val =>
    exact ⟨hm, fun h => h.trans (ByteState.isNA_record ..).symm⟩
  | clear => exact ⟨.empty, fun _ => rfl⟩
  | _ => exact ⟨hm, fun h => h⟩

/-- The last writes that are not atomic after a call. -/
theorem valueAt_onLastNAWriteEvent {m : IntervalMap SAddr (NonRevertibleOptional Event)}
    (hm : IntervalMap.Reachable none m) (c : Call) :
    IntervalMap.Reachable none (c.onLastNAWriteEvent m) ∧ ∀ {p : SAddr} {b : ByteState},
      m.valueAt p = b.naWrite → (c.onLastNAWriteEvent m).valueAt p = (b.step p c).naWrite := by
  cases c with
  | onNAStore pos access view val =>
    refine ⟨reachable_overwrite hm _ _, fun {p b} h => ?_⟩
    have hwrite : (b.writeNA p pos access).naWrite =
        if access.At p then some pos else b.naWrite := by
      rw [ByteState.writeNA_eq]
    rw [onLastNAWriteEvent, valueAt_overwrite hm.id_eq, h, ← hwrite]
    cases val with
    | none => rfl
    | some val => exact (ByteState.naWrite_record ..).symm
  | onATStore pos access view isEffectful isRelease =>
    refine ⟨hm, fun {p b} h => h.trans ?_⟩
    rw [ByteState.step]
    split <;> rfl
  | onDeferredValueUpdate access val =>
    exact ⟨hm, fun h => h.trans (ByteState.naWrite_record ..).symm⟩
  | clear => exact ⟨.empty, fun _ => rfl⟩
  | _ => exact ⟨hm, fun h => h⟩

/-- The recorded values after a call, which has already changed the kinds of the last writes. -/
theorem valueAt_onLastNAWriteVal {isNA : IntervalMap SAddr (NonRevertibleOptional Bool)}
    (hid : isNA.id = none) {m m' : IntervalMap SAddr (NonRevertibleOptional SVal)}
    (hm : IntervalMap.Reachable none m) {c : Call} (h : c.onLastNAWriteVal isNA m = some m') :
    IntervalMap.Reachable none m' ∧ ∀ {p : SAddr} {b : ByteState},
      isNA.valueAt p = (b.step p c).isNA → (m.valueAt p == b.naVal) = true →
        (m'.valueAt p == (b.step p c).naVal) = true := by
  cases c with
  | onNAStore pos access view val =>
    have hwrite (p : SAddr) (b : ByteState) : (b.writeNA p pos access).naVal = b.naVal := by
      rw [ByteState.writeNA_eq]
    cases val with
    | none =>
      obtain rfl := Option.some.inj h
      refine ⟨hm, fun {p b} _ hval => ?_⟩
      rw [ByteState.step, hwrite]
      exact hval
    | some val =>
      refine ⟨(valueAt_recordBytes hid hm access.size.isLt.le h).1, fun {p b} hisNA hval => ?_⟩
      rw [ByteState.step, ByteState.isNA_record] at hisNA
      rw [← hwrite p b] at hval
      exact naVal_recordBytes hid hm h hisNA hval
  | onATStore pos access view isEffectful isRelease =>
    obtain rfl := Option.some.inj h
    refine ⟨hm, fun {p b} _ hval => ?_⟩
    rw [ByteState.step]
    split
    · exact hval
    · exact hval
  | onDeferredValueUpdate access val =>
    refine ⟨(valueAt_recordBytes hid hm access.size.isLt.le h).1, fun {p b} hisNA hval => ?_⟩
    rw [ByteState.step, ByteState.isNA_record] at hisNA
    exact naVal_recordBytes hid hm h hisNA hval
  | clear =>
    obtain rfl := Option.some.inj h
    exact ⟨.empty, fun _ _ => BEq.rfl⟩
  | _ =>
    obtain rfl := Option.some.inj h
    exact ⟨hm, fun _ hval => hval⟩

end Call

/-- A call does to the maps what it does to every byte. -/
theorem Refines.exec {calls : List Call} {s s' : State} {c : Call} (h : Refines calls s)
    (hexec : s.exec c = some s') : Refines (calls ++ [c]) s' := by
  obtain ⟨-, hna, hev, hval, -, -⟩ := State.exec_effect hexec
  obtain ⟨hreachNA, hisNA⟩ := Call.valueAt_onLastIsNA h.reachableIsNA c
  obtain ⟨hreachEv, hnaWrite⟩ := Call.valueAt_onLastNAWriteEvent h.reachableEvent c
  rw [← hna] at hreachNA hisNA
  rw [← hev] at hreachEv hnaWrite
  obtain ⟨hreachVal, hnaVal⟩ := Call.valueAt_onLastNAWriteVal hreachNA.id_eq h.reachableVal hval
  refine ⟨hreachNA, hreachEv, hreachVal, fun p => ?_, fun p => ?_, fun p => ?_⟩
  · rw [history_concat]
    exact hisNA (h.isNA p)
  · rw [history_concat]
    exact hnaWrite (h.naWrite p)
  · rw [history_concat]
    exact hnaVal (hisNA (h.isNA p)) (h.naVal p)

/-- **The maps say of every byte what its history does.** -/
theorem refines_run {calls : List Call} {s : State} (hrun : State.init.run calls = some s) :
    Refines calls s :=
  State.run_invariant (P := Refines)
    ⟨.empty, .empty, .empty, fun _ => rfl, fun _ => rfl, fun _ => BEq.rfl⟩ Refines.exec hrun

/-- The last writes that were not atomic to the bytes of an access. -/
theorem Refines.mem_getMaxNAWriteEvent {calls : List Call} {s : State} (h : Refines calls s)
    (access : AAccess) (e : Event) :
    e ∈ (s.lastNAWriteEvent.entriesIn (makeInterval access).1 (makeInterval access).2).filterMap
        (·.value) ↔ ∃ p, access.At p ∧ (history calls p).naWrite = some e := by
  rw [List.mem_filterMap, ← List.mem_map, IntervalMap.mem_map_value_entriesIn,
    h.reachableEvent.id_eq]
  simp only [← h.naWrite]
  exact ⟨fun ⟨_, p, hp, hps, hval⟩ => ⟨p, ⟨hp, hps⟩, hval⟩,
    fun ⟨p, hp, hval⟩ => ⟨rfl, p, hp.1, hp.2, hval⟩⟩

end ExecutionState
end GenMC
