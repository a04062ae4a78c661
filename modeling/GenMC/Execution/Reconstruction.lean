import GenMC.Execution.ByteHistory
import GenMC.Library.WordBytes

/-!
# Values of memory that mixes accesses

The value of an atomic write is not the value of memory if bytes of it were overwritten by writes
that are not atomic.  `reconstructMemValue` puts those bytes into the value, unless they are known
to be older.

* `foldlM_overwriteByte_eq_some_iff`: what the loop over the bytes computes.
* `reconstructMemValue_exact`: **every byte is the one of the last write**, also where the loop is
  skipped.
* `genuine_iff`: **when the provenance of a value is the one of all its bytes.**  The loop only asks
  the overwritten bytes, and two neighbours that are equal as words are recorded with one
  provenance.
-/

set_option autoImplicit false

namespace GenMC
namespace ExecutionState

open WordBytes

/-! ## The last writes -/

/-- A view has the last write to a byte that was not atomic, if there was one. -/
def ByteState.Known (V : CowView) (b : ByteState) : Prop := ∀ e ∈ b.naWrite, V.contains e = true

instance (V : CowView) (b : ByteState) : Decidable (b.Known V) :=
  inferInstanceAs (Decidable (∀ e ∈ b.naWrite, _))

section Refinement

variable {calls : List Call} {s : State}

theorem containedIn_getMaxNAWriteEvent (h : Refines calls s) (access : AAccess) (V : CowView) :
    (s.getMaxNAWriteEvent access).containedIn V = true ↔
      ∀ p, access.At p → (history calls p).Known V := by
  rw [State.getMaxNAWriteEvent, AdaptiveView.containedIn, List.all_eq_true]
  refine ⟨?_, fun hall e he => ?_⟩
  · exact fun hall p hp e he => hall e ((h.mem_getMaxNAWriteEvent access e).2 ⟨p, hp, he⟩)
  · obtain ⟨p, hp, he⟩ := (h.mem_getMaxNAWriteEvent access e).1 he
    exact hall p hp e he

/-- The value that is recorded for one byte. -/
theorem getNAWriteValue_byte (hid : s.lastNAWriteVal.id = none) (access : AAccess) (i : ℕ) :
    s.getNAWriteValue (access.byte i) = (s.lastNAWriteVal.valueAt (access.byte i).addr).map
      fun v => ⟨byteAt v.value 0, v.provenance⟩ := by
  have hrange : List.range ((access.byte i).size : ℕ) = [0] := rfl
  rw [State.getNAWriteValue, hrange]
  rw [List.mapM_cons, State.getNAByte, bind_find hid, AAccess.byte_byte]
  cases s.lastNAWriteVal.valueAt (access.byte i).addr with
  | none => rfl
  | some v => simp [SVal.get, byteAt, SVal.commonProvenance]

end Refinement

/-! ## The loop over the bytes -/

/-- The recorded value that a byte of an access is overwritten with. -/
def State.overwriting (s : State) (access : AAccess) (V : CowView) (i : ℕ) : Option SVal :=
  if (s.getMaxNAWriteEvent (access.byte i)).containedIn V then none
  else s.lastNAWriteVal.valueAt (access.byte i).addr

section Loop

variable {s : State}

/-- The bytes that are overwritten have a recorded value. -/
def State.Recovers (s : State) (access : AAccess) (V : CowView) (n : ℕ) : Prop :=
  ∀ i < n, (s.getMaxNAWriteEvent (access.byte i)).containedIn V = false →
    (s.lastNAWriteVal.valueAt (access.byte i).addr).isSome = true

/-- The value after the first bytes, and the provenances of those that were overwritten. -/
def State.mergeBytes (s : State) (access : AAccess) (V : CowView) (a : SVal) (n : ℕ) :
    SVal × List SVal64 :=
  (⟨merge a.value (fun i => (s.overwriting access V i).map fun v => byteAt v.value 0) n,
      a.provenance⟩,
    (List.range n).filterMap fun i => (s.overwriting access V i).map (·.provenance))

/-- One byte of the loop. -/
theorem overwriteByte_mergeBytes (hid : s.lastNAWriteVal.id = none) (access : AAccess) (V : CowView)
    (a : SVal) (n : ℕ) {acc : SVal × List SVal64} :
    s.overwriteByte access V (s.mergeBytes access V a n) n = some acc ↔
      ((s.getMaxNAWriteEvent (access.byte n)).containedIn V = false →
        (s.lastNAWriteVal.valueAt (access.byte n).addr).isSome = true) ∧
      acc = s.mergeBytes access V a (n + 1) := by
  have hsucc : s.mergeBytes access V a (n + 1) =
      (s.overwriting access V n).elim (s.mergeBytes access V a n) fun v =>
        (⟨setByte (s.mergeBytes access V a n).1.value n (byteAt v.value 0), a.provenance⟩,
          (s.mergeBytes access V a n).2 ++ [v.provenance]) := by
    rw [State.mergeBytes, List.range_succ, List.filterMap_append, merge]
    cases h : s.overwriting access V n with
    | none => simp [h, State.mergeBytes]
    | some v => simp [h, State.mergeBytes]
  rw [State.overwriteByte, getNAWriteValue_byte hid, hsucc, State.overwriting]
  cases (s.getMaxNAWriteEvent (access.byte n)).containedIn V with
  | true =>
    rw [if_pos rfl, if_pos rfl, Option.some_inj, eq_comm]
    exact (and_iff_right fun h => absurd h.symm Bool.false_ne_true).symm
  | false =>
    rw [if_neg Bool.false_ne_true, if_neg Bool.false_ne_true]
    cases s.lastNAWriteVal.valueAt (access.byte n).addr with
    | none =>
      exact iff_of_false (Option.some_ne_none acc).symm fun h => Bool.false_ne_true (h.1 rfl)
    | some v =>
      refine Iff.trans ?_ (and_iff_right fun _ => rfl).symm
      exact Option.some_inj.trans eq_comm

/-- **What the loop of `reconstructMemValue` computes.** -/
theorem foldlM_overwriteByte_eq_some_iff (hid : s.lastNAWriteVal.id = none) (access : AAccess)
    (V : CowView) (a : SVal) (n : ℕ) {acc : SVal × List SVal64} :
    (List.range n).foldlM (s.overwriteByte access V) (a, []) = some acc ↔
      s.Recovers access V n ∧ acc = s.mergeBytes access V a n := by
  induction n generalizing acc with
  | zero =>
    refine ⟨fun h => ⟨fun i hi => absurd hi (Nat.not_lt_zero i), (Option.some.inj h).symm⟩, ?_⟩
    rintro ⟨-, rfl⟩
    rfl
  | succ n ih =>
    rw [foldlM_range_succ, Option.bind_eq_some_iff, State.Recovers, Nat.forall_lt_succ_right,
      and_assoc, ← overwriteByte_mergeBytes hid access V a n]
    refine ⟨?_, ?_⟩
    · rintro ⟨acc', hacc', hn⟩
      obtain ⟨hrec, rfl⟩ := ih.1 hacc'
      exact ⟨hrec, hn⟩
    · rintro ⟨hrec, hn⟩
      exact ⟨_, ih.2 ⟨hrec, rfl⟩, hn⟩

/-- The slow path of `reconstructMemValue`. -/
theorem reconstructBytes_eq_some_iff (hid : s.lastNAWriteVal.id = none) (access : AAccess)
    (V : CowView) (a : SVal) {res : SVal} : s.reconstructBytes access V a = some res ↔
      s.Recovers access V access.size ∧
        res = ⟨(s.mergeBytes access V a access.size).1.value,
          SVal.commonProvenance (s.mergeBytes access V a access.size).2⟩ := by
  rw [State.reconstructBytes, Option.bind_eq_bind, Option.bind_eq_some_iff]
  refine ⟨?_, ?_⟩
  · rintro ⟨acc, hacc, hres⟩
    obtain ⟨hrec, rfl⟩ := (foldlM_overwriteByte_eq_some_iff hid access V a _).1 hacc
    exact ⟨hrec, (Option.some.inj hres).symm⟩
  · rintro ⟨hrec, rfl⟩
    exact ⟨_, (foldlM_overwriteByte_eq_some_iff hid access V a _).2 ⟨hrec, rfl⟩, rfl⟩

end Loop

/-! ## Values of memory -/

/-- A word has the bytes of the last writes: those of the atomic value where the view has the last
write that was not atomic, and else the recorded ones. -/
structure MergesBytes (calls : List Call) (access : AAccess) (V : CowView) (a w : SVal64) :
    Prop where
  known : ∀ i < access.size.val, (history calls (access.byte i).addr).Known V →
    byteAt w i = byteAt a i
  recorded : ∀ i < access.size.val, ¬ (history calls (access.byte i).addr).Known V →
    (history calls (access.byte i).addr).naVal.map (·.value) = some (byteAt w i)
  rest : ∀ i < 8, access.size.val ≤ i → byteAt w i = byteAt a i

section Values

variable {calls : List Call} {s : State} {access : AAccess} {V : CowView} {a v w : SVal64}

/-- There is one such word. -/
theorem MergesBytes.unique (hv : MergesBytes calls access V a v)
    (hw : MergesBytes calls access V a w) : v = w := by
  refine eq_of_byteAt fun i hi => ?_
  by_cases hlt : i < access.size.val
  · by_cases hknown : (history calls (access.byte i).addr).Known V
    · rw [hv.known i hlt hknown, hw.known i hlt hknown]
    · exact Option.some.inj ((hv.recorded i hlt hknown).symm.trans (hw.recorded i hlt hknown))
  · rw [hv.rest i hi (not_lt.1 hlt), hw.rest i hi (not_lt.1 hlt)]

theorem known_byte_iff (h : Refines calls s) (hfits : access.Fits) {i : ℕ}
    (hi : i < access.size.val) : (s.getMaxNAWriteEvent (access.byte i)).containedIn V = true ↔
      (history calls (access.byte i).addr).Known V := by
  rw [containedIn_getMaxNAWriteEvent h]
  refine ⟨fun hall => hall _ ((access.at_byte i).2 ⟨rfl, AAccess.byte_ne_last hfits hi⟩),
    fun hknown p hp => ?_⟩
  rw [((access.at_byte i).1 hp).1]
  exact hknown

theorem recovers_iff (h : Refines calls s) (hfits : access.Fits) :
    s.Recovers access V access.size ↔
      ∀ i < access.size.val, ¬ (history calls (access.byte i).addr).Known V →
        (s.lastNAWriteVal.valueAt (access.byte i).addr).isSome = true :=
  forall₂_congr fun i hi => by rw [← known_byte_iff h hfits hi, Bool.not_eq_true]

theorem map_value_eq (h : Refines calls s) (p : SAddr) :
    (s.lastNAWriteVal.valueAt p).map (·.value) = (history calls p).naVal.map (·.value) := by
  have hval := h.naVal p
  cases hx : s.lastNAWriteVal.valueAt p with
  | none =>
    cases hy : (history calls p).naVal with
    | none => rfl
    | some v =>
      rw [hx, hy] at hval
      exact absurd hval Bool.false_ne_true
  | some u =>
    cases hy : (history calls p).naVal with
    | none =>
      rw [hx, hy] at hval
      exact absurd hval Bool.false_ne_true
    | some v =>
      rw [hx, hy] at hval
      exact congrArg some (beq_some_iff.1 hval)

/-- What is recorded for a byte is a byte. -/
theorem byteAt_naVal (calls : List Call) (p : SAddr) :
    ∀ v ∈ (history calls p).naVal, byteAt v.value 0 = v.value := by
  have hrecord {b : ByteState} (access : AAccess) (val : SVal)
      (hb : ∀ v ∈ b.naVal, byteAt v.value 0 = v.value) :
      ∀ v ∈ (b.record p access val).naVal, byteAt v.value 0 = v.value := by
    rw [ByteState.naVal_record]
    split
    · intro v hv
      obtain rfl := Option.some.inj hv
      exact byteAt_and_byte _
    · exact hb
  induction calls using List.reverseRecOn with
  | nil =>
    intro v hv
    cases hv
  | append_singleton calls c ih =>
    rw [history_concat]
    cases c with
    | onNAStore pos access view val =>
      have hwrite : ∀ v ∈ ((history calls p).writeNA p pos access).naVal,
          byteAt v.value 0 = v.value := by
        rw [ByteState.writeNA_eq]
        exact ih
      cases val with
      | none => exact hwrite
      | some val => exact hrecord access val hwrite
    | onATStore pos access view isEffectful isRelease =>
      rw [ByteState.step]
      split
      · exact ih
      · exact ih
    | onDeferredValueUpdate access val => exact hrecord access val ih
    | clear =>
      intro v hv
      cases hv
    | _ => exact ih

/-- The slow path. -/
theorem mergesBytes_reconstructBytes (h : Refines calls s) (hfits : access.Fits)
    (hsize : access.size.val ≤ 8) (a : SVal)
    (hrec : ∀ i < access.size.val, ¬ (history calls (access.byte i).addr).Known V →
      (history calls (access.byte i).addr).naVal.isSome = true) :
    ∃ res, s.reconstructBytes access V a = some res ∧
      MergesBytes calls access V a.value res.value := by
  have hisSome (p : SAddr) :
      (s.lastNAWriteVal.valueAt p).isSome = (history calls p).naVal.isSome := by
    rw [← Option.isSome_map, map_value_eq h, Option.isSome_map]
  have hrecovers : s.Recovers access V access.size :=
    (recovers_iff h hfits).2 fun i hi hunknown => (hisSome _).trans (hrec i hi hunknown)
  have hbytes (i : ℕ) : ∀ b ∈ (s.overwriting access V i).map fun v => byteAt v.value 0,
      byteAt b 0 = b := by
    intro b hb
    obtain ⟨v, -, rfl⟩ := Option.map_eq_some_iff.1 hb
    exact byteAt_byteAt v.value (by omega)
  have hmerge {j : ℕ} (hj : j < 8) := byteAt_merge a.value hbytes hsize hj
  refine ⟨_, (reconstructBytes_eq_some_iff h.reachableVal.id_eq access V a).2 ⟨hrecovers, rfl⟩, ?_⟩
  refine ⟨fun i hi hknown => ?_, fun i hi hunknown => ?_, fun i hi hge => ?_⟩
  · rw [State.mergeBytes, hmerge (hi.trans_le hsize), if_pos hi, State.overwriting,
      if_pos ((known_byte_iff h hfits hi).2 hknown)]
    rfl
  · have hval := map_value_eq h (access.byte i).addr
    obtain ⟨v, hv⟩ := Option.isSome_iff_exists.1 (hrec i hi hunknown)
    rw [hv] at hval ⊢
    obtain ⟨u, hu, huv⟩ := Option.map_eq_some_iff.1 hval
    rw [State.mergeBytes, hmerge (hi.trans_le hsize), if_pos hi, State.overwriting,
      if_neg (mt (known_byte_iff h hfits hi).1 hunknown), hu, Option.map_some, Option.map_some,
      Option.getD_some, huv]
    exact congrArg some (byteAt_naVal calls _ v hv).symm
  · rw [State.mergeBytes, hmerge hi, if_neg (not_lt.2 hge)]

/-- The fast path. -/
theorem mergesBytes_fast (h : Refines calls s) (hfits : access.Fits) (a : SVal64)
    (hfast : (s.getMaxNAWriteEvent access).containedIn V = true) :
    MergesBytes calls access V a a := by
  have hknown :=
    (AAccess.forall_at_iff hfits).1 ((containedIn_getMaxNAWriteEvent h access V).1 hfast)
  exact ⟨fun i hi _ => rfl, fun i hi hunknown => absurd (hknown i hi) hunknown, fun i _ _ => rfl⟩

/-- **Every byte of a value of memory is the one of the last write**, if the values that are needed
are recorded.  The loop over the bytes computes the same word where it is skipped. -/
theorem reconstructMemValue_exact (hrun : State.init.run calls = some s) (hfits : access.Fits)
    (hsize : access.size.val ≤ 8) (V : CowView) (a : SVal)
    (hrec : ∀ i < access.size.val, ¬ (history calls (access.byte i).addr).Known V →
      (history calls (access.byte i).addr).naVal.isSome = true) :
    ∃ res, s.reconstructMemValue access V a = some res ∧
      MergesBytes calls access V a.value res.value ∧
      ∃ slow, s.reconstructBytes access V a = some slow ∧ slow.value = res.value := by
  have h := refines_run hrun
  obtain ⟨slow, hslow, hmerges⟩ := mergesBytes_reconstructBytes h hfits hsize a hrec
  rw [State.reconstructMemValue]
  by_cases hfast : (s.getMaxNAWriteEvent access).containedIn V = true
  · have hmerges' := mergesBytes_fast h hfits a.value hfast
    exact ⟨a, if_pos hfast, hmerges', slow, hslow, hmerges.unique hmerges'⟩
  · exact ⟨slow, (if_neg hfast).trans hslow, hmerges, slow, hslow, rfl⟩

/-- A store of four bytes that is not atomic. -/
def fourBytesStored : List Call :=
  [.onNAStore ⟨1, 1⟩ ⟨16, 4⟩ ⟨none, ⟨1, 1⟩⟩ (some ⟨0x0A0B0C0D, 7⟩)]

/-- Eight bytes of which the store has four in the middle. -/
theorem fourBytesStored_exact : ∃ s, State.init.run fourBytesStored = some s ∧
    ∃ res, s.reconstructMemValue ⟨14, 8⟩ .empty ⟨0x1122334455667788, 0⟩ = some res ∧
      MergesBytes fourBytesStored ⟨14, 8⟩ .empty 0x1122334455667788 res.value ∧
      ∃ slow, s.reconstructBytes ⟨14, 8⟩ .empty ⟨0x1122334455667788, 0⟩ = some slow ∧
        slow.value = res.value := by
  obtain ⟨s, hs⟩ := Option.isSome_iff_exists.1
    (show (State.init.run fourBytesStored).isSome = true by decide)
  exact ⟨s, hs, reconstructMemValue_exact hs (AAccess.fits_of_isDynamic (by decide) (by decide))
    (by decide) .empty ⟨0x1122334455667788, 0⟩ (by decide)⟩

end Values

/-! ## Provenances -/

/-- Values agree on a provenance if there are some and all of them have it. -/
theorem SVal.commonProvenance_eq_iff {provenances : List SVal64} {p : SVal64} (hp : p ≠ 0) :
    SVal.commonProvenance provenances = p ↔ provenances ≠ [] ∧ ∀ q ∈ provenances, q = p := by
  rw [commonProvenance]
  cases provenances with
  | nil => exact iff_of_false (fun h => hp (h.symm.trans (by rfl))) fun h => h.1 rfl
  | cons x rest =>
    refine ⟨fun h => ?_, ?_⟩
    · split at h
      · rename_i hchain
        obtain rfl : x = p := h
        refine ⟨List.cons_ne_nil x rest, fun q hq => ?_⟩
        rcases List.mem_cons.1 hq with rfl | hq
        · rfl
        · exact ((List.pairwise_cons.1 (List.isChain_iff_pairwise.1 hchain)).1 q hq).symm
      · exact absurd h.symm hp
    · rintro ⟨-, hall⟩
      rw [if_pos (List.isChain_iff_pairwise.2 (List.pairwise_of_forall_mem_list fun a ha b hb =>
        (hall a ha).trans (hall b hb).symm))]
      exact hall x (List.mem_cons_self ..)

/-- A provenance that a value has is the one of all the writes that its bytes are from. -/
def Genuine (calls : List Call) (access : AAccess) (V : CowView) (a res : SVal) : Prop :=
  res.provenance ≠ 0 → ∀ i < access.size.val,
    ((history calls (access.byte i).addr).Known V → a.provenance = res.provenance) ∧
    (¬ (history calls (access.byte i).addr).Known V →
      ∀ v ∈ (history calls (access.byte i).addr).naVal, v.provenance = res.provenance)

/-- Some bytes are overwritten, and what is recorded for all of these has one provenance. -/
def Agree (calls : List Call) (s : State) (access : AAccess) (V : CowView) (p : SVal64) : Prop :=
  (∃ i < access.size.val, ¬ (history calls (access.byte i).addr).Known V) ∧
    ∀ i < access.size.val, ¬ (history calls (access.byte i).addr).Known V →
      (s.lastNAWriteVal.valueAt (access.byte i).addr).map (·.provenance) = some p

/-- Bytes of the atomic value are kept next to bytes of another provenance. -/
def Mixes (calls : List Call) (s : State) (access : AAccess) (V : CowView) (a : SVal) : Prop :=
  ∃ p ≠ 0, Agree calls s access V p ∧ a.provenance ≠ p ∧
    ∃ i < access.size.val, (history calls (access.byte i).addr).Known V

/-- A byte was written with another provenance than is recorded for it, since the map took it for
the same as the byte before it. -/
def Confuses (calls : List Call) (s : State) (access : AAccess) (V : CowView) : Prop :=
  ∃ p ≠ 0, Agree calls s access V p ∧ ∃ i < access.size.val,
    ¬ (history calls (access.byte i).addr).Known V ∧
      ∃ v ∈ (history calls (access.byte i).addr).naVal, v.provenance ≠ p

section Provenances

variable {calls : List Call} {s : State} {access : AAccess} {V : CowView} {a res : SVal}

/-- The provenances that the slow path collects. -/
theorem mem_provenances_iff (h : Refines calls s) (hfits : access.Fits) {q : SVal64} :
    q ∈ (s.mergeBytes access V a access.size.val).2 ↔
      ∃ i < access.size.val, ¬ (history calls (access.byte i).addr).Known V ∧
        (s.lastNAWriteVal.valueAt (access.byte i).addr).map (·.provenance) = some q := by
  rw [State.mergeBytes, List.mem_filterMap]
  refine ⟨?_, ?_⟩
  · rintro ⟨i, hi, hq⟩
    rw [List.mem_range] at hi
    rw [State.overwriting] at hq
    split at hq
    · cases hq
    · rename_i hold
      exact ⟨i, hi, mt (known_byte_iff h hfits hi).2 hold, hq⟩
  · rintro ⟨i, hi, hunknown, hq⟩
    refine ⟨i, List.mem_range.2 hi, ?_⟩
    rw [State.overwriting, if_neg (mt (known_byte_iff h hfits hi).1 hunknown)]
    exact hq

/-- The slow path returns a provenance if the overwritten bytes agree on it. -/
theorem reconstructBytes_provenance_iff (h : Refines calls s) (hfits : access.Fits) {p : SVal64}
    (hp : p ≠ 0) : (∃ res, s.reconstructBytes access V a = some res ∧ res.provenance = p) ↔
      Agree calls s access V p := by
  have hloop := @reconstructBytes_eq_some_iff s h.reachableVal.id_eq access V a
  refine ⟨?_, ?_⟩
  · rintro ⟨res, hres, hprov⟩
    obtain ⟨hrec, rfl⟩ := hloop.1 hres
    obtain ⟨hne, hall⟩ := (SVal.commonProvenance_eq_iff hp).1 hprov
    obtain ⟨q, hq⟩ := List.exists_mem_of_ne_nil _ hne
    obtain ⟨i, hi, hunknown, -⟩ := (mem_provenances_iff h hfits).1 hq
    refine ⟨⟨i, hi, hunknown⟩, fun j hj hunknown => ?_⟩
    obtain ⟨v, hv⟩ := Option.isSome_iff_exists.1 ((recovers_iff h hfits).1 hrec j hj hunknown)
    have hmap : (s.lastNAWriteVal.valueAt (access.byte j).addr).map (·.provenance) =
        some v.provenance := by rw [hv]; rfl
    rw [hmap, hall _ ((mem_provenances_iff h hfits).2 ⟨j, hj, hunknown, hmap⟩)]
  · rintro ⟨⟨i, hi, hunknown⟩, hall⟩
    have hrec : s.Recovers access V access.size := by
      refine (recovers_iff h hfits).2 fun j hj hunknown => ?_
      rw [← Option.isSome_map, hall j hj hunknown]
      rfl
    refine ⟨_, hloop.2 ⟨hrec, rfl⟩, (SVal.commonProvenance_eq_iff hp).2 ⟨List.ne_nil_of_mem
        ((mem_provenances_iff h hfits).2 ⟨i, hi, hunknown, hall i hi hunknown⟩), fun q hq => ?_⟩⟩
    obtain ⟨j, hj, hunknown, hq⟩ := (mem_provenances_iff h hfits).1 hq
    exact Option.some.inj (hq.symm.trans (hall j hj hunknown))

/-- The fast path is taken if no byte is overwritten. -/
theorem fast_iff (h : Refines calls s) (hfits : access.Fits) :
    (s.getMaxNAWriteEvent access).containedIn V = true ↔
      ∀ i < access.size.val, (history calls (access.byte i).addr).Known V := by
  rw [containedIn_getMaxNAWriteEvent h, AAccess.forall_at_iff hfits]

/-- **When no provenance is made up.** -/
theorem genuine_iff (hrun : State.init.run calls = some s) (hfits : access.Fits) (V : CowView)
    (a : SVal) : (∀ res, s.reconstructMemValue access V a = some res →
      Genuine calls access V a res) ↔
      ¬ Mixes calls s access V a ∧ ¬ Confuses calls s access V := by
  have h := refines_run hrun
  refine ⟨fun hall => ?_, ?_⟩
  · have hslow {p : SVal64} (hp : p ≠ 0) (hagree : Agree calls s access V p) :
        ∃ res, s.reconstructMemValue access V a = some res ∧ res.provenance = p := by
      obtain ⟨i, hi, hunknown⟩ := hagree.1
      rw [State.reconstructMemValue, if_neg fun hfast => hunknown ((fast_iff h hfits).1 hfast i hi)]
      exact (reconstructBytes_provenance_iff h hfits hp).2 hagree
    refine ⟨?_, ?_⟩
    · rintro ⟨p, hp, hagree, hne, i, hi, hknown⟩
      obtain ⟨res, hres, rfl⟩ := hslow hp hagree
      exact hne ((hall res hres hp i hi).1 hknown)
    · rintro ⟨p, hp, hagree, i, hi, hunknown, v, hv, hne⟩
      obtain ⟨res, hres, rfl⟩ := hslow hp hagree
      exact hne ((hall res hres hp i hi).2 hunknown v hv)
  · rintro ⟨hmixes, hconfuses⟩ res hres hp i hi
    rw [State.reconstructMemValue] at hres
    split at hres
    · rename_i hfast
      obtain rfl := Option.some.inj hres
      exact ⟨fun _ => rfl, fun hunknown => absurd ((fast_iff h hfits).1 hfast i hi) hunknown⟩
    · have hagree := (reconstructBytes_provenance_iff h hfits hp).1 ⟨res, hres, rfl⟩
      refine ⟨fun hknown => ?_, fun hunknown v hv => ?_⟩
      · by_contra hne
        exact hmixes ⟨_, hp, hagree, hne, i, hi, hknown⟩
      · by_contra hne
        exact hconfuses ⟨_, hp, hagree, i, hi, hunknown, v, hv, hne⟩

/-- A store of one byte, of a pointer. -/
def oneByteStored : List Call := [.onNAStore ⟨1, 1⟩ ⟨16, 1⟩ ⟨none, ⟨1, 1⟩⟩ (some ⟨5, 7⟩)]

theorem oneByteStored_genuine_iff : ∃ s, State.init.run oneByteStored = some s ∧
    ((∀ res, s.reconstructMemValue ⟨16, 2⟩ .empty ⟨0x100, 0⟩ = some res →
      Genuine oneByteStored ⟨16, 2⟩ .empty ⟨0x100, 0⟩ res) ↔
      ¬ Mixes oneByteStored s ⟨16, 2⟩ .empty ⟨0x100, 0⟩ ∧
        ¬ Confuses oneByteStored s ⟨16, 2⟩ .empty) := by
  obtain ⟨s, hs⟩ := Option.isSome_iff_exists.1
    (show (State.init.run oneByteStored).isSome = true by decide)
  exact ⟨s, hs, genuine_iff hs (by decide) .empty ⟨0x100, 0⟩⟩

/-- Two bytes have the provenance of the first one, though the second one is of a value without
provenance. -/
theorem oneByteStored_not_genuine : ¬ ∀ (calls : List Call) (s : State) (access : AAccess)
    (V : CowView) (a res : SVal), State.init.run calls = some s → access.Fits →
      s.reconstructMemValue access V a = some res → Genuine calls access V a res := by
  intro hall
  have hres : (State.init.run oneByteStored).bind
      (·.reconstructMemValue ⟨16, 2⟩ .empty ⟨0x100, 0⟩) = some ⟨0x105, 7⟩ := by decide
  obtain ⟨s, hs, hres⟩ := Option.bind_eq_some_iff.1 hres
  have hgenuine := hall oneByteStored s ⟨16, 2⟩ .empty ⟨0x100, 0⟩ ⟨0x105, 7⟩ hs (by decide) hres
    (by decide) 1 (by decide)
  exact absurd (hgenuine.1 (by decide)) (by decide)

-- the map keeps the first of two equal bytes only, and its provenance is taken for both
example : (State.init.run [.onNAStore ⟨1, 1⟩ ⟨16, 1⟩ ⟨none, ⟨1, 1⟩⟩ (some ⟨5, 7⟩),
    .onNAStore ⟨1, 2⟩ ⟨17, 1⟩ ⟨none, ⟨1, 2⟩⟩ (some ⟨5, 9⟩)]).bind
      (·.reconstructMemValue ⟨16, 2⟩ .empty ⟨0, 0⟩) = some ⟨0x505, 7⟩ := by decide

end Provenances

end ExecutionState
end GenMC
