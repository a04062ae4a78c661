import GenMC.Library.Odometer
import GenMC.Relinche.HintSearch

/-!
# Checking extensions

An implementation is checked against a specification whose hints were computed before.  If some
records refine the observation of an execution, the checker looks for a client with more
synchronization that none of the linearizations of these records survives: it takes one hint from
each record, in all possible ways (`combineHints`), and asks whether the execution is consistent
with the edges of the combination.

Hints were computed for the happens-before of each record, which is smaller than that of the
observation, and the combinations are gone through with an odometer.  Nothing is lost in this:

* `calculateHints_data` says what the hints of each record are.
* `subset_of_mem_crossProduct` and `exists_mem_crossProduct` say what combinations there are.
* `combineHints_spec`: combinations contradict all linearizations of all records that refine the
  observation, and every set of edges that does so implies one of them.
-/

set_option autoImplicit false

namespace GenMC

open Relation

namespace Specification

/-! ## Hints of all records -/

/-- `calculateHints`. -/
def calculateHints (spec : Specification) : Option Specification :=
  spec.data.foldlM (fun s kv => (s.calculateObservationHints kv.1).map (s.addHints kv.1)) spec

/-- A record with the hints of its observation. -/
def withHints (maxExtSize : ℕ) (kv : Observation × Record) : Observation × Record :=
  (kv.1, { kv.2 with hints := kv.2.hints ++ observationHints kv.1 kv.2.lins.vset maxExtSize })

theorem recordAt_append {pre post : List (Observation × Record)} {o : Observation} {r : Record}
    (h : o.key ∉ keys pre) : recordAt (pre ++ (o, r) :: post) o.key = some r := by
  induction pre with
  | nil =>
    rw [List.nil_append, recordAt_cons, if_pos rfl]
  | cons kv pre ih =>
    obtain ⟨o', r'⟩ := kv
    have hne : o'.key ≠ o.key := fun hc => h (hc ▸ List.mem_cons_self)
    rw [List.cons_append, recordAt_cons, if_neg hne, ih fun hc => h (List.mem_cons_of_mem _ hc)]

theorem updateSync_append (f : Record → Record) {pre post : List (Observation × Record)}
    {o : Observation} {r : Record} (h : o.key ∉ keys pre) :
    updateSync f o (pre ++ (o, r) :: post) = pre ++ (o, f r) :: post := by
  induction pre with
  | nil =>
    rw [List.nil_append, updateSync, if_pos (Observation.eq_and_hasSameHb_iff.2 rfl)]
    rfl
  | cons kv pre ih =>
    obtain ⟨o', r'⟩ := kv
    have hne : ¬ (o'.eq o && o'.hasSameHb o) = true := by
      rw [Observation.eq_and_hasSameHb_iff]
      exact fun hc => h (hc ▸ List.mem_cons_self)
    rw [List.cons_append, updateSync, if_neg hne, ih fun hc => h (List.mem_cons_of_mem _ hc)]
    rfl

/-- The loop of `calculateHints`, with some records done. -/
theorem foldlM_addHints {maxExtSize : ℕ} (pre : List (Observation × Record))
    {post : List (Observation × Record)} (h : (keys (pre ++ post)).Nodup) :
    post.foldlM (fun s kv => (s.calculateObservationHints kv.1).map (s.addHints kv.1))
        ({ data := pre ++ post, maxExtSize := maxExtSize } : Specification) =
      some { data := pre ++ post.map (withHints maxExtSize), maxExtSize := maxExtSize } := by
  induction post generalizing pre with
  | nil => rfl
  | cons kv post ih =>
    obtain ⟨o, r⟩ := kv
    have hnot : o.key ∉ keys pre := by
      rw [keys, List.map_append, List.nodup_append] at h
      exact fun hc => h.2.2 _ hc _ List.mem_cons_self rfl
    rw [List.foldlM_cons, calculateObservationHints, lookupSync, recordAt_append hnot]
    simp only [Option.map_some, Option.bind_eq_bind, Option.bind_some, addHints]
    rw [updateSync_append _ hnot]
    have hkeys : keys ((pre ++ [withHints maxExtSize (o, r)]) ++ post) =
        keys (pre ++ (o, r) :: post) := by
      simp [keys, withHints]
    have hstep := ih (pre ++ [withHints maxExtSize (o, r)]) (hkeys ▸ h)
    rw [List.append_assoc, List.append_assoc] at hstep
    exact hstep

/-- **Every record gets the hints of its observation.** -/
theorem calculateHints_data {spec : Specification} (h : (keys spec.data).Nodup) :
    spec.calculateHints = some { spec with data := spec.data.map (withHints spec.maxExtSize) } :=
  foldlM_addHints [] h

/-! ## Combinations of hints -/

/-- The records that refine an observation. -/
def refinedObservations (spec : Specification) (obs : Observation) : List (Observation × Record) :=
  spec.data.filter fun kv => kv.1.isRefinedBy obs

end Specification

namespace Observation

/-- Whether an edge goes from a copy of a thread to an earlier one. -/
def isSymmetricEdge (obs : Observation) (edge : CallEdge) : Bool :=
  (obs.getCall edge.first).thdKC.1 = (obs.getCall edge.second).thdKC.1 &&
    (obs.getCall edge.first).thdKC.2 > (obs.getCall edge.second).thdKC.2

def isNotSymmetricHint (obs : Observation) (hint : Hint) : Bool :=
  !hint.edges.any obs.isSymmetricEdge

end Observation

/-- The edges of the hints that a clock points to. -/
def hintAt (hintsOfRefining : List (List Hint)) (clock : List ℕ) : Hint :=
  ⟨(List.zipWith (fun hints c => (hints.getD c default).edges) hintsOfRefining clock).flatten⟩

theorem length_pos_of_any {hs : List (List Hint)} (h : ¬ hs.any List.isEmpty = true) :
    ∀ s ∈ hs.map List.length, 0 < s := by
  intro s hs'
  obtain ⟨hints, hmem, rfl⟩ := List.mem_map.1 hs'
  rw [List.length_pos_iff]
  rintro rfl
  exact h (List.any_eq_true.2 ⟨[], hmem, rfl⟩)

/-- `combineHints`, for the hints of each record. -/
def crossProduct (hintsOfRefining : List (List Hint)) : List Hint :=
  if h : hintsOfRefining.any List.isEmpty then []
  else if hintsOfRefining.length = 1 then hintsOfRefining.getD 0 []
  else
    (Odometer.Clock.zero (hintsOfRefining.map List.length)).collect (length_pos_of_any h)
      (hintAt hintsOfRefining) []

/-- `combineHints`. -/
def combineHints (spec : Specification) (obs : Observation) : List Hint :=
  crossProduct ((spec.refinedObservations obs).map fun kv =>
    kv.2.hints.filter obs.isNotSymmetricHint)

theorem hintAt_cons (hints : List Hint) (hs : List (List Hint)) (c : ℕ) (clock : List ℕ) :
    (hintAt (hints :: hs) (c :: clock)).edges =
      (hints.getD c default).edges ++ (hintAt hs clock).edges := by
  rw [hintAt, hintAt, List.zipWith_cons_cons, List.flatten_cons]

/-- The last wheel of the clock points to nothing. -/
theorem hintAt_append {hs : List (List Hint)} {choice : List ℕ} (c : ℕ)
    (h : List.Forall₂ (· < ·) choice (hs.map List.length)) :
    hintAt hs (choice ++ [c]) = hintAt hs choice := by
  have hlen : hs.length = choice.length := by
    rw [h.length_eq, List.length_map]
  rw [hintAt, hintAt, ← List.append_nil hs, List.zipWith_append hlen, List.append_nil]
  simp

theorem getD_mem_of_lt {hints : List Hint} {c : ℕ} (h : c < hints.length) :
    hints.getD c default ∈ hints := by
  rw [List.getD_eq_getElem _ _ h]
  exact List.getElem_mem h

theorem exists_mem_of_forall₂ {α β : Type*} {R : α → β → Prop} {l : List α} {l' : List β}
    (h : List.Forall₂ R l l') {b : β} (hb : b ∈ l') : ∃ a ∈ l, R a b := by
  induction h with
  | nil => exact absurd hb List.not_mem_nil
  | @cons a _ l _ hab _ ih =>
    rcases List.mem_cons.1 hb with rfl | hb
    · exact ⟨a, List.mem_cons_self, hab⟩
    · obtain ⟨a', hmem, hab'⟩ := ih hb
      exact ⟨a', List.mem_cons_of_mem _ hmem, hab'⟩

/-- A clock points to a hint of each record. -/
theorem exists_picks {hs : List (List Hint)} {choice : List ℕ}
    (h : List.Forall₂ (· < ·) choice (hs.map List.length)) :
    ∃ picks, List.Forall₂ (· ∈ ·) picks hs ∧
      (hintAt hs choice).edges = (picks.map Hint.edges).flatten := by
  induction hs generalizing choice with
  | nil => exact ⟨[], .nil, rfl⟩
  | cons hints hs ih =>
    rw [List.map_cons, List.forall₂_cons_right_iff] at h
    obtain ⟨c, choice, hc, hrest, rfl⟩ := h
    obtain ⟨picks, hpicks, heq⟩ := ih hrest
    refine ⟨hints.getD c default :: picks, .cons (getD_mem_of_lt hc) hpicks, ?_⟩
    rw [hintAt_cons, heq, List.map_cons, List.flatten_cons]

/-- Hints of each record can be pointed to. -/
theorem exists_choice {hs : List (List Hint)} {picks : List Hint}
    (h : List.Forall₂ (· ∈ ·) picks hs) :
    ∃ choice, List.Forall₂ (· < ·) choice (hs.map List.length) ∧
      (hintAt hs choice).edges = (picks.map Hint.edges).flatten := by
  induction h with
  | nil => exact ⟨[], .nil, rfl⟩
  | @cons hint hints picks hs hmem _ ih =>
    obtain ⟨choice, hchoice, heq⟩ := ih
    obtain ⟨c, hc, rfl⟩ := List.mem_iff_getElem.1 hmem
    refine ⟨c :: choice, .cons hc hchoice, ?_⟩
    rw [hintAt_cons, heq, List.getD_eq_getElem _ _ hc, List.map_cons, List.flatten_cons]

/-- **Combinations** are what one gets from a hint of each record, in all possible ways. -/
theorem mem_crossProduct_iff {hs : List (List Hint)} {h : Hint} : h ∈ crossProduct hs ↔
    ∃ picks, List.Forall₂ (· ∈ ·) picks hs ∧ h.edges = (picks.map Hint.edges).flatten := by
  rw [crossProduct]
  split
  · rename_i hany
    obtain ⟨hints, hmem, hempty⟩ := List.any_eq_true.1 hany
    refine iff_of_false List.not_mem_nil ?_
    rintro ⟨picks, hpicks, -⟩
    obtain ⟨hint, -, hpick⟩ := exists_mem_of_forall₂ hpicks hmem
    rw [List.isEmpty_iff.1 hempty] at hpick
    exact absurd hpick List.not_mem_nil
  · rename_i hany
    split
    · rename_i hlen
      obtain ⟨hints, rfl⟩ := List.length_eq_one_iff.1 hlen
      refine ⟨?_, ?_⟩
      · exact fun hh => ⟨[h], .cons hh .nil, by simp⟩
      · rintro ⟨picks, hpicks, heq⟩
        rw [List.forall₂_cons_right_iff] at hpicks
        obtain ⟨hint, picks, hmem, hnil, rfl⟩ := hpicks
        rw [List.forall₂_nil_right_iff.1 hnil] at heq
        have hhint : h = hint := congrArg Hint.mk (by simpa using heq)
        exact hhint ▸ hmem
    · rw [Odometer.Clock.collect_eq, List.mem_map]
      refine ⟨?_, ?_⟩
      · rintro ⟨n, -, rfl⟩
        obtain ⟨choice, c, heq, hchoice⟩ := Odometer.forall₂_digits (length_pos_of_any hany) n
        rw [heq, hintAt_append c hchoice]
        exact exists_picks hchoice
      · rintro ⟨picks, hpicks, heq⟩
        obtain ⟨choice, hchoice, heq'⟩ := exists_choice hpicks
        obtain ⟨n, hn, hdigits⟩ := Odometer.exists_digits_eq hchoice
        refine ⟨n, List.mem_range.2 hn, ?_⟩
        rw [hdigits, hintAt_append 0 hchoice]
        exact congrArg Hint.mk (heq'.trans heq.symm)

/-- A combination has a hint of each record. -/
theorem subset_of_mem_crossProduct {hs : List (List Hint)} {h : Hint} (hh : h ∈ crossProduct hs)
    {hints : List Hint} (hmem : hints ∈ hs) : ∃ h' ∈ hints, h'.toSet ⊆ h.toSet := by
  obtain ⟨picks, hpicks, heq⟩ := mem_crossProduct_iff.1 hh
  obtain ⟨h', hpick, hmem'⟩ := exists_mem_of_forall₂ hpicks hmem
  refine ⟨h', hmem', fun p hp => ?_⟩
  have hmem : p ∈ (picks.map Hint.edges).flatten :=
    List.mem_flatten.2 ⟨_, List.mem_map_of_mem hpick, hp⟩
  rw [← heq] at hmem
  exact hmem

/-- Hints of each record can be combined. -/
theorem exists_mem_crossProduct {hs : List (List Hint)} {Q : CallEdge → Prop}
    (h : ∀ hints ∈ hs, ∃ h ∈ hints, ∀ p ∈ h.edges, Q p) :
    ∃ h ∈ crossProduct hs, ∀ p ∈ h.edges, Q p := by
  have hpicks : ∃ picks, List.Forall₂ (· ∈ ·) picks hs ∧ ∀ hint ∈ picks, ∀ p ∈ hint.edges, Q p := by
    induction hs with
    | nil => exact ⟨[], .nil, fun hint hmem => absurd hmem List.not_mem_nil⟩
    | cons hints hs ih =>
      obtain ⟨picks, hpicks, hQ⟩ := ih fun hints' hmem => h hints' (List.mem_cons_of_mem _ hmem)
      obtain ⟨hint, hmem, hQ'⟩ := h hints List.mem_cons_self
      exact ⟨hint :: picks, .cons hmem hpicks, List.forall_mem_cons.2 ⟨hQ', hQ⟩⟩
  obtain ⟨picks, hpicks, hQ⟩ := hpicks
  refine ⟨⟨(picks.map Hint.edges).flatten⟩, mem_crossProduct_iff.2 ⟨picks, hpicks, rfl⟩, ?_⟩
  intro p hp
  obtain ⟨edges, hedges, hp⟩ := List.mem_flatten.1 hp
  obtain ⟨hint, hmem, rfl⟩ := List.mem_map.1 hedges
  exact hQ hint hmem p hp

/-! ## The extension phase -/

instance decidableRespects (lin : Linearization) (hb : VSet CallEdge) :
    Decidable (lin.Respects hb) :=
  inferInstanceAs (Decidable (∀ p ∈ hb.vset, lin.isBefore p.second p.first = false))

instance decidableInRange (obs : Observation) (hb : VSet CallEdge) :
    Decidable (obs.InRange {p | p ∈ hb}) :=
  inferInstanceAs (Decidable (∀ p ∈ hb.vset, p.first < obs.getNumOps ∧ p.second < obs.getNumOps))

namespace Specification

/-- What a specification is before hints are computed: one record for each observation, and every
record has linearizations that respect its happens-before. -/
structure WithoutHints (spec : Specification) : Prop where
  nodup : (keys spec.data).Nodup
  noHints : ∀ kv ∈ spec.data, kv.2.hints = []
  inRange : ∀ kv ∈ spec.data, kv.1.InRange {p | p ∈ kv.1.hb}
  lins : ∀ kv ∈ spec.data, kv.2.lins.vset ≠ []
  respects : ∀ kv ∈ spec.data, ∀ lin ∈ kv.2.lins.vset, lin.Respects kv.1.hb

theorem WithoutHints.hintsFor {spec spec' : Specification} (h : spec.WithoutHints)
    (hcalc : spec.calculateHints = some spec') {kv : Observation × Record}
    (hkv : kv ∈ spec'.data) :
    HintsFor kv.1 kv.2.lins.vset spec'.maxExtSize kv.2.hints := by
  rw [calculateHints_data h.nodup] at hcalc
  obtain rfl := Option.some.inj hcalc
  obtain ⟨kv, hmem, rfl⟩ := List.mem_map.1 hkv
  have hhints := hintsFor_observationHints (h.inRange kv hmem) (h.lins kv hmem)
    (h.respects kv hmem) spec.maxExtSize
  rw [withHints, h.noHints kv hmem]
  exact hhints

end Specification

/-- The graph of a record that refines an observation is a part of the observation's. -/
theorem hbExt_of_isRefinedBy {o obs : Observation} (h : o.isRefinedBy obs = true)
    {E : Set CallEdge} {x y : ℕ} (hxy : HbExt o E x y) : HbExt obs E x y := by
  rw [Observation.isRefinedBy, Bool.and_eq_true, Observation.eq_iff] at h
  obtain ⟨⟨hops, -⟩, hhb⟩ := h
  cases hxy with
  | call hid =>
    refine .call ?_
    have hlen := congrArg List.length hops
    rw [List.length_map, List.length_map] at hlen
    rwa [Observation.getNumOps, ← hlen]
  | hb hp => exact .hb (VSet.mem_of_subsetOf hhb hp)
  | ext hp => exact .ext hp

theorem getNumOps_of_isRefinedBy {o obs : Observation} (h : o.isRefinedBy obs = true) :
    o.getNumOps = obs.getNumOps := by
  rw [Observation.isRefinedBy, Bool.and_eq_true, Observation.eq_iff] at h
  have hlen := congrArg List.length h.1.1
  rwa [List.length_map, List.length_map] at hlen

theorem Contradicts.mono {E E' : Set CallEdge} {lin : Linearization} (h : Contradicts E lin)
    (hE : E ⊆ E') : Contradicts E' lin := by
  obtain ⟨p, hp, hbit⟩ := h
  exact ⟨p, hE hp, hbit⟩

/-- What the combined hints of an observation have to be: they contradict all linearizations of the
records that refine it, and there is one for every set of edges that does the same. -/
structure MissesNoClient (spec : Specification) (obs : Observation) : Prop where
  contradicts : ∀ hint ∈ combineHints spec obs, ∀ kv ∈ spec.refinedObservations obs,
    ∀ lin ∈ kv.2.lins.vset, Contradicts hint.toSet lin
  complete : ∀ E : Finset CallEdge, obs.InRange E → E.card ≤ spec.maxExtSize →
    Acyclic (HbExt obs E) →
    (∀ kv ∈ spec.refinedObservations obs, ∀ lin ∈ kv.2.lins.vset, Contradicts E lin) →
      ∃ hint ∈ combineHints spec obs, Implied obs hint.toSet E

/-- **The extension phase misses no client**, whatever the records that refine the observation, if
no hint has an edge that the symmetry filter is about. -/
theorem combineHints_spec {spec spec' : Specification} {obs : Observation} (h : spec.WithoutHints)
    (hcalc : spec.calculateHints = some spec')
    (hsym : ∀ kv ∈ spec'.refinedObservations obs, ∀ hint ∈ kv.2.hints, ∀ p ∈ hint.edges,
      obs.isSymmetricEdge p = false) : MissesNoClient spec' obs := by
  have hints : ∀ kv ∈ spec'.refinedObservations obs,
      HintsFor kv.1 kv.2.lins.vset spec'.maxExtSize kv.2.hints :=
    fun kv hkv => h.hintsFor hcalc (List.mem_of_mem_filter hkv)
  refine ⟨fun hint hhint kv hkv lin hlin => ?_, fun E hE hsize hacyclic hkills => ?_⟩
  · obtain ⟨hint', hmem, hsub⟩ := subset_of_mem_crossProduct hhint (List.mem_map_of_mem hkv)
    exact ((hints kv hkv).contradicts hint' (List.mem_of_mem_filter hmem) lin hlin).mono hsub
  · refine exists_mem_crossProduct (Q := fun p => TransGen (HbExt obs E) (toEndExtEvent p.first)
      (toBeginExtEvent p.second)) fun hs hmem => ?_
    obtain ⟨kv, hkv, rfl⟩ := List.mem_map.1 hmem
    have href : kv.1.isRefinedBy obs = true := (List.mem_filter.1 hkv).2
    -- the edges work for the record as well, whose graph is smaller
    obtain ⟨hint, hhint, himp⟩ := (hints kv hkv).complete E
      (fun p hp => getNumOps_of_isRefinedBy href ▸ hE p hp) hsize
      (hacyclic.mono fun _ _ => hbExt_of_isRefinedBy href) (hkills kv hkv)
    refine ⟨hint, List.mem_filter.2 ⟨hhint, ?_⟩, fun p hp => ?_⟩
    · rw [Observation.isNotSymmetricHint, Bool.not_eq_true', ← Bool.not_eq_true, List.any_eq_true]
      rintro ⟨p, hp, hbad⟩
      exact Bool.eq_false_iff.1 (hsym kv hkv hint hhint p hp) hbad
    · exact TransGen.mono (fun _ _ => hbExt_of_isRefinedBy href) _ _ (himp p hp)

/-- Three calls of different threads.  The second one comes after the first. -/
def threeThreads : Observation :=
  { ops := [{ name := "enqueue", argVal := 1, retVal := 0, thdKC := (0, 0) },
      { name := "enqueue", argVal := 2, retVal := 0, thdKC := (1, 0) },
      { name := "dequeue", argVal := 0, retVal := 1, thdKC := (2, 0) }]
    hb := ⟨[⟨0, 1⟩]⟩ }

/-- Two records refine the observation, one of them without any happens-before. -/
def threeThreadsSpec : Specification where
  data := [({ threeThreads with hb := ⟨[]⟩ }, { lins := ⟨[⟨[0, 2, 1]⟩]⟩ }),
    (threeThreads, { lins := ⟨[⟨[0, 1, 2]⟩, ⟨[0, 2, 1]⟩]⟩ })]
  maxExtSize := 2

theorem threeThreads_misses_no_client :
    ∃ spec', threeThreadsSpec.calculateHints = some spec' ∧
      (spec'.refinedObservations threeThreads).length = 2 ∧ MissesNoClient spec' threeThreads := by
  have hnodup : (Specification.keys threeThreadsSpec.data).Nodup := by decide
  have hready : threeThreadsSpec.WithoutHints :=
    ⟨hnodup, by decide, by decide, by decide, by decide⟩
  refine ⟨_, Specification.calculateHints_data hnodup, ?_,
    combineHints_spec hready (Specification.calculateHints_data hnodup) ?_⟩
  · rw [Specification.refinedObservations, List.filter_map, List.length_map]
    decide
  · -- there is one copy of each thread
    have hcopy : ∀ id, (threeThreads.getCall id).thdKC.2 = 0 := by
      intro id
      match id with
      | 0 => rfl
      | 1 => rfl
      | 2 => rfl
      | id + 3 => rfl
    intro kv _ hint _ p _
    rw [Observation.isSymmetricEdge, hcopy, hcopy]
    simp

/-- The second phase of `refinesSpec`: the first combination that is consistent with the execution,
and the number of combinations that were looked at. -/
def checkHints (consistent : Hint → Bool) : List Hint → Option Hint × ℕ
  | [] => (none, 0)
  | hint :: hints =>
    if consistent hint then (some hint, 1)
    else
      let (status, hintsChecked) := checkHints consistent hints
      (status, hintsChecked + 1)

theorem checkHints_eq_none {consistent : Hint → Bool} {hints : List Hint}
    (h : (checkHints consistent hints).1 = none) : ∀ hint ∈ hints, consistent hint = false := by
  induction hints with
  | nil => exact fun hint hmem => absurd hmem List.not_mem_nil
  | cons hint hints ih =>
    rw [checkHints] at h
    split at h
    · exact absurd h (Option.some_ne_none _)
    · rename_i hcons
      rintro hint' hmem
      rcases List.mem_cons.1 hmem with rfl | hmem
      · exact Bool.eq_false_iff.2 hcons
      · exact ih h hint' hmem

/-- If the second phase passes, no set of edges that contradicts everything is consistent with the
execution, for any notion of consistency that is kept when edges are replaced by ones they imply. -/
theorem not_consistent_of_checkHints {spec : Specification} {obs : Observation}
    (h : MissesNoClient spec obs) {consistent : Set CallEdge → Prop} [DecidablePred consistent]
    (hmono : ∀ E E', Implied obs E E' → consistent E' → consistent E)
    (hpass : (checkHints (fun hint => consistent hint.toSet) (combineHints spec obs)).1 = none)
    {E : Finset CallEdge} (hE : obs.InRange E) (hsize : E.card ≤ spec.maxExtSize)
    (hacyclic : Acyclic (HbExt obs E))
    (hkills : ∀ kv ∈ spec.refinedObservations obs, ∀ lin ∈ kv.2.lins.vset, Contradicts E lin) :
    ¬ consistent E := by
  obtain ⟨hint, hmem, himp⟩ := h.complete E hE hsize hacyclic hkills
  have hno := checkHints_eq_none hpass hint hmem
  exact fun hc => of_decide_eq_false hno (hmono _ _ himp hc)

end GenMC
