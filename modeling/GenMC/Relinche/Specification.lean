import GenMC.Relinche.Observation
import Mathlib.Data.Multiset.AddSub

/-!
# Specifications

A specification has a record for every observation of a program: the linearizations that were seen
with it, and hints.  Workers add the executions they find to specifications of their own, which are
merged in the end.

The records are in a hash multimap keyed by observations, whose equality does not look at
happens-before: a lookup goes over all equal observations and compares happens-before by itself
(`lookupSyncOrInsert`).  `recordAt` is what a lookup finds, and every operation is described by what
it does to `recordAt`.

* `Combined` relates a specification to the executions that went into it, in whatever way they were
  added and merged and however the multimap orders its entries.
* `combined_order_independent`: there is one record for each observation that was seen, and it has
  the linearizations it would have if one specification had collected all executions in any order.
-/

set_option autoImplicit false

namespace GenMC

/-- An extension of happens-before. -/
structure Hint where
  edges : List CallEdge
deriving DecidableEq, Repr, Inhabited

/-- What is known about an observation. -/
structure Record where
  lins : VSet Linearization := ⟨[]⟩
  hints : List Hint := []
deriving DecidableEq, Repr, Inhabited

/-- A collection of observations. -/
structure Specification where
  data : List (Observation × Record) := []
  maxExtSize : ℕ := 2 ^ 32 - 1
deriving Inhabited

/-- What identifies a record. -/
abbrev Key := List Call × VSet (Pair ℤ ℤ) × VSet CallEdge

namespace Specification

/-- `lookupSyncOrInsert`, with what is done to the record it returns. -/
def updateSync (f : Record → Record) (obs : Observation) :
    List (Observation × Record) → List (Observation × Record)
  | [] => [(obs, f {})]
  | (o, r) :: rest =>
    if o.eq obs && o.hasSameHb obs then (o, f r) :: rest else (o, r) :: updateSync f obs rest

/-- `Specification::add` without symmetry reduction, for the observation and the linearization of
an execution. -/
def add (spec : Specification) (obs : Observation) (lin : Linearization) : Specification :=
  { spec with data := updateSync (fun r => { r with lins := r.lins.insert lin }) obs spec.data }

/-- Adds what another record has. -/
def Record.merge (r r' : Record) : Record :=
  { lins := r.lins.insertSet r'.lins, hints := r.hints ++ r'.hints }

def merge (spec other : Specification) : Specification :=
  { spec with
    data := other.data.foldl (fun data e => updateSync (Record.merge · e.2) e.1 data) spec.data }

/-- `addHints`. -/
def addHints (spec : Specification) (obs : Observation) (newHints : List Hint) : Specification :=
  { spec with data := updateSync (fun r => { r with hints := r.hints ++ newHints }) obs spec.data }

/-! ## Lookups -/

/-- The record for calls, reads-from and happens-before. -/
def recordAt (data : List (Observation × Record)) (k : Key) : Option Record :=
  (data.find? fun e => e.1.key = k).map (·.2)

/-- The record of an observation.  It is an error if there is none. -/
def lookupSync (spec : Specification) (obs : Observation) : Option Record :=
  recordAt spec.data obs.key

/-- The keys of all records. -/
def keys (data : List (Observation × Record)) : List Key := data.map (·.1.key)

theorem recordAt_cons (o : Observation) (r : Record) (data : List (Observation × Record))
    (k : Key) : recordAt ((o, r) :: data) k = if o.key = k then some r else recordAt data k := by
  rw [recordAt, List.find?_cons]
  by_cases h : o.key = k
  · simp [h]
  · simp [h, recordAt]

theorem recordAt_isSome {data : List (Observation × Record)} {k : Key} :
    (recordAt data k).isSome ↔ k ∈ keys data := by
  rw [recordAt, Option.isSome_map, List.find?_isSome, keys, List.mem_map]
  simp

/-- **One record is changed, or there is a new one.** -/
theorem recordAt_updateSync (f : Record → Record) (obs : Observation)
    (data : List (Observation × Record)) (k : Key) :
    recordAt (updateSync f obs data) k =
      if obs.key = k then some (f ((recordAt data k).getD {})) else recordAt data k := by
  induction data with
  | nil => exact recordAt_cons obs (f {}) [] k
  | cons e data ih =>
    obtain ⟨o, r⟩ := e
    rw [updateSync]
    split
    · rename_i h
      have hkey := Observation.eq_and_hasSameHb_iff.1 h
      rw [recordAt_cons, recordAt_cons, hkey]
      by_cases hk : obs.key = k
      · simp [hk]
      · simp [hk]
    · rename_i h
      have hkey : o.key ≠ obs.key := fun hc => h (Observation.eq_and_hasSameHb_iff.2 hc)
      rw [recordAt_cons, recordAt_cons, ih]
      by_cases hk : obs.key = k
      · have hok : ¬ o.key = k := fun hc => hkey (hc.trans hk.symm)
        rw [if_neg hok, if_pos hk, if_pos hk, if_neg hok]
      · rw [if_neg hk, if_neg hk]

theorem keys_updateSync (f : Record → Record) (obs : Observation)
    (data : List (Observation × Record)) :
    keys (updateSync f obs data) =
      if obs.key ∈ keys data then keys data else keys data ++ [obs.key] := by
  induction data with
  | nil => rfl
  | cons e data ih =>
    obtain ⟨o, r⟩ := e
    rw [updateSync]
    split
    · rename_i h
      have hkey := Observation.eq_and_hasSameHb_iff.1 h
      have hmem : obs.key ∈ keys ((o, r) :: data) := by
        rw [← hkey]
        exact List.mem_cons_self
      rw [if_pos hmem]
      rfl
    · rename_i h
      have hkey : ¬ obs.key = o.key := fun hc => h (Observation.eq_and_hasSameHb_iff.2 hc.symm)
      have hcons : ∀ r (data : List (Observation × Record)),
          keys ((o, r) :: data) = o.key :: keys data := fun _ _ => rfl
      have hmem : obs.key ∈ o.key :: keys data ↔ obs.key ∈ keys data := by
        rw [List.mem_cons, or_iff_right hkey]
      rw [hcons, hcons, ih]
      by_cases hdata : obs.key ∈ keys data
      · rw [if_pos hdata, if_pos (hmem.2 hdata)]
      · rw [if_neg hdata, if_neg (fun hc => hdata (hmem.1 hc))]
        rfl

theorem nodup_keys_updateSync (f : Record → Record) (obs : Observation)
    {data : List (Observation × Record)} (h : (keys data).Nodup) :
    (keys (updateSync f obs data)).Nodup := by
  rw [keys_updateSync]
  split
  · exact h
  · rename_i hmem
    refine List.nodup_append.2 ⟨h, List.nodup_singleton _, fun k hk k' hk' => ?_⟩
    rintro rfl
    exact hmem (List.mem_singleton.1 hk' ▸ hk)

theorem recordAt_eq_some {data : List (Observation × Record)} (h : (keys data).Nodup) {k : Key}
    {r : Record} : recordAt data k = some r ↔ ∃ o, (o, r) ∈ data ∧ o.key = k := by
  induction data with
  | nil => simp [recordAt]
  | cons e data ih =>
    obtain ⟨o, r'⟩ := e
    have hkeys : keys ((o, r') :: data) = o.key :: keys data := rfl
    rw [hkeys, List.nodup_cons] at h
    rw [recordAt_cons]
    by_cases hk : o.key = k
    · rw [if_pos hk]
      refine ⟨fun hr => ?_, ?_⟩
      · exact ⟨o, by rw [Option.some.inj hr]; exact List.mem_cons_self, hk⟩
      · rintro ⟨o', hmem, hk'⟩
        rcases List.mem_cons.1 hmem with heq | hmem
        · rw [(Prod.mk.inj heq).2]
        · exact absurd (List.mem_map.2 ⟨_, hmem, hk'.trans hk.symm⟩) h.1
    · rw [if_neg hk, ih h.2]
      refine ⟨?_, ?_⟩
      · rintro ⟨o', hmem, hk'⟩
        exact ⟨o', List.mem_cons_of_mem _ hmem, hk'⟩
      · rintro ⟨o', hmem, hk'⟩
        rcases List.mem_cons.1 hmem with heq | hmem
        · rw [(Prod.mk.inj heq).1] at hk'
          exact absurd hk' hk
        · exact ⟨o', hmem, hk'⟩

/-- The order of the entries makes no difference to a lookup. -/
theorem recordAt_perm {data data' : List (Observation × Record)} (hp : data.Perm data')
    (h : (keys data).Nodup) (k : Key) : recordAt data' k = recordAt data k := by
  have h' : (keys data').Nodup := (hp.map _).nodup_iff.1 h
  refine Option.ext fun r => ?_
  rw [recordAt_eq_some h, recordAt_eq_some h']
  simp only [hp.mem_iff]

/-- The record two lookups give when they are merged. -/
def mergeAt (o : Option Record) : Option Record → Option Record
  | none => o
  | some r' => some (Record.merge (o.getD {}) r')

/-- What merging does to a record. -/
theorem recordAt_merge {data other : List (Observation × Record)} (h : (keys other).Nodup)
    (k : Key) :
    recordAt (other.foldl (fun data e => updateSync (Record.merge · e.2) e.1 data) data) k =
      mergeAt (recordAt data k) (recordAt other k) := by
  induction other generalizing data with
  | nil => rfl
  | cons e other ih =>
    obtain ⟨o, r⟩ := e
    have hkeys : keys ((o, r) :: other) = o.key :: keys other := rfl
    rw [hkeys, List.nodup_cons] at h
    rw [List.foldl_cons, ih h.2, recordAt_updateSync, recordAt_cons]
    by_cases hk : o.key = k
    · have hnone : recordAt other k = none := by
        rw [← Option.not_isSome_iff_eq_none, recordAt_isSome, ← hk]
        exact h.1
      rw [if_pos hk, if_pos hk, hnone]
      rfl
    · rw [if_neg hk, if_neg hk]

theorem nodup_keys_merge {data other : List (Observation × Record)} (h : (keys data).Nodup) :
    (keys (other.foldl (fun data e => updateSync (Record.merge · e.2) e.1 data) data)).Nodup := by
  induction other generalizing data with
  | nil => exact h
  | cons e other ih => exact ih (nodup_keys_updateSync _ _ h)

/-! ## Collecting executions -/

section Collect

variable {X : Type*} (obs : X → Observation) (lin : X → Linearization)

/-- One specification that collects executions one after the other. -/
def collect (l : List X) : Specification :=
  l.foldl (fun spec x => spec.add (obs x) (lin x)) {}

/-- A specification that some executions went into: by adding them, by merging specifications, and
with the entries of the multimap in any order. -/
inductive Combined : Multiset X → Specification → Prop
  | empty : Combined 0 {}
  | add {s : Multiset X} {spec : Specification} (x : X) :
      Combined s spec → Combined (x ::ₘ s) (spec.add (obs x) (lin x))
  | merge {s s' : Multiset X} {spec other : Specification} :
      Combined s spec → Combined s' other → Combined (s + s') (spec.merge other)
  | reorder {s : Multiset X} {spec : Specification} {data : List (Observation × Record)} :
      Combined s spec → spec.data.Perm data → Combined s { spec with data := data }

/-- What there should be for a key: no record if the key was not seen, else a record with the
linearizations of the executions that have the key. -/
def Collected (s : Multiset X) (k : Key) : Option Record → Prop
  | none => ∀ x ∈ s, (obs x).key ≠ k
  | some r => (∃ x ∈ s, (obs x).key = k) ∧ r.lins.Sorted ∧
      ∀ y, y ∈ r.lins ↔ ∃ x ∈ s, (obs x).key = k ∧ lin x = y

variable {obs lin}

theorem Collected.sorted {s : Multiset X} {k : Key} {o : Option Record}
    (h : Collected obs lin s k o) : (o.getD {}).lins.Sorted := by
  cases o with
  | none => exact VSet.sorted_empty
  | some r => exact h.2.1

theorem Collected.mem_iff {s : Multiset X} {k : Key} {o : Option Record}
    (h : Collected obs lin s k o) (y : Linearization) :
    y ∈ (o.getD {}).lins ↔ ∃ x ∈ s, (obs x).key = k ∧ lin x = y := by
  cases o with
  | none =>
    refine ⟨fun hy => absurd hy List.not_mem_nil, ?_⟩
    rintro ⟨x, hx, hk, -⟩
    exact absurd hk (h x hx)
  | some r => exact h.2.2 y

theorem Collected.add {s : Multiset X} {k : Key} {o : Option Record}
    (h : Collected obs lin s k o) (x : X) :
    Collected obs lin (x ::ₘ s) k (if (obs x).key = k then
      some { o.getD {} with lins := (o.getD {}).lins.insert (lin x) } else o) := by
  split
  · rename_i hk
    refine ⟨⟨x, Multiset.mem_cons_self x s, hk⟩, h.sorted.insert _, fun y => ?_⟩
    rw [VSet.mem_insert, h.mem_iff]
    refine ⟨?_, ?_⟩
    · rintro (rfl | ⟨x', hx', hk', hy⟩)
      · exact ⟨x, Multiset.mem_cons_self x s, hk, rfl⟩
      · exact ⟨x', Multiset.mem_cons_of_mem hx', hk', hy⟩
    · rintro ⟨x', hx', hk', hy⟩
      rcases Multiset.mem_cons.1 hx' with rfl | hx'
      · exact .inl hy.symm
      · exact .inr ⟨x', hx', hk', hy⟩
  · rename_i hk
    cases o with
    | none =>
      intro x' hx'
      rcases Multiset.mem_cons.1 hx' with rfl | hx'
      · exact hk
      · exact h x' hx'
    | some r =>
      obtain ⟨⟨x', hx', hk'⟩, hs, hmem⟩ := h
      refine ⟨⟨x', Multiset.mem_cons_of_mem hx', hk'⟩, hs, fun y => (hmem y).trans ?_⟩
      refine ⟨?_, ?_⟩
      · rintro ⟨x'', hx'', hy⟩
        exact ⟨x'', Multiset.mem_cons_of_mem hx'', hy⟩
      · rintro ⟨x'', hx'', hk'', hy⟩
        rcases Multiset.mem_cons.1 hx'' with rfl | hx''
        · exact absurd hk'' hk
        · exact ⟨x'', hx'', hk'', hy⟩

theorem Collected.merge {s s' : Multiset X} {k : Key} {o o' : Option Record}
    (h : Collected obs lin s k o) (h' : Collected obs lin s' k o') :
    Collected obs lin (s + s') k (mergeAt o o') := by
  have hunion : ∀ y, (∃ x ∈ s + s', (obs x).key = k ∧ lin x = y) ↔
      (∃ x ∈ s, (obs x).key = k ∧ lin x = y) ∨ ∃ x ∈ s', (obs x).key = k ∧ lin x = y := by
    intro y
    simp only [Multiset.mem_add]
    refine ⟨?_, ?_⟩
    · rintro ⟨x, hx | hx, hy⟩
      · exact .inl ⟨x, hx, hy⟩
      · exact .inr ⟨x, hx, hy⟩
    · rintro (⟨x, hx, hy⟩ | ⟨x, hx, hy⟩)
      · exact ⟨x, .inl hx, hy⟩
      · exact ⟨x, .inr hx, hy⟩
  cases o' with
  | none =>
    have hnot : ∀ y, ¬ ∃ x ∈ s', (obs x).key = k ∧ lin x = y := by
      rintro y ⟨x, hx, hk, -⟩
      exact h' x hx hk
    cases o with
    | none =>
      intro x hx
      rcases Multiset.mem_add.1 hx with hx | hx
      · exact h x hx
      · exact h' x hx
    | some r =>
      obtain ⟨⟨x, hx, hk⟩, hs, hmem⟩ := h
      refine ⟨⟨x, Multiset.mem_add.2 (.inl hx), hk⟩, hs, fun y => ?_⟩
      rw [hmem, hunion, or_iff_left (hnot y)]
  | some r' =>
    obtain ⟨⟨x, hx, hk⟩, hs, hmem⟩ := h'
    obtain ⟨hsorted, hins⟩ := VSet.insertSet_spec hs h.sorted
    refine ⟨⟨x, Multiset.mem_add.2 (.inr hx), hk⟩, hsorted, fun y => ?_⟩
    rw [hunion, ← hmem, ← h.mem_iff]
    exact hins y

/-- **Every specification has what was put into it.** -/
theorem Combined.collected {s : Multiset X} {spec : Specification}
    (h : Combined obs lin s spec) :
    (keys spec.data).Nodup ∧ ∀ k, Collected obs lin s k (recordAt spec.data k) := by
  induction h with
  | empty => exact ⟨List.nodup_nil, fun k x hx => absurd hx (Multiset.notMem_zero x)⟩
  | add x _ ih =>
    refine ⟨nodup_keys_updateSync _ _ ih.1, fun k => ?_⟩
    rw [Specification.add, recordAt_updateSync]
    exact (ih.2 k).add x
  | merge _ _ ih ih' =>
    refine ⟨nodup_keys_merge ih.1, fun k => ?_⟩
    rw [Specification.merge, recordAt_merge ih'.1]
    exact (ih.2 k).merge (ih'.2 k)
  | reorder _ hp ih =>
    refine ⟨(hp.map _).nodup_iff.1 ih.1, fun k => ?_⟩
    rw [recordAt_perm hp ih.1]
    exact ih.2 k

theorem combined_foldl {s : Multiset X} {spec : Specification} (h : Combined obs lin s spec)
    (l : List X) :
    Combined obs lin (s + ↑l) (l.foldl (fun spec x => spec.add (obs x) (lin x)) spec) := by
  induction l generalizing s spec with
  | nil => simpa using h
  | cons x l ih =>
    have hsum : s + ↑(x :: l) = (x ::ₘ s) + ↑l := by
      rw [← Multiset.cons_coe, Multiset.add_cons, Multiset.cons_add]
    rw [hsum]
    exact ih (h.add x)

/-- Two lookups that should find the same find the same linearizations. -/
theorem Collected.lins_eq {s : Multiset X} {k : Key} {o o' : Option Record}
    (h : Collected obs lin s k o) (h' : Collected obs lin s k o') :
    o.map (·.lins) = o'.map (·.lins) := by
  cases o with
  | none =>
    cases o' with
    | none => rfl
    | some r' =>
      obtain ⟨⟨x, hx, hk⟩, -⟩ := h'
      exact absurd hk (h x hx)
  | some r =>
    cases o' with
    | none =>
      obtain ⟨⟨x, hx, hk⟩, -⟩ := h
      exact absurd hk (h' x hx)
    | some r' =>
      have heq : r.lins = r'.lins :=
        VSet.Sorted.ext h.2.1 h'.2.1 fun y => (h.2.2 y).trans (h'.2.2 y).symm
      exact congrArg some heq

/-- **How the executions are split, merged and ordered makes no difference.**  There is one record
for each observation, and it has the linearizations that a single specification collects. -/
theorem combined_order_independent {s : Multiset X} {spec : Specification}
    (h : Combined obs lin s spec) :
    (keys spec.data).Nodup ∧ (∀ k, k ∈ keys spec.data ↔ ∃ x ∈ s, (obs x).key = k) ∧
      ∀ l : List X, ↑l = s → ∀ k, (recordAt spec.data k).map (·.lins) =
        (recordAt (collect obs lin l).data k).map (·.lins) := by
  obtain ⟨hnodup, hcoll⟩ := h.collected
  refine ⟨hnodup, fun k => ?_, fun l hl k => ?_⟩
  · rw [← recordAt_isSome]
    have hk := hcoll k
    cases hr : recordAt spec.data k with
    | none =>
      rw [hr] at hk
      refine ⟨fun hc => absurd hc Bool.false_ne_true, ?_⟩
      rintro ⟨x, hx, hxk⟩
      exact absurd hxk (hk x hx)
    | some r =>
      rw [hr] at hk
      exact ⟨fun _ => hk.1, fun _ => rfl⟩
  · have hsingle := combined_foldl (@Combined.empty _ obs lin) l
    rw [Multiset.zero_add, hl] at hsingle
    exact (hcoll k).lins_eq (hsingle.collected.2 k)

end Collect

/-- An `enq` that happens before a `deq`. -/
def enqDeq : Observation :=
  { ops := [⟨⟨"enq", 1, 0⟩, (0, 0)⟩, ⟨⟨"deq", 0, 1⟩, (1, 0)⟩], hb := ⟨[⟨0, 1⟩]⟩ }

/-- Two workers that see the same observation, one of them twice. -/
def twoWorkers : Specification :=
  ((({} : Specification).add enqDeq ⟨[0, 1]⟩).add enqDeq ⟨[1, 0]⟩).merge
    (({} : Specification).add enqDeq ⟨[0, 1]⟩)

theorem twoWorkers_order_independent :
    ∃ s : Multiset Linearization,
      s = {⟨[1, 0]⟩, ⟨[0, 1]⟩, ⟨[0, 1]⟩} ∧ Combined (fun _ => enqDeq) id s twoWorkers ∧
      (keys twoWorkers.data).Nodup ∧
      (∀ k, k ∈ keys twoWorkers.data ↔ ∃ x ∈ s, enqDeq.key = k) ∧
      ∀ l : List Linearization, ↑l = s → ∀ k, (recordAt twoWorkers.data k).map (·.lins) =
        (recordAt (collect (fun _ => enqDeq) id l).data k).map (·.lins) := by
  have h := (((@Combined.empty _ (fun _ => enqDeq) id).add ⟨[0, 1]⟩).add ⟨[1, 0]⟩).merge
    (Combined.empty.add ⟨[0, 1]⟩)
  exact ⟨_, rfl, h, combined_order_independent h⟩

end Specification
end GenMC
