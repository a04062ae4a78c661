import GenMC.Relinche.Construction
import Mathlib.Tactic

/-!
# The numbers of method calls

While the calls of a graph are collected, each call of a thread other than the main one gets a kind
and a copy: the copy goes up as long as the calls have the same name, and each change of the name
starts a new kind.  Whether the name changes is asked of the last call that was collected.

* `wellNumbered_iff`: calls get different pairs, unless `int16_t` overflows.
* `populateOpsRf_safe_iff`: collecting the calls reads a last call that there is not if the main
  thread has no calls and another thread has one; **otherwise, it is total and tells the calls
  apart**, with the same exception.
-/

set_option autoImplicit false

namespace GenMC.Observation

open PopulateState

/-! ## Kinds and copies -/

/-- The kind and the copy of a call, from those of the last one. -/
def nextNumber (last name : String) (kc : ℤ × ℤ) : ℤ × ℤ :=
  if last = name then (kc.1, kc.2 + 1) else (kc.1 + 1, 1)

/-- The kinds and the copies of some calls. -/
def numbers (last : String) (kc : ℤ × ℤ) : List String → List (ℤ × ℤ)
  | [] => []
  | name :: names => nextNumber last name kc :: numbers name (nextNumber last name kc) names

theorem numbers_append (last : String) (kc : ℤ × ℤ) (as bs : List String) :
    numbers last kc (as ++ bs) = numbers last kc as ++
      numbers (as.getLast?.getD last) ((numbers last kc as).getLast?.getD kc) bs := by
  induction as generalizing last kc with
  | nil => rfl
  | cons a as ih =>
    rw [List.cons_append, numbers, numbers, ih, List.cons_append, List.getLast?_cons,
      List.getLast?_cons, Option.getD_some, Option.getD_some]

/-- The calls with indices below `n` are numbered one after the other. -/
def Numbered (n : ℕ) (name : ℕ → String) (kc : ℕ → ℤ × ℤ) : Prop :=
  ∀ t, t + 1 < n → kc (t + 1) = nextNumber (name t) (name (t + 1)) (kc t)

theorem numbered_numbers (last : String) (kc : ℤ × ℤ) (names : List String) :
    Numbered names.length (names.getD · "") ((numbers last kc names).getD · 0) := by
  intro t ht
  induction names generalizing last kc t with
  | nil => simp at ht
  | cons name names ih =>
    cases names with
    | nil => simp at ht
    | cons name' names =>
      cases t with
      | zero => rfl
      | succ t => exact ih name (nextNumber last name kc) t (by simpa using ht)

section Numbered

variable {n i j : ℕ} {name : ℕ → String} {kc : ℕ → ℤ × ℤ}

/-- The calls from one index to another one have the same name. -/
def SameNames (name : ℕ → String) (i j : ℕ) : Prop := ∀ t, i ≤ t → t < j → name t = name (t + 1)

theorem SameNames.eq (h : SameNames name i j) {t : ℕ} (hi : i ≤ t) (hj : t ≤ j) :
    name t = name i := by
  induction t, hi using Nat.le_induction with
  | base => rfl
  | succ t hi ih =>
    rw [← h t hi hj]
    exact ih (Nat.le_of_succ_le hj)

theorem Numbered.kind_le_succ (h : Numbered n name kc) {t : ℕ} (ht : t + 1 < n) :
    (kc t).1 ≤ (kc (t + 1)).1 ∧ (kc (t + 1)).1 ≤ (kc t).1 + 1 := by
  rw [h t ht, nextNumber]
  split
  · exact ⟨le_rfl, by simp⟩
  · exact ⟨by simp, le_rfl⟩

theorem Numbered.kind_mono (h : Numbered n name kc) (hij : i ≤ j) (hj : j < n) :
    (kc i).1 ≤ (kc j).1 := by
  induction j, hij using Nat.le_induction with
  | base => exact le_rfl
  | succ j hij ih => exact (ih (Nat.lt_of_succ_lt hj)).trans (h.kind_le_succ hj).1

/-- Calls of the same kind have the same name, and so have those between them. -/
theorem Numbered.sameNames_iff (h : Numbered n name kc) (hij : i ≤ j) (hj : j < n) :
    SameNames name i j ↔ (kc i).1 = (kc j).1 := by
  induction j, hij using Nat.le_induction with
  | base => exact iff_of_true (fun t hi hj => absurd hj (not_lt.2 hi)) rfl
  | succ j hij ih =>
    have ih := ih (Nat.lt_of_succ_lt hj)
    have hmono := h.kind_mono hij (Nat.lt_of_succ_lt hj)
    have hstep := h j hj
    rw [nextNumber] at hstep
    refine ⟨fun hsame => ?_, fun heq => ?_⟩
    · rw [if_pos (hsame j hij (Nat.lt_succ_self j))] at hstep
      rw [hstep]
      exact ih.1 fun t hi ht => hsame t hi (Nat.lt_succ_of_lt ht)
    · split at hstep
      · rename_i hname
        rw [hstep] at heq
        intro t hi ht
        rcases Nat.lt_succ_iff_lt_or_eq.1 ht with ht | rfl
        · exact ih.2 heq t hi ht
        · exact hname
      · rw [hstep] at heq
        simp only at heq
        omega

/-- Calls of the same kind have their copies in order. -/
theorem Numbered.copy_eq (h : Numbered n name kc) (hij : i ≤ j) (hj : j < n)
    (hsame : SameNames name i j) : (kc j).2 = (kc i).2 + (j - i : ℕ) := by
  induction j, hij using Nat.le_induction with
  | base => simp
  | succ j hij ih =>
    have ih := ih (Nat.lt_of_succ_lt hj) fun t hi ht => hsame t hi (Nat.lt_succ_of_lt ht)
    rw [h j hj, nextNumber, if_pos (hsame j hij (Nat.lt_succ_self j)), ih, Nat.succ_sub hij]
    push_cast
    ring

/-- No kind is left out. -/
theorem Numbered.exists_kind (h : Numbered n name kc) (hij : i ≤ j) (hj : j < n) {k : ℤ}
    (hi : (kc i).1 ≤ k) (hk : k ≤ (kc j).1) : ∃ t, i ≤ t ∧ t ≤ j ∧ (kc t).1 = k := by
  induction j, hij using Nat.le_induction with
  | base => exact ⟨i, le_rfl, le_rfl, le_antisymm hi hk⟩
  | succ j hij ih =>
    by_cases hlt : k ≤ (kc j).1
    · obtain ⟨t, hit, htj, ht⟩ := ih (Nat.lt_of_succ_lt hj) hlt
      exact ⟨t, hit, Nat.le_succ_of_le htj, ht⟩
    · have := (h.kind_le_succ hj).2
      exact ⟨j + 1, Nat.le_succ_of_le hij, le_rfl, by omega⟩

/-- How often the name changes. -/
def changes (n : ℕ) (name : ℕ → String) : ℕ :=
  ((Finset.range (n - 1)).filter fun t => name t ≠ name (t + 1)).card

theorem Numbered.kind_eq (h : Numbered (n + 1) name kc) :
    (kc n).1 = (kc 0).1 + changes (n + 1) name := by
  induction n with
  | zero => simp [changes]
  | succ n ih =>
    have ih := ih fun t ht => h t (Nat.lt_succ_of_lt ht)
    have hstep := h n (Nat.lt_succ_self _)
    rw [changes, Nat.add_sub_cancel, Finset.range_add_one, Finset.filter_insert]
    rw [changes, Nat.add_sub_cancel] at ih
    rw [nextNumber] at hstep
    split at hstep
    · rename_i hname
      rw [if_neg (not_not.2 hname), hstep]
      exact ih
    · rename_i hname
      rw [if_pos hname, Finset.card_insert_of_notMem (by simp), hstep]
      simp only
      rw [ih]
      push_cast
      ring

/-- The number of a call that is kept. -/
def toInt16s (kc : ℤ × ℤ) : ℤ × ℤ := (toInt16 kc.1, toInt16 kc.2)

theorem toInt16_eq_iff {a b : ℤ} : toInt16 a = toInt16 b ↔ (2 ^ 16 : ℤ) ∣ b - a := by
  rw [eq_comm, toInt16, toInt16, Int.bmod_eq_bmod_iff_bmod_sub_eq_zero, ← Int.dvd_iff_bmod_eq_zero]
  rfl

/-- The names change less than `2 ^ 16` times, and there are never more than `2 ^ 16` calls with one
name after each other. -/
def Countable (n : ℕ) (name : ℕ → String) : Prop :=
  changes n name < 2 ^ 16 ∧ ∀ i, i + 2 ^ 16 < n → ¬ SameNames name i (i + 2 ^ 16)

/-- **The numbers that are kept tell the calls apart** if they can be counted with 16 bits. -/
theorem Numbered.distinct_iff (h : Numbered n name kc) :
    (∀ i j, i < j → j < n → toInt16s (kc i) ≠ toInt16s (kc j) ∧
      (toInt16 (kc i).1 = toInt16 (kc j).1 → SameNames name i j)) ↔ Countable n name := by
  refine ⟨fun hall => ?_, ?_⟩
  · refine ⟨?_, fun i hi hsame => ?_⟩
    · by_contra hmany
      obtain ⟨n, rfl⟩ : ∃ m, n = m + 1 := by
        refine Nat.exists_eq_add_one.2 (Nat.pos_of_ne_zero ?_)
        rintro rfl
        simp [changes] at hmany
      have hkind := h.kind_eq
      obtain ⟨t, -, htn, ht⟩ := h.exists_kind (Nat.zero_le n) (Nat.lt_succ_self n)
        (k := (kc 0).1 + 2 ^ 16) (by omega) (by omega)
      have hpos : 0 < t := by
        refine Nat.pos_of_ne_zero ?_
        rintro rfl
        omega
      have hsame := (hall 0 t hpos (Nat.lt_succ_of_le htn)).2 (toInt16_eq_iff.2 ⟨1, by omega⟩)
      have := (h.sameNames_iff (Nat.zero_le t) (Nat.lt_succ_of_le htn)).1 hsame
      omega
    · have hle : i ≤ i + 2 ^ 16 := Nat.le_add_right _ _
      have hkind := (h.sameNames_iff hle hi).1 hsame
      have hcopy := h.copy_eq hle hi hsame
      refine (hall i (i + 2 ^ 16) (by omega) hi).1 (Prod.ext ?_ ?_)
      · exact congrArg toInt16 hkind
      · refine toInt16_eq_iff.2 ⟨1, ?_⟩
        rw [hcopy, Nat.add_sub_cancel_left]
        push_cast
        ring
  · rintro ⟨hfew, hshort⟩ i j hij hj
    have hkinds : toInt16 (kc i).1 = toInt16 (kc j).1 → SameNames name i j := by
      intro heq
      obtain ⟨c, hc⟩ := toInt16_eq_iff.1 heq
      obtain ⟨n, rfl⟩ : ∃ m, n = m + 1 := Nat.exists_eq_add_one.2 (Nat.zero_lt_of_lt hj)
      have h0 := h.kind_mono (Nat.zero_le i) (hij.trans hj)
      have hn := h.kind_mono (Nat.le_of_lt_succ hj) (Nat.lt_succ_self n)
      have hmono := h.kind_mono hij.le hj
      have hkind := h.kind_eq
      refine (h.sameNames_iff hij.le hj).2 ?_
      omega
    refine ⟨fun heq => ?_, hkinds⟩
    have hsame := hkinds (congrArg Prod.fst heq)
    obtain ⟨c, hc⟩ := toInt16_eq_iff.1 (congrArg Prod.snd heq)
    have hcopy := h.copy_eq hij.le hj hsame
    -- the copies differ by a multiple of `2 ^ 16`, so that there are enough calls between them
    have hfar : i + 2 ^ 16 ≤ j := by omega
    exact hshort i (by omega) fun t hi ht => hsame t hi (ht.trans_le hfar)

end Numbered

/-! ## Threads with calls -/

/-- Whether a call is open after a label, if calls are balanced and not nested. -/
def callStep (o : Bool) (lab : EventLabel) : Option Bool :=
  if lab.kind = .MethodBegin then if o then none else some true
  else if lab.kind = .MethodEnd then if o then some false else none
  else some o

/-- What is collected from: the calls of each thread are balanced and not nested, and each read
reads from something. -/
structure Collectable (g : ExecutionGraph) : Prop where
  balanced : ∀ thread ∈ g.events, thread.foldlM callStep false = some false
  reads : ∀ thread ∈ g.events, ∀ lab ∈ thread, lab.isRead = true → lab.rf.isSome = true

/-- The names of the calls of a thread. -/
def callNames (labs : List EventLabel) : List String :=
  (labs.filter (·.kind = .MethodEnd)).map (·.name)

def mainCalls (g : ExecutionGraph) : List String := callNames (g.events.getD 0 [])

/-- The names of the calls of all other threads. -/
def workerCalls (g : ExecutionGraph) : List String :=
  (List.range' 1 (g.getNumThreads - 1)).flatMap fun tid => callNames (g.events.getD tid [])

namespace PopulateState

/-- The last number. -/
def kc (s : PopulateState) : ℤ × ℤ := (s.thdKindIx, s.thdCopyIx)

/-- The name of the last call. -/
def lastName (s : PopulateState) : String := (s.ops.getLast?.map (·.name)).getD ""

/-- The numbers of the next calls, which are all the same in the main thread. -/
def nextNumbers (tid : ℕ) (s : PopulateState) (names : List String) : List (ℤ × ℤ) :=
  if tid = 0 then names.map fun _ => s.kc else numbers s.lastName s.kc names

/-- Some calls were collected since an earlier state. -/
structure Collected (tid : ℕ) (s s' : PopulateState) (names : List String) : Prop where
  ops : ∃ calls, s'.ops = s.ops ++ calls ∧ calls.map (·.name) = names ∧
    calls.map (·.thdKC) = (s.nextNumbers tid names).map toInt16s
  kc : s'.kc = (s.nextNumbers tid names).getLast?.getD s.kc

variable {tid : ℕ} {s s' s'' : PopulateState} {lab : EventLabel} {o o' : Bool}

theorem collected_of_eq (hops : s'.ops = s.ops) (hkc : s'.kc = s.kc) : Collected tid s s' [] := by
  have hnil : s.nextNumbers tid [] = [] := by
    rw [nextNumbers]
    split <;> rfl
  refine ⟨⟨[], by rw [hops, List.append_nil], rfl, by rw [hnil]; rfl⟩, ?_⟩
  rw [hnil]
  exact hkc

theorem outside_eq (h : lab.isRead = true → lab.rf.isSome = true) :
    ∃ s', s.outside lab = some s' ∧ s'.ops = s.ops ∧ s'.kc = s.kc ∧ s'.openBegin = s.openBegin := by
  rw [outside]
  split
  · rename_i hread
    obtain ⟨rf, hrf⟩ := Option.isSome_iff_exists.1 (h hread)
    rw [hrf]
    exact ⟨_, rfl, rfl, rfl, rfl⟩
  · split
    · exact ⟨_, rfl, rfl, rfl, rfl⟩
    · exact ⟨_, rfl, rfl, rfl, rfl⟩

theorem lastName_append (s : PopulateState) {s' : PopulateState} {calls : List GraphCall}
    (h : s'.ops = s.ops ++ calls) :
    s'.lastName = (calls.map (·.name)).getLast?.getD s.lastName := by
  rw [lastName, h, List.getLast?_append, lastName, List.getLast?_map]
  cases calls.getLast? <;> rfl

/-- One after the other. -/
theorem Collected.trans {names names' : List String} (h : Collected tid s s' names)
    (h' : Collected tid s' s'' names') : Collected tid s s'' (names ++ names') := by
  obtain ⟨⟨calls, hops, hnames, hkcs⟩, hkc⟩ := h
  obtain ⟨⟨calls', hops', hnames', hkcs'⟩, hkc'⟩ := h'
  have hnumbers : s.nextNumbers tid (names ++ names') =
      s.nextNumbers tid names ++ s'.nextNumbers tid names' := by
    rw [nextNumbers, nextNumbers, nextNumbers]
    split
    · rename_i h0
      rw [List.map_append, hkc, nextNumbers, if_pos h0, List.getLast?_map]
      cases names.getLast? <;> rfl
    · rename_i h0
      rw [numbers_append, ← hnames, ← lastName_append s hops, hnames, hkc, nextNumbers, if_neg h0]
  refine ⟨⟨calls ++ calls', ?_, ?_, ?_⟩, ?_⟩
  · rw [hops', hops, List.append_assoc]
  · rw [List.map_append, hnames, hnames']
  · rw [List.map_append, hkcs, hkcs', hnumbers, List.map_append]
  · rw [hnumbers, List.getLast?_append, hkc', hkc]
    cases (s'.nextNumbers tid names').getLast? <;> rfl

/-- The end of a call. -/
theorem closeCall_eq (beginLab endLab : EventLabel) (h : 0 < tid → s.ops ≠ []) :
    ∃ s', s.closeCall tid beginLab endLab = some s' ∧ s'.openBegin = none ∧
      Collected tid s s' [endLab.name] := by
  rcases Nat.eq_zero_or_pos tid with rfl | htid
  · refine ⟨_, rfl, rfl, ⟨_, rfl, rfl, rfl⟩, rfl⟩
  · obtain ⟨last, hlast⟩ : ∃ last, s.ops.getLast? = some last :=
      ⟨_, List.getLast?_eq_some_getLast (h htid)⟩
    have hnumbers : s.nextNumbers tid [endLab.name] = [nextNumber last.name endLab.name s.kc] := by
      rw [nextNumbers, if_neg htid.ne', lastName, hlast]
      rfl
    rw [closeCall, countThread, if_pos htid, hlast, Option.map_some, Option.map_some]
    rw [nextNumber] at hnumbers
    by_cases hname : last.name = endLab.name
    · rw [if_pos hname] at hnumbers ⊢
      exact ⟨_, rfl, rfl, ⟨_, rfl, rfl, by rw [hnumbers]; rfl⟩, by rw [hnumbers]; rfl⟩
    · rw [if_neg hname] at hnumbers ⊢
      exact ⟨_, rfl, rfl, ⟨_, rfl, rfl, by rw [hnumbers]; rfl⟩, by rw [hnumbers]; rfl⟩

end PopulateState

section Run

variable {g : ExecutionGraph} {tid : ℕ} {s : PopulateState} {lab : EventLabel} {o o' : Bool}

/-- One label: a call that ends there is collected, if there is a last call. -/
theorem populateLabel_eq (hstep : callStep o lab = some o')
    (hread : lab.isRead = true → lab.rf.isSome = true) (ho : s.openBegin.isSome = o)
    (hlast : 0 < tid → callNames [lab] ≠ [] → s.ops ≠ []) :
    ∃ s', populateLabel tid s lab = some s' ∧ s'.openBegin.isSome = o' ∧
      Collected tid s s' (callNames [lab]) := by
  rw [populateLabel]
  rw [callStep] at hstep
  split at hstep
  · rename_i hbegin
    have hnames : callNames [lab] = [] := by simp [callNames, hbegin]
    cases o with
    | true => cases hstep
    | false =>
      cases hstep
      rw [if_pos hbegin, ho, if_neg Bool.false_ne_true, hnames]
      exact ⟨_, rfl, rfl, collected_of_eq rfl rfl⟩
  · rename_i hbegin
    split at hstep
    · rename_i hend
      have hnames : callNames [lab] = [lab.name] := by simp [callNames, hend]
      cases o with
      | false => cases hstep
      | true =>
        cases hstep
        obtain ⟨beginLab, hopen⟩ := Option.isSome_iff_exists.1 ho
        rw [if_neg hbegin, if_pos hend, hopen, Option.bind_some, hnames]
        obtain ⟨s', hclose, hopen', hcollected⟩ := closeCall_eq beginLab lab fun htid =>
          hlast htid (by rw [hnames]; exact List.cons_ne_nil _ _)
        exact ⟨s', hclose, by rw [hopen']; rfl, hcollected⟩
    · rename_i hend
      have hnames : callNames [lab] = [] := by simp [callNames, hend]
      cases hstep
      rw [if_neg hbegin, if_neg hend, hnames]
      split
      · exact ⟨s, rfl, ho, collected_of_eq rfl rfl⟩
      · obtain ⟨s', hs', hops, hkc, hopen⟩ := outside_eq (s := s) hread
        exact ⟨s', hs', by rw [hopen, ho], collected_of_eq hops hkc⟩

theorem callNames_cons (lab : EventLabel) (labs : List EventLabel) :
    callNames (lab :: labs) = callNames [lab] ++ callNames labs := by
  rw [callNames, callNames, callNames, ← List.map_append, ← List.filter_append]
  rfl

theorem PopulateState.Collected.ops_ne_nil {s s' : PopulateState} {names : List String}
    (h : Collected tid s s' names) (hs : s.ops ≠ []) : s'.ops ≠ [] := by
  obtain ⟨calls, hops, -⟩ := h.ops
  rw [hops]
  exact List.append_ne_nil_of_left_ne_nil hs _

/-- The labels of a thread, from any state on. -/
theorem foldlM_populateLabel (tid : ℕ) (labs : List EventLabel)
    (hsteps : labs.foldlM callStep o = some o')
    (hreads : ∀ lab ∈ labs, lab.isRead = true → lab.rf.isSome = true)
    (ho : s.openBegin.isSome = o) (hlast : 0 < tid → callNames labs ≠ [] → s.ops ≠ []) :
    ∃ s', labs.foldlM (populateLabel tid) s = some s' ∧ s'.openBegin.isSome = o' ∧
      Collected tid s s' (callNames labs) := by
  induction labs generalizing o s with
  | nil =>
    cases hsteps
    exact ⟨s, rfl, ho, collected_of_eq rfl rfl⟩
  | cons lab labs ih =>
    rw [List.foldlM_cons, Option.bind_eq_bind, Option.bind_eq_some_iff] at hsteps
    obtain ⟨o₁, hstep, hsteps⟩ := hsteps
    rw [callNames_cons] at hlast ⊢
    obtain ⟨s₁, hs₁, ho₁, hcollected₁⟩ := populateLabel_eq hstep (hreads lab List.mem_cons_self) ho
      fun htid hne => hlast htid (List.append_ne_nil_of_left_ne_nil hne _)
    obtain ⟨s', hs', ho', hcollected⟩ := ih hsteps
      (fun lab' hmem => hreads lab' (List.mem_cons_of_mem _ hmem)) ho₁ fun htid hne =>
        hcollected₁.ops_ne_nil (hlast htid (List.append_ne_nil_of_right_ne_nil _ hne))
    refine ⟨s', ?_, ho', hcollected₁.trans hcollected⟩
    rw [List.foldlM_cons, hs₁]
    exact hs'

theorem Collectable.thread (hg : Collectable g) (tid : ℕ) :
    (g.events.getD tid []).foldlM callStep false = some false ∧
      ∀ lab ∈ g.events.getD tid [], lab.isRead = true → lab.rf.isSome = true := by
  rw [List.getD_eq_getElem?_getD]
  cases hget : g.events[tid]? with
  | none => exact ⟨rfl, fun lab hlab => absurd hlab List.not_mem_nil⟩
  | some thread =>
    exact ⟨hg.balanced thread (List.mem_of_getElem? hget),
      hg.reads thread (List.mem_of_getElem? hget)⟩

/-- One thread. -/
theorem populateThread_eq (hg : Collectable g) (tid : ℕ)
    (hlast : 0 < tid → callNames (g.events.getD tid []) ≠ [] → s.ops ≠ []) :
    ∃ s', populateThread g s tid = some s' ∧
      Collected tid s s' (callNames (g.events.getD tid [])) := by
  have hthread := hg.thread tid
  obtain ⟨s', hs', ho', hcollected⟩ :=
    foldlM_populateLabel (s := { s with openBegin := none }) tid _
    hthread.1 hthread.2 rfl hlast
  refine ⟨s', ?_, hcollected.ops, hcollected.kc⟩
  rw [populateThread, hs', Option.bind_eq_bind, Option.bind_some, ho', if_neg Bool.false_ne_true]

/-- The names of the calls of a thread of a graph. -/
def threadCalls (g : ExecutionGraph) (tid : ℕ) : List String := callNames (g.events.getD tid [])

theorem PopulateState.Collected.of_pos {s s' : PopulateState} {names : List String} (htid : 0 < tid)
    (h : Collected tid s s' names) : Collected 1 s s' names := by
  have hnumbers : s.nextNumbers 1 names = s.nextNumbers tid names := by
    rw [nextNumbers, nextNumbers, if_neg Nat.one_ne_zero, if_neg htid.ne']
  obtain ⟨hops, hkc⟩ := h
  rw [← hnumbers] at hops hkc
  exact ⟨hops, hkc⟩

/-- Threads other than the main one. -/
theorem foldlM_populateThread (hg : Collectable g) (tids : List ℕ) (hpos : ∀ tid ∈ tids, 0 < tid)
    (hlast : tids.flatMap (threadCalls g) ≠ [] → s.ops ≠ []) :
    ∃ s', tids.foldlM (populateThread g) s = some s' ∧
      Collected 1 s s' (tids.flatMap (threadCalls g)) := by
  induction tids generalizing s with
  | nil => exact ⟨s, rfl, collected_of_eq rfl rfl⟩
  | cons tid tids ih =>
    rw [List.flatMap_cons] at hlast ⊢
    obtain ⟨s₁, hs₁, hcollected₁⟩ := populateThread_eq hg tid (s := s) fun _ hne =>
      hlast (List.append_ne_nil_of_left_ne_nil hne _)
    obtain ⟨s', hs', hcollected⟩ := ih (fun tid' hmem => hpos tid' (List.mem_cons_of_mem _ hmem))
      fun hne => hcollected₁.ops_ne_nil (hlast (List.append_ne_nil_of_right_ne_nil _ hne))
    refine ⟨s', ?_, (hcollected₁.of_pos (hpos tid List.mem_cons_self)).trans hcollected⟩
    rw [List.foldlM_cons, hs₁]
    exact hs'

/-- The main thread and the `n` threads after it. -/
theorem foldlM_range (hg : Collectable g) (n : ℕ)
    (h : mainCalls g ≠ [] ∨ (List.range' 1 n).flatMap (threadCalls g) = []) :
    ∃ s₀ s', (List.range (n + 1)).foldlM (populateThread g) {} = some s' ∧
      Collected 0 {} s₀ (mainCalls g) ∧
      Collected 1 s₀ s' ((List.range' 1 n).flatMap (threadCalls g)) := by
  obtain ⟨s₀, hs₀, hmain⟩ := populateThread_eq hg 0 (s := {}) fun h0 => absurd h0 (lt_irrefl 0)
  obtain ⟨s', hs', hworkers⟩ := foldlM_populateThread hg (s := s₀) (List.range' 1 n)
    (fun tid htid => (List.mem_range'_1.1 htid).1) fun hne => by
      have hmain' := h.resolve_right hne
      obtain ⟨calls, hops, hnames, -⟩ := hmain.ops
      rintro hnil
      rw [hnil] at hops
      have hcalls : calls = [] := hops.symm
      rw [hcalls] at hnames
      exact hmain' hnames.symm
  refine ⟨s₀, s', ?_, hmain, hworkers⟩
  rw [List.range_eq_range', List.range'_succ, List.foldlM_cons, hs₀]
  exact hs'

end Run

/-! ## The whole graph -/

section Graph

variable {g : ExecutionGraph}

/-- The state that a label of a thread finds. -/
def stateBefore (g : ExecutionGraph) (tid i : ℕ) : Option PopulateState := do
  let s ← (List.range tid).foldlM (populateThread g) {}
  ((g.events.getD tid []).take i).foldlM (populateLabel tid) { s with openBegin := none }

/-- Whenever the last call is read, there is one. -/
def NeverReadsEmpty (g : ExecutionGraph) : Prop :=
  ∀ (tid i : ℕ) (s : PopulateState) (lab : EventLabel), 0 < tid → stateBefore g tid i = some s →
    (g.events.getD tid [])[i]? = some lab → lab.kind = .MethodEnd → s.openBegin.isSome = true →
    s.ops ≠ []

/-- Two calls after the first `m` ones have different numbers, and if they are of the same kind,
then they and the calls between them have the same name. -/
def WellNumbered (m : ℕ) (ops : List GraphCall) : Prop :=
  ∀ (i j : ℕ) (a b : GraphCall), m ≤ i → i < j → ops[i]? = some a → ops[j]? = some b →
    a.thdKC ≠ b.thdKC ∧ (a.thdKC.1 = b.thdKC.1 → ∀ (t : ℕ) (c : GraphCall), i ≤ t → t ≤ j →
      ops[t]? = some c → c.name = a.name)

theorem wellNumbered_iff {main workers : List GraphCall} {last : String} {kc : ℤ × ℤ}
    (h : workers.map (·.thdKC) = (numbers last kc (workers.map (·.name))).map toInt16s) :
    WellNumbered main.length (main ++ workers) ↔
      Countable workers.length ((workers.map (·.name)).getD · "") := by
  have hnumbered := numbered_numbers last kc (workers.map (·.name))
  rw [List.length_map] at hnumbered
  rw [← hnumbered.distinct_iff]
  have hname : ∀ (i : ℕ) (a : GraphCall), workers[i]? = some a →
      (workers.map (·.name)).getD i "" = a.name := by
    intro i a ha
    rw [List.getD_eq_getElem?_getD, List.getElem?_map, ha]
    rfl
  have hkc : ∀ (i : ℕ) (a : GraphCall), workers[i]? = some a →
      toInt16s ((numbers last kc (workers.map (·.name))).getD i 0) = a.thdKC := by
    intro i a ha
    have hget : (workers.map (·.thdKC))[i]? = some a.thdKC := by
      rw [List.getElem?_map, ha]
      rfl
    rw [h, List.getElem?_map, Option.map_eq_some_iff] at hget
    obtain ⟨p, hp, hpa⟩ := hget
    rw [List.getD_eq_getElem?_getD, hp]
    exact hpa
  have hshift : ∀ t, (main ++ workers)[main.length + t]? = workers[t]? := by
    intro t
    rw [List.getElem?_append_right (Nat.le_add_right _ _), Nat.add_sub_cancel_left]
  refine ⟨fun hwell i j hij hj => ?_, fun hall i j a b hi hij ha hb => ?_⟩
  · have hi : workers[i]? = some workers[i] := List.getElem?_eq_getElem (hij.trans hj)
    have hj' : workers[j]? = some workers[j] := List.getElem?_eq_getElem hj
    obtain ⟨hne, hsame⟩ := hwell (main.length + i) (main.length + j) _ _ (Nat.le_add_right _ _)
      (Nat.add_lt_add_left hij _) ((hshift i).trans hi) ((hshift j).trans hj')
    have hki := hkc i _ hi
    have hkj := hkc j _ hj'
    rw [hki, hkj]
    refine ⟨hne, fun heq t hit htj => ?_⟩
    rw [← hki, ← hkj] at hsame
    have hall : ∀ u, i ≤ u → u ≤ j → (workers.map (·.name)).getD u "" = workers[i].name := by
      intro u hiu huj
      have hlt : u < workers.length := huj.trans_lt hj
      have hu : workers[u]? = some workers[u] := List.getElem?_eq_getElem hlt
      rw [hname u _ hu]
      exact hsame heq (main.length + u) _ (Nat.add_le_add_left hiu _) (Nat.add_le_add_left huj _)
        ((hshift u).trans hu)
    exact (hall t hit htj.le).trans (hall (t + 1) (Nat.le_succ_of_le hit) htj).symm
  · obtain ⟨i, rfl⟩ := Nat.exists_eq_add_of_le hi
    obtain ⟨j, rfl⟩ := Nat.exists_eq_add_of_le (hi.trans hij.le)
    rw [hshift] at ha hb
    have hij' : i < j := Nat.lt_of_add_lt_add_left hij
    obtain ⟨hne, hsame⟩ := hall i j hij' (List.getElem?_eq_some_iff.1 hb).1
    rw [hkc i a ha, hkc j b hb] at hne
    refine ⟨hne, fun heq t c hit htj hc => ?_⟩
    obtain ⟨t, rfl⟩ := Nat.exists_eq_add_of_le (hi.trans hit)
    rw [hshift] at hc
    rw [← hkc i a ha, ← hkc j b hb] at heq
    have := (hsame heq).eq (Nat.le_of_add_le_add_left hit) (Nat.le_of_add_le_add_left htj)
    rw [hname t c hc, hname i a ha] at this
    exact this

/-- Nothing goes wrong while the calls of a graph are collected, and they can be told apart. -/
structure Safe (g : ExecutionGraph) : Prop where
  total : (populateOpsRf g).isSome = true
  neverReadsEmpty : NeverReadsEmpty g
  wellNumbered : ∀ ops rfs, populateOpsRf g = some (ops, rfs) →
    WellNumbered (mainCalls g).length ops

theorem workerCalls_eq_nil_iff : workerCalls g = [] ↔ ∀ tid, 0 < tid → threadCalls g tid = [] := by
  rw [workerCalls, List.flatMap_eq_nil_iff]
  refine ⟨fun h tid htid => ?_, fun h tid htid => h tid (List.mem_range'_1.1 htid).1⟩
  by_cases hlt : tid < g.getNumThreads
  · exact h tid (List.mem_range'_1.2 ⟨htid, by omega⟩)
  · rw [threadCalls, List.getD_eq_default _ _ (not_lt.1 hlt)]
    rfl

/-- What is collected, if the main thread has a call or no other thread has. -/
theorem populateOpsRf_eq (hg : Collectable g) (h : mainCalls g ≠ [] ∨ workerCalls g = []) :
    ∃ main workers rfs last kc, populateOpsRf g = some (main ++ workers, rfs) ∧
      main.length = (mainCalls g).length ∧ workers.map (·.name) = workerCalls g ∧
      workers.map (·.thdKC) = (numbers last kc (workerCalls g)).map toInt16s := by
  cases hn : g.getNumThreads with
  | zero =>
    have hevents : g.events = [] := List.length_eq_zero_iff.1 hn
    refine ⟨[], [], ⟨[]⟩, "", 0, ?_, ?_, ?_, ?_⟩
    · rw [populateOpsRf, hn]
      rfl
    · rw [mainCalls, hevents]
      rfl
    · rw [workerCalls, hn]
      rfl
    · rw [workerCalls, hn]
      rfl
  | succ n =>
    have hworkers : workerCalls g = (List.range' 1 n).flatMap (threadCalls g) := by
      rw [workerCalls, hn]
      rfl
    rw [hworkers] at h ⊢
    obtain ⟨s₀, s', hfold, ⟨⟨main, hmain, hnames, -⟩, -⟩, ⟨workers, hops, hnames', hkcs⟩, -⟩ :=
      foldlM_range hg n h
    obtain ⟨rfs, hpopulate⟩ : ∃ rfs, populateOpsRf g = some (main ++ workers, rfs) := by
      rw [populateOpsRf, hn, hfold, Option.bind_eq_bind, Option.bind_some, hops, hmain]
      exact ⟨_, rfl⟩
    refine ⟨main, workers, rfs, s₀.lastName, s₀.kc, hpopulate, ?_, hnames', ?_⟩
    · rw [← hnames, List.length_map]
    · rw [hkcs, PopulateState.nextNumbers, if_neg Nat.one_ne_zero]

/-- The first call of a thread ends at the first end. -/
theorem exists_first_end {labs : List EventLabel} (h : callNames labs ≠ []) :
    ∃ before lab after, labs = before ++ lab :: after ∧ lab.kind = .MethodEnd ∧
      callNames before = [] := by
  induction labs with
  | nil => exact absurd rfl h
  | cons lab labs ih =>
    by_cases hend : lab.kind = .MethodEnd
    · exact ⟨[], lab, labs, rfl, hend, rfl⟩
    · have hnames : callNames [lab] = [] := by simp [callNames, hend]
      rw [callNames_cons, hnames, List.nil_append] at h
      obtain ⟨before, lab', after, rfl, hend', hbefore⟩ := ih h
      refine ⟨lab :: before, lab', after, rfl, hend', ?_⟩
      rw [callNames_cons, hnames, hbefore, List.append_nil]

/-- The state that the labels of a thread find after some threads were collected. -/
theorem stateBefore_eq (hg : Collectable g) {n : ℕ} {s₁ : PopulateState}
    {before after : List EventLabel}
    (hfold : (List.range (n + 1)).foldlM (populateThread g) {} = some s₁)
    (hthread : g.events.getD (n + 1) [] = before ++ after)
    (hlast : callNames before ≠ [] → s₁.ops ≠ []) :
    ∃ s o, stateBefore g (n + 1) before.length = some s ∧ s.openBegin.isSome = o ∧
      after.foldlM callStep o = some false ∧ Collected (n + 1) s₁ s (callNames before) := by
  obtain ⟨hsteps, hreads⟩ := hg.thread (n + 1)
  rw [hthread, List.foldlM_append, Option.bind_eq_bind, Option.bind_eq_some_iff] at hsteps
  obtain ⟨o, hbefore, hafter⟩ := hsteps
  rw [hthread] at hreads
  obtain ⟨s, hs, ho, hcollected⟩ :=
    foldlM_populateLabel (n + 1) (s := { s₁ with openBegin := none })
    before hbefore
    (fun lab hlab => hreads lab (List.mem_append_left _ hlab)) rfl fun _ => hlast
  refine ⟨s, o, ?_, ho, hafter, hcollected.ops, hcollected.kc⟩
  rw [stateBefore, hfold, Option.bind_eq_bind, Option.bind_some, hthread, List.take_left]
  exact hs

theorem neverReadsEmpty_iff (hg : Collectable g) :
    NeverReadsEmpty g ↔ mainCalls g ≠ [] ∨ workerCalls g = [] := by
  refine ⟨fun hnever => ?_, ?_⟩
  · by_contra hcond
    rw [not_or, not_not, workerCalls_eq_nil_iff, not_forall] at hcond
    obtain ⟨hmain, hsome⟩ := hcond
    -- the first thread with a call
    classical
    have hex : ∃ tid, ¬ (0 < tid → threadCalls g tid = []) := hsome
    obtain ⟨tid, hfirst, hbefore⟩ : ∃ tid, ¬ (0 < tid → threadCalls g tid = []) ∧
        ∀ t < tid, 0 < t → threadCalls g t = [] :=
      ⟨Nat.find hex, Nat.find_spec hex, fun t ht => not_not.1 (Nat.find_min hex ht)⟩
    rw [Classical.not_imp] at hfirst
    obtain ⟨htid, hcalls⟩ := hfirst
    obtain ⟨n, rfl⟩ := Nat.exists_eq_add_one.2 htid
    have hnone : (List.range' 1 n).flatMap (threadCalls g) = [] := by
      refine List.flatMap_eq_nil_iff.2 fun t ht => ?_
      obtain ⟨hpos, hlt⟩ := List.mem_range'_1.1 ht
      exact hbefore t (by omega) hpos
    obtain ⟨s₀, s₁, hfold, ⟨⟨main, hops₀, hnames, -⟩, -⟩, ⟨workers, hops₁, hnames', -⟩, -⟩ :=
      foldlM_range hg n (.inr hnone)
    have hempty : s₁.ops = [] := by
      rw [hmain, List.map_eq_nil_iff] at hnames
      rw [hnone, List.map_eq_nil_iff] at hnames'
      rw [hops₁, hops₀, hnames, hnames']
      rfl
    obtain ⟨before, lab, after, hthread, hend, hnocall⟩ := exists_first_end hcalls
    obtain ⟨s, o, hs, ho, hsteps, ⟨calls, hops, hcallNames, -⟩, -⟩ :=
      stateBefore_eq hg hfold hthread
      fun hne => absurd hnocall hne
    have hopen : o = true := by
      rw [List.foldlM_cons, Option.bind_eq_bind, Option.bind_eq_some_iff] at hsteps
      obtain ⟨o₁, hstep, -⟩ := hsteps
      rw [callStep, if_neg (by rw [hend]; decide), if_pos hend] at hstep
      cases o with
      | true => rfl
      | false => cases hstep
    refine hnever (n + 1) before.length s lab htid hs ?_ hend (ho.trans hopen) ?_
    · rw [hthread, List.getElem?_append_right le_rfl, Nat.sub_self]
      rfl
    · rw [hnocall, List.map_eq_nil_iff] at hcallNames
      rw [hops, hempty, hcallNames]
      rfl
  · rintro hcond tid i s lab htid hs hlab hend -
    obtain ⟨n, rfl⟩ := Nat.exists_eq_add_one.2 htid
    have hmain : mainCalls g ≠ [] := by
      refine hcond.resolve_right fun hnone => ?_
      have hcalls := workerCalls_eq_nil_iff.1 hnone (n + 1) htid
      rw [threadCalls, callNames, List.map_eq_nil_iff, List.filter_eq_nil_iff] at hcalls
      exact hcalls lab (List.mem_of_getElem? hlab) (decide_eq_true hend)
    obtain ⟨s₀, s₁, hfold, hmain₀, hworkers⟩ := foldlM_range hg n (.inl hmain)
    have hops₁ : s₁.ops ≠ [] := by
      refine hworkers.ops_ne_nil ?_
      obtain ⟨calls, hops, hnames, -⟩ := hmain₀.ops
      rw [hops]
      intro hnil
      have hcalls : calls = [] := hnil
      rw [hcalls] at hnames
      exact hmain hnames.symm
    have hi : i < (g.events.getD (n + 1) []).length := (List.getElem?_eq_some_iff.1 hlab).1
    obtain ⟨s', o, hs', -, -, hcollected⟩ := stateBefore_eq hg hfold
      (List.take_append_drop i (g.events.getD (n + 1) [])).symm fun _ => hops₁
    rw [List.length_take_of_le hi.le, hs] at hs'
    cases hs'
    exact hcollected.ops_ne_nil hops₁

/-- **Collecting calls is safe** if and only if the main thread has a call or no other thread has,
and the calls of the other threads can be counted with 16 bits. -/
theorem populateOpsRf_safe_iff (hg : Collectable g) : Safe g ↔
    (mainCalls g ≠ [] ∨ workerCalls g = []) ∧
      Countable (workerCalls g).length ((workerCalls g).getD · "") := by
  refine ⟨fun hsafe => ?_, ?_⟩
  · have hcond := (neverReadsEmpty_iff hg).1 hsafe.neverReadsEmpty
    obtain ⟨main, workers, rfs, last, kc, hpopulate, hmain, hnames, hkcs⟩ :=
      populateOpsRf_eq hg hcond
    have hwell := hsafe.wellNumbered _ _ hpopulate
    rw [← hmain] at hwell
    rw [← hnames] at hkcs ⊢
    rw [List.length_map]
    exact ⟨hnames ▸ hcond, (wellNumbered_iff hkcs).1 hwell⟩
  · rintro ⟨hcond, hcount⟩
    obtain ⟨main, workers, rfs, last, kc, hpopulate, hmain, hnames, hkcs⟩ :=
      populateOpsRf_eq hg hcond
    refine ⟨by rw [hpopulate]; rfl, (neverReadsEmpty_iff hg).2 hcond, fun ops rfs' h => ?_⟩
    rw [hpopulate] at h
    cases h
    rw [← hmain]
    rw [← hnames] at hkcs hcount
    rw [List.length_map] at hcount
    exact (wellNumbered_iff hkcs).2 hcount

/-- Some threads that call `enq(1)`, and a main thread that does so or does not. -/
def enqueues (main : Bool) (n : ℕ) : ExecutionGraph :=
  let call (t : ℕ) : List EventLabel := [
    { kind := .MethodBegin, pos := ⟨t, 1⟩, name := "enq", argument := 1 },
    { kind := .MethodEnd, pos := ⟨t, 2⟩, name := "enq" }]
  { ExecutionGraph.blank with
    events := ({ kind := .Init, pos := Event.getInit } :: if main then call 0 else []) ::
      (List.range' 1 n).map fun t => { kind := .ThreadStart, pos := ⟨t, 0⟩ } :: call t }

theorem enqueues_safe : Collectable (enqueues true 2) ∧ Safe (enqueues true 2) := by
  have hg : Collectable (enqueues true 2) := ⟨by decide, by decide⟩
  refine ⟨hg, (populateOpsRf_safe_iff hg).2 ⟨.inl (by decide), ?_, fun i hi => ?_⟩⟩
  · decide
  · have hlen : (workerCalls (enqueues true 2)).length = 2 := by decide
    omega

/-- If the main thread has no call, then there is no last call for the first one. -/
theorem enqueues_reads_empty :
    Collectable (enqueues false 1) ∧ ¬ NeverReadsEmpty (enqueues false 1) := by
  refine ⟨⟨by decide, by decide⟩, fun hnever => ?_⟩
  have hstate : (stateBefore (enqueues false 1) 1 2).map
      (fun s => (s.openBegin.isSome, s.ops)) = some (true, []) := by decide
  obtain ⟨s, hs, heq⟩ := Option.map_eq_some_iff.1 hstate
  obtain ⟨hopen, hops⟩ := Prod.mk.injEq .. ▸ heq
  exact hnever 1 2 s _ Nat.one_pos hs rfl rfl hopen hops

end Graph

end GenMC.Observation
