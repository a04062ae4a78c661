import GenMC.Library.Floor
import Mathlib.Data.Prod.Lex
import Mathlib.Data.String.Basic

/-!
# Names at offsets

Where the parts of an allocation are, and what they are called.  A `NameInfo` is a table of offsets
and names.  It is sorted again when an entry is added that belongs after the one before it, and
looked up by a scan for the first offset that is too large.

An entry with a smaller offset than the one before it is left at the end.  Such entries are *late*
until the table is sorted the next time.

* `getNameAtOffset_of_ascending`: nothing goes wrong if the offsets ascend.
* `getNameAtOffset_exact_iff`: **the lookup is right** exactly if no name is missed where the late
  entries should stand.
-/

set_option autoImplicit false

namespace GenMC

/-- An `unsigned int`. -/
abbrev Offset := Fin (2 ^ 32)

/-- What is called what. -/
abbrev OffsetName := Offset × String

/-- Naming information. -/
structure NameInfo where
  info : List OffsetName

namespace NameInfo

open Floor

def empty : NameInfo := ⟨[]⟩

/-- `std::ranges::sort`, on pairs. -/
def sort (l : List OffsetName) : List OffsetName :=
  l.mergeSort fun a b => decide (toLex a ≤ toLex b)

def addOffsetInfo (n : NameInfo) (offset : Offset) (name : String) : NameInfo :=
  let info := n.info ++ [(offset, name)]
  match n.info.getLast? with
  | none => ⟨info⟩
  | some last => if last.1 < offset then ⟨sort info⟩ else ⟨info⟩

/-- The entry before the first one with a larger offset, if there is one. -/
def scan (offset : Offset) : Option OffsetName → List OffsetName → Option OffsetName
  | prev, [] => prev
  | prev, e :: es => if offset < e.1 then prev else scan offset (some e) es

/-- The name at an offset, `none` if the check fails that there is an entry before. -/
def getNameAtOffset (n : NameInfo) (offset : Offset) : Option String :=
  if n.info.isEmpty then some "" else (scan offset none n.info).map (·.2)

/-- A table that was made by some calls. -/
def addAll (calls : List OffsetName) : NameInfo :=
  calls.foldl (fun n c => n.addOffsetInfo c.1 c.2) empty

theorem addAll_append (calls : List OffsetName) (c : OffsetName) :
    addAll (calls ++ [c]) = (addAll calls).addOffsetInfo c.1 c.2 := by
  rw [addAll, List.foldl_append]
  rfl

theorem perm_sort (l : List OffsetName) : (sort l).Perm l := List.mergeSort_perm _ _

theorem perm_addOffsetInfo (n : NameInfo) (c : OffsetName) :
    (n.addOffsetInfo c.1 c.2).info.Perm (n.info ++ [c]) := by
  rw [addOffsetInfo]
  cases n.info.getLast? with
  | none => exact List.Perm.refl _
  | some last =>
    dsimp only
    split
    · exact perm_sort _
    · exact List.Perm.refl _

/-- Nothing is lost. -/
theorem perm_addAll (calls : List OffsetName) : (addAll calls).info.Perm calls := by
  induction calls using List.reverseRecOn with
  | nil => exact List.Perm.nil
  | append_singleton calls c ih =>
    rw [addAll_append]
    exact (perm_addOffsetInfo _ c).trans (ih.append_right [c])

/-! ## Late entries -/

/-- Whether the last call leaves the table in order, by the offsets of all calls, the last one
first.  If the table is in order, its last entry is the largest one, and otherwise it is the one
added last. -/
def inOrder : List Offset → Bool
  | [] => true
  | [_] => true
  | o :: o' :: offs => if inOrder (o' :: offs) then (o' :: offs).all (· < o) else o' < o

/-- The calls since the table was in order, the last one first. -/
def late : List OffsetName → List OffsetName
  | [] => []
  | c :: calls => if inOrder ((c :: calls).map (·.1)) then [] else c :: late calls

/-- The calls until then. -/
def settled (calls : List OffsetName) : List OffsetName := calls.drop (late calls).length

/-- A late entry is not missed if it repeats the name of the entry that it should follow.  Moreover,
the last one is taken for the largest entry. -/
structure Harmless (calls : List OffsetName) : Prop where
  follows : ∀ c ∈ late calls, ∃ s, IsFloor Prod.fst (settled calls) c.1 s ∧ s.2 = c.2
  last : ∀ c, (late calls).head? = some c →
    ∀ s ∈ settled calls, (∀ s' ∈ settled calls, s'.1 ≤ s.1) → s.2 = c.2

/-- The lookup yields the name of the greatest offset that is not above the given one. -/
def Exact (calls : List OffsetName) : Prop :=
  ∀ (offset : Offset) (c : OffsetName), IsFloor Prod.fst calls offset c →
    (addAll calls).getNameAtOffset offset = some c.2

/-! ## The table -/

/-- Sorting puts distinct offsets in ascending order. -/
theorem pairwise_sort {l : List OffsetName} (h : (l.map (·.1)).Nodup) :
    (sort l).Pairwise (·.1 < ·.1) := by
  have hle : (sort l).Pairwise fun a b => toLex a ≤ toLex b :=
    List.pairwise_mergeSort (fun _ _ _ hab hbc => by
      rw [decide_eq_true_eq] at hab hbc ⊢
      exact hab.trans hbc) (fun a b => by simpa using le_total (toLex a) (toLex b)) l
      |>.imp fun h => by simpa using h
  have hne : (sort l).Pairwise fun a b => a.1 ≠ b.1 := by
    rw [← List.pairwise_map (f := Prod.fst) (R := fun a b => a ≠ b)]
    exact ((perm_sort l).map _).nodup_iff.2 h
  refine (hle.and hne).imp ?_
  rintro a b ⟨hab, hne⟩
  exact ((Prod.Lex.le_iff.1 hab).imp_right And.left).resolve_right hne

/-- What the table looks like after some calls, the last one first: what was there when it was in
order for the last time, and the late entries, each with a smaller offset than the one before. -/
structure Table (calls : List OffsetName) (t : List OffsetName) : Prop where
  table : ∃ l, t = l ++ (late calls).reverse ∧ l.Pairwise (·.1 < ·.1) ∧ l.Perm (settled calls)
  desc : (late calls).Pairwise (·.1 < ·.1)
  below : ∀ c ∈ late calls, ∃ s ∈ settled calls, c.1 < s.1

theorem late_eq_nil_iff {calls : List OffsetName} :
    late calls = [] ↔ inOrder (calls.map (·.1)) = true := by
  cases calls with
  | nil => exact ⟨fun _ => rfl, fun _ => rfl⟩
  | cons c calls =>
    rw [late]
    split <;> simp_all

theorem late_append_settled (calls : List OffsetName) : late calls ++ settled calls = calls := by
  have h : late calls <+: calls := by
    induction calls with
    | nil => exact List.prefix_rfl
    | cons c calls ih =>
      rw [late]
      split
      · exact List.nil_prefix
      · exact List.prefix_cons_inj c |>.2 ih
  exact List.prefix_iff_eq_append.1 h

theorem settled_of_late_eq_nil {calls : List OffsetName} (h : late calls = []) :
    settled calls = calls := by
  rw [settled, h]
  rfl

theorem late_cons_of_ne_nil {c : OffsetName} {calls : List OffsetName}
    (h : late (c :: calls) ≠ []) :
    late (c :: calls) = c :: late calls := by
  rw [late] at h ⊢
  split <;> simp_all

theorem settled_cons_of_ne_nil {c : OffsetName} {calls : List OffsetName}
    (h : late (c :: calls) ≠ []) : settled (c :: calls) = settled calls := by
  rw [settled, late_cons_of_ne_nil h]
  rfl

theorem Table.perm {calls t : List OffsetName} (h : Table calls t) : t.Perm calls := by
  obtain ⟨l, rfl, -, hperm⟩ := h.table
  refine (hperm.append (List.reverse_perm _)).trans (List.perm_append_comm.trans ?_)
  rw [late_append_settled]

/-- A table in order. -/
theorem table_of_pairwise {calls t : List OffsetName} (hlate : late calls = [])
    (hperm : t.Perm calls)
    (ht : t.Pairwise (·.1 < ·.1)) : Table calls t where
  table := ⟨t, by rw [hlate]; exact (List.append_nil t).symm, ht,
    by rwa [settled_of_late_eq_nil hlate]⟩
  desc := by
    rw [hlate]
    exact List.Pairwise.nil
  below := by
    rw [hlate]
    exact fun _ h => absurd h List.not_mem_nil

/-- The last entry is the largest one of a table in order, and else the late entry added last. -/
theorem Table.getLast {calls t : List OffsetName} (h : Table calls t) {m : OffsetName}
    (hm : t.getLast? = some m) :
    (late calls = [] ∧ m ∈ settled calls ∧ ∀ c ∈ calls, c.1 ≤ m.1) ∨
      ∃ cs, late calls = m :: cs := by
  have hperm := h.perm
  obtain ⟨l, rfl, hasc, hl⟩ := h.table
  cases hlate : late calls with
  | nil =>
    rw [hlate, List.reverse_nil, List.append_nil] at hm hperm
    refine .inl ⟨rfl, hl.mem_iff.1 (List.mem_of_getLast? hm), fun c hc => ?_⟩
    obtain ⟨l', rfl⟩ := List.getLast?_eq_some_iff.1 hm
    rcases List.mem_append.1 (hperm.mem_iff.2 hc) with hc | hc
    · exact ((List.pairwise_append.1 hasc).2.2 c hc m List.mem_cons_self).le
    · rw [List.mem_singleton.1 hc]
  | cons d cs =>
    rw [hlate, List.reverse_cons, ← List.append_assoc, List.getLast?_concat] at hm
    cases hm
    exact .inr ⟨cs, rfl⟩

/-- Whether a call sorts the table depends on its last entry alone. -/
theorem Table.inOrder_cons {calls t : List OffsetName} (h : Table calls t) {m c : OffsetName}
    (hm : t.getLast? = some m) : inOrder ((c :: calls).map (·.1)) = decide (m.1 < c.1) := by
  obtain ⟨hlate, hmem, hmax⟩ | ⟨cs, hlate⟩ := h.getLast hm
  · have hin := late_eq_nil_iff.1 hlate
    rw [settled_of_late_eq_nil hlate] at hmem
    obtain ⟨d, ds, rfl⟩ := List.exists_cons_of_ne_nil (List.ne_nil_of_mem hmem)
    rw [List.map_cons, List.map_cons, inOrder, ← List.map_cons, if_pos hin, Bool.eq_iff_iff,
      List.all_eq_true, decide_eq_true_eq]
    refine ⟨fun hall => ?_, fun hlt o ho => ?_⟩
    · simpa using hall _ (List.mem_map_of_mem hmem)
    · obtain ⟨e, he, rfl⟩ := List.mem_map.1 ho
      simpa using (hmax e he).trans_lt hlt
  · obtain ⟨ds, rfl⟩ : ∃ ds, calls = m :: ds := by
      have happ := late_append_settled calls
      rw [hlate] at happ
      exact ⟨_, happ.symm⟩
    have hin : ¬ inOrder ((m :: ds).map (·.1)) = true := by
      rw [← late_eq_nil_iff, hlate]
      exact List.cons_ne_nil _ _
    rw [List.map_cons, List.map_cons, inOrder, ← List.map_cons, if_neg hin]

/-- **One call.** -/
theorem Table.add {calls : List OffsetName} {n : NameInfo} {c : OffsetName} (h : Table calls n.info)
    (hnodup : ((c :: calls).map (·.1)).Nodup) :
    Table (c :: calls) (n.addOffsetInfo c.1 c.2).info := by
  have hperm : (n.info ++ [c]).Perm (c :: calls) := List.perm_append_comm.trans (h.perm.cons c)
  rw [addOffsetInfo]
  cases hlast : n.info.getLast? with
  | none =>
    rw [List.getLast?_eq_none_iff] at hlast
    obtain rfl : calls = [] := List.perm_nil.1 (hlast ▸ h.perm).symm
    rw [hlast]
    exact table_of_pairwise rfl (List.Perm.refl [c]) (List.pairwise_singleton _ c)
  | some m =>
    have hin := h.inOrder_cons (c := c) hlast
    by_cases hlt : m.1 < c.1
    · rw [decide_eq_true hlt, ← late_eq_nil_iff] at hin
      simp only [if_pos hlt]
      exact table_of_pairwise hin ((perm_sort _).trans hperm)
        (pairwise_sort ((hperm.map _).nodup_iff.2 hnodup))
    · have hne : late (c :: calls) ≠ [] := by
        rw [Ne, late_eq_nil_iff, hin, decide_eq_false hlt]
        exact Bool.false_ne_true
      have hm : m ∈ calls := h.perm.mem_iff.1 (List.mem_of_getLast? hlast)
      have hcm : c.1 < m.1 := (not_lt.1 hlt).lt_of_ne fun heq =>
        (List.nodup_cons.1 hnodup).1 (List.mem_map.2 ⟨m, hm, heq.symm⟩)
      obtain ⟨l, htable, hasc, hl⟩ := h.table
      simp only [if_neg hlt]
      refine ⟨⟨l, ?_, hasc, ?_⟩, ?_, ?_⟩
      · rw [late_cons_of_ne_nil hne, List.reverse_cons, ← List.append_assoc, ← htable]
      · rwa [settled_cons_of_ne_nil hne]
      · rw [late_cons_of_ne_nil hne, List.pairwise_cons]
        refine ⟨fun d hd => ?_, h.desc⟩
        obtain ⟨hlate, -, -⟩ | ⟨cs, hlate⟩ := h.getLast hlast
        · rw [hlate] at hd
          cases hd
        · have hdesc := h.desc
          rw [hlate] at hd hdesc
          rcases List.mem_cons.1 hd with rfl | hd
          · exact hcm
          · exact hcm.trans ((List.pairwise_cons.1 hdesc).1 d hd)
      · rw [late_cons_of_ne_nil hne, settled_cons_of_ne_nil hne]
        intro d hd
        rcases List.mem_cons.1 hd with rfl | hd
        · obtain ⟨-, hmem, -⟩ | ⟨cs, hlate⟩ := h.getLast hlast
          · exact ⟨m, hmem, hcm⟩
          · obtain ⟨s, hs, hms⟩ := h.below m (by rw [hlate]; exact List.mem_cons_self)
            exact ⟨s, hs, hcm.trans hms⟩
        · exact h.below d hd

/-- **The table after any calls.** -/
theorem table_addAll {calls : List OffsetName} (h : (calls.map (·.1)).Nodup) :
    Table calls (addAll calls.reverse).info := by
  induction calls with
  | nil => exact table_of_pairwise rfl List.Perm.nil List.Pairwise.nil
  | cons c calls ih =>
    rw [List.reverse_cons, addAll_append]
    exact (ih (List.nodup_cons.1 h).2).add h

/-! ## The lookup -/

theorem scan_eq (o : Offset) (l : List OffsetName) (prev : Option OffsetName) :
    scan o prev l = (l.takeWhile (·.1 ≤ o)).getLast?.or prev := by
  induction l generalizing prev with
  | nil => rfl
  | cons e l ih =>
    rw [scan]
    by_cases h : o < e.1
    · rw [if_pos h, List.takeWhile_cons_of_neg (by simpa using h)]
      rfl
    · rw [if_neg h, ih, List.takeWhile_cons_of_pos (by simpa using h), List.getLast?_cons]
      cases (l.takeWhile (·.1 ≤ o)).getLast? <;> rfl

/-- Below the largest offset of those in order, the scan does not get to the late entries. -/
theorem Table.scan_of_lt {calls t : List OffsetName} (h : Table calls t) {o : Offset}
    {s e : OffsetName}
    (hs : s ∈ settled calls) (ho : o < s.1) :
    scan o none t = some e ↔ IsFloor Prod.fst (settled calls) o e := by
  obtain ⟨l, rfl, hasc, hl⟩ := h.table
  have hstop : l.takeWhile (·.1 ≤ o) ≠ l := by
    intro heq
    have hle := List.takeWhile_eq_self_iff.1 heq s (hl.mem_iff.2 hs)
    exact not_le.2 ho (by simpa using hle)
  have hlen : (l.takeWhile (·.1 ≤ o)).length ≠ l.length := fun heq =>
    hstop ((List.takeWhile_prefix _).eq_of_length heq)
  rw [scan_eq, List.takeWhile_append, if_neg hlen, Option.or_none,
    getLast?_takeWhile_eq_some_iff hasc]
  exact ⟨fun hf => hf.congr fun _ => hl.mem_iff, fun hf => hf.congr fun _ => hl.mem_iff.symm⟩

/-- From there on, it gets to the end. -/
theorem Table.scan_of_le {calls t : List OffsetName} (h : Table calls t) {o : Offset}
    (ho : ∀ s ∈ settled calls, s.1 ≤ o) : scan o none t = t.getLast? := by
  have hall : ∀ c ∈ t, c.1 ≤ o := by
    intro c hc
    have hc := h.perm.mem_iff.1 hc
    rw [← late_append_settled calls] at hc
    rcases List.mem_append.1 hc with hc | hc
    · obtain ⟨s, hs, hcs⟩ := h.below c hc
      exact hcs.le.trans (ho s hs)
    · exact ho c hc
  rw [scan_eq, Option.or_none, List.takeWhile_eq_self_iff.2 fun c hc => by simpa using hall c hc]

theorem getNameAtOffset_eq_of_ne_nil {n : NameInfo} (h : n.info ≠ []) (o : Offset) :
    n.getNameAtOffset o = (scan o none n.info).map (·.2) := by
  rw [getNameAtOffset, if_neg (by rwa [List.isEmpty_iff])]

/-- Names other than the empty one come from the table. -/
theorem exists_of_getNameAtOffset {calls : List OffsetName} {o : Offset} {name : String}
    (h : (addAll calls).getNameAtOffset o = some name) (hne : name ≠ "") :
    ∃ c ∈ calls, c.2 = name := by
  by_cases hnil : (addAll calls).info = []
  · rw [getNameAtOffset, hnil] at h
    exact absurd (Option.some.inj h).symm hne
  · rw [getNameAtOffset_eq_of_ne_nil hnil, scan_eq, Option.or_none] at h
    obtain ⟨c, hc, hname⟩ := Option.map_eq_some_iff.1 h
    exact ⟨c, (perm_addAll calls).mem_iff.1 (List.takeWhile_subset _ (List.mem_of_getLast? hc)),
      hname⟩

theorem mem_settled {calls : List OffsetName} {c : OffsetName} (h : c ∈ settled calls) :
    c ∈ calls :=
  List.mem_of_mem_drop h

theorem mem_late_or_settled {calls : List OffsetName} {c : OffsetName} (h : c ∈ calls) :
    c ∈ late calls ∨ c ∈ settled calls := by
  rwa [← List.mem_append, late_append_settled]

section

variable {calls : List OffsetName} {n : NameInfo} {o : Offset} {c : OffsetName}

theorem Table.ne_nil (h : Table calls n.info) (hc : c ∈ calls) : n.info ≠ [] :=
  List.ne_nil_of_mem (h.perm.mem_iff.2 hc)

/-- A lookup that is right finds the names of late entries elsewhere. -/
theorem Table.harmless (h : Table calls n.info)
    (hexact : ∀ o c, IsFloor Prod.fst calls o c → n.getNameAtOffset o = some c.2) :
    Harmless calls where
  follows := by
    intro c hc
    have hmem : c ∈ calls := late_append_settled calls ▸ List.mem_append_left _ hc
    obtain ⟨s, hs, hcs⟩ := h.below c hc
    have hname := hexact c.1 c (isFloor_self hmem)
    rw [getNameAtOffset_eq_of_ne_nil (h.ne_nil hmem)] at hname
    obtain ⟨e, he, hec⟩ := Option.map_eq_some_iff.1 hname
    exact ⟨e, (h.scan_of_lt hs hcs).1 he, hec⟩
  last := by
    intro c hc s hs hmax
    have hmem := mem_settled hs
    have hname := hexact s.1 s (isFloor_self hmem)
    rw [getNameAtOffset_eq_of_ne_nil (h.ne_nil hmem), h.scan_of_le hmax] at hname
    obtain ⟨e, he, hes⟩ := Option.map_eq_some_iff.1 hname
    obtain ⟨hlate, -, -⟩ | ⟨cs, hlate⟩ := h.getLast he
    · rw [hlate] at hc
      cases hc
    · rw [hlate, List.head?_cons] at hc
      cases hc
      exact hes.symm

/-- Where the scan stops before the late entries, it ends at the floor or at an entry of that
name. -/
theorem Harmless.exists_floor (h : Harmless calls) (hc : IsFloor Prod.fst calls o c) :
    ∃ e, IsFloor Prod.fst (settled calls) o e ∧ e.2 = c.2 := by
  rcases mem_late_or_settled hc.mem with hlate | hset
  · obtain ⟨e, he, hec⟩ := h.follows c hlate
    exact ⟨e, ⟨he.mem, he.le.trans hc.le, fun b hb hbo =>
      he.greatest b hb (hc.greatest b (mem_settled hb) hbo)⟩, hec⟩
  · exact ⟨c, ⟨hset, hc.le, fun b hb => hc.greatest b (mem_settled hb)⟩, rfl⟩

/-- Where it does not, the floor is the largest entry. -/
theorem Table.settled_of_floor {t : List OffsetName} (h : Table calls t)
    (hc : IsFloor Prod.fst calls o c) (ho : ∀ s ∈ settled calls, s.1 ≤ o) :
    c ∈ settled calls ∧ ∀ s ∈ settled calls, s.1 ≤ c.1 := by
  refine ⟨?_, fun s hs => hc.greatest s (mem_settled hs) (ho s hs)⟩
  rcases mem_late_or_settled hc.mem with hlate | hset
  · obtain ⟨s, hs, hcs⟩ := h.below c hlate
    exact absurd (hc.greatest s (mem_settled hs) (ho s hs)) (not_le.2 hcs)
  · exact hset

theorem Table.exact_iff (h : Table calls n.info) (hnodup : (calls.map (·.1)).Nodup) :
    (∀ o c, IsFloor Prod.fst calls o c → n.getNameAtOffset o = some c.2) ↔ Harmless calls := by
  refine ⟨h.harmless, fun hharm o c hc => ?_⟩
  rw [getNameAtOffset_eq_of_ne_nil (h.ne_nil hc.mem)]
  by_cases hlt : ∃ s ∈ settled calls, o < s.1
  · obtain ⟨s, hs, ho⟩ := hlt
    obtain ⟨e, he, hec⟩ := hharm.exists_floor hc
    rw [(h.scan_of_lt hs ho).2 he, Option.map_some, hec]
  · have ho : ∀ s ∈ settled calls, s.1 ≤ o := fun s hs => not_lt.1 fun hlt' => hlt ⟨s, hs, hlt'⟩
    obtain ⟨hset, hmax⟩ := h.settled_of_floor hc ho
    rw [h.scan_of_le ho]
    cases hlast : n.info.getLast? with
    | none => exact absurd (List.getLast?_eq_none_iff.1 hlast) (h.ne_nil hc.mem)
    | some m =>
      obtain ⟨-, hm, hle⟩ | ⟨cs, hlate⟩ := h.getLast hlast
      · have heq : m.1 = c.1 := le_antisymm (hmax m hm) (hle c hc.mem)
        rw [List.inj_on_of_nodup_map hnodup (mem_settled hm) hc.mem heq]
        rfl
      · rw [Option.map_some, hharm.last m (by rw [hlate]; rfl) c hset hmax]

end

/-- **When lookups are right.** -/
theorem getNameAtOffset_exact_iff {calls : List OffsetName} (h : (calls.map (·.1)).Nodup) :
    Exact calls ↔ Harmless calls.reverse := by
  have hrev : (calls.reverse.map (·.1)).Nodup := by
    rw [List.map_reverse]
    exact List.nodup_reverse.2 h
  have htable := table_addAll hrev
  rw [List.reverse_reverse] at htable
  rw [← htable.exact_iff hrev]
  exact forall₂_congr fun o c => imp_congr_left
    ⟨fun hf => hf.congr fun _ => List.mem_reverse.symm,
      fun hf => hf.congr fun _ => List.mem_reverse⟩

/-- The check fails at an offset that was added after a larger one. -/
theorem not_exact_descending : ¬ Exact [(8, "x"), (4, "y")] := fun h =>
  absurd (h 4 (4, "y") (isFloor_self (List.mem_cons_of_mem _ List.mem_cons_self))) (by decide)

theorem harmless_of_inOrder {calls : List OffsetName} (h : inOrder (calls.map (·.1)) = true) :
    Harmless calls where
  follows := by
    rw [late_eq_nil_iff.2 h]
    exact fun _ hc => absurd hc List.not_mem_nil
  last := by
    rw [late_eq_nil_iff.2 h]
    exact fun _ hc => by cases hc

/-- A late entry, and one that sorts the table again. -/
theorem exact_lateEntry : Exact [(0, "a"), (8, "b"), (2, "c"), (4, "d")] :=
  (getNameAtOffset_exact_iff (by decide)).2 (harmless_of_inOrder (by decide))

theorem inOrder_of_pairwise {offs : List Offset} (h : offs.Pairwise (· > ·)) :
    inOrder offs = true := by
  induction offs with
  | nil => rfl
  | cons o offs ih =>
    cases offs with
    | nil => rfl
    | cons o' offs =>
      obtain ⟨ho, hoffs⟩ := List.pairwise_cons.1 h
      rw [inOrder, if_pos (ih hoffs), List.all_eq_true]
      exact fun x hx => by simpa using ho x hx

/-- Offsets in ascending order are found. -/
theorem getNameAtOffset_of_ascending {calls : List OffsetName} (h : calls.Pairwise (·.1 < ·.1))
    {o : Offset} {c : OffsetName} (hc : IsFloor Prod.fst calls o c) :
    (addAll calls).getNameAtOffset o = some c.2 := by
  have hdesc : (calls.reverse.map (·.1)).Pairwise (· > ·) := by
    rw [List.map_reverse, List.pairwise_reverse]
    exact List.pairwise_map.2 h
  have hnodup : (calls.reverse.map (·.1)).Nodup := hdesc.imp ne_of_gt
  have htable := table_addAll hnodup
  rw [List.reverse_reverse] at htable
  exact (htable.exact_iff hnodup).2 (harmless_of_inOrder (inOrder_of_pairwise hdesc)) o c
    (hc.congr fun _ => List.mem_reverse.symm)

end NameInfo

end GenMC
