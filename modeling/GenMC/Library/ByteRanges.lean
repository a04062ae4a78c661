import Mathlib.Algebra.BigOperators.Group.List.Basic
import Mathlib.Algebra.GroupWithZero.Nat
import Mathlib.Algebra.Order.Group.Nat
import Mathlib.Tactic.Common

/-!
# Ranges of memory

A memory is a function from addresses to bytes, whatever these are.  A value is the function of its
bytes, so that a load followed by a store says `Memory.store` of a shifted memory.

* `Laid a b l` says that the ranges of a list follow each other between two addresses, maybe with
  gaps between them.
* `Laid.sum_size_eq_iff` says when there are no gaps, in terms of the sizes only.
* `storeAll_of_mem` and `storeAll_of_forall_notMem` are what a memory holds after stores to ranges
  that do not overlap, and `copyAll_eq_storeAll` says when a copy that goes range by range is one
  that reads everything first.
-/

set_option autoImplicit false

namespace GenMC

/-- The addresses from `start` on, `size` of them. -/
structure Range where
  start : ℕ
  size : ℕ
deriving DecidableEq, Repr

namespace Range

/-- The first address after the range. -/
def stop (r : Range) : ℕ := r.start + r.size

def Covers (r : Range) (x : ℕ) : Prop := r.start ≤ x ∧ x < r.stop

instance (r : Range) (x : ℕ) : Decidable (r.Covers x) := inferInstanceAs (Decidable (_ ∧ _))

def shift (k : ℕ) (r : Range) : Range := { r with start := k + r.start }

@[simp] theorem start_shift (k : ℕ) (r : Range) : (r.shift k).start = k + r.start := rfl

@[simp] theorem stop_shift (k : ℕ) (r : Range) : (r.shift k).stop = k + r.stop :=
  Nat.add_assoc k r.start r.size

theorem start_le_stop (r : Range) : r.start ≤ r.stop := Nat.le_add_right _ _

theorem covers_shift {k : ℕ} {r : Range} {x : ℕ} : (r.shift k).Covers (k + x) ↔ r.Covers x := by
  simp [Covers]

theorem exists_of_covers_shift {k y : ℕ} {r : Range} (h : (r.shift k).Covers y) :
    ∃ x, y = k + x ∧ r.Covers x := by
  obtain ⟨x, rfl⟩ := Nat.exists_eq_add_of_le (le_trans (Nat.le_add_right _ _) h.1)
  exact ⟨x, rfl, covers_shift.1 h⟩

end Range

/-! ## Ranges that follow each other -/

/-- The ranges follow each other between two addresses. -/
def Laid : ℕ → ℕ → List Range → Prop
  | a, b, [] => a ≤ b
  | a, b, r :: l => a ≤ r.start ∧ Laid r.stop b l

namespace Laid

variable {a b c k x : ℕ} {l l' : List Range} {r : Range}

theorem le (h : Laid a b l) : a ≤ b := by
  induction l generalizing a with
  | nil => exact h
  | cons r l ih => exact h.1.trans (r.start_le_stop.trans (ih h.2))

theorem mono_left (h : Laid b c l) (hab : a ≤ b) : Laid a c l := by
  cases l with
  | nil => exact hab.trans h
  | cons r l => exact ⟨hab.trans h.1, h.2⟩

theorem mono_right (h : Laid a b l) (hbc : b ≤ c) : Laid a c l := by
  induction l generalizing a with
  | nil => exact le_trans h hbc
  | cons r l ih => exact ⟨h.1, ih h.2⟩

theorem append (h : Laid a b l) (h' : Laid b c l') : Laid a c (l ++ l') := by
  induction l generalizing a with
  | nil => exact h'.mono_left h
  | cons r l ih => exact ⟨h.1, ih h.2⟩

theorem shift (h : Laid a b l) (k : ℕ) : Laid (k + a) (k + b) (l.map (Range.shift k)) := by
  induction l generalizing a with
  | nil => exact Nat.add_le_add_left h k
  | cons r l ih => exact ⟨Nat.add_le_add_left h.1 k, r.stop_shift k ▸ ih h.2⟩

theorem le_start (h : Laid a b l) (hr : r ∈ l) : a ≤ r.start := by
  induction l generalizing a with
  | nil => cases hr
  | cons s l ih =>
    rcases List.mem_cons.1 hr with rfl | hr
    · exact h.1
    · exact h.1.trans (s.start_le_stop.trans (ih h.2 hr))

theorem stop_le (h : Laid a b l) (hr : r ∈ l) : r.stop ≤ b := by
  induction l generalizing a with
  | nil => cases hr
  | cons s l ih =>
    rcases List.mem_cons.1 hr with rfl | hr
    · exact h.2.le
    · exact ih h.2 hr

theorem pairwise (h : Laid a b l) : l.Pairwise fun r s => r.stop ≤ s.start := by
  induction l generalizing a with
  | nil => exact .nil
  | cons r l ih => exact .cons (fun s hs => h.2.le_start hs) (ih h.2)

/-- The ranges are cut in two where none of them has an address on both sides. -/
theorem exists_split (h : Laid a b l) (hac : a ≤ c) (hcb : c ≤ b)
    (hc : ∀ r ∈ l, r.stop ≤ c ∨ c ≤ r.start) :
    ∃ l₁ l₂, l = l₁ ++ l₂ ∧ Laid a c l₁ ∧ Laid c b l₂ := by
  induction l generalizing a with
  | nil => exact ⟨[], [], rfl, hac, hcb⟩
  | cons r l ih =>
    rcases hc r (List.mem_cons_self ..) with hr | hr
    · obtain ⟨l₁, l₂, rfl, h₁, h₂⟩ := ih h.2 hr fun s hs => hc s (List.mem_cons_of_mem _ hs)
      exact ⟨r :: l₁, l₂, rfl, ⟨h.1, h₁⟩, h₂⟩
    · exact ⟨[], r :: l, rfl, hac, hr, h.2⟩

theorem sum_size_le (h : Laid a b l) : a + (l.map Range.size).sum ≤ b := by
  induction l generalizing a with
  | nil => exact h
  | cons r l ih =>
    have hr := ih h.2
    have ha := h.1
    rw [List.map_cons, List.sum_cons]
    rw [Range.stop] at hr
    omega

/-- **There are no gaps if the sizes add up.** -/
theorem sum_size_eq_iff (h : Laid a b l) (hpos : ∀ r ∈ l, 0 < r.size) :
    a + (l.map Range.size).sum = b ↔ ∀ x, a ≤ x → x < b → ∃ r ∈ l, r.Covers x := by
  induction l generalizing a with
  | nil =>
    have hab : a ≤ b := h
    refine ⟨fun hsum x hax hxb => absurd (hax.trans_lt hxb) hsum.not_lt, fun hall => ?_⟩
    refine le_antisymm hab (not_lt.1 fun hlt => ?_)
    obtain ⟨r, hr, -⟩ := hall a le_rfl hlt
    cases hr
  | cons r l ih =>
    have ha : a ≤ r.start := h.1
    have hle : r.stop + (l.map Range.size).sum ≤ b := h.2.sum_size_le
    have hr : 0 < r.size := hpos r (List.mem_cons_self ..)
    have hstop : r.stop = r.start + r.size := rfl
    have hsum : a + ((r :: l).map Range.size).sum = b ↔
        r.start = a ∧ r.stop + (l.map Range.size).sum = b := by
      rw [List.map_cons, List.sum_cons]
      omega
    rw [hsum, ih h.2 fun s hs => hpos s (List.mem_cons_of_mem _ hs)]
    refine ⟨?_, fun hall => ?_⟩
    · rintro ⟨hstart, hrest⟩ x hax hxb
      by_cases hx : x < r.stop
      · exact ⟨r, List.mem_cons_self .., hstart.trans_le hax, hx⟩
      · obtain ⟨s, hs, hsx⟩ := hrest x (not_lt.1 hx) hxb
        exact ⟨s, List.mem_cons_of_mem _ hs, hsx⟩
    · refine ⟨?_, fun x hx hxb => ?_⟩
      · -- no range but the first one can have the first address
        obtain ⟨s, hs, hsa⟩ := hall a le_rfl (by omega)
        rcases List.mem_cons.1 hs with rfl | hs
        · exact le_antisymm hsa.1 ha
        · have hrs := h.2.le_start hs
          have hsa := hsa.1
          omega
      · obtain ⟨s, hs, hsx⟩ := hall x (ha.trans (r.start_le_stop.trans hx)) hxb
        rcases List.mem_cons.1 hs with rfl | hs
        · exact absurd hsx.2 (not_lt.2 hx)
        · exact ⟨s, hs, hsx⟩

end Laid

/-! ## Stores -/

/-- A memory with bytes in `β`. -/
abbrev Memory (β : Type*) := ℕ → β

variable {β : Type*}

/-- Stores the first `size` bytes of a value. -/
def Memory.store (m : Memory β) (r : Range) (val : ℕ → β) : Memory β := fun x =>
  if r.Covers x then val (x - r.start) else m x

variable {m : Memory β} {r : Range} {val : ℕ → β} {x : ℕ}

theorem Memory.store_of_covers (h : r.Covers x) : m.store r val x = val (x - r.start) := if_pos h

theorem Memory.store_of_not_covers (h : ¬ r.Covers x) : m.store r val x = m x := if_neg h

theorem Memory.store_congr {val' : ℕ → β} (h : ∀ j < r.size, val j = val' j) :
    m.store r val = m.store r val' := by
  funext x
  by_cases hx : r.Covers x
  · rw [Memory.store_of_covers hx, Memory.store_of_covers hx]
    have hstop : x < r.start + r.size := hx.2
    have hstart := hx.1
    exact h _ (by omega)
  · rw [Memory.store_of_not_covers hx, Memory.store_of_not_covers hx]

/-- Stores to some ranges, one after the other. -/
def storeAll (m : Memory β) (l : List (Range × (ℕ → β))) : Memory β :=
  l.foldl (fun m s => m.store s.1 s.2) m

theorem storeAll_of_forall_notMem {l : List (Range × (ℕ → β))} (h : ∀ s ∈ l, ¬ s.1.Covers x) :
    storeAll m l x = m x := by
  induction l generalizing m with
  | nil => rfl
  | cons s l ih =>
    rw [storeAll, List.foldl_cons, ← storeAll, ih fun t ht => h t (List.mem_cons_of_mem _ ht)]
    exact Memory.store_of_not_covers (h s (List.mem_cons_self ..))

/-- What is stored to disjoint ranges is there afterwards. -/
theorem storeAll_of_mem {l : List (Range × (ℕ → β))}
    (hl : l.Pairwise fun s t => s.1.stop ≤ t.1.start) {s : Range × (ℕ → β)} (hs : s ∈ l)
    (hx : s.1.Covers x) : storeAll m l x = s.2 (x - s.1.start) := by
  induction l generalizing m with
  | nil => cases hs
  | cons t l ih =>
    obtain ⟨ht, hl⟩ := List.pairwise_cons.1 hl
    rw [storeAll, List.foldl_cons, ← storeAll]
    rcases List.mem_cons.1 hs with rfl | hs
    · rw [storeAll_of_forall_notMem fun u hu hux =>
        absurd (hx.2.trans_le (ht u hu)) (not_lt.2 hux.1)]
      exact Memory.store_of_covers hx
    · exact ih hl hs

/-! ## Copies -/

/-- Copies the ranges one after the other, from one address to another one. -/
def copyAll (m : Memory β) (src dst : ℕ) (l : List Range) : Memory β :=
  l.foldl (fun m r => m.store (r.shift dst) fun j => m (src + r.start + j)) m

/-- **A copy range by range.**  It reads what was there at first if it does not overwrite what it
has yet to read. -/
theorem copyAll_eq_storeAll {src dst : ℕ} {l : List Range}
    (h : ∀ r ∈ l, ∀ s ∈ l, ∀ x y, r.Covers x → s.Covers y → src + x ≠ dst + y) :
    copyAll m src dst l =
      storeAll m (l.map fun r => (r.shift dst, fun j => m (src + r.start + j))) := by
  have key : ∀ m' : Memory β, ∀ l' ⊆ l,
      (∀ r ∈ l, ∀ x, r.Covers x → m' (src + x) = m (src + x)) →
      copyAll m' src dst l' =
        storeAll m' (l'.map fun r => (r.shift dst, fun j => m (src + r.start + j))) := by
    intro m' l'
    induction l' generalizing m' with
    | nil => exact fun _ _ => rfl
    | cons r l' ih =>
      intro hsub hm
      obtain ⟨hr, hsub⟩ := List.cons_subset.1 hsub
      have hstep : (m'.store (r.shift dst) fun j => m' (src + r.start + j)) =
          m'.store (r.shift dst) fun j => m (src + r.start + j) :=
        Memory.store_congr fun j hj => by
          rw [Nat.add_assoc]
          exact hm r hr _ ⟨Nat.le_add_right _ _, Nat.add_lt_add_left hj _⟩
      rw [copyAll, List.foldl_cons, ← copyAll, hstep]
      refine ih _ hsub fun s hs x hx => ?_
      rw [Memory.store_of_not_covers, hm s hs x hx]
      intro hcov
      obtain ⟨y, hy, hry⟩ := Range.exists_of_covers_shift hcov
      exact h s hs r hr x y hx hry hy
  exact key m l (List.Subset.refl l) fun _ _ _ _ => rfl

end GenMC
