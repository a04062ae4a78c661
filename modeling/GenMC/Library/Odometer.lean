import Mathlib.Algebra.BigOperators.Group.List.Basic
import Mathlib.Algebra.Order.BigOperators.GroupWithZero.List
import Mathlib.Algebra.Order.Ring.Nat
import Mathlib.Data.List.Forall2

/-!
# Odometers

An odometer has a wheel for each of some sizes and one more at the end, for what is carried over.
Incrementing turns the first wheel by one; a wheel that reaches its size goes back to zero and turns
the next one (`increment`).

The readings of an odometer are the digits of the numbers, and incrementing goes from the digits of
a number to those of the next one (`increment_digits`).  Hence a loop that runs until the last wheel
has turned meets the digits of the numbers below the product of the sizes (`collect_eq`), which is
every choice of an index for each size (`exists_digits_eq`).
-/

set_option autoImplicit false

namespace GenMC
namespace Odometer

/-- The reading for a number. -/
def digits : List ℕ → ℕ → List ℕ
  | [], n => [n]
  | s :: sizes, n => n % s :: digits sizes (n / s)

/-- The number of a reading. -/
def value : List ℕ → List ℕ → ℕ
  | [], [c] => c
  | s :: sizes, c :: clock => c + s * value sizes clock
  | _, _ => 0

/-- Adds what is carried to the first wheel and goes on with the next one. -/
def increment : List ℕ → List ℕ → ℕ → List ℕ
  | s :: sizes, c :: clock, carry =>
    if c + carry = s then 0 :: increment sizes clock 1
    else (c + carry) :: increment sizes clock 0
  | _, clock, carry => clock.modifyHead (· + carry)

theorem value_digits (sizes : List ℕ) (n : ℕ) : value sizes (digits sizes n) = n := by
  induction sizes generalizing n with
  | nil => rfl
  | cons s sizes ih => rw [digits, value, ih, Nat.mod_add_div]

theorem digits_zero (sizes : List ℕ) :
    digits sizes 0 = List.replicate (sizes.length + 1) 0 := by
  induction sizes with
  | nil => rfl
  | cons s sizes ih =>
    rw [digits, Nat.zero_mod, Nat.zero_div, ih]
    rfl

theorem increment_zero {sizes : List ℕ} (hpos : ∀ s ∈ sizes, 0 < s) (n : ℕ) :
    increment sizes (digits sizes n) 0 = digits sizes n := by
  induction sizes generalizing n with
  | nil => rfl
  | cons s sizes ih =>
    have hlt := Nat.mod_lt n (hpos s List.mem_cons_self)
    rw [digits, increment, if_neg (by omega), ih fun t ht => hpos t (List.mem_cons_of_mem s ht)]
    rfl

/-- **Incrementing** goes from a number to the next one. -/
theorem increment_digits {sizes : List ℕ} (hpos : ∀ s ∈ sizes, 0 < s) (n : ℕ) :
    increment sizes (digits sizes n) 1 = digits sizes (n + 1) := by
  induction sizes generalizing n with
  | nil => rfl
  | cons s sizes ih =>
    have hs := hpos s List.mem_cons_self
    have hpos' : ∀ t ∈ sizes, 0 < t := fun t ht => hpos t (List.mem_cons_of_mem s ht)
    have hlt := Nat.mod_lt n hs
    have hdiv := Nat.div_add_mod n s
    rw [digits, increment, digits]
    split
    · -- the wheel has turned
      rename_i hturn
      have hn : n + 1 = s * (n / s + 1) := by
        rw [Nat.mul_add, Nat.mul_one]
        omega
      rw [ih hpos', hn, Nat.mul_mod_right, Nat.mul_div_cancel_left _ hs]
    · rename_i hturn
      have hn : n + 1 = (n % s + 1) + s * (n / s) := by omega
      have hlt' : n % s + 1 < s := by omega
      rw [increment_zero hpos', hn, Nat.add_mul_mod_self_left, Nat.mod_eq_of_lt hlt',
        Nat.add_mul_div_left _ _ hs, Nat.div_eq_of_lt hlt', Nat.zero_add]

theorem getLastD_digits (sizes : List ℕ) (n : ℕ) :
    (digits sizes n).getLastD 0 = n / sizes.prod := by
  induction sizes generalizing n with
  | nil => simp [digits]
  | cons s sizes ih =>
    have hlast : ∀ (c : ℕ) (l : List ℕ), l ≠ [] → (c :: l).getLastD 0 = l.getLastD 0 := by
      intro c l hl
      obtain ⟨d, l, rfl⟩ := List.exists_cons_of_ne_nil hl
      rfl
    have hne : digits sizes (n / s) ≠ [] := by
      cases sizes with
      | nil => exact List.cons_ne_nil _ _
      | cons => exact List.cons_ne_nil _ _
    rw [digits, hlast _ _ hne, ih, List.prod_cons, Nat.div_div_eq_div_mul]

/-- **Every choice** of an index for each size is a reading. -/
theorem exists_digits_eq {sizes choice : List ℕ} (h : List.Forall₂ (· < ·) choice sizes) :
    ∃ n < sizes.prod, digits sizes n = choice ++ [0] := by
  induction h with
  | nil => exact ⟨0, by simp, rfl⟩
  | @cons c s choice sizes hc _ ih =>
    obtain ⟨n, hn, heq⟩ := ih
    have hs : 0 < s := by omega
    refine ⟨c + s * n, ?_, ?_⟩
    · rw [List.prod_cons]
      calc c + s * n < s + s * n := by omega
        _ = s * (n + 1) := by rw [Nat.mul_add, Nat.mul_one, Nat.add_comm]
        _ ≤ s * sizes.prod := Nat.mul_le_mul_left s hn
    · rw [digits, Nat.add_mul_mod_self_left, Nat.mod_eq_of_lt hc, Nat.add_mul_div_left _ _ hs,
        Nat.div_eq_of_lt hc, Nat.zero_add, heq]
      rfl

theorem forall₂_digits {sizes : List ℕ} (hpos : ∀ s ∈ sizes, 0 < s) (n : ℕ) :
    ∃ choice c, digits sizes n = choice ++ [c] ∧ List.Forall₂ (· < ·) choice sizes := by
  induction sizes generalizing n with
  | nil => exact ⟨[], n, rfl, .nil⟩
  | cons s sizes ih =>
    obtain ⟨choice, c, heq, h⟩ := ih (fun t ht => hpos t (List.mem_cons_of_mem s ht)) (n / s)
    refine ⟨n % s :: choice, c, ?_, .cons (Nat.mod_lt n (hpos s List.mem_cons_self)) h⟩
    rw [digits, heq]
    rfl

/-- An odometer that shows the digits of a number. -/
structure Clock (sizes : List ℕ) where
  wheels : List ℕ
  reading : ∃ n, wheels = digits sizes n

namespace Clock

variable {sizes : List ℕ} {β : Type*}

/-- All wheels at zero. -/
def zero (sizes : List ℕ) : Clock sizes where
  wheels := List.replicate (sizes.length + 1) 0
  reading := ⟨0, (digits_zero sizes).symm⟩

def next (hpos : ∀ s ∈ sizes, 0 < s) (clock : Clock sizes) : Clock sizes where
  wheels := increment sizes clock.wheels 1
  reading := by
    obtain ⟨n, hn⟩ := clock.reading
    exact ⟨n + 1, by rw [hn, increment_digits hpos]⟩

theorem wheels_next (hpos : ∀ s ∈ sizes, 0 < s) {clock : Clock sizes} {n : ℕ}
    (hn : clock.wheels = digits sizes n) :
    (clock.next hpos).wheels = digits sizes (n + 1) := by
  rw [← increment_digits hpos, ← hn]
  rfl

/-- The last wheel. -/
def back (clock : Clock sizes) : ℕ := clock.wheels.getLastD 0

/-- Collects something for every reading until the last wheel has turned. -/
def collect (hpos : ∀ s ∈ sizes, 0 < s) (f : List ℕ → β) (clock : Clock sizes) (result : List β) :
    List β :=
  if clock.back < 1 then collect hpos f (clock.next hpos) (result ++ [f clock.wheels]) else result
termination_by sizes.prod - value sizes clock.wheels
decreasing_by
  obtain ⟨n, hn⟩ := clock.reading
  rename_i hback
  have hprod : 0 < sizes.prod := List.prod_pos hpos
  rw [back, hn, getLastD_digits, Nat.lt_one_iff, Nat.div_eq_zero_iff] at hback
  rw [wheels_next hpos hn, hn, value_digits, value_digits]
  omega

theorem collect_digits (hpos : ∀ s ∈ sizes, 0 < s) (f : List ℕ → β) (clock : Clock sizes)
    (result : List β) {n k : ℕ} (hn : clock.wheels = digits sizes n)
    (hk : n + k = sizes.prod) :
    clock.collect hpos f result =
      result ++ (List.range' n k).map fun m => f (digits sizes m) := by
  have hprod : 0 < sizes.prod := List.prod_pos hpos
  have hback : clock.back = n / sizes.prod := by rw [back, hn, getLastD_digits]
  induction k generalizing clock result n with
  | zero =>
    have hone : clock.back = 1 := by
      rw [hback, show n = sizes.prod by omega, Nat.div_self hprod]
    rw [collect.eq_1, if_neg (by omega)]
    simp
  | succ k ih =>
    have hzero : clock.back = 0 := by
      rw [hback, Nat.div_eq_of_lt (by omega)]
    have hnext := wheels_next hpos hn
    rw [collect.eq_1, if_pos (by omega), ih (clock.next hpos) _ hnext (by omega)
      (by rw [back, hnext, getLastD_digits]), List.range'_succ, hn]
    simp

/-- **The loop meets the digits of all numbers** below the product. -/
theorem collect_eq (hpos : ∀ s ∈ sizes, 0 < s) (f : List ℕ → β) :
    (zero sizes).collect hpos f [] =
      (List.range sizes.prod).map fun n => f (digits sizes n) := by
  have hzero : (zero sizes).wheels = digits sizes 0 := (digits_zero sizes).symm
  rw [collect_digits hpos f (zero sizes) [] hzero (Nat.zero_add _), List.nil_append,
    List.range_eq_range']

end Clock
end Odometer
end GenMC
