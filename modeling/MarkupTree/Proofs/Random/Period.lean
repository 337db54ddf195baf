import MarkupTree.Random.Generator
import Mathlib.Algebra.Ring.GeomSum
import Mathlib.Data.Nat.ModEq
import Mathlib.Data.Nat.Prime.Basic
import Mathlib.Dynamics.PeriodicPts.Defs
import Mathlib.Tactic.Ring

/-!
# The period of the generator

A step of the generator multiplies a word by a factor and adds one, modulo `2 ^ 64`. Without the
modulus, `n` such steps lead from `x` to `x` and a multiple of `1 + a + ⋯ + a ^ (n - 1)`, where `a`
is the factor (`Generator.iterate_affine_eq_add`). If `a` leaves remainder `1` modulo `4` and the
summand is odd, then this is an odd multiple, so that what counts is the sum; and a power of two
divides the sum exactly if it divides the number of its terms
(`Generator.two_pow_dvd_sum_pow_iff`). So modulo `2 ^ k` a word comes back after `2 ^ k` steps and
not before.

## Main definitions

* `Generator.affine` : multiplying by a factor and adding a summand.
* `Generator.after`, `Generator.draw` : a generator after some draws, and the word of each draw.

## Main results

* `Generator.iterate_affine_modEq_iff` : when affine steps come back, modulo `2 ^ k`.
* `Generator.minimalPeriod_step` : the steps of the generator have period `2 ^ 64`.
* `Generator.full_period` : each row of `2 ^ 64` draws gives every word once.
-/

open Finset Function

namespace MarkupTree.Generator

/-! ### Sums of powers -/

section Powers

variable {a : ℕ}

/-- The sum of twice as many powers is a multiple of the sum. -/
theorem sum_pow_two_mul (a m : ℕ) :
    ∑ i ∈ range (2 * m), a ^ i = (∑ i ∈ range m, a ^ i) * (a ^ m + 1) := by
  simp only [two_mul, sum_range_add, pow_add, ← mul_sum]
  ring

theorem sum_pow_mod_two (ha : a % 2 = 1) (n : ℕ) : (∑ i ∈ range n, a ^ i) % 2 = n % 2 := by
  induction n with
  | zero => rfl
  | succ n ih =>
    have odd : a ^ n % 2 = 1 := Nat.odd_iff.1 ((Nat.odd_iff.2 ha).pow)
    rw [sum_range_succ]
    omega

/-- A power of two divides a sum of powers exactly if it divides the number of its terms. The
induction halves the number of terms: an odd number of terms has an odd sum, and twice as many
terms have twice the sum, up to an odd factor. -/
theorem two_pow_dvd_sum_pow_iff (ha : a % 4 = 1) (k n : ℕ) :
    2 ^ k ∣ ∑ i ∈ range n, a ^ i ↔ 2 ^ k ∣ n := by
  have hodd : a % 2 = 1 := by omega
  induction k generalizing n with
  | zero => simp
  | succ k ih =>
    have parity : (∑ i ∈ range n, a ^ i) % 2 = n % 2 := sum_pow_mod_two hodd n
    obtain ⟨m, rfl | rfl⟩ := n.even_or_odd'
    · have power : a ^ m % 4 = 1 := by rw [Nat.pow_mod, ha, one_pow, Nat.one_mod]
      obtain ⟨t, ht⟩ : ∃ t, a ^ m + 1 = 2 * (2 * t + 1) := ⟨a ^ m / 4, by omega⟩
      have coprime : (2 ^ k).Coprime (2 * t + 1) :=
        Nat.Coprime.pow_left k (Nat.coprime_two_left.2 ⟨t, rfl⟩)
      calc 2 ^ (k + 1) ∣ ∑ i ∈ range (2 * m), a ^ i
          ↔ 2 * 2 ^ k ∣ 2 * ((∑ i ∈ range m, a ^ i) * (2 * t + 1)) := by
            rw [sum_pow_two_mul, ht, pow_succ', mul_left_comm]
        _ ↔ 2 ^ k ∣ ∑ i ∈ range m, a ^ i := by
            rw [Nat.mul_dvd_mul_iff_left two_pos, coprime.dvd_mul_right]
        _ ↔ 2 ^ k ∣ m := ih m
        _ ↔ 2 * 2 ^ k ∣ 2 * m := (Nat.mul_dvd_mul_iff_left two_pos).symm
        _ ↔ 2 ^ (k + 1) ∣ 2 * m := by rw [pow_succ']
    · -- Both numbers are odd.
      have even : 2 ∣ 2 ^ (k + 1) := dvd_pow_self 2 k.succ_ne_zero
      refine iff_of_false (fun h => ?_) (fun h => ?_)
      · have := even.trans h
        omega
      · have := even.trans h
        omega

end Powers

/-! ### Affine maps -/

/-- Multiplying by a factor and adding a summand. -/
def affine (factor summand x : ℕ) : ℕ := factor * x + summand

section Affine

variable {a c : ℕ}

/-- How far the iterates of an affine map lead from `x`. -/
theorem iterate_affine_eq_add (d c x n : ℕ) :
    (affine (d + 1) c)^[n] x = x + (∑ i ∈ range n, (d + 1) ^ i) * (d * x + c) := by
  induction n with
  | zero => simp
  | succ n ih =>
    have power : (∑ i ∈ range n, (d + 1) ^ i) * d + 1 = (d + 1) ^ n := geom_sum_mul_add d n
    rw [iterate_succ_apply', ih, affine, sum_range_succ, ← power]
    ring

/-- Modulo `2 ^ k`, the iterates of an affine map come back after `2 ^ k` steps and not before, if
its factor is one above a multiple of four and its summand is odd. -/
theorem iterate_affine_modEq_iff (ha : a % 4 = 1) (hc : c % 2 = 1) (k x n : ℕ) :
    (affine a c)^[n] x ≡ x [MOD 2 ^ k] ↔ 2 ^ k ∣ n := by
  obtain ⟨d, rfl⟩ : ∃ d, a = d + 1 := ⟨a - 1, by omega⟩
  have even : d * x % 2 = 0 := by rw [Nat.mul_mod, show d % 2 = 0 by omega, zero_mul, Nat.zero_mod]
  have coprime : (2 ^ k).Coprime (d * x + c) :=
    Nat.Coprime.pow_left k (Nat.coprime_two_left.2 (Nat.odd_iff.2 (by omega)))
  rw [iterate_affine_eq_add, Nat.add_modEq_left_iff, coprime.dvd_mul_right,
    two_pow_dvd_sum_pow_iff ha]

end Affine

/-! ### Steps -/

theorem toNat_step_modEq (word : UInt64) :
    (step word).toNat ≡ affine factor.toNat 1 word.toNat [MOD 2 ^ 64] := by
  rw [step, affine, UInt64.toNat_add, UInt64.toNat_mul, mul_comm word.toNat]
  exact (Nat.mod_modEq _ _).trans ((Nat.mod_modEq _ _).add_right _)

theorem toNat_iterate_step_modEq (n : ℕ) (word : UInt64) :
    (step^[n] word).toNat ≡ (affine factor.toNat 1)^[n] word.toNat [MOD 2 ^ 64] := by
  induction n with
  | zero => rfl
  | succ n ih =>
    rw [iterate_succ_apply', iterate_succ_apply']
    exact (toNat_step_modEq _).trans ((ih.mul_left _).add_right _)

theorem isPeriodicPt_step_iff (n : ℕ) (word : UInt64) :
    IsPeriodicPt step n word ↔ 2 ^ 64 ∣ n := by
  have modulo : step^[n] word = word ↔ (step^[n] word).toNat ≡ word.toNat [MOD 2 ^ 64] := by
    rw [← UInt64.toNat_inj, Nat.ModEq, Nat.mod_eq_of_lt (UInt64.toNat_lt _),
      Nat.mod_eq_of_lt (UInt64.toNat_lt _)]
  have run := toNat_iterate_step_modEq n word
  have hfactor : factor.toNat % 4 = 1 := rfl
  rw [IsPeriodicPt, IsFixedPt, modulo,
    ← iterate_affine_modEq_iff hfactor (Nat.mod_succ 1) 64 word.toNat n]
  exact ⟨run.symm.trans, run.trans⟩

/-- A word comes back after `2 ^ 64` steps and not before. -/
theorem minimalPeriod_step (word : UInt64) : minimalPeriod step word = 2 ^ 64 := by
  have divides (n : ℕ) : minimalPeriod step word ∣ n ↔ 2 ^ 64 ∣ n := by
    rw [← isPeriodicPt_iff_minimalPeriod_dvd, isPeriodicPt_step_iff]
  exact Nat.dvd_antisymm ((divides _).2 dvd_rfl) ((divides _).1 dvd_rfl)

theorem injOn_iterate_step (word : UInt64) :
    Set.InjOn (fun n => step^[n] word) (Set.Iio (2 ^ 64)) := by
  have inj : Set.InjOn (fun n => step^[n] word) (Set.Iio (minimalPeriod step word)) :=
    iterate_injOn_Iio_minimalPeriod
  rwa [minimalPeriod_step] at inj

/-- Steps lead from each word to each word: there are as many words as steps that lead to different
ones. -/
theorem exists_iterate_step_eq (word target : UInt64) : ∃ n < 2 ^ 64, step^[n] word = target := by
  have inj : Injective fun n : Fin UInt64.size => (step^[n] word).toFin := fun m n h =>
    Fin.ext (injOn_iterate_step word m.isLt n.isLt (UInt64.toFin_inj.1 h))
  obtain ⟨n, hn⟩ := Finite.injective_iff_surjective.1 inj target.toFin
  exact ⟨n, n.isLt, UInt64.toFin_inj.1 hn⟩

/-! ### Draws -/

/-- A generator after a number of draws. -/
def after (g : Generator) : (draws : ℕ) → Generator
  | 0 => g
  | n + 1 => (g.after n).next.2

/-- The word of the draw that comes after `n` others. -/
def draw (g : Generator) (n : ℕ) : UInt64 := (g.after n).next.1

variable {g : Generator}

theorem state_after (g : Generator) (n : ℕ) : (g.after n).state = step^[n] g.state := by
  induction n with
  | zero => rfl
  | succ n ih => rw [iterate_succ_apply', ← ih]; rfl

theorem after_eq_iff {m : ℕ} : g.after m = g ↔ 2 ^ 64 ∣ m := by
  have same : g.after m = g ↔ (g.after m).state = g.state := Iff.of_eq (mk.injEq _ _)
  rw [same, state_after, ← isPeriodicPt_step_iff m g.state]
  exact Iff.rfl

theorem draw_add (g : Generator) (m n : ℕ) : g.draw (m + n) = step^[n] (g.draw m) := by
  change step (g.after (m + n)).state = step^[n] (step (g.after m).state)
  rw [state_after, state_after, ← iterate_succ_apply' step, ← iterate_succ_apply' step,
    ← iterate_add_apply]
  congr 1
  omega

theorem injOn_draw (g : Generator) (first : ℕ) :
    Set.InjOn g.draw (Set.Ico first (first + 2 ^ 64)) := by
  rintro m ⟨hm, hm'⟩ n ⟨hn, hn'⟩ h
  obtain ⟨m, rfl⟩ := Nat.exists_eq_add_of_le hm
  obtain ⟨n, rfl⟩ := Nat.exists_eq_add_of_le hn
  rw [draw_add, draw_add] at h
  rw [injOn_iterate_step (g.draw first) (by simpa using hm') (by simpa using hn') h]

/-- Whatever the seed, the first `2 ^ 64` draws give words that are all different. Each row of
`2 ^ 64` draws, wherever it begins, gives every word exactly once; and the generator is as it was
at the start after `2 ^ 64` draws and the multiples of that, and at no other time. -/
theorem full_period (seed : UInt64) :
    Set.InjOn (ofSeed seed).draw (Set.Iio (2 ^ 64)) ∧
    (∀ first word, ∃! n, n ∈ Set.Ico first (first + 2 ^ 64) ∧ (ofSeed seed).draw n = word) ∧
    ∀ n, (ofSeed seed).after n = ofSeed seed ↔ 2 ^ 64 ∣ n := by
  refine ⟨?_, fun first word => ?_, fun n => after_eq_iff⟩
  · have inj := injOn_draw (ofSeed seed) 0
    rwa [Nat.zero_add, ← bot_eq_zero, Set.Ico_bot] at inj
  · obtain ⟨n, hn, hword⟩ := exists_iterate_step_eq ((ofSeed seed).draw first) word
    rw [← draw_add] at hword
    have place : first + n ∈ Set.Ico first (first + 2 ^ 64) := ⟨by omega, by omega⟩
    refine ⟨first + n, ⟨place, hword⟩, fun m ⟨hm, hm'⟩ => ?_⟩
    exact injOn_draw _ first hm place (hm'.trans hword.symm)

end MarkupTree.Generator
