/-
  Settled.Lib.Pow2 — the largest power of two strictly below `n`, the point at
  which a binary tree over `n` leaves is split so that its left half is complete, and
  the bit tests that walk the complete subtrees of such a tree.

  `pow2Below_unique` characterises it; `pow2Below_stable` says that it does not move
  while the size stays above it, so a tree and any longer one that still has the same
  height share their whole left half.
-/

import Mathlib.Data.Nat.Bitwise
import Mathlib.Data.Nat.Log

namespace Settled.Lib

def pow2Below (n : Nat) : Nat := 2 ^ Nat.log2 (n - 1)

theorem pow2Below_pos (n : Nat) : 0 < pow2Below n := Nat.two_pow_pos _

theorem pow2Below_lt {n : Nat} (h : 1 < n) : pow2Below n < n := by
  have : 2 ^ Nat.log2 (n - 1) ≤ n - 1 := Nat.log2_self_le (by omega)
  unfold pow2Below
  omega

theorem le_two_mul_pow2Below {n : Nat} (h : 1 < n) : n ≤ 2 * pow2Below n := by
  have : n - 1 < 2 ^ (Nat.log2 (n - 1) + 1) := Nat.lt_log2_self
  unfold pow2Below
  rw [Nat.pow_succ] at this
  omega

theorem pow2Below_unique {n p : Nat} (h1 : 2 ^ p < n) (h2 : n ≤ 2 ^ (p + 1)) : pow2Below n = 2 ^ p := by
  have hp : 0 < 2 ^ p := Nat.two_pow_pos p
  have : Nat.log2 (n - 1) = p := (Nat.log2_eq_iff (by omega)).mpr ⟨by omega, by omega⟩
  rw [pow2Below, this]

theorem pow2Below_stable {m n : Nat} (h1 : pow2Below n < m) (h2 : m ≤ n) : pow2Below m = pow2Below n := by
  have hp := pow2Below_pos n
  have h := le_two_mul_pow2Below (n := n) (by omega)
  unfold pow2Below at h1 h
  exact pow2Below_unique h1 (by rw [Nat.pow_succ]; omega)

theorem pow2Below_two_pow (p : Nat) : pow2Below (2 ^ (p + 1)) = 2 ^ p :=
  pow2Below_unique (Nat.pow_lt_pow_right (by omega) (by omega)) (Nat.le_refl _)

/-- Strictly between `pow2Below n` and `n` there is no power of two. -/
theorem pow2Below_not_pow {n p : Nat} (h1 : pow2Below n < 2 ^ p) (h2 : 2 ^ p < n) : False := by
  have h := le_two_mul_pow2Below (n := n) (by have := pow2Below_pos n; omega)
  unfold pow2Below at h1 h
  have hlt : Nat.log2 (n - 1) < p := (Nat.pow_lt_pow_iff_right (by omega)).mp h1
  have : 2 ^ (Nat.log2 (n - 1) + 1) ≤ 2 ^ p := Nat.pow_le_pow_right (by omega) hlt
  rw [Nat.pow_succ] at this
  omega

theorem two_pow_succ_add_div_two (p x : Nat) : (2 ^ (p + 1) + x) / 2 = 2 ^ p + x / 2 := by rw [Nat.pow_succ]; omega

/-! ## Bits -/

theorem and_one_shiftLeft_ne_zero {n i : Nat} : n &&& (1 <<< i) ≠ 0 ↔ n.testBit i = true := by
  rw [Nat.one_shiftLeft, Nat.and_two_pow]
  have := Nat.two_pow_pos i
  cases n.testBit i <;> simp

theorem div_pow_succ_lt_of_testBit {n i : Nat} (h : n.testBit i = true) : n / 2 ^ (i + 1) < n / 2 ^ i := by
  have hl : 2 ^ i ≤ n := Nat.ge_two_pow_of_testBit h
  have : 0 < n / 2 ^ i := Nat.div_pos hl (Nat.two_pow_pos _)
  rw [Nat.pow_succ, ← Nat.div_div_eq_div_mul]
  omega

theorem mod_two_pow_succ_of_testBit {n i : Nat} (h : n.testBit i = true) : n % 2 ^ (i + 1) = 2 ^ i + n % 2 ^ i := by
  rw [Nat.testBit_eq_decide_div_mod_eq, decide_eq_true_eq] at h
  rw [Nat.mod_pow_succ, h]
  omega

theorem mod_two_pow_succ_of_not_testBit {n i : Nat} (h : n.testBit i = false) : n % 2 ^ (i + 1) = n % 2 ^ i := by
  rw [Nat.testBit_eq_decide_div_mod_eq, decide_eq_false_iff_not] at h
  rw [Nat.mod_pow_succ, show n / 2 ^ i % 2 = 0 by omega]
  omega

theorem testBit_iff_le_mod {n i : Nat} : n.testBit i = true ↔ 2 ^ i ≤ n % 2 ^ (i + 1) := by
  have hlt : n % 2 ^ i < 2 ^ i := Nat.mod_lt n (Nat.two_pow_pos i)
  cases h : n.testBit i with
  | true => rw [mod_two_pow_succ_of_testBit h]; simp
  | false => rw [mod_two_pow_succ_of_not_testBit h]; simpa using hlt

/-! The lowest clear bit of `n`, at `i`, is where adding one stops carrying. -/

section

variable {n i : Nat} (h : n % 2 ^ i = 2 ^ i - 1) (hc : n.testBit i = false)

include h hc

theorem succ_mod_two_pow {j : Nat} (hij : i < j) : (n + 1) % 2 ^ j = n % 2 ^ j + 1 := by
  have hi : 0 < 2 ^ i := Nat.two_pow_pos i
  have hlt : n % 2 ^ j + 1 < 2 ^ j := by
    induction j, hij using Nat.le_induction with
    | base => rw [mod_two_pow_succ_of_not_testBit hc, h, Nat.pow_succ]; omega
    | succ j _ ih =>
      rw [Nat.pow_succ 2 j]
      cases hb : n.testBit j with
      | true => rw [← Nat.pow_succ, mod_two_pow_succ_of_testBit hb, Nat.pow_succ]; omega
      | false => rw [← Nat.pow_succ, mod_two_pow_succ_of_not_testBit hb, Nat.pow_succ]; omega
  rw [Nat.add_mod, Nat.mod_eq_of_lt (show 1 < 2 ^ j by omega), Nat.mod_eq_of_lt hlt]

omit hc in
theorem succ_mod_two_pow_self : (n + 1) % 2 ^ i = 0 := by
  have hi : 0 < 2 ^ i := Nat.two_pow_pos i
  rw [Nat.add_mod, h, ← Nat.add_mod_mod, Nat.mod_mod, Nat.add_mod_mod, show 2 ^ i - 1 + 1 = 2 ^ i by omega, Nat.mod_self]

theorem succ_testBit_above {j : Nat} (hij : i < j) : (n + 1).testBit j = n.testBit j := by
  have h1 := succ_mod_two_pow h hc hij
  have h2 := succ_mod_two_pow h hc (Nat.lt_succ_of_lt hij)
  have hlt : (n + 1) % 2 ^ j < 2 ^ j := Nat.mod_lt _ (Nat.two_pow_pos j)
  cases hb : n.testBit j with
  | true => rw [testBit_iff_le_mod, h2, mod_two_pow_succ_of_testBit hb]; omega
  | false =>
    rw [← Bool.not_eq_true, testBit_iff_le_mod, h2, mod_two_pow_succ_of_not_testBit hb]
    omega

omit hc in
theorem succ_testBit_below {j : Nat} (hij : j < i) : (n + 1).testBit j = false := by
  have hmod : (n + 1) % 2 ^ (j + 1) = 0 := by
    rw [← Nat.mod_mod_of_dvd (n + 1) (Nat.pow_dvd_pow 2 hij), succ_mod_two_pow_self h, Nat.zero_mod]
  have := Nat.two_pow_pos j
  rw [← Bool.not_eq_true, testBit_iff_le_mod, hmod]
  omega

theorem eq_of_succ_eq_two_pow {j : Nat} (heq : n + 1 = 2 ^ j) : j = i := by
  rcases Nat.lt_trichotomy j i with hji | hji | hji
  · have hbit := succ_testBit_below h hji
    rw [heq, Nat.testBit_two_pow_self] at hbit
    cases hbit
  · exact hji
  · have hmod := succ_mod_two_pow h hc hji
    rw [heq, Nat.mod_self] at hmod
    omega

end

/-- The block of `2^h` that ends with `j`. -/
theorem shiftRight_eq_pred {j h q : Nat} (hq : j + 1 = 2 ^ h * q) : j >>> h = q - 1 := by
  have hpow : 0 < 2 ^ h := Nat.two_pow_pos h
  have hq0 : 0 < q := Nat.pos_of_ne_zero fun h0 => by rw [h0, Nat.mul_zero] at hq; omega
  obtain ⟨r, rfl⟩ : ∃ r, q = r + 1 := ⟨q - 1, by omega⟩
  rw [Nat.shiftRight_eq_div_pow, show j = 2 ^ h * r + (2 ^ h - 1) by rw [Nat.mul_succ] at hq; omega,
    Nat.mul_add_div hpow, Nat.div_eq_of_lt (by omega)]
  rfl

end Settled.Lib
