/-
  Settled.Lib.Decimal — numbers as decimal text: written without leading zeros, and read
  back (`readNat_decimal`, `readInt_decimalInt`). So no two numbers have one text, and no
  two pairs of numbers with a character between them that is no digit
  (`decimal_pair_inj`).
-/

import Mathlib.Data.List.Basic

namespace Settled.Lib

def digit (d : Nat) : Char := Char.ofNat (48 + d)

def decimal (n : Nat) : List Char := if n < 10 then [digit n] else decimal (n / 10) ++ [digit (n % 10)]

def digitValue (c : Char) : Option Nat := if '0' ≤ c ∧ c ≤ '9' then some (c.toNat - 48) else none

/-- The digits of a number whose first digits gave `n`. -/
def readDigits (n : Nat) : List Char → Option Nat
  | [] => some n
  | c :: cs =>
    match digitValue c with
    | none => none
    | some d => readDigits (10 * n + d) cs

def readNat (cs : List Char) : Option Nat := if cs = [] then none else readDigits 0 cs

theorem digitValue_digit : ∀ d, d < 10 → digitValue (digit d) = some d := by decide

theorem readDigits_decimal (n : Nat) : ∀ cs, readDigits 0 (decimal n ++ cs) = readDigits n cs := by
  induction n using Nat.strongRecOn with
  | ind n ih =>
  intro cs
  unfold decimal
  split
  next h =>
    rw [List.singleton_append, readDigits, digitValue_digit n h]
    simp
  next h =>
    rw [List.append_assoc, ih (n / 10) (by omega), List.singleton_append, readDigits, digitValue_digit _ (Nat.mod_lt _ (by omega))]
    dsimp only
    rw [Nat.div_add_mod]

theorem decimal_ne_nil (n : Nat) : decimal n ≠ [] := by
  unfold decimal
  split <;> simp

theorem readNat_decimal (n : Nat) : readNat (decimal n) = some n := by
  rw [readNat, if_neg (decimal_ne_nil n), ← List.append_nil (decimal n), readDigits_decimal, readDigits]

theorem decimal_inj {m n : Nat} (h : decimal m = decimal n) : m = n := by
  have := readNat_decimal m
  rw [h, readNat_decimal] at this
  exact (Option.some.inj this).symm

theorem digitValue_of_mem_decimal (n : Nat) : ∀ c ∈ decimal n, digitValue c ≠ none := by
  have hdigit : ∀ d, d < 10 → digitValue (digit d) ≠ none := fun d h => by rw [digitValue_digit d h]; simp
  induction n using Nat.strongRecOn with
  | ind n ih =>
  intro c hc
  unfold decimal at hc
  split at hc
  next h => rw [List.mem_singleton.mp hc]; exact hdigit n h
  next h =>
    rcases List.mem_append.mp hc with hc | hc
    · exact ih (n / 10) (by omega) c hc
    · rw [List.mem_singleton.mp hc]
      exact hdigit _ (Nat.mod_lt _ (by omega))

theorem decimal_pair_inj {c : Char} (hc : digitValue c = none) {m n m' n' : Nat}
    (h : decimal m ++ c :: decimal n = decimal m' ++ c :: decimal n') : m = m' ∧ n = n' := by
  have hnot : ∀ k, c ∉ decimal k := fun k hk => digitValue_of_mem_decimal k c hk hc
  obtain ⟨h1, -, h2⟩ := (List.append_cons_inj_of_notMem (hnot m) (hnot n)).mp h
  exact ⟨decimal_inj h1, decimal_inj h2⟩

/-! ## With a sign -/

def decimalInt : Int → List Char
  | .ofNat n => decimal n
  | .negSucc n => '-' :: decimal (n + 1)

def readInt : List Char → Option Int
  | '-' :: cs => (readNat cs).map fun n => -(n : Int)
  | cs => (readNat cs).map fun n => (n : Int)

theorem readInt_decimalInt (x : Int) : readInt (decimalInt x) = some x := by
  cases x with
  | ofNat n =>
    have hminus : ∀ cs, decimal n ≠ '-' :: cs := by
      intro cs h
      have := digitValue_of_mem_decimal n '-' (by rw [h]; exact List.mem_cons_self)
      exact this (by decide)
    rw [decimalInt]
    unfold readInt
    split
    next cs h => exact absurd h (hminus cs)
    next => rw [readNat_decimal]; rfl
  | negSucc n =>
    rw [decimalInt, readInt, readNat_decimal]
    rfl

end Settled.Lib
