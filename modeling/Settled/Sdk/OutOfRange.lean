/-
  Settled.Sdk.OutOfRange — the Python and TypeScript verifiers on integers that are no
  index and no size (`verifier.py`, `verifier.ts`).

  The guards were written for unsigned integers: they refuse a size of 0 and an index at or
  past it, and nothing below 0. Shifts are arithmetic, so a negative number stays negative.

  - `verify_inclusion`: a negative size is never halved to 0, so nothing is accepted. Under
    a positive size a negative index is never the last of its level, so no level is
    skipped, and with one proof element a bit of `n - 1` there is a root that is accepted.
  - `verify_consistency`: `k` of a size up to 1 is 1, and a negative old size is at most
    that, so the recursion comes to a new size of 1 and stays there. Any other sizes are
    answered, and answered with true only if they are in order.

  `out_of_range_iff` says exactly which integers are refused; `negative_index_accepted` has
  both failures. The recursion of `verify_consistency` is up to as deep as the new size has
  bits. The interpreters' limits on their call stacks are not modelled: what CPython, at its
  default limit, ends with a `RecursionError` (sizes of a thousand bits and more) is
  answered here.
-/

import Mathlib.Data.Nat.Size
import Settled.Core.Sha256
import Settled.Sdk.Simulation

namespace Settled.Sdk

open Settled.Lib Settled.Core

variable (sha256 : Bytes → Hash)

@[simp] theorem bigInts_shr (x : Int) : bigInts.shr x = x / 2 := by
  show x >>> (1 : Nat) = x / 2
  rw [Int.shiftRight_eq_div_pow]
  rfl

/-! ## Inclusion -/

theorem skipLevels_negative (fn : Int) {sn : Int} (h : sn < 0) : (skipLevels bigInts fn sn).2 < 0 := by
  induction fn, sn using skipLevels.induct bigInts with
  | case1 fn sn hc ih =>
    rw [skipLevels, dif_pos hc]
    exact ih (by rw [bigInts_shr]; omega)
  | case2 fn sn hc => rw [skipLevels, dif_neg hc]; exact h

/-- A negative size has no last level. -/
theorem loop_negative_size (root : Bytes) : ∀ (proof : List Bytes) (fn sn : Int) (r : Bytes), sn < 0 →
    (verifyInclusionLoop bigInts sha256 root fn sn r proof).val = false := by
  intro proof
  induction proof with
  | nil =>
    intro fn sn r h
    have h0 : sn ≠ bigInts.zero := Int.ne_of_lt h
    simp [verifyInclusionLoop, h0]
  | cons step proof ih =>
    intro fn sn r h
    have h0 : sn ≠ bigInts.zero := Int.ne_of_lt h
    rw [verifyInclusionLoop, if_neg h0]
    split
    · rw [Traced.val_bind]
      exact ih _ _ _ (by have := skipLevels_negative fn h; rw [bigInts_shr]; omega)
    · rw [Traced.val_bind]
      exact ih _ _ _ (by rw [bigInts_shr]; omega)

theorem size_half {n : Nat} (h : n ≠ 0) : Nat.size n = Nat.size (n / 2) + 1 := by
  apply eq_of_forall_ge_iff
  intro c
  cases c with
  | zero => simp [Nat.size_eq_zero, h]
  | succ c => rw [Nat.size_le, Nat.succ_le_succ_iff, Nat.size_le, Nat.pow_succ]; omega

/-- A negative index has a sibling at every level: if the proof has an element for each, one
    root is accepted. -/
theorem loop_negative_index : ∀ (proof : List Bytes) (fn sn : Int) (r : Bytes), fn < 0 → 0 ≤ sn →
    ∃ t, ∀ root, (verifyInclusionLoop bigInts sha256 root fn sn r proof).val = true ↔
      proof.length = Nat.size sn.toNat ∧ t = root := by
  intro proof
  induction proof with
  | nil =>
    intro fn sn r _ hsn
    refine ⟨r, fun root => ?_⟩
    have h0 : sn = bigInts.zero ↔ 0 = Nat.size sn.toNat := by
      rw [eq_comm (a := 0), Nat.size_eq_zero, Int.toNat_eq_zero]
      exact ⟨Int.le_of_eq, fun h => Int.le_antisymm h hsn⟩
    simp [verifyInclusionLoop, h0]
  | cons step proof ih =>
    intro fn sn r hfn hsn
    by_cases h0 : sn = 0
    · subst h0
      exact ⟨r, fun root => by simp [verifyInclusionLoop, bigInts]⟩
    have hsize : Nat.size sn.toNat = Nat.size (sn / 2).toNat + 1 := by
      rw [size_half (by omega), show sn.toNat / 2 = (sn / 2).toNat by omega]
    have hne : fn ≠ sn := by omega
    by_cases hodd : bigInts.odd fn = true
    · -- odd: nothing is skipped
      have hskip : skipLevels bigInts fn sn = (fn, sn) := by rw [skipLevels, dif_neg (by simp [hodd])]
      obtain ⟨t, ht⟩ := ih (fn / 2) (sn / 2) ((hasher sha256).node step r) (by omega) (by omega)
      refine ⟨t, fun root => ?_⟩
      rw [verifyInclusionLoop, if_neg (show sn ≠ bigInts.zero from h0), if_pos (Or.inl hodd), Traced.val_bind, hskip,
        List.length_cons, hsize, Nat.succ_inj, ← ht root]
      simp only [bigInts_shr]
      rfl
    · obtain ⟨t, ht⟩ := ih (fn / 2) (sn / 2) ((hasher sha256).node r step) (by omega) (by omega)
      refine ⟨t, fun root => ?_⟩
      rw [verifyInclusionLoop, if_neg (show sn ≠ bigInts.zero from h0), if_neg (by simp [hodd, hne]), Traced.val_bind,
        List.length_cons, hsize, Nat.succ_inj, ← ht root]
      simp only [bigInts_shr]
      rfl

/-- An inclusion proof is accepted, under some root, only for an index in the tree, exactly
    if it does not have one element for each bit of `n - 1` under a negative index. -/
theorem verifyInclusion_range (leaf : Bytes) (i n : Int) (proof : List Bytes) :
    (∀ root, (verifyInclusion bigInts sha256 leaf i n proof root).val = true → 0 ≤ i ∧ i < n) ↔
      ¬ (i < 0 ∧ 0 < n ∧ proof.length = Nat.size (n - 1).toNat) := by
  by_cases hguard : n = 0 ∨ n ≤ i
  · -- refused at once
    have hno : ∀ root, (verifyInclusion bigInts sha256 leaf i n proof root).val = false := by
      intro root
      rw [verifyInclusion, if_pos]
      · rfl
      · simpa [bigInts] using hguard
    simp only [hno, Bool.false_eq_true, false_implies, implies_true, true_iff]
    omega
  have hloop : ∀ root, verifyInclusion bigInts sha256 leaf i n proof root =
      verifyInclusionLoop bigInts sha256 root i (n - 1) leaf proof := by
    intro root
    rw [verifyInclusion, if_neg]
    · rfl
    · simpa [bigInts] using hguard
  simp only [hloop]
  by_cases hn : n < 0
  · simp only [loop_negative_size sha256 _ proof i (n - 1) leaf (by omega), Bool.false_eq_true, false_implies, implies_true,
      true_iff]
    omega
  by_cases hi : i < 0
  · obtain ⟨t, ht⟩ := loop_negative_index sha256 proof i (n - 1) leaf hi (by omega)
    simp only [ht]
    constructor
    · intro h hlen
      have := h t ⟨hlen.2.2, rfl⟩
      omega
    · intro h root hlen
      exact absurd ⟨hi, by omega, hlen.1⟩ h
  · exact ⟨fun _ h => hi h.1, fun _ _ _ => by omega⟩

/-! ## Consistency -/

/-- `k` of any integer is positive. -/
theorem kLoop_positive {n : Int} : ∀ (fuel : Nat) (p q : Int), 0 < p → kLoop bigInts n fuel p = some q → 0 < q := by
  intro fuel
  induction fuel with
  | zero => intro p q _ h; cases h
  | succ fuel ih =>
    intro p q hp h
    unfold kLoop at h
    split at h
    · exact ih _ q (show 0 < p * 2 by omega) h
    · cases h; exact hp

/-- A negative old size is at most every split point, so it is never reached. -/
theorem subproof_negative (old : Bytes) {m : Int} (hm : m < 0) : ∀ (fuel : Nat) (n : Int) (iter : List Bytes) (b : Bool), m < n →
    verifySubproof bigInts sha256 old fuel m n iter b = none := by
  intro fuel
  induction fuel with
  | zero => intro n iter b _; rfl
  | succ fuel ih =>
    intro n iter b hmn
    have hne : m ≠ n := by omega
    rw [verifySubproof.eq_def]
    simp only [hne, if_false]
    cases hk : k bigInts fuel n with
    | none => rfl
    | some split =>
      have hpos : 0 < split := kLoop_positive fuel 1 split Int.one_pos hk
      have hlt : bigInts.lt split m = false := by simp [bigInts]; omega
      simp only [hlt, if_true, ih split iter b (by omega)]

theorem bigInts_exact (B : Nat) : bigInts.Exact (0 ≤ ·) Int.toNat B := by
  intro n p j hn hp _ hv hlt
  have hdbl : p * 2 = ((2 ^ (j + 1) : Nat) : Int) := by rw [Nat.pow_succ, ← hv]; omega
  simp only [bigInts, hdbl]
  exact ⟨decide_eq_decide.mpr (by omega), fun _ => ⟨by omega, by omega⟩⟩

/-- A run that returns, and returns true only if `only`. -/
def Decides (run : Nat → Option (Traced Bytes Bool)) (only : Prop) : Prop :=
  (∃ fuel t, run fuel = some t) ∧ ∀ fuel t, run fuel = some t → t.val = true → only

theorem decides_of_returns {run : Nat → Option (Traced Bytes Bool)} {only : Prop} {t : Traced Bytes Bool}
    (h : ∀ fuel, run fuel = some t) (ht : t.val = true → only) : Decides run only := by
  refine ⟨⟨0, t, h 0⟩, fun fuel t' ht' => ?_⟩
  rw [h fuel] at ht'
  cases ht'
  exact ht

theorem not_decides_of_never {run : Nat → Option (Traced Bytes Bool)} {only : Prop} (h : ∀ fuel, run fuel = none) :
    ¬ Decides run only := by
  intro hd
  obtain ⟨⟨fuel, t, ht⟩, -⟩ := hd
  rw [h fuel] at ht
  cases ht

/-- With a negative old size below the new one it does not return. -/
theorem verifyConsistency_negative {m n : Int} (hm : m < 0) (hmn : m < n) (proof : List Bytes) (oldRoot newRoot : Bytes)
    (fuel : Nat) : verifyConsistency bigInts sha256 fuel m n proof oldRoot newRoot = none := by
  have hguard : ¬ (m = bigInts.zero ∨ bigInts.lt n m = true) := by simp [bigInts]; omega
  rw [verifyConsistency, if_neg (by omega), if_neg hguard, subproof_negative sha256 oldRoot hm fuel n proof true hmn]

/-- A consistency proof is answered, and with true only for sizes in order, exactly if the
    old size is not negative and below the new one. -/
theorem verifyConsistency_range (m n : Int) (proof : List Bytes) (oldRoot newRoot : Bytes) :
    Decides (verifyConsistency bigInts sha256 · m n proof oldRoot newRoot)
      ((0 < m ∧ m ≤ n) ∨ (m = n ∧ proof = [] ∧ oldRoot = newRoot)) ↔ 0 ≤ m ∨ n ≤ m := by
  by_cases hneg : m < 0 ∧ m < n
  · refine iff_of_false (not_decides_of_never fun fuel => ?_) (by omega)
    exact verifyConsistency_negative sha256 hneg.1 hneg.2 proof oldRoot newRoot fuel
  refine iff_of_true ?_ (by omega)
  by_cases heq : m = n
  · subst heq
    have hrun : ∀ fuel, verifyConsistency bigInts sha256 fuel m m proof oldRoot newRoot =
        some (pure (proof.isEmpty && decide (oldRoot = newRoot))) := fun fuel => by rw [verifyConsistency, if_pos rfl]
    refine decides_of_returns hrun fun htrue => Or.inr ⟨rfl, ?_⟩
    simpa using htrue
  by_cases hguard : m = 0 ∨ n < m
  · have hrun : ∀ fuel, verifyConsistency bigInts sha256 fuel m n proof oldRoot newRoot = some (pure false) := by
      intro fuel
      rw [verifyConsistency, if_neg heq, if_pos (by simpa [bigInts] using hguard)]
    exact decides_of_returns hrun fun htrue => by cases htrue
  · -- 0 < m < n: settled-core's recursion, with exact arithmetic
    have hret := verifyConsistency_returns bigInts_model sha256 (bigInts_exact n.toNat) (show 0 ≤ m by omega)
      (show 0 ≤ n by omega) (Nat.le_refl _) (Nat.le_refl _) proof oldRoot newRoot
    exact ⟨⟨_, _, hret⟩, fun _ _ _ _ => Or.inl (by omega)⟩

/-! ## Both SDKs -/

/-- For every list of proof elements and all integers: `verify_inclusion` returns true, for
    whatever root, only if the index is in the tree, exactly if not both the index is
    negative under a positive size and the proof has an element for each bit of the size
    less one. `verify_consistency` returns, and returns true only for sizes in order or
    equal ones with nothing to prove, exactly if the old size is not negative or not below
    the new one. -/
theorem out_of_range_iff :
    (∀ (leaf : Bytes) (i n : Int) (proof : List Bytes),
      ((∀ root, (Python.verifyInclusion sha256 leaf i n proof root).val = true → 0 ≤ i ∧ i < n) ↔
        ¬ (i < 0 ∧ 0 < n ∧ proof.length = Nat.size (n - 1).toNat)) ∧
      ((∀ root, (TypeScript.verifyInclusion sha256 leaf i n proof root).val = true → 0 ≤ i ∧ i < n) ↔
        ¬ (i < 0 ∧ 0 < n ∧ proof.length = Nat.size (n - 1).toNat))) ∧
    ∀ (m n : Int) (proof : List Bytes) (oldRoot newRoot : Bytes),
      (Decides (Python.verifyConsistency sha256 · m n proof oldRoot newRoot)
        ((0 < m ∧ m ≤ n) ∨ (m = n ∧ proof = [] ∧ oldRoot = newRoot)) ↔ 0 ≤ m ∨ n ≤ m) ∧
      (Decides (TypeScript.verifyConsistency sha256 · m n proof oldRoot newRoot)
        ((0 < m ∧ m ≤ n) ∨ (m = n ∧ proof = [] ∧ oldRoot = newRoot)) ↔ 0 ≤ m ∨ n ≤ m) :=
  ⟨fun leaf i n proof => ⟨verifyInclusion_range sha256 leaf i n proof, verifyInclusion_range sha256 leaf i n proof⟩,
    fun m n proof oldRoot newRoot =>
      ⟨verifyConsistency_range sha256 m n proof oldRoot newRoot, verifyConsistency_range sha256 m n proof oldRoot newRoot⟩⟩

/-- Index -1 of a tree of one leaf, with no proof elements and the leaf as the root, is
    accepted; and for the sizes -1 and 1 `verify_consistency` never returns. -/
theorem negative_index_accepted :
    let leaf := (leafHash Sha256.sha256 [7]).val
    (Python.verifyInclusion Sha256.sha256 leaf (-1) 1 [] leaf).val = true ∧
    (TypeScript.verifyInclusion Sha256.sha256 leaf (-1) 1 [] leaf).val = true ∧
    (∀ fuel, Python.verifyConsistency Sha256.sha256 fuel (-1) 1 [] leaf leaf = none) ∧
    ∀ fuel, TypeScript.verifyConsistency Sha256.sha256 fuel (-1) 1 [] leaf leaf = none := by
  intro leaf
  have hincl : (verifyInclusion bigInts Sha256.sha256 leaf (-1) 1 [] leaf).val = true := by
    simp [verifyInclusion, verifyInclusionLoop, bigInts]
  have hcons := verifyConsistency_negative Sha256.sha256 (m := -1) (n := 1) (by decide) (by decide) [] leaf leaf
  exact ⟨hincl, hincl, hcons, hcons⟩

end Settled.Sdk
