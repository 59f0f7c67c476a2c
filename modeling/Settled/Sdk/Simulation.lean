/-
  Settled.Sdk.Simulation — the SDK verifiers compute what settled-core's do.

  `Ints.Model I D val`: on the integers in `D`, the operations of `I` are those of the
  naturals `val` reads them as, and doubling a power of two below `n` either is exact
  or sends the loop of `k` into a run that never returns. Over a model `k`, whenever it
  returns, returns settled-core's split point (`Ints.Model.k`), `verify_inclusion` is
  settled-core's, query for query (`verifyInclusion_sim`), and so is every run of
  `verify_consistency` that returns (`verifyConsistency_sim`); where no doubling wraps
  (`Ints.Exact`) it does return (`verifyConsistency_returns`).

  The SDKs' integers: non-negative `int`s and `bigint`s; every `ulong`; and the `long`s
  below 2^63 (above it the signed comparison in the loop of `k` stops at once). Past
  2^63 for `ulong` and 2^62 for `long` the doubling loop wraps to 0 and never returns.
-/

import Settled.Sdk.Verifier

namespace Settled.Sdk

open Settled.Lib Settled.Core

structure Ints.Model {ι : Type} (I : Ints ι) (D : ι → Prop) (val : ι → Nat) : Prop where
  inj : ∀ {x y : ι}, D x → D y → val x = val y → x = y
  zero : D I.zero ∧ val I.zero = 0
  one : D I.one ∧ val I.one = 1
  lt : ∀ {x y : ι}, D x → D y → (I.lt x y = true ↔ val x < val y)
  sub : ∀ {x y : ι}, D x → D y → val y ≤ val x → D (I.sub x y) ∧ val (I.sub x y) = val x - val y
  shr : ∀ {x : ι}, D x → D (I.shr x) ∧ val (I.shr x) = val x / 2
  odd : ∀ {x : ι}, D x → (I.odd x = true ↔ val x % 2 = 1)
  dbl : ∀ {n p : ι} {j : Nat}, D n → D p → val p = 2 ^ j → 2 ^ j < val n →
    (I.loopLt (I.dbl p) n = decide (2 ^ (j + 1) < val n) ∧
      (2 ^ (j + 1) < val n → D (I.dbl p) ∧ val (I.dbl p) = 2 ^ (j + 1))) ∨
    (2 ^ 62 < val n ∧ I.loopLt (I.dbl p) n = true ∧ ∀ fuel, kLoop I n fuel (I.dbl p) = none)

/-- Up to `B` no doubling of a power of two below `n` wraps. -/
def Ints.Exact {ι : Type} (I : Ints ι) (D : ι → Prop) (val : ι → Nat) (B : Nat) : Prop :=
  ∀ {n p : ι} {j : Nat}, D n → D p → val n ≤ B → val p = 2 ^ j → 2 ^ j < val n →
    I.loopLt (I.dbl p) n = decide (2 ^ (j + 1) < val n) ∧
      (2 ^ (j + 1) < val n → D (I.dbl p) ∧ val (I.dbl p) = 2 ^ (j + 1))

section

variable {ι : Type} {I : Ints ι} {D : ι → Prop} {val : ι → Nat} (M : I.Model D val)

include M

theorem Ints.Model.eq_iff {x y : ι} (hx : D x) (hy : D y) : x = y ↔ val x = val y :=
  ⟨fun h => by rw [h], M.inj hx hy⟩

theorem Ints.Model.eq_zero_iff {x : ι} (hx : D x) : x = I.zero ↔ val x = 0 := by
  rw [M.eq_iff hx M.zero.1, M.zero.2]

/-! ## The split point -/

theorem Ints.Model.kLoop {n : ι} (hn : D n) : ∀ (fuel j : Nat) (p q : ι), D p → val p = 2 ^ j → 2 ^ j < val n →
    kLoop I n fuel p = some q → D q ∧ val q = Core.k (val n) := by
  intro fuel
  induction fuel with
  | zero => intro j p q _ _ _ h; cases h
  | succ fuel ih =>
    intro j p q hp hv hlt h
    unfold Sdk.kLoop at h
    rcases M.dbl hn hp hv hlt with ⟨hl, hd⟩ | ⟨-, hl, hd⟩
    · rw [hl] at h
      by_cases hc : 2 ^ (j + 1) < val n
      · rw [decide_eq_true hc, if_pos rfl] at h
        obtain ⟨hp', hv'⟩ := hd hc
        exact ih (j + 1) _ q hp' hv' hc h
      · rw [decide_eq_false hc, if_neg (by decide)] at h
        cases h
        exact ⟨hp, by rw [hv, Core.k_eq, pow2Below_unique hlt (by omega)]⟩
    · rw [hl, if_pos rfl, hd] at h
      cases h

theorem Ints.Model.k {n p : ι} {fuel : Nat} (hn : D n) (h1 : 1 < val n) (h : k I fuel n = some p) :
    D p ∧ val p = Core.k (val n) :=
  M.kLoop hn fuel 0 I.one p M.one.1 M.one.2 h1 h

theorem Ints.Model.exact : I.Exact D val (2 ^ 62) := by
  intro n p j hn hp hb hv hlt
  rcases M.dbl hn hp hv hlt with h | ⟨h62, -⟩
  · exact h
  · omega

omit M in
/-- The loop returns after one round a bit. -/
theorem Ints.Exact.kLoop_returns {B : Nat} (hB : I.Exact D val B) {n : ι} (hn : D n) (hb : val n ≤ B) :
    ∀ (fuel j : Nat) (p : ι), D p → val p = 2 ^ j → 2 ^ j < val n → val n ≤ 2 ^ (fuel + j) →
      ∃ q, Sdk.kLoop I n fuel p = some q := by
  intro fuel
  induction fuel with
  | zero => intro j p _ _ hlt hf; rw [Nat.zero_add] at hf; omega
  | succ fuel ih =>
    intro j p hp hv hlt hf
    unfold Sdk.kLoop
    obtain ⟨hl, hd⟩ := hB hn hp hb hv hlt
    by_cases hc : 2 ^ (j + 1) < val n
    · obtain ⟨hp', hv'⟩ := hd hc
      obtain ⟨q, hq⟩ := ih (j + 1) _ hp' hv' hc (by rw [show fuel + (j + 1) = fuel + 1 + j by omega]; exact hf)
      exact ⟨q, by rw [hl, decide_eq_true hc, if_pos rfl, hq]⟩
    · exact ⟨p, by rw [hl, decide_eq_false hc, if_neg (by decide)]⟩

/-! ## Inclusion -/

variable [DecidableEq ι] (sha256 : Bytes → Hash)

theorem skipLevels_sim {fn sn : ι} (hf : D fn) (hs : D sn) :
    D (skipLevels I fn sn).1 ∧ D (skipLevels I fn sn).2 ∧
      (val (skipLevels I fn sn).1, val (skipLevels I fn sn).2) = Core.skipLevels (val fn) (val sn) := by
  induction fn, sn using skipLevels.induct I with
  | case1 fn sn h ih =>
    obtain ⟨hf', ef⟩ := M.shr hf
    obtain ⟨hs', es⟩ := M.shr hs
    have hodd : ¬ val fn % 2 = 1 := by rw [← M.odd hf]; simp [h.2]
    have h0 : val fn ≠ 0 := by rw [ne_eq, ← M.eq_zero_iff hf]; exact h.1
    rw [skipLevels, dif_pos h, Core.skipLevels, dif_pos ⟨h0, by rw [Nat.and_one_is_mod]; omega⟩, Nat.shiftRight_one,
      Nat.shiftRight_one, ← ef, ← es]
    exact ih hf' hs'
  | case2 fn sn h =>
    have hn : ¬ (val fn ≠ 0 ∧ val fn &&& 1 = 0) := by
      rintro ⟨h0, h1⟩
      rw [Nat.and_one_is_mod] at h1
      refine h ⟨by rw [ne_eq, M.eq_zero_iff hf]; exact h0, ?_⟩
      rw [← Bool.not_eq_true, M.odd hf]
      omega
    rw [skipLevels, dif_neg h, Core.skipLevels, dif_neg hn]
    exact ⟨hf, hs, rfl⟩

theorem verifyInclusionLoop_sim (root : Bytes) : ∀ (proof : List Bytes) (fn sn : ι) (r : Bytes), D fn → D sn →
    verifyInclusionLoop I sha256 root fn sn r proof =
      Core.verifyInclusionLoop (hasher sha256) root (val fn) (val sn) r proof := by
  intro proof
  induction proof with
  | nil =>
    intro fn sn r hf hs
    have : decide (sn = I.zero) = decide (val sn = 0) := decide_eq_decide.mpr (M.eq_zero_iff hs)
    rw [verifyInclusionLoop, Core.verifyInclusionLoop, this]
  | cons step proof ih =>
    intro fn sn r hf hs
    rw [verifyInclusionLoop, Core.verifyInclusionLoop]
    by_cases h0 : sn = I.zero
    · rw [if_pos h0, if_pos ((M.eq_zero_iff hs).mp h0)]
    rw [if_neg h0, if_neg (fun h => h0 ((M.eq_zero_iff hs).mpr h))]
    have hc : (I.odd fn = true ∨ fn = sn) ↔ (val fn &&& 1 ≠ 0 ∨ val fn = val sn) := by
      rw [M.odd hf, M.eq_iff hf hs, Nat.and_one_is_mod]
      omega
    by_cases hcond : I.odd fn = true ∨ fn = sn
    · rw [if_pos hcond, if_pos (hc.mp hcond)]
      obtain ⟨h1, h2, he⟩ := skipLevels_sim M hf hs
      obtain ⟨h1', e1⟩ := M.shr h1
      obtain ⟨h2', e2⟩ := M.shr h2
      simp only [← he, Nat.shiftRight_one, ← e1, ← e2]
      simp only [ih _ _ _ h1' h2']
    · rw [if_neg hcond, if_neg (fun h => hcond (hc.mpr h))]
      obtain ⟨hf', ef⟩ := M.shr hf
      obtain ⟨hs', es⟩ := M.shr hs
      simp only [Nat.shiftRight_one, ← ef, ← es]
      simp only [ih _ _ _ hf' hs']

theorem verifyInclusion_sim {i n : ι} (hi : D i) (hn : D n) (leaf : Bytes) (proof : List Bytes) (root : Bytes) :
    verifyInclusion I sha256 leaf i n proof root =
      Core.verifyInclusion (hasher sha256) leaf (val i) (val n) proof root := by
  rw [verifyInclusion, Core.verifyInclusion]
  have hlt := M.lt hi hn
  by_cases h : n = I.zero ∨ I.lt i n = false
  · rw [if_pos h, if_pos]
    rcases h with h | h
    · exact Or.inl ((M.eq_zero_iff hn).mp h)
    · right
      rw [← Bool.not_eq_true, hlt] at h
      omega
  · obtain ⟨h0, h1⟩ := not_or.mp h
    have hv0 : val n ≠ 0 := fun e => h0 ((M.eq_zero_iff hn).mpr e)
    have hvlt : val i < val n := hlt.mp (by simpa using h1)
    rw [if_neg h, if_neg (by omega)]
    obtain ⟨hs, es⟩ := M.sub hn M.one.1 (by rw [M.one.2]; omega)
    rw [verifyInclusionLoop_sim M sha256 root proof i _ leaf hi hs, es, M.one.2]

/-! ## Consistency -/

theorem verifySubproof_sim (old : Bytes) : ∀ (fuel : Nat) (m n : ι) (iter : List Bytes) (b : Bool)
    (t : Traced Bytes (Option ((Bytes × Bytes) × List Bytes))), D m → D n → 0 < val m → val m ≤ val n →
    verifySubproof I sha256 old fuel m n iter b = some t →
      t = Core.verifySubproof (hasher sha256) (val m) (val n) old iter b := by
  intro fuel
  induction fuel with
  | zero => intro m n iter b t _ _ _ _ h; rw [verifySubproof] at h; cases h
  | succ fuel ih =>
    intro m n iter b t hm hn h0 hle h
    rw [verifySubproof.eq_def] at h
    rw [Core.verifySubproof.eq_def]
    by_cases e : m = n
    · simp only [e, if_true] at h ⊢
      cases b with
      | true => cases h; rfl
      | false => cases iter <;> (cases h; rfl)
    have e' : val m ≠ val n := fun he => e (M.inj hm hn he)
    simp only [e, if_false] at h
    rw [if_neg e', dif_neg (by omega)]
    cases hk : k I fuel n with
    | none => simp only [hk] at h; cases h
    | some split =>
      simp only [hk] at h
      obtain ⟨hs, es⟩ := M.k hn (by omega) hk
      have hlt := M.lt hs hm
      have hpos := Core.k_pos (val n)
      by_cases hc : val m ≤ Core.k (val n)
      · have : I.lt split m = false := by rw [← Bool.not_eq_true, hlt]; omega
        simp only [this, if_true] at h
        simp only [hc, if_true]
        cases hsub : verifySubproof I sha256 old fuel m split iter b with
        | none => simp only [hsub] at h; cases h
        | some sub =>
          simp only [hsub, Option.some.injEq] at h
          have := ih m split iter b sub hm hs h0 (by omega) hsub
          rw [es] at this
          rw [← h, this]
          rcases Core.verifySubproof (hasher sha256) (val m) (Core.k (val n)) old iter b with ⟨_ | ⟨_, _ | _⟩, _⟩ <;> rfl
      · have : I.lt split m = true := by rw [hlt]; omega
        simp only [this, Bool.true_eq_false, if_false] at h
        simp only [hc, if_false]
        obtain ⟨hm', em⟩ := M.sub hm hs (by omega)
        obtain ⟨hn', en⟩ := M.sub hn hs (by omega)
        cases hsub : verifySubproof I sha256 old fuel (I.sub m split) (I.sub n split) iter false with
        | none => simp only [hsub] at h; cases h
        | some sub =>
          simp only [hsub, Option.some.injEq] at h
          have := ih _ _ iter false sub hm' hn' (by omega) (by omega) hsub
          rw [em, en, es] at this
          rw [← h, this]
          rcases Core.verifySubproof (hasher sha256) (val m - Core.k (val n)) (val n - Core.k (val n)) old iter false
            with ⟨_ | ⟨_, _ | _⟩, _⟩ <;> rfl

theorem verifyConsistency_sim {m n : ι} (hm : D m) (hn : D n) {fuel : Nat} {proof : List Bytes} {old new : Bytes}
    {t : Traced Bytes Bool} (h : verifyConsistency I sha256 fuel m n proof old new = some t) :
    t = Core.verifyConsistency (hasher sha256) (val m) (val n) proof old new := by
  unfold verifyConsistency at h
  unfold Core.verifyConsistency
  by_cases e : m = n
  · rw [if_pos e] at h
    rw [if_pos (by rw [e])]
    cases h; rfl
  rw [if_neg e] at h
  rw [if_neg (fun he => e (M.inj hm hn he))]
  have hlt := M.lt hn hm
  by_cases hc : m = I.zero ∨ I.lt n m = true
  · rw [if_pos hc] at h
    rw [M.eq_zero_iff hm, hlt] at hc
    rw [if_pos hc]
    cases h; rfl
  · rw [if_neg hc] at h
    rw [M.eq_zero_iff hm, hlt] at hc
    rw [if_neg hc]
    cases hsub : verifySubproof I sha256 old fuel m n proof true with
    | none => simp only [hsub] at h; cases h
    | some sub =>
      simp only [hsub, Option.some.injEq] at h
      rw [← h, verifySubproof_sim M sha256 old fuel m n proof true sub hm hn (by omega) (by omega) hsub]
      rcases Core.verifySubproof (hasher sha256) (val m) (val n) old proof true with ⟨_ | ⟨_, _ | _⟩, _⟩ <;> rfl

/-! ## Runs that return -/

theorem verifySubproof_returns {B : Nat} (hB : I.Exact D val B) (old : Bytes) : ∀ (fuel : Nat) (m n : ι)
    (iter : List Bytes) (b : Bool), D m → D n → 0 < val m → val m ≤ val n → val n ≤ B → val n + 64 ≤ fuel →
    ∃ t, verifySubproof I sha256 old fuel m n iter b = some t := by
  intro fuel
  induction fuel with
  | zero => intro m n iter b _ _ _ _ _ hf; omega
  | succ fuel ih =>
    intro m n iter b hm hn h0 hle hb hf
    rw [verifySubproof.eq_def]
    by_cases e : m = n
    · simp only [e, if_true]
      cases b with
      | true => exact ⟨_, rfl⟩
      | false => cases iter <;> exact ⟨_, rfl⟩
    have e' : val m ≠ val n := fun he => e (M.inj hm hn he)
    have hpow : val n ≤ 2 ^ fuel :=
      Nat.le_trans (Nat.le_of_lt Nat.lt_two_pow_self) (Nat.pow_le_pow_right (by omega) (show val n ≤ fuel by omega))
    obtain ⟨split, hk⟩ := hB.kLoop_returns hn hb fuel 0 I.one M.one.1 M.one.2 (by omega) hpow
    have hk : k I fuel n = some split := hk
    obtain ⟨hs, es⟩ := M.k hn (by omega) hk
    have hlt := M.lt hs hm
    have hpos := Core.k_pos (val n)
    have hkn := Core.k_lt (n := val n) (by omega)
    simp only [e, if_false, hk]
    by_cases hc : val m ≤ Core.k (val n)
    · have : I.lt split m = false := by rw [← Bool.not_eq_true, hlt]; omega
      obtain ⟨t, ht⟩ := ih m split iter b hm hs h0 (by omega) (by omega) (by omega)
      simp only [this, if_true, ht]
      exact ⟨_, rfl⟩
    · have : I.lt split m = true := by rw [hlt]; omega
      obtain ⟨hm', em⟩ := M.sub hm hs (by omega)
      obtain ⟨hn', en⟩ := M.sub hn hs (by omega)
      obtain ⟨t, ht⟩ := ih _ _ iter false hm' hn' (by omega) (by omega) (by omega) (by omega)
      simp only [this, Bool.true_eq_false, if_false, ht]
      exact ⟨_, rfl⟩

/-- Where no doubling wraps `verify_consistency` returns, and returns what settled-core's
    does. -/
theorem verifyConsistency_returns {B : Nat} (hB : I.Exact D val B) {m n : ι} (hm : D m) (hn : D n) (hb : val n ≤ B)
    {fuel : Nat} (hf : val n + 64 ≤ fuel) (proof : List Bytes) (old new : Bytes) :
    verifyConsistency I sha256 fuel m n proof old new =
      some (Core.verifyConsistency (hasher sha256) (val m) (val n) proof old new) := by
  have hret : ∃ t, verifyConsistency I sha256 fuel m n proof old new = some t := by
    unfold verifyConsistency
    by_cases e : m = n
    · exact ⟨_, if_pos e⟩
    rw [if_neg e]
    have hlt := M.lt hn hm
    by_cases hc : m = I.zero ∨ I.lt n m = true
    · exact ⟨_, if_pos hc⟩
    rw [if_neg hc]
    rw [M.eq_zero_iff hm, hlt] at hc
    obtain ⟨t, ht⟩ := verifySubproof_returns M sha256 hB old fuel m n proof true hm hn (by omega) (by omega) hb hf
    simp only [ht]
    exact ⟨_, rfl⟩
  obtain ⟨t, ht⟩ := hret
  rw [ht, verifyConsistency_sim M sha256 hm hn ht]

end

/-! ## The SDKs' integers -/

theorem bigInts_model : bigInts.Model (0 ≤ ·) Int.toNat where
  inj hx hy h := by omega
  zero := ⟨le_refl _, rfl⟩
  one := ⟨by decide, rfl⟩
  lt hx hy := by simp only [bigInts, decide_eq_true_eq]; omega
  sub hx hy h := by simp only [bigInts]; omega
  shr {x} hx := by
    have e : x >>> (1 : Nat) = x / 2 := by rw [Int.shiftRight_eq_div_pow]; rfl
    simp only [bigInts, e]
    omega
  odd hx := by simp only [bigInts, decide_eq_true_eq]; omega
  dbl {n p j} hn hp hv hlt := by
    have hpj : p * 2 = ((2 ^ (j + 1) : Nat) : Int) := by rw [Nat.pow_succ, ← hv]; omega
    left
    simp only [bigInts, hpj]
    refine ⟨decide_eq_decide.mpr (by omega), fun _ => ⟨by omega, by omega⟩⟩

/-- Past the last power of two below 2^64 the loop of `k` is at 0, where it stays. -/
theorem kLoop_zero {I : Ints (BitVec 64)} {n : BitVec 64} (hd : I.dbl 0#64 = 0#64) (hl : I.loopLt 0#64 n = true) :
    ∀ fuel, kLoop I n fuel 0#64 = none := by
  intro fuel
  induction fuel with
  | zero => rfl
  | succ fuel ih => rw [kLoop, hd, hl, if_pos rfl, ih]

theorem toNat_dbl {p : BitVec 64} {j : Nat} (hv : p.toNat = 2 ^ j) : (p * 2#64).toNat = 2 ^ (j + 1) % 2 ^ 64 := by
  rw [BitVec.toNat_mul, hv, Nat.pow_succ]
  rfl

theorem toNat_sub_of_le {x y : BitVec 64} (h : y.toNat ≤ x.toNat) : (x - y).toNat = x.toNat - y.toNat :=
  BitVec.toNat_sub_of_le (BitVec.le_def.mpr h)

theorem odd_iff {x : BitVec 64} : longs.odd x = true ↔ x.toNat % 2 = 1 := by
  have : x &&& 1#64 = 0#64 ↔ (x &&& 1#64).toNat = 0 := ⟨fun h => by rw [h]; rfl, fun h => BitVec.eq_of_toNat_eq h⟩
  simp only [longs, decide_eq_true_eq, ne_eq, this, BitVec.toNat_and]
  have h1 : (1#64).toNat = 1 := rfl
  rw [h1, Nat.and_one_is_mod]
  omega

theorem toNat_shr (x : BitVec 64) : (longs.shr x).toNat = x.toNat / 2 := by
  simp only [longs, BitVec.toNat_ushiftRight, Nat.shiftRight_one]

/-- 2^63 doubled is 0. -/
theorem ulongs_top {n p : BitVec 64} (hv : p.toNat = 2 ^ 63) (hlt : 2 ^ 63 < n.toNat) :
    ulongs.loopLt (ulongs.dbl p) n = true ∧ ∀ fuel, kLoop ulongs n fuel (ulongs.dbl p) = none := by
  have h0 : p * 2#64 = 0#64 := BitVec.eq_of_toNat_eq (toNat_dbl hv)
  have hl : (0#64).ult n = true := by simp only [BitVec.ult, decide_eq_true_eq]; exact Nat.lt_of_le_of_lt (Nat.zero_le _) hlt
  constructor
  · simp only [ulongs, longs, h0, hl]
  · simp only [ulongs, longs, h0]
    exact kLoop_zero rfl hl

theorem ulongs_dbl {n p : BitVec 64} {j : Nat} (hj : j < 63) (hv : p.toNat = 2 ^ j) :
    ulongs.loopLt (ulongs.dbl p) n = decide (2 ^ (j + 1) < n.toNat) ∧ (ulongs.dbl p).toNat = 2 ^ (j + 1) := by
  have hd := toNat_dbl hv
  rw [Nat.mod_eq_of_lt (Nat.pow_lt_pow_right (by omega) (by omega))] at hd
  exact ⟨by simp only [ulongs, longs, BitVec.ult, hd], hd⟩

theorem ulongs_model : ulongs.Model (fun _ => True) BitVec.toNat where
  inj _ _ h := BitVec.eq_of_toNat_eq h
  zero := ⟨trivial, rfl⟩
  one := ⟨trivial, rfl⟩
  lt {x y} _ _ := by simp only [ulongs, longs, BitVec.ult, decide_eq_true_eq]
  sub _ _ h := ⟨trivial, toNat_sub_of_le h⟩
  shr {x} _ := ⟨trivial, toNat_shr x⟩
  odd _ := odd_iff
  dbl {n p j} _ _ hv hlt := by
    have hj : j < 64 := (Nat.pow_lt_pow_iff_right (by omega)).mp (Nat.lt_trans hlt n.isLt)
    by_cases h63 : j = 63
    · subst h63
      obtain ⟨h1, h2⟩ := ulongs_top hv hlt
      exact Or.inr ⟨Nat.lt_trans (by decide) hlt, h1, h2⟩
    · obtain ⟨h1, h2⟩ := ulongs_dbl (n := n) (by omega) hv
      exact Or.inl ⟨h1, fun _ => ⟨trivial, h2⟩⟩

theorem ulongs_exact : ulongs.Exact (fun _ => True) BitVec.toNat (2 ^ 63) := by
  intro n p j _ _ hb hv hlt
  have hj : j < 63 := (Nat.pow_lt_pow_iff_right (by omega)).mp (Nat.lt_of_lt_of_le hlt hb)
  obtain ⟨h1, h2⟩ := ulongs_dbl (n := n) hj hv
  exact ⟨h1, fun _ => ⟨trivial, h2⟩⟩

/-- Below 2^63 the signed comparison is the unsigned one. -/
theorem slt_of_lt {x y : BitVec 64} (hx : x.toNat < 2 ^ 63) (hy : y.toNat < 2 ^ 63) :
    x.slt y = decide (x.toNat < y.toNat) := by
  rw [BitVec.slt_eq_decide, BitVec.toInt_eq_toNat_of_lt (by omega), BitVec.toInt_eq_toNat_of_lt (by omega)]
  exact decide_eq_decide.mpr (by omega)

/-- 2^62 doubled is negative, and doubled again 0. -/
theorem longs_top {n p : BitVec 64} (hv : p.toNat = 2 ^ 62) (hlt : 2 ^ 62 < n.toNat) (hn : n.toNat < 2 ^ 63) :
    longs.loopLt (longs.dbl p) n = true ∧ ∀ fuel, kLoop longs n fuel (longs.dbl p) = none := by
  have h63 : p * 2#64 = BitVec.intMin 64 := BitVec.eq_of_toNat_eq (toNat_dbl hv)
  have h0 : BitVec.intMin 64 * 2#64 = 0#64 := rfl
  have hneg : (BitVec.intMin 64).slt n = true := by
    rw [BitVec.slt_eq_decide, BitVec.toInt_eq_toNat_of_lt (x := n) (by omega)]
    simp [BitVec.toInt_intMin]
    omega
  have hl : (0#64).slt n = true := by
    rw [slt_of_lt (by decide) hn]
    exact decide_eq_true (Nat.lt_of_le_of_lt (Nat.zero_le _) hlt)
  constructor
  · simp only [longs, h63, hneg]
  · intro fuel
    cases fuel with
    | zero => rfl
    | succ fuel =>
      unfold kLoop
      simp only [longs, h63, h0, hl, if_true]
      exact kLoop_zero rfl hl fuel

theorem longs_dbl {n p : BitVec 64} {j : Nat} (hj : j < 62) (hv : p.toNat = 2 ^ j) (hn : n.toNat < 2 ^ 63) :
    longs.loopLt (longs.dbl p) n = decide (2 ^ (j + 1) < n.toNat) ∧ (longs.dbl p).toNat = 2 ^ (j + 1) := by
  have hd := toNat_dbl hv
  rw [Nat.mod_eq_of_lt (Nat.pow_lt_pow_right (by omega) (by omega))] at hd
  have hlt63 : 2 ^ (j + 1) < 2 ^ 63 := Nat.pow_lt_pow_right (by omega) (by omega)
  refine ⟨?_, hd⟩
  simp only [longs]
  rw [slt_of_lt (by rw [hd]; exact hlt63) hn, hd]

theorem longs_model : longs.Model (fun x => x.toNat < 2 ^ 63) BitVec.toNat where
  inj _ _ h := BitVec.eq_of_toNat_eq h
  zero := ⟨by decide, rfl⟩
  one := ⟨by decide, rfl⟩
  lt {x y} _ _ := by simp only [longs, BitVec.ult, decide_eq_true_eq]
  sub {x y} hx _ h := ⟨by simp only [longs, toNat_sub_of_le h]; omega, toNat_sub_of_le h⟩
  shr {x} hx := ⟨by rw [toNat_shr]; omega, toNat_shr x⟩
  odd _ := odd_iff
  dbl {n p j} hn _ hv hlt := by
    have hj : j < 63 := (Nat.pow_lt_pow_iff_right (by omega)).mp (Nat.lt_trans hlt hn)
    by_cases h62 : j = 62
    · subst h62
      obtain ⟨h1, h2⟩ := longs_top hv hlt hn
      exact Or.inr ⟨hlt, h1, h2⟩
    · obtain ⟨h1, h2⟩ := longs_dbl (n := n) (by omega) hv hn
      have hlt63 : 2 ^ (j + 1) < 2 ^ 63 := Nat.pow_lt_pow_right (by omega) (by omega)
      exact Or.inl ⟨h1, fun _ => ⟨by rw [h2]; exact hlt63, h2⟩⟩

end Settled.Sdk
