/-
  Settled.Sdk.FixedWidth — `verify_consistency` of the SDKs with 64-bit sizes (Rust, Go,
  .NET, Java) against settled-core's, on every pair of sizes.

  settled-core takes the split point from the leading zeros of `n - 1`; the SDKs double
  a power of two while the next one is below `n`. Modulo 2^64 that loop never ends once
  no power of two is left above: past 2^63 for unsigned sizes, and between 2^62 and 2^63
  for Java's, whose loop compares signed. From 2^63 on Java's loop ends at once, with 1.

  - `fixed_width_agree`: Rust, Go and .NET return, and return what settled-core does,
    exactly for equal sizes, sizes that are refused, and new sizes up to 2^63; Java does
    so for all proofs and roots exactly for new sizes up to 2^62.
  - From 2^63 on Java either never returns (`longs_never`), or its new root hangs on the
    first two elements of the proof only (`longs_new_root`), and settled-core accepts a
    proof for which that is not so (`late_proof`).
-/

import Settled.Core.Sha256
import Settled.Core.TamperEvidence
import Settled.Sdk.Simulation

namespace Settled.Sdk

open Settled.Lib Settled.Core

/-! ## 32-byte hashes as byte strings -/

section

variable (sha256 : Bytes → Hash)

def bytesOf (r : Option ((Hash × Hash) × List Hash)) : Option ((Bytes × Bytes) × List Bytes) :=
  r.map fun x => ((x.1.1.val, x.1.2.val), x.2.map (·.val))

theorem verifySubproof_bytes (old : Hash) : ∀ (n m : Nat) (iter : List Hash) (b : Bool),
    Core.verifySubproof (hasher sha256) m n old.val (iter.map (·.val)) b =
      ⟨bytesOf (Core.verifySubproof (.sha sha256) m n old iter b).val,
        (Core.verifySubproof (.sha sha256) m n old iter b).calls⟩ := by
  intro n
  induction n using Nat.strongRecOn with
  | ind n ih =>
  intro m iter b
  rw [Core.verifySubproof.eq_def, Core.verifySubproof.eq_def]
  by_cases e : m = n
  · rw [if_pos e, if_pos e]
    cases b with
    | true => rfl
    | false => cases iter <;> rfl
  rw [if_neg e, if_neg e]
  by_cases h1 : n ≤ 1
  · rw [dif_pos h1, dif_pos h1]; rfl
  rw [dif_neg h1, dif_neg h1]
  have hlt := Core.k_lt (n := n) (by omega)
  have hpos := Core.k_pos n
  by_cases hk : m ≤ Core.k n
  · simp only [hk, if_true]
    rw [ih (Core.k n) hlt]
    rcases Core.verifySubproof (.sha sha256) m (Core.k n) old iter b with ⟨_ | ⟨_, _ | _⟩, _⟩ <;> rfl
  · simp only [hk, if_false]
    rw [ih (n - Core.k n) (by omega)]
    rcases Core.verifySubproof (.sha sha256) (m - Core.k n) (n - Core.k n) old iter false with ⟨_ | ⟨_, _ | _⟩, _⟩ <;> rfl

theorem verifyConsistency_bytes (m n : Nat) (proof : List Hash) (old new : Hash) :
    Core.verifyConsistency (hasher sha256) m n (proof.map (·.val)) old.val new.val =
      Core.verifyConsistency (.sha sha256) m n proof old new := by
  have hval : ∀ x y : Hash, decide (x.val = y.val) = decide (x = y) := fun x y =>
    decide_eq_decide.mpr Subtype.ext_iff.symm
  unfold Core.verifyConsistency
  by_cases e : m = n
  · rw [if_pos e, if_pos e, hval, List.isEmpty_map]
  rw [if_neg e, if_neg e, verifySubproof_bytes]
  by_cases h0 : m = 0 ∨ n < m
  · rw [if_pos h0, if_pos h0]
  rw [if_neg h0, if_neg h0]
  rcases Core.verifySubproof (.sha sha256) m n old proof true with ⟨_ | ⟨⟨o, w⟩, iter⟩, c⟩
  · rfl
  · show Traced.mk ((iter.map (·.val)).isEmpty && decide (o.val = old.val) && decide (w.val = new.val)) _ = _
    rw [hval, hval, List.isEmpty_map]
    rfl

theorem verifyInclusionLoop_bytes (root : Hash) : ∀ (proof : List Hash) (fn sn : Nat) (r : Hash),
    Core.verifyInclusionLoop (hasher sha256) root.val fn sn r.val (proof.map (·.val)) =
      Core.verifyInclusionLoop (.sha sha256) root fn sn r proof := by
  intro proof
  induction proof with
  | nil =>
    intro fn sn r
    have : decide (r.val = root.val) = decide (r = root) := decide_eq_decide.mpr Subtype.ext_iff.symm
    rw [List.map_nil, Core.verifyInclusionLoop, Core.verifyInclusionLoop, this]
  | cons step proof ih =>
    intro fn sn r
    rw [List.map_cons, Core.verifyInclusionLoop, Core.verifyInclusionLoop]
    by_cases h0 : sn = 0
    · rw [if_pos h0, if_pos h0]
    rw [if_neg h0, if_neg h0]
    by_cases hc : fn &&& 1 ≠ 0 ∨ fn = sn
    · rw [if_pos hc, if_pos hc]
      have hrest := ih ((Core.skipLevels fn sn).1 >>> 1) ((Core.skipLevels fn sn).2 >>> 1) (sha256 (nodeInput step.val r.val))
      exact congrArg (fun t => Traced.mk t.val (nodeInput step.val r.val :: t.calls)) hrest
    · rw [if_neg hc, if_neg hc]
      have hrest := ih (fn >>> 1) (sn >>> 1) (sha256 (nodeInput r.val step.val))
      exact congrArg (fun t => Traced.mk t.val (nodeInput r.val step.val :: t.calls)) hrest

/-- Rust's `verify_inclusion` is settled-core's, on every index and size. -/
theorem rust_verifyInclusion (leaf : Hash) (i n : BitVec 64) (proof : List Hash) (root : Hash) :
    Rust.verifyInclusion sha256 leaf i n proof root =
      Core.verifyInclusion (.sha sha256) leaf i.toNat n.toNat proof root := by
  rw [Rust.verifyInclusion, verifyInclusion_sim ulongs_model sha256 trivial trivial, Core.verifyInclusion,
    Core.verifyInclusion, verifyInclusionLoop_bytes]

end

/-! ## Loops that never end -/

section

variable {I : Ints (BitVec 64)} {n : BitVec 64} {J : Nat}

/-- Doubling up to `2^J < n`, from where it does not return. -/
theorem kLoop_never (hlt : 2 ^ J < n.toNat)
    (hup : ∀ {p : BitVec 64} {j : Nat}, j < J → p.toNat = 2 ^ j →
      I.loopLt (I.dbl p) n = decide (2 ^ (j + 1) < n.toNat) ∧ (I.dbl p).toNat = 2 ^ (j + 1))
    (htop : ∀ {p : BitVec 64}, p.toNat = 2 ^ J →
      I.loopLt (I.dbl p) n = true ∧ ∀ fuel, kLoop I n fuel (I.dbl p) = none) :
    ∀ (fuel j : Nat) (p : BitVec 64), j ≤ J → p.toNat = 2 ^ j → kLoop I n fuel p = none := by
  intro fuel
  induction fuel with
  | zero => intro j p _ _; rfl
  | succ fuel ih =>
    intro j p hj hv
    unfold kLoop
    by_cases e : j = J
    · subst e
      obtain ⟨h1, h2⟩ := htop hv
      rw [h1, if_pos rfl, h2]
    · obtain ⟨h1, h2⟩ := hup (by omega) hv
      have hle : 2 ^ (j + 1) ≤ 2 ^ J := Nat.pow_le_pow_right (by omega) (by omega)
      rw [h1, decide_eq_true (by omega), if_pos rfl]
      exact ih (j + 1) _ (by omega) h2

theorem ulongs_k_never (h : 2 ^ 63 < n.toNat) (fuel : Nat) : k ulongs fuel n = none :=
  kLoop_never h (fun hj hv => ulongs_dbl hj hv) (fun hv => ulongs_top hv h) fuel 0 1#64 (by omega) rfl

theorem longs_k_never (h1 : 2 ^ 62 < n.toNat) (h2 : n.toNat < 2 ^ 63) (fuel : Nat) : k longs fuel n = none :=
  kLoop_never h1 (fun hj hv => longs_dbl hj hv h2) (fun hv => longs_top hv h1 h2) fuel 0 1#64 (by omega) rfl

/-- From 2^63 on a size is negative, and the loop ends before its first round. -/
theorem longs_k_one (h : 2 ^ 63 ≤ n.toNat) {fuel : Nat} {p : BitVec 64} (hk : k longs fuel n = some p) : p = 1#64 := by
  cases fuel with
  | zero => cases hk
  | succ fuel =>
    have hneg : (2#64).slt n = false := by
      rw [BitVec.slt_eq_decide, BitVec.toInt_eq_toNat_cond n, if_neg (by omega), decide_eq_false_iff_not]
      have := n.isLt
      simp
      omega
    unfold k kLoop at hk
    have hl : longs.loopLt (longs.dbl longs.one) n = false := hneg
    rw [hl] at hk
    cases hk
    rfl

theorem verifySubproof_never (hk : ∀ fuel, k I fuel n = none) (sha256 : Bytes → Hash) (old : Bytes) {m : BitVec 64}
    (hmn : m ≠ n) (iter : List Bytes) (b : Bool) : ∀ fuel, verifySubproof I sha256 old fuel m n iter b = none := by
  intro fuel
  cases fuel with
  | zero => rfl
  | succ fuel => simp only [verifySubproof, hmn, if_false, hk]

end

/-! ## Java from 2^63 on -/

section

variable (sha256 : Bytes → Hash) (old : Bytes)

theorem toNat_sub_one {x : BitVec 64} (h : 0 < x.toNat) : (longs.sub x 1#64).toNat = x.toNat - 1 :=
  toNat_sub_of_le (y := 1#64) h

theorem longs_lt_one {m : BitVec 64} : longs.lt 1#64 m = decide (1 < m.toNat) := by
  simp only [longs, BitVec.ult]
  rfl

/-- One leaf at a time is cut off, until the size is below 2^63 and `k` does not return. -/
theorem longs_never : ∀ (fuel : Nat) (m n : BitVec 64) (iter : List Bytes) (b : Bool), 2 ^ 63 ≤ n.toNat →
    m.toNat < n.toNat → n.toNat + 1 < m.toNat + 2 ^ 63 → verifySubproof longs sha256 old fuel m n iter b = none := by
  intro fuel
  induction fuel with
  | zero => intros; rfl
  | succ fuel ih =>
    intro m n iter b hn hmn h
    have hne : m ≠ n := by rintro rfl; omega
    rw [verifySubproof.eq_def]
    simp only [hne, if_false]
    cases hk : k longs fuel n with
    | none => rfl
    | some split =>
      have em := toNat_sub_one (x := m) (by omega)
      have en := toNat_sub_one (x := n) (by omega)
      have hne' : longs.sub m 1#64 ≠ longs.sub n 1#64 := fun e => by rw [e] at em; omega
      have hsub : verifySubproof longs sha256 old fuel (longs.sub m 1#64) (longs.sub n 1#64) iter false = none := by
        by_cases h63 : 2 ^ 63 < n.toNat
        · exact ih _ _ iter false (by omega) (by omega) (by omega)
        · exact verifySubproof_never (fun fuel => longs_k_never (by omega) (by omega) fuel) sha256 old hne' iter false fuel
      have hlt : longs.lt 1#64 m = true := by rw [longs_lt_one, decide_eq_true_eq]; omega
      simp only [longs_k_one hn hk, hlt, Bool.true_eq_false, if_false, hsub]

end

/-- A hash whose nodes are their right children. -/
def lastHash (q : Bytes) : Hash :=
  if h : (q.drop (q.length - 32)).length = 32 then ⟨q.drop (q.length - 32), h⟩ else Hash.zero

theorem lastHash_node (l : Bytes) {r : Bytes} (h : r.length = 32) : (lastHash (nodeInput l r)).val = r := by
  have hd : (nodeInput l r).drop ((nodeInput l r).length - 32) = r := by
    have : nodeInput l r = (0x01 :: l) ++ r := rfl
    rw [this, List.length_append, h, Nat.add_sub_cancel, List.drop_left]
  unfold lastHash
  rw [dif_pos (by rw [hd]; exact h)]
  exact hd

/-- The new root Java rebuilds is the second element of the proof, or the first when the
    old tree is a single leaf on the left spine. -/
theorem longs_new_root (old : Bytes) : ∀ (fuel : Nat) (m n : BitVec 64) (iter rest : List Bytes) (b : Bool) (o w : Bytes)
    (c : List Bytes), 0 < m.toNat → m.toNat < n.toNat → m.toNat + 2 ^ 63 ≤ n.toNat + 1 → (∀ x ∈ iter, x.length = 32) →
    verifySubproof longs lastHash old fuel m n iter b = some ⟨some ((o, w), rest), c⟩ →
      (b = true ∧ m = 1#64 ∧ iter.head? = some w) ∨
        ((b = false ∨ 1 < m.toNat) ∧ iter[1]? = some w ∧ rest.length + m.toNat < iter.length) := by
  intro fuel
  induction fuel with
  | zero => intro m n iter rest b o w c _ _ _ _ h; cases h
  | succ fuel ih =>
    intro m n iter rest b o w c h0 hmn h63 hlen h
    have hne : m ≠ n := by rintro rfl; omega
    rw [verifySubproof.eq_def] at h
    simp only [hne, if_false] at h
    cases hk : k longs fuel n with
    | none => simp only [hk] at h; cases h
    | some split =>
      simp only [hk, longs_k_one (by omega) hk] at h
      by_cases h1 : 1 < m.toNat
      · have hlt : longs.lt 1#64 m = true := by rw [longs_lt_one, decide_eq_true_eq]; exact h1
        simp only [hlt, Bool.true_eq_false, if_false] at h
        have em := toNat_sub_one (x := m) h0
        have en := toNat_sub_one (x := n) (by omega)
        cases hsub : verifySubproof longs lastHash old fuel (longs.sub m 1#64) (longs.sub n 1#64) iter false with
        | none => simp only [hsub] at h; cases h
        | some t =>
          obtain ⟨v, c'⟩ := t
          simp only [hsub, Option.some.injEq] at h
          rcases v with _ | ⟨⟨ro, rn⟩, _ | ⟨lh, iter'⟩⟩
          · cases h
          · cases h
          · have := ih _ _ iter (lh :: iter') false ro rn c' (by omega) (by omega) (by omega) hlen hsub
            rcases this with ⟨hb, -⟩ | ⟨-, hw, hl⟩
            · cases hb
            cases h
            rw [List.length_cons, em] at hl
            refine Or.inr ⟨Or.inr h1, ?_, by omega⟩
            show iter[1]? = some (lastHash (nodeInput lh rn)).val
            rw [lastHash_node lh (hlen rn (List.mem_of_getElem? hw)), hw]
      · have e1 : m = 1#64 := BitVec.eq_of_toNat_eq (show m.toNat = 1 by omega)
        have hlt : longs.lt 1#64 m = false := by rw [longs_lt_one, decide_eq_false_iff_not]; exact h1
        simp only [hlt, if_true] at h
        -- the left half is the old tree itself
        cases fuel with
        | zero => cases hk
        | succ fuel =>
          rw [verifySubproof.eq_def] at h
          simp only [e1, if_true] at h
          cases b with
          | true =>
            rcases iter with _ | ⟨rh, iter⟩
            · cases h
            · cases h
              refine Or.inl ⟨rfl, e1, ?_⟩
              show some rh = some (lastHash (nodeInput old rh)).val
              rw [lastHash_node old (hlen rh List.mem_cons_self)]
          | false =>
            rcases iter with _ | ⟨x, _ | ⟨rh, iter⟩⟩
            · cases h
            · cases h
            · cases h
              refine Or.inr ⟨Or.inl rfl, ?_, by rw [e1]; simp⟩
              show some rh = some (lastHash (nodeInput o rh)).val
              rw [lastHash_node o (hlen rh (List.mem_cons_of_mem _ List.mem_cons_self))]

/-- Under that hash settled-core rebuilds the old root from a proof that repeats it. -/
theorem extends_replicate (z : Hash) : ∀ (n m : Nat) (b : Bool), 0 < m → m ≤ n →
    ∃ len c, Extends (.sha lastHash) z m n b (List.replicate len z) z z c := by
  intro n
  induction n using Nat.strongRecOn with
  | ind n ih =>
  intro m b h0 hmn
  have hnode : (Hasher.sha lastHash).node z z = z := Subtype.ext (lastHash_node z.val z.property)
  by_cases e : m = n
  · subst e
    cases b with
    | true => exact ⟨0, [], .shared m⟩
    | false => exact ⟨1, [], .elem m z⟩
  have hlt := Core.k_lt (n := n) (by omega)
  have hpos := Core.k_pos n
  by_cases hk : m ≤ Core.k n
  · obtain ⟨len, c, h⟩ := ih (Core.k n) hlt m b h0 hk
    have := Extends.left z h0 (by omega) hk h
    rw [hnode, ← List.replicate_succ'] at this
    exact ⟨len + 1, _, this⟩
  · obtain ⟨len, c, h⟩ := ih (n - Core.k n) (by omega) (m - Core.k n) false (by omega) (by omega)
    have := Extends.right (b := b) z (by omega) (by omega) h
    rw [hnode, ← List.replicate_succ'] at this
    exact ⟨len + 1, _, this⟩

/-- settled-core accepts a new root that only the last element of the proof gives. -/
theorem late_proof (y z : Hash) {m n : Nat} (h0 : 0 < m) (hmk : m ≤ Core.k n) (hn : 1 < n) :
    ∃ len, (m < Core.k n → 0 < len) ∧
    (Core.verifyConsistency (.sha lastHash) m n (List.replicate len z ++ [y]) z y).val = true := by
  have hlt := Core.k_lt hn
  obtain ⟨len, c, h⟩ := extends_replicate z (Core.k n) m true h0 hmk
  have hy : (Hasher.sha lastHash).node z y = y := Subtype.ext (lastHash_node z.val y.property)
  refine ⟨len, fun hlt => Nat.pos_of_ne_zero fun e => ?_, ?_⟩
  · have := (h.of_nil (by rw [e]; rfl)).2
    omega
  · have hx := Extends.left y h0 (by omega) hmk h
    rw [hy] at hx
    rw [verifyConsistency_iff.mpr (Or.inr ⟨h0, by omega, hx⟩)]

/-! ## The law -/

/-- A verifier returns on this input, and returns what settled-core does. -/
def Agrees (verifyConsistency : Nat → Option (Traced Bytes Bool)) (sha256 : Bytes → Hash) (m n : BitVec 64)
    (proof : List Hash) (old new : Hash) : Prop :=
  ∃ N, ∀ fuel, N ≤ fuel → (verifyConsistency fuel).map (·.val) =
    some (Core.verifyConsistency (.sha sha256) m.toNat n.toNat proof old new).val

/-- Equal sizes, sizes that are refused before any split, and new sizes up to `2^e`. -/
def Fits (e : Nat) (m n : BitVec 64) : Prop := m = n ∨ m = 0#64 ∨ n.toNat < m.toNat ∨ n.toNat ≤ 2 ^ e

section

variable {I : Ints (BitVec 64)} {sha256 : Bytes → Hash} {m n : BitVec 64} {proof : List Hash} {old new : Hash}

theorem not_agrees_of_never (h : ∀ fuel, verifyConsistency I sha256 fuel m n (proof.map (·.val)) old.val new.val = none) :
    ¬ Agrees (fun fuel => verifyConsistency I sha256 fuel m n (proof.map (·.val)) old.val new.val) sha256 m n proof old
      new := by
  rintro ⟨N, hN⟩
  have hN : (verifyConsistency I sha256 N m n (proof.map (·.val)) old.val new.val).map (·.val) = _ := hN N (Nat.le_refl N)
  rw [h N] at hN
  cases hN

theorem toNat_pos {x : BitVec 64} (h : x ≠ 0#64) : 0 < x.toNat :=
  Nat.pos_of_ne_zero fun e => h (BitVec.eq_of_toNat_eq e)

/-- Past its checks `verify_consistency` returns when `verify_subproof` does, and accepts
    only if that rebuilds both roots from the whole proof. -/
theorem verifyConsistency_split (hz : I.zero = 0#64) (hlt : ∀ x y, I.lt x y = x.ult y) (hne : m ≠ n) (h0 : m ≠ 0#64)
    (hle : ¬ n.toNat < m.toNat) (fuel : Nat) (P : List Bytes) (o w : Bytes) :
    (verifySubproof I sha256 o fuel m n P true = none → verifyConsistency I sha256 fuel m n P o w = none) ∧
      ((verifyConsistency I sha256 fuel m n P o w).map (·.val) = some true →
        ∃ c, verifySubproof I sha256 o fuel m n P true = some ⟨some ((o, w), []), c⟩) := by
  have hc : ¬ (m = I.zero ∨ I.lt n m = true) := by
    rw [hz, hlt, BitVec.ult, decide_eq_true_eq]
    exact fun h => h.elim h0 hle
  unfold verifyConsistency
  rw [if_neg hne, if_neg hc]
  constructor
  · intro h; rw [h]
  · rcases verifySubproof I sha256 o fuel m n P true with _ | ⟨_ | ⟨⟨x, y⟩, iter⟩, c⟩ <;> intro h
    · cases h
    · cases h
    · have ht : (iter.isEmpty && decide (x = o) && decide (y = w)) = true := Option.some.inj h
      simp only [Bool.and_eq_true, List.isEmpty_iff, decide_eq_true_eq] at ht
      obtain ⟨⟨rfl, rfl⟩, rfl⟩ := ht
      exact ⟨c, rfl⟩

variable {D : BitVec 64 → Prop} {e : Nat}

theorem agrees_of_fits (M : I.Model D BitVec.toNat) (hB : I.Exact D BitVec.toNat (2 ^ e)) (hz : I.zero = 0#64)
    (hlt : ∀ x y, I.lt x y = x.ult y) (hD : ∀ x : BitVec 64, x.toNat ≤ 2 ^ e → D x) (h : Fits e m n) :
    Agrees (fun fuel => verifyConsistency I sha256 fuel m n (proof.map (·.val)) old.val new.val) sha256 m n proof old
      new := by
  refine ⟨n.toNat + 64, fun fuel hf => ?_⟩
  have hret : verifyConsistency I sha256 fuel m n (proof.map (·.val)) old.val new.val =
      some (Core.verifyConsistency (hasher sha256) m.toNat n.toNat (proof.map (·.val)) old.val new.val) := by
    by_cases hmn : m = n
    · rw [verifyConsistency, Core.verifyConsistency, if_pos hmn, if_pos (by rw [hmn])]
    have hne : m.toNat ≠ n.toNat := fun he => hmn (BitVec.eq_of_toNat_eq he)
    by_cases hr : m = 0#64 ∨ n.toNat < m.toNat
    · have hr' : m = I.zero ∨ I.lt n m = true := by rw [hz, hlt, BitVec.ult, decide_eq_true_eq]; exact hr
      have hrc : m.toNat = 0 ∨ n.toNat < m.toNat := hr.imp_left fun h0 => by rw [h0]; rfl
      rw [verifyConsistency, Core.verifyConsistency, if_neg hmn, if_neg hne, if_pos hr', if_pos hrc]
    · obtain ⟨h0, hle⟩ := not_or.mp hr
      have hn : n.toNat ≤ 2 ^ e := by
        rcases h with h | h | h | h
        · exact absurd h hmn
        · exact absurd h h0
        · exact absurd h hle
        · exact h
      exact verifyConsistency_returns M sha256 hB (hD m (by omega)) (hD n hn) hn hf _ _ _
  show (verifyConsistency I sha256 fuel m n (proof.map (·.val)) old.val new.val).map (·.val) = _
  rw [hret, verifyConsistency_bytes]
  rfl

theorem ulongs_agrees : Agrees (fun fuel => verifyConsistency ulongs sha256 fuel m n (proof.map (·.val)) old.val new.val)
    sha256 m n proof old new ↔ Fits 63 m n := by
  constructor
  · intro h
    by_contra hf
    simp only [Fits, not_or] at hf
    obtain ⟨hne, h0, hle, hn⟩ := hf
    refine not_agrees_of_never (fun fuel => ?_) h
    apply (verifyConsistency_split rfl (fun _ _ => rfl) hne h0 hle fuel _ old.val new.val).1
    exact verifySubproof_never (fun fuel => ulongs_k_never (by omega) fuel) sha256 old.val hne _ true fuel
  · exact agrees_of_fits ulongs_model ulongs_exact rfl (fun _ _ => rfl) (fun _ _ => trivial)

end

/-- Past 2^62 Java does not agree on every proof. -/
theorem longs_disagrees {m n : BitVec 64} (hne : m ≠ n) (h0 : m ≠ 0#64) (hle : ¬ n.toNat < m.toNat) (hn : ¬ n.toNat ≤ 2 ^ 62) :
    ∃ sha256 proof old new, ¬ Agrees (fun fuel => verifyConsistency longs sha256 fuel m n (proof.map (·.val)) old.val
      new.val) sha256 m n proof old new := by
  have hlt : m.toNat < n.toNat := by
    have : m.toNat ≠ n.toNat := fun he => hne (BitVec.eq_of_toNat_eq he)
    omega
  have hpos := toNat_pos h0
  have hsplit := fun sha256 => @verifyConsistency_split longs sha256 m n rfl (fun _ _ => rfl) hne h0 hle
  by_cases h63 : n.toNat < 2 ^ 63
  · refine ⟨lastHash, [], .zero, .zero, not_agrees_of_never fun fuel => ?_⟩
    apply (hsplit lastHash fuel _ _ _).1
    exact verifySubproof_never (fun fuel => longs_k_never (by omega) h63 fuel) _ _ hne _ true fuel
  by_cases hfar : n.toNat + 1 < m.toNat + 2 ^ 63
  · refine ⟨lastHash, [], .zero, .zero, not_agrees_of_never fun fuel => ?_⟩
    apply (hsplit lastHash fuel _ _ _).1
    exact longs_never _ _ fuel m n _ true (by omega) hlt hfar
  -- here the old tree lies in the left half, and one more element than Java looks at decides
  have hk : m.toNat ≤ Core.k n.toNat ∧ (m.toNat = 1 → m.toNat < Core.k n.toNat) := by
    have := n.isLt
    have hcap : 2 ^ 62 ≤ Core.k n.toNat ∧ (2 ^ 63 < n.toNat → 2 ^ 63 ≤ Core.k n.toNat) := by
      rw [k_eq]
      have := le_two_mul_pow2Below (n := n.toNat) (by omega)
      refine ⟨by omega, fun h => ?_⟩
      rw [pow2Below_unique (p := 63) h (by omega)]
    omega
  obtain ⟨len, hlen, hcore⟩ := late_proof (Hash.fill 1) .zero hpos hk.1 (by omega)
  refine ⟨lastHash, List.replicate len .zero ++ [Hash.fill 1], .zero, Hash.fill 1, ?_⟩
  rintro ⟨N, hN⟩
  rw [hcore] at hN
  obtain ⟨c, hsub⟩ := (hsplit lastHash N _ _ _).2 (hN N (Nat.le_refl N))
  have hsize : ∀ x ∈ (List.replicate len Hash.zero ++ [Hash.fill 1]).map (·.val), x.length = 32 := by
    intro x hx
    obtain ⟨h, -, rfl⟩ := List.mem_map.mp hx
    exact h.property
  have := longs_new_root _ N m n _ [] true _ _ c hpos hlt (by omega) hsize hsub
  have hdiff : Hash.zero.val ≠ (Hash.fill 1).val := by decide
  have hz : ∀ i, i < len → ((List.replicate len Hash.zero ++ [Hash.fill 1]).map (·.val))[i]? = some Hash.zero.val := by
    intro i hi
    rw [List.getElem?_map, List.getElem?_append_left (by simpa using hi), List.getElem?_replicate_of_lt hi]
    rfl
  rcases this with ⟨-, h1, hw⟩ | ⟨hm, hw, hl⟩
  · have h1 : m.toNat = 1 := by rw [h1]; rfl
    rw [List.head?_eq_getElem?, hz 0 (hlen (hk.2 h1))] at hw
    exact hdiff (Option.some.inj hw)
  · have hm : 1 < m.toNat := hm.resolve_left (by decide)
    simp only [List.length_nil, List.length_map, List.length_append, List.length_replicate, List.length_singleton] at hl
    rw [hz 1 (by omega)] at hw
    exact hdiff (Option.some.inj hw)

theorem longs_agrees {m n : BitVec 64} : (∀ sha256 proof old new, Agrees (fun fuel => verifyConsistency longs sha256 fuel m n
    (proof.map (·.val)) old.val new.val) sha256 m n proof old new) ↔ Fits 62 m n := by
  constructor
  · intro h
    by_contra hf
    simp only [Fits, not_or] at hf
    obtain ⟨hne, h0, hle, hn⟩ := hf
    obtain ⟨sha256, proof, old, new, hbad⟩ := longs_disagrees hne h0 hle hn
    exact hbad (h sha256 proof old new)
  · intro h sha256 proof old new
    exact agrees_of_fits longs_model longs_model.exact rfl (fun _ _ => rfl) (fun x hx => by omega) h

/-- The fixed-width SDKs against settled-core. At every input Rust, Go and .NET return
    what it returns exactly for the sizes that fit 63 bits; Java does so for all proofs
    and roots exactly for the sizes that fit 62. -/
theorem fixed_width_agree (m n : BitVec 64) :
    (∀ (sha256 : Bytes → Hash) (proof : List Hash) (old new : Hash),
      (Agrees (fun fuel => Rust.verifyConsistency sha256 fuel m n proof old new) sha256 m n proof old new ↔ Fits 63 m n) ∧
      (Agrees (fun fuel => Go.verifyConsistency sha256 fuel m n proof old new) sha256 m n proof old new ↔ Fits 63 m n) ∧
      (Agrees (fun fuel => Dotnet.verifyConsistency sha256 fuel m n (proof.map (·.val)) old.val new.val) sha256 m n proof
        old new ↔ Fits 63 m n)) ∧
    ((∀ (sha256 : Bytes → Hash) (proof : List Hash) (old new : Hash),
      Agrees (fun fuel => Java.verifyConsistency sha256 fuel m n (proof.map (·.val)) old.val new.val) sha256 m n proof old
        new) ↔ Fits 62 m n) :=
  ⟨fun _ _ _ _ => ⟨ulongs_agrees, ulongs_agrees, ulongs_agrees⟩, longs_agrees⟩

/-- From one leaf to 2^63 Java takes the one element as the rest of the new tree. -/
theorem longs_one_element (sha256 : Bytes → Hash) (x old : Bytes) (fuel : Nat) :
    verifyConsistency longs sha256 (fuel + 2) 1#64 9223372036854775808#64 [x] old (sha256 (nodeInput old x)).val =
      some ⟨true, [nodeInput old x]⟩ := by
  have hsub : verifySubproof longs sha256 old (fuel + 2) 1#64 9223372036854775808#64 [x] true =
      some ⟨some ((old, (sha256 (nodeInput old x)).val), []), [nodeInput old x]⟩ := rfl
  rw [verifyConsistency, if_neg (by decide), if_neg (by decide), hsub]
  simp only [bind, pure, List.isEmpty_nil, decide_true, Bool.and_self, List.append_nil]

/-- From one leaf to 2^63 + 1 the unsigned verifiers do not return; from one leaf to 2^63
    Java's accepts a proof of one element, where settled-core asks for 63. -/
theorem fixed_width_disagree :
    let root := Sha256.sha256 (nodeInput Hash.zero.val (Hash.fill 1).val)
    ¬ Agrees (fun fuel => Rust.verifyConsistency Sha256.sha256 fuel 1#64 9223372036854775809#64 [] .zero .zero)
        Sha256.sha256 1#64 9223372036854775809#64 [] .zero .zero ∧
      ¬ Agrees (fun fuel => Go.verifyConsistency Sha256.sha256 fuel 1#64 9223372036854775809#64 [] .zero .zero)
        Sha256.sha256 1#64 9223372036854775809#64 [] .zero .zero ∧
      ¬ Agrees (fun fuel => Dotnet.verifyConsistency Sha256.sha256 fuel 1#64 9223372036854775809#64 [] Hash.zero.val
        Hash.zero.val) Sha256.sha256 1#64 9223372036854775809#64 [] .zero .zero ∧
      ¬ Agrees (fun fuel => Java.verifyConsistency Sha256.sha256 fuel 1#64 9223372036854775808#64 [(Hash.fill 1).val]
        Hash.zero.val root.val) Sha256.sha256 1#64 9223372036854775808#64 [.fill 1] .zero root := by
  intro root
  have hunsigned : ¬ Fits 63 1#64 9223372036854775809#64 := by unfold Fits; decide
  have hcore : (Core.verifyConsistency (.sha Sha256.sha256) 1 9223372036854775808 [Hash.fill 1] Hash.zero root).val = false := by
    decide +kernel
  have hjava : ∀ fuel, (Java.verifyConsistency Sha256.sha256 (fuel + 2) 1#64 9223372036854775808#64 [(Hash.fill 1).val]
      Hash.zero.val root.val).map (·.val) = some true := by
    intro fuel
    rw [Java.verifyConsistency, longs_one_element]
    rfl
  refine ⟨?_, ?_, ?_, ?_⟩
  · exact fun h => hunsigned ((@ulongs_agrees _ _ _ [] _ _).mp h)
  · exact fun h => hunsigned ((@ulongs_agrees _ _ _ [] _ _).mp h)
  · exact fun h => hunsigned ((@ulongs_agrees _ _ _ [] _ _).mp h)
  · rintro ⟨N, hN⟩
    have := hN (N + 2) (Nat.le_add_right N 2)
    rw [show ((1#64).toNat) = 1 from rfl, show ((9223372036854775808#64).toNat) = 9223372036854775808 from rfl, hcore] at this
    exact absurd ((hjava N).symm.trans this) (by decide)

end Settled.Sdk
