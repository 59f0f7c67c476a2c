/-
  Settled.Core.ProofShape — what an accepted proof is, as a derivation that follows the
  RFC 6962 tree from its root down.

  `Opens i n a P r c`: the path `P` takes leaf hash `a` at index `i` of a tree of `n`
  leaves to the root `r`, making the queries `c`. It splits at `k n`, as `path` does.
  `Extends old m n b P o w c`: the proof `P` rebuilds the roots `o` of the first `m`
  leaves and `w` of all `n`, as `verify_subproof` does.

  - `verifyInclusion_iff`: `verify_inclusion`, which walks bottom-up on the bits of `i`
    and `n - 1`, returns true exactly on the paths that `Opens` derives, with exactly
    its queries. In between is `Climbs`, one level at a time: at each level the node
    has a left sibling, a right sibling, or (last and even) none.
  - `verifyConsistency_iff`: the same for `verify_consistency` and `Extends`.
  - `verifyInclusion_recon`: so `verify_inclusion` is the recursion of `path` read as a
    reconstruction of the root (`recon`), which must use up the proof.
-/

import Settled.Core.Proof

namespace Settled.Core

open Settled.Lib

variable {H Q : Type} (hs : Hasher H Q)

inductive Opens : Nat → Nat → H → List H → H → List Q → Prop
  | leaf (a : H) : Opens 0 1 a [] a []
  | left {i n : Nat} {a l : H} {P : List H} {c : List Q} (s : H) : 1 < n → i < k n → Opens i (k n) a P l c →
      Opens i n a (P ++ [s]) (hs.node l s) (c ++ [hs.query l s])
  | right {i n : Nat} {a r : H} {P : List H} {c : List Q} (s : H) : 1 < n → k n ≤ i →
      Opens (i - k n) (n - k n) a P r c →
      Opens i n a (P ++ [s]) (hs.node s r) (c ++ [hs.query s r])

/-- One level at a time: node `fn` of a level whose last node is `sn`. -/
inductive Climbs : Nat → Nat → H → List H → H → List Q → Prop
  | top (r : H) : Climbs 0 0 r [] r []
  | left {fn sn : Nat} {r t : H} {P : List H} {c : List Q} (s : H) : fn % 2 = 1 → sn ≠ 0 →
      Climbs (fn / 2) (sn / 2) (hs.node s r) P t c → Climbs fn sn r (s :: P) t (hs.query s r :: c)
  | right {fn sn : Nat} {r t : H} {P : List H} {c : List Q} (s : H) : fn % 2 = 0 → fn ≠ sn → sn ≠ 0 →
      Climbs (fn / 2) (sn / 2) (hs.node r s) P t c → Climbs fn sn r (s :: P) t (hs.query r s :: c)
  | skip {fn : Nat} {r t : H} {P : List H} {c : List Q} : fn % 2 = 0 → fn ≠ 0 →
      Climbs (fn / 2) (fn / 2) r P t c → Climbs fn fn r P t c

inductive Extends (old : H) : Nat → Nat → Bool → List H → H → H → List Q → Prop
  | shared (n : Nat) : Extends old n n true [] old old []
  | elem (n : Nat) (h : H) : Extends old n n false [h] h h []
  | left {m n : Nat} {b : Bool} {P : List H} {lo ln : H} {c : List Q} (rh : H) : 0 < m → m < n → m ≤ k n →
      Extends old m (k n) b P lo ln c →
      Extends old m n b (P ++ [rh]) lo (hs.node ln rh) (c ++ [hs.query ln rh])
  | right {m n : Nat} {b : Bool} {P : List H} {ro rn : H} {c : List Q} (lh : H) : k n < m → m < n →
      Extends old (m - k n) (n - k n) false P ro rn c →
      Extends old m n b (P ++ [lh]) (hs.node lh ro) (hs.node lh rn) (c ++ [hs.query lh ro, hs.query lh rn])

variable {hs}

/-! ## The loop climbs -/

theorem skipLevels_stop {fn : Nat} (h : fn % 2 = 1) (sn : Nat) : skipLevels fn sn = (fn, sn) := by
  rw [skipLevels, dif_neg (by rw [Nat.and_one_is_mod]; omega)]

theorem skipLevels_even {fn : Nat} (h : fn % 2 = 0) (h0 : fn ≠ 0) (sn : Nat) :
    skipLevels fn sn = skipLevels (fn / 2) (sn / 2) := by
  rw [skipLevels, dif_pos ⟨h0, by rw [Nat.and_one_is_mod]; exact h⟩, Nat.shiftRight_one, Nat.shiftRight_one]

theorem skipLevels_le : ∀ fn sn, fn ≤ sn → (skipLevels fn sn).1 / 2 ≤ (skipLevels fn sn).2 / 2 := by
  intro fn sn
  induction fn, sn using skipLevels.induct with
  | case1 fn sn h ih =>
    intro hle
    rw [skipLevels, dif_pos h]
    exact ih (by simp only [Nat.shiftRight_one]; omega)
  | case2 fn sn h => intro hle; rw [skipLevels, dif_neg h]; omega

theorem Climbs.top_inv {r t : H} {P : List H} {c : List Q} (h : Climbs hs 0 0 r P t c) : P = [] ∧ t = r ∧ c = [] := by
  cases h with
  | top => exact ⟨rfl, rfl, rfl⟩
  | left s h1 => omega
  | right s h1 h2 => omega
  | skip h1 h2 => omega

/-- On the right edge the node stays last: levels are skipped until it is a right
    child, whose sibling is the next element. -/
theorem climbs_edge {r t : H} {P : List H} {c : List Q} : ∀ fn, fn ≠ 0 → (Climbs hs fn fn r P t c ↔
    ∃ s P' c', P = s :: P' ∧ c = hs.query s r :: c' ∧
      Climbs hs ((skipLevels fn fn).1 / 2) ((skipLevels fn fn).2 / 2) (hs.node s r) P' t c') := by
  intro fn
  induction fn using Nat.strongRecOn with
  | ind fn ih =>
  intro h0
  by_cases e : fn % 2 = 1
  · rw [skipLevels_stop e]
    constructor
    · intro h
      cases h with
      | left s h1 h2 h3 => exact ⟨s, _, _, rfl, rfl, h3⟩
      | right s h1 => omega
      | skip h1 => omega
      | top => omega
    · rintro ⟨s, P', c', rfl, rfl, h⟩
      exact .left s e h0 h
  · have e' : fn % 2 = 0 := by omega
    rw [skipLevels_even e' h0]
    rw [← ih (fn / 2) (by omega) (by omega)]
    constructor
    · intro h
      cases h with
      | left s h1 => omega
      | right s h1 h2 => omega
      | skip _ _ h => exact h
      | top => omega
    · exact fun h => .skip e' h0 h

theorem verifyInclusionLoop_iff [DecidableEq H] {root : H} : ∀ (P : List H) (fn sn : Nat) (r : H) (c : List Q),
    fn ≤ sn → (verifyInclusionLoop hs root fn sn r P = ⟨true, c⟩ ↔ Climbs hs fn sn r P root c) := by
  intro P
  induction P with
  | nil =>
    intro fn sn r c hle
    have hv : verifyInclusionLoop hs root fn sn r [] = ⟨decide (sn = 0) && decide (r = root), []⟩ := rfl
    rw [hv]
    constructor
    · intro h
      simp only [Traced.mk.injEq, Bool.and_eq_true, decide_eq_true_eq] at h
      obtain ⟨⟨rfl, rfl⟩, rfl⟩ := h
      obtain rfl : fn = 0 := by omega
      exact .top r
    · intro h
      by_cases h0 : sn = 0
      · subst h0
        obtain rfl : fn = 0 := by omega
        obtain ⟨-, rfl, rfl⟩ := h.top_inv
        simp
      · -- a node below the top has a sibling somewhere above it
        exfalso
        by_cases e : fn = sn
        · subst e
          obtain ⟨s, P', c', hP, -, -⟩ := (climbs_edge fn h0).mp h
          cases hP
        · cases h <;> simp_all
  | cons s P ih =>
    intro fn sn r c hle
    unfold verifyInclusionLoop
    by_cases h0 : sn = 0
    · subst h0
      obtain rfl : fn = 0 := by omega
      rw [if_pos rfl]
      constructor
      · intro h; exact absurd (congrArg Traced.val h) (by simp)
      · intro h; exact absurd h.top_inv.1 (by simp)
    rw [if_neg h0]
    by_cases e : fn = sn
    · subst e
      rw [if_pos (Or.inr rfl), climbs_edge fn h0]
      simp only [Hasher.nodeHash, Traced.ask_bind_eq, Nat.shiftRight_one]
      constructor
      · rintro ⟨c', rfl, h⟩
        exact ⟨s, P, c', rfl, rfl, (ih _ _ _ _ (skipLevels_le fn fn (Nat.le_refl _))).mp h⟩
      · rintro ⟨s', P', c', hP, rfl, h⟩
        obtain ⟨rfl, rfl⟩ := List.cons.inj hP
        exact ⟨c', rfl, (ih _ _ _ _ (skipLevels_le fn fn (Nat.le_refl _))).mpr h⟩
    by_cases o : fn % 2 = 1
    · rw [if_pos (Or.inl (by rw [Nat.and_one_is_mod]; omega)), skipLevels_stop o]
      simp only [Hasher.nodeHash, Traced.ask_bind_eq, Nat.shiftRight_one]
      constructor
      · rintro ⟨c', rfl, h⟩
        exact .left s o h0 ((ih _ _ _ _ (by omega)).mp h)
      · intro h
        cases h with
        | left _ _ _ h => exact ⟨_, rfl, (ih _ _ _ _ (by omega)).mpr h⟩
        | right _ h1 => omega
        | skip h1 => omega
    · rw [if_neg (by rw [Nat.and_one_is_mod]; omega)]
      simp only [Hasher.nodeHash, Traced.ask_bind_eq, Nat.shiftRight_one]
      constructor
      · rintro ⟨c', rfl, h⟩
        exact .right s (by omega) e h0 ((ih _ _ _ _ (by omega)).mp h)
      · intro h
        cases h with
        | left _ h1 => omega
        | right _ _ _ _ h => exact ⟨_, rfl, (ih _ _ _ _ (by omega)).mpr h⟩
        | skip => omega

/-! ## Climbing is opening -/

/-- A path inside the complete left half of size `2 ^ p`, then one right sibling. -/
theorem Climbs.snoc_left {fn t : Nat} {r l : H} {P : List H} {c : List Q} (h : Climbs hs fn t r P l c) (x : H) :
    ∀ p sn, fn ≤ t → t + 1 = 2 ^ p → 2 ^ p ≤ sn → sn < 2 ^ (p + 1) →
      Climbs hs fn sn r (P ++ [x]) (hs.node l x) (c ++ [hs.query l x]) := by
  induction h with
  | top r =>
    intro p sn _ ht h1 h2
    cases p with
    | zero =>
      obtain rfl : sn = 1 := by omega
      exact .right x rfl (by omega) (by omega) (.top _)
    | succ p => rw [Nat.pow_succ] at ht; omega
  | left s h1 h2 _ ih =>
    intro p sn hle ht hl hu
    cases p with
    | zero => omega
    | succ p =>
      rw [Nat.pow_succ] at ht hl hu
      exact .left s h1 (by omega) (ih p (sn / 2) (by omega) (by omega) (by omega) (by omega))
  | right s h1 h2 h3 _ ih =>
    intro p sn hle ht hl hu
    cases p with
    | zero => omega
    | succ p =>
      rw [Nat.pow_succ] at ht hl hu
      exact .right s h1 (by omega) (by omega) (ih p (sn / 2) (by omega) (by omega) (by omega) (by omega))
  | skip h1 h2 _ _ =>
    intro p sn _ ht
    -- the last node of a complete level is odd
    cases p with
    | zero => omega
    | succ p => rw [Nat.pow_succ] at ht; omega

/-- Up the right edge from the root of the right half. -/
theorem climbs_two_pow (s r : H) : ∀ p, Climbs hs (2 ^ p) (2 ^ p) r [s] (hs.node s r) [hs.query s r] := by
  intro p
  induction p with
  | zero => exact .left s rfl (by decide) (.top _)
  | succ p ih =>
    have h2 : 2 ^ (p + 1) / 2 = 2 ^ p := by rw [Nat.pow_succ]; omega
    exact .skip (by rw [Nat.pow_succ]; omega) (by have := Nat.two_pow_pos (p + 1); omega) (by rw [h2]; exact ih)

/-- A path inside the right half, whose left neighbour is complete of size `2 ^ p`. -/
theorem Climbs.snoc_right {fn t : Nat} {r x : H} {P : List H} {c : List Q} (h : Climbs hs fn t r P x c) (s : H) :
    ∀ p, fn ≤ t → t < 2 ^ p →
      Climbs hs (2 ^ p + fn) (2 ^ p + t) r (P ++ [s]) (hs.node s x) (c ++ [hs.query s x]) := by
  induction h with
  | top r => intro p _ _; exact climbs_two_pow s r p
  | left s' h1 h2 _ ih =>
    intro p hle ht
    cases p with
    | zero => omega
    | succ p =>
      apply Climbs.left s' (by rw [Nat.pow_succ]; omega) (by omega)
      rw [two_pow_succ_add_div_two, two_pow_succ_add_div_two]
      exact ih p (by omega) (by rw [Nat.pow_succ] at ht; omega)
  | right s' h1 h2 h3 _ ih =>
    intro p hle ht
    cases p with
    | zero => omega
    | succ p =>
      apply Climbs.right s' (by rw [Nat.pow_succ]; omega) (by omega) (by omega)
      rw [two_pow_succ_add_div_two, two_pow_succ_add_div_two]
      exact ih p (by omega) (by rw [Nat.pow_succ] at ht; omega)
  | skip h1 h2 _ ih =>
    intro p hle ht
    cases p with
    | zero => omega
    | succ p =>
      apply Climbs.skip (by rw [Nat.pow_succ]; omega) (by omega)
      rw [two_pow_succ_add_div_two]
      exact ih p (by omega) (by rw [Nat.pow_succ] at ht; omega)

theorem Opens.climbs {i n : Nat} {a r : H} {P : List H} {c : List Q} (h : Opens hs i n a P r c) :
    i < n ∧ Climbs hs i (n - 1) a P r c := by
  induction h with
  | leaf a => exact ⟨by omega, .top a⟩
  | @left i n _ _ _ _ s h1 h2 _ ih =>
    obtain ⟨p, hk, hlt, hle⟩ := k_spec h1
    rw [hk] at h2 ih
    exact ⟨by omega, ih.2.snoc_left s p (n - 1) (by omega) (by omega) (by omega) (by omega)⟩
  | @right i n _ _ _ _ s h1 h2 _ ih =>
    obtain ⟨p, hk, hlt, hle⟩ := k_spec h1
    rw [hk] at h2 ih
    refine ⟨by omega, ?_⟩
    have := ih.2.snoc_right s p (by omega) (by rw [Nat.pow_succ] at hle; omega)
    rwa [show 2 ^ p + (i - 2 ^ p) = i by omega, show 2 ^ p + (n - 2 ^ p - 1) = n - 1 by omega] at this

/-- The inverse of `snoc_left`: a path that starts in a complete left half ends with
    the right half's root. -/
theorem Climbs.unsnoc_left {fn sn : Nat} {r t : H} {P : List H} {c : List Q} (h : Climbs hs fn sn r P t c) :
    ∀ p, fn < 2 ^ p → 2 ^ p ≤ sn → sn < 2 ^ (p + 1) →
      ∃ P' x l c', P = P' ++ [x] ∧ t = hs.node l x ∧ c = c' ++ [hs.query l x] ∧
        Climbs hs fn (2 ^ p - 1) r P' l c' := by
  induction h with
  | top r => intro p _ h1; have := Nat.two_pow_pos p; omega
  | left s h1 h2 _ ih =>
    intro p hf hl hu
    cases p with
    | zero => omega
    | succ p =>
      rw [Nat.pow_succ] at hf hl hu
      obtain ⟨P', x, l, c', rfl, rfl, rfl, h⟩ := ih p (by omega) (by omega) (by omega)
      refine ⟨s :: P', x, l, _ :: c', rfl, rfl, rfl, .left s h1 (by rw [Nat.pow_succ]; omega) ?_⟩
      rwa [show (2 ^ (p + 1) - 1) / 2 = 2 ^ p - 1 by rw [Nat.pow_succ]; omega]
  | @right fn sn _ _ _ _ s h1 h2 h3 h4 ih =>
    intro p hf hl hu
    cases p with
    | zero =>
      obtain ⟨rfl, rfl⟩ : fn = 0 ∧ sn = 1 := by omega
      obtain ⟨rfl, rfl, rfl⟩ := h4.top_inv
      exact ⟨[], s, _, [], rfl, rfl, rfl, .top _⟩
    | succ p =>
      rw [Nat.pow_succ] at hf hl hu
      obtain ⟨P', x, l, c', rfl, rfl, rfl, h⟩ := ih p (by omega) (by omega) (by omega)
      refine ⟨s :: P', x, l, _ :: c', rfl, rfl, rfl, .right s h1 ?_ (by rw [Nat.pow_succ]; omega) ?_⟩
      · rw [Nat.pow_succ]; omega
      · rwa [show (2 ^ (p + 1) - 1) / 2 = 2 ^ p - 1 by rw [Nat.pow_succ]; omega]
  | skip h1 h2 _ _ => intro p hf hl; omega

theorem Climbs.unsnoc_right : ∀ (p fn t : Nat) {r w : H} {P : List H} {c : List Q},
    Climbs hs (2 ^ p + fn) (2 ^ p + t) r P w c → fn ≤ t → t < 2 ^ p →
      ∃ P' s x c', P = P' ++ [s] ∧ w = hs.node s x ∧ c = c' ++ [hs.query s x] ∧ Climbs hs fn t r P' x c' := by
  intro p
  induction p with
  | zero =>
    intro fn t r w P c h hle ht
    obtain ⟨rfl, rfl⟩ : fn = 0 ∧ t = 0 := by omega
    cases h with
    | left s _ _ h =>
      obtain ⟨rfl, rfl, rfl⟩ := Climbs.top_inv h
      exact ⟨[], s, r, [], rfl, rfl, rfl, .top r⟩
    | right s _ h2 => exact absurd rfl h2
    | skip h1 => cases h1
  | succ p ih =>
    intro fn t r w P c h hle ht
    have ht' : t < 2 ^ p * 2 := by rwa [Nat.pow_succ] at ht
    have hpar : (2 ^ (p + 1) + fn) % 2 = fn % 2 := by rw [Nat.pow_succ]; omega
    generalize ha : 2 ^ (p + 1) + fn = a at h
    generalize hb : 2 ^ (p + 1) + t = b at h
    cases h with
    | top => have := Nat.two_pow_pos (p + 1); omega
    | left s h1 h2 h =>
      rw [← ha, ← hb, two_pow_succ_add_div_two, two_pow_succ_add_div_two] at h
      obtain ⟨P', s', x, c', rfl, rfl, rfl, hx⟩ := ih _ _ h (by omega) (by omega)
      exact ⟨s :: P', s', x, _ :: c', rfl, rfl, rfl, .left s (by omega) (by omega) hx⟩
    | right s h1 h2 h3 h =>
      rw [← ha, ← hb, two_pow_succ_add_div_two, two_pow_succ_add_div_two] at h
      obtain ⟨P', s', x, c', rfl, rfl, rfl, hx⟩ := ih _ _ h (by omega) (by omega)
      exact ⟨s :: P', s', x, _ :: c', rfl, rfl, rfl, .right s (by omega) (by omega) (by omega) hx⟩
    | skip h1 h2 h =>
      obtain rfl : fn = t := by omega
      rw [← ha, two_pow_succ_add_div_two] at h
      obtain ⟨P', s', x, c', rfl, rfl, rfl, hx⟩ := ih _ _ h (by omega) (by omega)
      refine ⟨P', s', x, c', rfl, rfl, rfl, ?_⟩
      by_cases h0 : fn = 0
      · subst h0; exact hx
      · exact .skip (by omega) h0 hx

theorem Climbs.opens : ∀ (n i : Nat) {a r : H} {P : List H} {c : List Q}, i < n → Climbs hs i (n - 1) a P r c →
    Opens hs i n a P r c := by
  intro n
  induction n using Nat.strongRecOn with
  | ind n ih =>
  intro i a r P c hi h
  by_cases h1 : 1 < n
  · obtain ⟨p, hk, hlt, hle⟩ := k_spec h1
    have hpos := Nat.two_pow_pos p
    by_cases hik : i < 2 ^ p
    · obtain ⟨P', x, l, c', rfl, rfl, rfl, hx⟩ := h.unsnoc_left p hik (by omega) (by omega)
      exact .left x h1 (by omega) (hk ▸ ih (2 ^ p) hlt i hik hx)
    · have h' : Climbs hs (2 ^ p + (i - 2 ^ p)) (2 ^ p + (n - 2 ^ p - 1)) a P r c := by
        rwa [show 2 ^ p + (i - 2 ^ p) = i by omega, show 2 ^ p + (n - 2 ^ p - 1) = n - 1 by omega]
      obtain ⟨P', s, x, c', rfl, rfl, rfl, hx⟩ := Climbs.unsnoc_right p _ _ h' (by omega)
        (by rw [Nat.pow_succ] at hle; omega)
      exact .right s h1 (by omega) (hk ▸ ih (n - 2 ^ p) (by omega) (i - 2 ^ p) (by omega) hx)
  · obtain ⟨rfl, rfl⟩ : i = 0 ∧ n = 1 := by omega
    obtain ⟨rfl, rfl, rfl⟩ := Climbs.top_inv h
    exact .leaf _

/-- `verify_inclusion` accepts exactly the paths that open the leaf in the RFC 6962
    tree, and queries exactly the nodes on them. -/
theorem verifyInclusion_iff [DecidableEq H] {a root : H} {i n : Nat} {P : List H} {c : List Q} :
    verifyInclusion hs a i n P root = ⟨true, c⟩ ↔ Opens hs i n a P root c := by
  unfold verifyInclusion
  split
  · rename_i h
    constructor
    · intro e; exact absurd (congrArg Traced.val e) (by simp)
    · intro o; have := o.climbs.1; omega
  · rw [verifyInclusionLoop_iff _ _ _ _ _ (by omega)]
    constructor
    · exact Climbs.opens n i (by omega)
    · exact fun o => o.climbs.2

/-! ## Root reconstruction -/

variable (hs) in
/-- The root rebuilt from a leaf hash along the recursion of `path`, and the proof elements
    left over: first in the half that holds the leaf, then over its sibling. -/
def recon (leafHash : H) (i n : Nat) (proof : List H) : Option (H × List H) :=
  if _ : n ≤ 1 then some (leafHash, proof)
  else if i < k n then
    match recon leafHash i (k n) proof with
    | some (l, s :: rest) => some (hs.node l s, rest)
    | _ => none
  else
    match recon leafHash (i - k n) (n - k n) proof with
    | some (r, s :: rest) => some (hs.node s r, rest)
    | _ => none
termination_by n
decreasing_by
  · exact k_lt (by omega)
  · have := k_pos n
    omega

theorem Opens.recon {a root : H} {i n : Nat} {P : List H} {c : List Q} (h : Opens hs i n a P root c) :
    i < n ∧ ∀ rest, Core.recon hs a i n (P ++ rest) = some (root, rest) := by
  induction h with
  | leaf a => exact ⟨Nat.one_pos, fun rest => by rw [Core.recon, dif_pos (Nat.le_refl 1), List.nil_append]⟩
  | left s h1 hi _ ih =>
    have := k_lt h1
    refine ⟨by omega, fun rest => ?_⟩
    rw [Core.recon, dif_neg (by omega), if_pos hi, List.append_assoc, ih.2]
    rfl
  | right s h1 hi _ ih =>
    have := ih.1
    refine ⟨by omega, fun rest => ?_⟩
    rw [Core.recon, dif_neg (by omega), if_neg (by omega), List.append_assoc, ih.2]
    rfl

theorem opens_of_recon {a : H} : ∀ (n i : Nat) (P rest : List H) (root : H), i < n → recon hs a i n P = some (root, rest) →
    ∃ P' c, P = P' ++ rest ∧ Opens hs i n a P' root c := by
  intro n
  induction n using Nat.strongRecOn with
  | ind n ih =>
  intro i P rest root hi h
  rw [recon] at h
  by_cases h1 : n ≤ 1
  · rw [dif_pos h1] at h
    cases h
    obtain ⟨rfl, rfl⟩ : i = 0 ∧ n = 1 := by omega
    exact ⟨[], [], rfl, .leaf a⟩
  have hlt := k_lt (n := n) (by omega)
  have hpos := k_pos n
  rw [dif_neg h1] at h
  by_cases hk : i < k n
  · rw [if_pos hk] at h
    split at h
    next l s rest' hrec =>
      cases h
      obtain ⟨P', c, rfl, ho⟩ := ih (k n) hlt i P _ _ hk hrec
      exact ⟨P' ++ [s], _, by rw [List.append_assoc, List.singleton_append], .left s (by omega) hk ho⟩
    next => cases h
  · rw [if_neg hk] at h
    split at h
    next r s rest' hrec =>
      cases h
      obtain ⟨P', c, rfl, ho⟩ := ih (n - k n) (by omega) (i - k n) P _ _ (by omega) hrec
      exact ⟨P' ++ [s], _, by rw [List.append_assoc, List.singleton_append], .right s (by omega) (by omega) ho⟩
    next => cases h

/-- The loop over the bits of `i` and `n - 1` is the recursion over the tree: for every
    leaf, proof, root, index and size, `verify_inclusion` returns true exactly if the index
    is in the tree and the reconstruction uses up the proof and yields the root. -/
theorem verifyInclusion_recon [DecidableEq H] (a : H) (i n : Nat) (P : List H) (root : H) :
    (verifyInclusion hs a i n P root).val = true ↔ i < n ∧ recon hs a i n P = some (root, []) := by
  constructor
  · intro h
    obtain ⟨hi, hrec⟩ := (verifyInclusion_iff.mp (congrArg (Traced.mk · _) h)).recon
    have := hrec []
    rw [List.append_nil] at this
    exact ⟨hi, this⟩
  · intro h
    obtain ⟨hi, hrec⟩ := h
    obtain ⟨P', c, rfl, ho⟩ := opens_of_recon n i P [] root hi hrec
    rw [List.append_nil, verifyInclusion_iff.mpr ho]

/-! ## Consistency proofs -/

theorem verifySubproof_extends {old : H} : ∀ (n m : Nat) (iter rest : List H) (b : Bool) (o w : H) (c : List Q),
    0 < m → m ≤ n → verifySubproof hs m n old iter b = ⟨some ((o, w), rest), c⟩ →
      ∃ P, iter = P ++ rest ∧ Extends hs old m n b P o w c := by
  intro n
  induction n using Nat.strongRecOn with
  | ind n ih =>
  intro m iter rest b o w c hm hmn h
  rw [verifySubproof.eq_def] at h
  by_cases e : m = n
  · subst e
    rw [if_pos rfl] at h
    cases b with
    | true => cases h; exact ⟨[], rfl, .shared m⟩
    | false =>
      cases iter with
      | nil => cases h
      | cons x iter => cases h; exact ⟨[_], rfl, .elem m _⟩
  rw [if_neg e, dif_neg (by omega)] at h
  have hkn := k_lt (n := n) (by omega)
  have hkp := k_pos n
  by_cases hk : m ≤ k n
  · simp only [hk, if_true] at h
    obtain ⟨res, c1, c2, hx, h, rfl⟩ := Traced.bind_eq.mp h
    rcases res with _ | ⟨⟨lo, ln⟩, _ | ⟨rh, iter'⟩⟩
    · cases h
    · cases h
    · cases h
      obtain ⟨P, rfl, hP⟩ := ih (k n) hkn m _ _ _ _ _ _ hm hk hx
      exact ⟨P ++ [rh], by simp, .left rh hm (by omega) hk hP⟩
  · simp only [hk, if_false] at h
    obtain ⟨res, c1, c2, hx, h, rfl⟩ := Traced.bind_eq.mp h
    rcases res with _ | ⟨⟨ro, rn⟩, _ | ⟨lh, iter'⟩⟩
    · cases h
    · cases h
    · cases h
      obtain ⟨P, rfl, hP⟩ := ih (n - k n) (by omega) (m - k n) _ _ _ _ _ _ (by omega) (by omega) hx
      exact ⟨P ++ [lh], by simp, .right lh (by omega) (by omega) hP⟩

theorem Extends.accepted {old : H} {m n : Nat} {b : Bool} {P : List H} {o w : H} {c : List Q}
    (h : Extends hs old m n b P o w c) :
    ∀ rest, verifySubproof hs m n old (P ++ rest) b = ⟨some ((o, w), rest), c⟩ := by
  induction h with
  | shared n => intro rest; rw [verifySubproof.eq_def, if_pos rfl]; rfl
  | elem n h => intro rest; rw [verifySubproof.eq_def, if_pos rfl]; rfl
  | left rh h1 h2 h3 _ ih =>
    intro rest
    rw [verifySubproof.eq_def, if_neg (by omega), dif_neg (by omega)]
    simp only [h3, if_true]
    rw [List.append_assoc, ih]
    rfl
  | right lh h1 h2 _ ih =>
    intro rest
    rw [verifySubproof.eq_def, if_neg (by omega), dif_neg (by omega)]
    simp only [Nat.not_le.mpr h1, if_false]
    rw [List.append_assoc, ih]
    rfl

/-- `verify_consistency` accepts equal trees with an empty proof and, for a shorter
    old tree, exactly the proofs that rebuild both roots. -/
theorem verifyConsistency_iff [DecidableEq H] {m n : Nat} {P : List H} {old new : H} {c : List Q} :
    verifyConsistency hs m n P old new = ⟨true, c⟩ ↔
      (m = n ∧ P = [] ∧ old = new ∧ c = []) ∨ (0 < m ∧ m < n ∧ Extends hs old m n true P old new c) := by
  unfold verifyConsistency
  by_cases e : m = n
  · rw [if_pos e]
    constructor
    · intro h
      have hv := congrArg Traced.val h
      have hc := congrArg Traced.calls h
      simp at hv hc
      exact Or.inl ⟨e, hv.1, hv.2, hc⟩
    · rintro (⟨-, rfl, rfl, rfl⟩ | h)
      · simp; rfl
      · omega
  rw [if_neg e]
  by_cases h0 : m = 0 ∨ n < m
  · rw [if_pos h0]
    constructor
    · intro h; exact absurd (congrArg Traced.val h) (by simp)
    · rintro (h | h) <;> omega
  rw [if_neg h0, Traced.bind_eq]
  constructor
  · rintro ⟨res, c1, c2, hx, h, rfl⟩
    match res with
    | none => cases h
    | some ((o, w), iter) =>
      have hv := congrArg Traced.val h
      have hc := congrArg Traced.calls h
      simp at hv hc
      obtain ⟨⟨rfl, rfl⟩, rfl⟩ := hv
      subst hc
      obtain ⟨P', rfl, hP⟩ := verifySubproof_extends n m _ _ _ _ _ _ (by omega) (by omega) hx
      exact Or.inr ⟨by omega, by omega, by simpa using hP⟩
  · rintro (h | ⟨h1, h2, h⟩)
    · omega
    · have hx := h.accepted []
      rw [List.append_nil] at hx
      exact ⟨_, c, [], hx, by simp; rfl, by simp⟩

end Settled.Core
