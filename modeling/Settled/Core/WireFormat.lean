/-
  Settled.Core.WireFormat — `verify_consistency` against the iterative algorithm of
  `docs/wire-format.md`, section 4.2.

  The document's algorithm walks up the bits of `m - 1` and `n - 1` with two running
  hashes, `fr` for the old root and `sr` for the new one. `verify` is that algorithm as
  it is written. It drops the levels at which `fn` is even, and only for `m > 1`; its
  comment ("m is not a power of 2") and the generator of 4.1 ask for the levels at which
  `fn` is odd to be dropped first, and for the first element to be taken only if a bit
  is then left: `verifyAmended`.

  - `verifyAmended` returns true exactly when settled-core's recursion does, for all
    sizes. One loop with two running hashes is the loop of `verify_inclusion` over pairs
    (`both`), so an accepted proof is again a path from the root down (`loop_iff`), and
    it splits where the recursion does (`Extends.path`, `extends_of_path`).
  - `verify` does so for `m = 1`. For `m ≥ 2` no proof is accepted by both: the two take
    proofs of different lengths (`levels`).
-/

import Mathlib.Data.Nat.Factorization.Basic
import Settled.Core.Sha256
import Settled.Core.ProofShape

namespace Settled.Core

open Settled.Lib

variable {H Q : Type} (hs : Hasher H Q)

namespace WireFormat

/-! ## Section 4.2 -/

section

variable [DecidableEq H] (oldRoot newRoot : H)

/-- The `for` loop and the last line. `skipLevels` is its inner `while`. -/
def loop (fn sn : Nat) (fr sr : H) : List H → Bool
  | [] => decide (sn = 0) && decide (fr = oldRoot) && decide (sr = newRoot)
  | step :: proof =>
    if sn = 0 then false
    else if fn % 2 = 1 ∨ fn = sn then
      let (fn, sn) := skipLevels fn sn
      loop (fn >>> 1) (sn >>> 1) (hs.node step fr) (hs.node step sr) proof
    else if fn % 2 = 0 then loop (fn >>> 1) (sn >>> 1) fr (hs.node sr step) proof
    else false

/-- As it is written; `none` is `proof[0]` of an empty proof. -/
def verify (m n : Nat) (proof : List H) : Option Bool :=
  if m = n ∧ proof.isEmpty then some (decide (oldRoot = newRoot))
  else
    let fn := m - 1
    let sn := n - 1
    if fn ≠ 0 then
      -- while fn is even; a bit is set, so this ends
      let (fn, sn) := skipLevels fn sn
      match proof with
      | [] => none
      | first :: proof => some (loop hs oldRoot newRoot fn sn first first proof)
    else some (loop hs oldRoot newRoot fn sn oldRoot oldRoot proof)

/-- While `fn` is odd. -/
def dropFull (fn sn : Nat) : Nat × Nat :=
  if _ : fn % 2 = 1 then dropFull (fn >>> 1) (sn >>> 1) else (fn, sn)
termination_by fn
decreasing_by rw [Nat.shiftRight_one]; omega

/-- With the levels at which `fn` is odd dropped first: a bit is left exactly when `m` is
    not a power of two. -/
def verifyAmended (m n : Nat) (proof : List H) : Option Bool :=
  if m = n ∧ proof.isEmpty then some (decide (oldRoot = newRoot))
  else
    let (fn, sn) := dropFull (m - 1) (n - 1)
    if fn ≠ 0 then
      match proof with
      | [] => none
      | first :: proof => some (loop hs oldRoot newRoot fn sn first first proof)
    else some (loop hs oldRoot newRoot fn sn oldRoot oldRoot proof)

end

/-! ## Two running hashes -/

/-- `node_hash` on the pair of `fr` and `sr`: a step from the left goes into both, a step
    from the right only into `sr`. -/
def both : H ⊕ H × H → H ⊕ H × H → H ⊕ H × H
  | .inl s, .inr (fr, sr) => .inr (hs.node s fr, hs.node s sr)
  | .inr (fr, sr), .inl s => .inr (fr, hs.node sr s)
  | x, _ => x

theorem both_inl {l : H ⊕ H × H} {s o w : H} (h : both hs l (.inl s) = .inr (o, w)) :
    ∃ n, l = .inr (o, n) ∧ w = hs.node n s := by
  match l with
  | .inl _ => cases h
  | .inr (fr, sr) => cases h; exact ⟨sr, rfl, rfl⟩

theorem inl_both {r : H ⊕ H × H} {s o w : H} (h : both hs (.inl s) r = .inr (o, w)) :
    ∃ o' w', r = .inr (o', w') ∧ o = hs.node s o' ∧ w = hs.node s w' := by
  match r with
  | .inl _ => cases h
  | .inr (fr, sr) => cases h; exact ⟨fr, sr, rfl, rfl, rfl⟩

/-- A path for the pair: `P` takes `x` at index `i` of `n` to the two roots. -/
def Path (i n : Nat) (x : H) (P : List H) (o w : H) : Prop :=
  ∃ c, Opens (.pairs (both hs)) i n (.inr (x, x)) (P.map .inl) (.inr (o, w)) c

theorem Path.left {i n : Nat} {x o l : H} {P : List H} (h : Path hs i (k n) x P o l) (s : H) (hn : 1 < n) (hi : i < k n) :
    Path hs i n x (P ++ [s]) o (hs.node l s) := by
  obtain ⟨c, h⟩ := h
  have ho := Opens.left (.inl s) hn hi h
  rw [← List.map_singleton, ← List.map_append] at ho
  exact ⟨_, ho⟩

theorem Path.right {i n : Nat} {x o w : H} {P : List H} (h : Path hs (i - k n) (n - k n) x P o w) (s : H) (hn : 1 < n)
    (hi : k n ≤ i) : Path hs i n x (P ++ [s]) (hs.node s o) (hs.node s w) := by
  obtain ⟨c, h⟩ := h
  have ho := Opens.right (.inl s) hn hi h
  rw [← List.map_singleton, ← List.map_append] at ho
  exact ⟨_, ho⟩

theorem loop_eq [DecidableEq H] (oldRoot newRoot : H) : ∀ (P : List H) (fn sn : Nat) (fr sr : H),
    loop hs oldRoot newRoot fn sn fr sr P =
      (verifyInclusionLoop (.pairs (both hs)) (.inr (oldRoot, newRoot)) fn sn (.inr (fr, sr)) (P.map .inl)).val := by
  intro P
  induction P with
  | nil => intro fn sn fr sr; simp [loop, verifyInclusionLoop, Bool.and_assoc]
  | cons s P ih =>
    intro fn sn fr sr
    rw [loop, List.map_cons, verifyInclusionLoop]
    by_cases h0 : sn = 0
    · rw [if_pos h0, if_pos h0]; rfl
    rw [if_neg h0, if_neg h0, Nat.and_one_is_mod]
    by_cases hc : fn % 2 = 1 ∨ fn = sn
    · rw [if_pos hc, if_pos (by omega)]
      exact ih _ _ _ _
    · rw [if_neg hc, if_pos (by omega), if_neg (by omega)]
      exact ih _ _ _ _

theorem loop_iff [DecidableEq H] {oldRoot newRoot x : H} {fn sn : Nat} {P : List H} (h : fn ≤ sn) :
    loop hs oldRoot newRoot fn sn x x P = true ↔ Path hs fn (sn + 1) x P oldRoot newRoot := by
  rw [loop_eq]
  constructor
  · intro hl
    have hc := (verifyInclusionLoop_iff _ fn sn _ _ h).mp (congrArg (Traced.mk · _) hl)
    exact ⟨_, Climbs.opens (sn + 1) fn (by omega) hc⟩
  · rintro ⟨c, hc⟩
    rw [(verifyInclusionLoop_iff _ _ _ _ _ h).mpr hc.climbs.2]

/-! ## The same splits

With `m = 2^t * q` and `q` odd, `t` levels are dropped: the walk starts at index `q - 1`
of the `(n - 1) / 2^t + 1` nodes of level `t`. -/

/-- The split of `n`, seen from level `t`. -/
theorem k_level {t q n p : Nat} (hq : 0 < q) (hm : 2 ^ t * q < n) (h1 : 2 ^ p < n) (h2 : n ≤ 2 ^ (p + 1)) :
    t ≤ p ∧ k ((n - 1) / 2 ^ t + 1) = 2 ^ (p - t) ∧ 1 < (n - 1) / 2 ^ t + 1 ∧
      (2 ^ p - 1) / 2 ^ t + 1 = 2 ^ (p - t) ∧
      (n - 2 ^ p - 1) / 2 ^ t + 1 = (n - 1) / 2 ^ t + 1 - 2 ^ (p - t) ∧ (2 ^ t * q ≤ 2 ^ p ↔ q ≤ 2 ^ (p - t)) := by
  have ht : 0 < 2 ^ t := Nat.two_pow_pos t
  have hle : 2 ^ t ≤ 2 ^ t * q := Nat.le_mul_of_pos_right _ hq
  have htp : t < p + 1 := (Nat.pow_lt_pow_iff_right (by omega)).mp (show 2 ^ t < 2 ^ (p + 1) by omega)
  obtain ⟨e, rfl⟩ : ∃ e, p = t + e := ⟨p - t, by omega⟩
  rw [show t + e - t = e by omega]
  have he : 0 < 2 ^ e := Nat.two_pow_pos e
  rw [Nat.add_assoc, Nat.pow_add] at h2
  rw [Nat.pow_add] at h1 ⊢
  have hlo : 2 ^ e ≤ (n - 1) / 2 ^ t := (Nat.le_div_iff_mul_le ht).mpr (by rw [Nat.mul_comm]; omega)
  have hhi : (n - 1) / 2 ^ t < 2 ^ (e + 1) := (Nat.div_lt_iff_lt_mul ht).mpr (by rw [Nat.mul_comm]; omega)
  have hdiv : (n - 2 ^ t * 2 ^ e - 1) / 2 ^ t = (n - 1) / 2 ^ t - 2 ^ e := by
    rw [show n - 2 ^ t * 2 ^ e - 1 = n - 1 - 2 ^ t * 2 ^ e by omega, Nat.sub_mul_div]
  have hfull : (2 ^ t * 2 ^ e - 1) / 2 ^ t + 1 = 2 ^ e := by
    have hlt : (2 ^ t * 2 ^ e - 1) / 2 ^ t < 2 ^ e :=
      (Nat.div_lt_iff_lt_mul ht).mpr (by rw [Nat.mul_comm (2 ^ e)]; have := Nat.mul_pos ht he; omega)
    have hge : 2 ^ e - 1 ≤ (2 ^ t * 2 ^ e - 1) / 2 ^ t :=
      (Nat.le_div_iff_mul_le ht).mpr (by rw [Nat.sub_mul, Nat.mul_comm (2 ^ e)]; omega)
    omega
  refine ⟨by omega, ?_, by omega, hfull, by omega, Nat.mul_le_mul_left_iff ht⟩
  rw [k_eq, pow2Below_unique (p := e) (by omega) (by omega)]

/-- What the walk starts from: `old_root` while the old tree is complete and on the left
    spine, the first element otherwise. -/
def Start (old : H) (b : Bool) (q : Nat) (P : List H) (x : H) (P' : List H) : Prop :=
  (b = true ∧ q = 1 ∧ x = old ∧ P' = P) ∨ (¬ (b = true ∧ q = 1) ∧ P = x :: P')

theorem Start.snoc {old x : H} {b : Bool} {q : Nat} {P P' : List H} (h : Start old b q P x P') (s : H) :
    Start old b q (P ++ [s]) x (P' ++ [s]) := by
  rcases h with ⟨hb, hq, hx, rfl⟩ | ⟨hn, rfl⟩
  · exact Or.inl ⟨hb, hq, hx, rfl⟩
  · exact Or.inr ⟨hn, rfl⟩

/-- An odd part that is a power of two is 1. -/
theorem odd_part_eq_one {t q p : Nat} (hq : q % 2 = 1) (h : 2 ^ t * q = 2 ^ p) : q = 1 := by
  have ht : 0 < 2 ^ t := Nat.two_pow_pos t
  by_cases hle : p ≤ t
  · have hpow : 2 ^ p ≤ 2 ^ t := Nat.pow_le_pow_right (by omega) hle
    have : q ≤ 1 := Nat.le_of_mul_le_mul_left (by omega) ht
    omega
  · obtain ⟨e, rfl⟩ : ∃ e, p = t + (e + 1) := ⟨p - t - 1, by omega⟩
    rw [Nat.pow_add] at h
    have := Nat.eq_of_mul_eq_mul_left ht h
    rw [Nat.pow_succ] at this
    omega

/-- Past the split the old part is still an odd number of nodes of level `t`. -/
theorem odd_part_right {t q p : Nat} (hq : q % 2 = 1) (htp : t ≤ p) (h1 : 2 ^ p < 2 ^ t * q) (h2 : 2 ^ t * q < 2 ^ (p + 1)) :
    2 ^ (p - t) < q ∧ 2 ^ t * q - 2 ^ p = 2 ^ t * (q - 2 ^ (p - t)) ∧ (q - 2 ^ (p - t)) % 2 = 1 := by
  obtain ⟨e, rfl⟩ : ∃ e, p = t + e := ⟨p - t, by omega⟩
  rw [show t + e - t = e by omega]
  rw [Nat.add_assoc, Nat.pow_add] at h2
  rw [Nat.pow_add] at h1 ⊢
  have hlo := Nat.lt_of_mul_lt_mul_left h1
  have hhi := Nat.lt_of_mul_lt_mul_left h2
  refine ⟨hlo, by rw [Nat.mul_sub], ?_⟩
  cases e with
  | zero => omega
  | succ e => rw [Nat.pow_succ] at hlo ⊢; omega

theorem Extends.path {old o w : H} {m n : Nat} {b : Bool} {P : List H} {c : List Q} (h : Extends hs old m n b P o w c) :
    ∀ t q, m = 2 ^ t * q → q % 2 = 1 → m < n ∨ q = 1 →
      ∃ x P', Start old b q P x P' ∧ Path hs (q - 1) ((n - 1) / 2 ^ t + 1) x P' o w := by
  have hone : ∀ t, (2 ^ t - 1) / 2 ^ t = 0 := fun t => Nat.div_eq_of_lt (by have := Nat.two_pow_pos t; omega)
  induction h with
  | shared n =>
    intro t q hm hq hlt
    obtain rfl : q = 1 := by omega
    rw [hm, Nat.mul_one, hone]
    exact ⟨old, [], Or.inl ⟨rfl, rfl, rfl, rfl⟩, [], .leaf _⟩
  | elem n x =>
    intro t q hm hq hlt
    obtain rfl : q = 1 := by omega
    rw [hm, Nat.mul_one, hone]
    exact ⟨x, [], Or.inr ⟨by simp, rfl⟩, [], .leaf _⟩
  | @left m n b P lo ln c rh h0 hmn hk h ih =>
    intro t q hm hq _
    obtain ⟨p, hp, h1, h2⟩ := k_spec (n := n) (by omega)
    obtain ⟨-, hkn, hN, hfull, -, hle⟩ := k_level (t := t) (q := q) (by omega) (by omega) h1 h2
    rw [hp] at ih hk
    have hlast : m < 2 ^ p ∨ q = 1 := by
      by_cases e : m = 2 ^ p
      · exact Or.inr (odd_part_eq_one hq (hm.symm.trans e))
      · exact Or.inl (by omega)
    obtain ⟨x, P', hst, ho⟩ := ih t q hm hq hlast
    rw [hfull, ← hkn] at ho
    have hq1 : q ≤ 2 ^ (p - t) := hle.mp (by omega)
    exact ⟨x, P' ++ [rh], hst.snoc rh, ho.left hs rh hN (by omega)⟩
  | @right m n b P ro rn c lh hk hmn h ih =>
    intro t q hm hq _
    obtain ⟨p, hp, h1, h2⟩ := k_spec (n := n) (by omega)
    obtain ⟨htp, hkn, hN, -, hrest, -⟩ := k_level (t := t) (q := q) (by omega) (by omega) h1 h2
    rw [hp] at ih hk
    obtain ⟨hq1, hm', hodd⟩ := odd_part_right hq htp (by omega) (by omega)
    obtain ⟨x, P', hst, ho⟩ := ih t (q - 2 ^ (p - t)) (by rw [hm, hm']) hodd (Or.inl (by omega))
    rw [hrest, ← hkn, show q - k ((n - 1) / 2 ^ t + 1) - 1 = q - 1 - k ((n - 1) / 2 ^ t + 1) by omega] at ho
    have hst' : P = x :: P' := by
      rcases hst with ⟨hb, -⟩ | ⟨-, hP⟩
      · cases hb
      · exact hP
    have hpos := Nat.two_pow_pos (p - t)
    exact ⟨x, P' ++ [lh], Or.inr ⟨by omega, by rw [hst']; rfl⟩, ho.right hs lh hN (by omega)⟩

theorem Path.one {i : Nat} {x o w : H} {P : List H} (h : Path hs i 1 x P o w) : P = [] ∧ o = x ∧ w = x := by
  obtain ⟨c, h⟩ := h
  generalize hP : P.map Sum.inl = P2 at h
  generalize hr : Sum.inr (o, w) = r at h
  cases h with
  | leaf =>
    obtain ⟨rfl, rfl⟩ := Prod.mk.inj (Sum.inr.inj hr)
    exact ⟨List.map_eq_nil_iff.mp hP, rfl, rfl⟩
  | left _ h1 => omega
  | right _ h1 => omega

/-- The last step of a path is the top of the tree. -/
theorem Path.top {i n : Nat} {x o w : H} {P : List H} (h : Path hs i n x P o w) (hn : 1 < n) :
    (∃ s P' l, P = P' ++ [s] ∧ i < k n ∧ w = hs.node l s ∧ Path hs i (k n) x P' o l) ∨
    ∃ s P' o' w', P = P' ++ [s] ∧ k n ≤ i ∧ o = hs.node s o' ∧ w = hs.node s w' ∧
      Path hs (i - k n) (n - k n) x P' o' w' := by
  obtain ⟨c, h⟩ := h
  generalize hP : P.map Sum.inl = P2 at h
  generalize hr : Sum.inr (o, w) = r at h
  cases h with
  | leaf => omega
  | left s _ hi h =>
    obtain ⟨P', P1, rfl, rfl, h1⟩ := List.map_eq_append_iff.mp hP
    obtain ⟨y, rfl, rfl⟩ := List.map_eq_singleton_iff.mp h1
    obtain ⟨l, rfl, hw⟩ := both_inl hs hr.symm
    exact Or.inl ⟨y, P', l, rfl, hi, hw, _, h⟩
  | right s _ hi h =>
    obtain ⟨P', P1, rfl, rfl, h1⟩ := List.map_eq_append_iff.mp hP
    obtain ⟨y, rfl, rfl⟩ := List.map_eq_singleton_iff.mp h1
    obtain ⟨o', w', rfl, ho, hw⟩ := inl_both hs hr.symm
    exact Or.inr ⟨y, P', o', w', rfl, hi, ho, hw, _, h⟩

theorem Start.unsnoc {old x s : H} {b : Bool} {q : Nat} {P P' : List H} (h : Start old b q P x (P' ++ [s])) :
    ∃ P0, P = P0 ++ [s] ∧ Start old b q P0 x P' := by
  rcases h with ⟨hb, hq, hx, rfl⟩ | ⟨hn, rfl⟩
  · exact ⟨P', rfl, Or.inl ⟨hb, hq, hx, rfl⟩⟩
  · exact ⟨x :: P', rfl, Or.inr ⟨hn, rfl⟩⟩

theorem extends_of_path {old : H} : ∀ (n t q : Nat) {o w x : H} {b : Bool} {P P' : List H}, q % 2 = 1 →
    2 ^ t * q < n ∨ (2 ^ t * q = n ∧ q = 1) → Start old b q P x P' → Path hs (q - 1) ((n - 1) / 2 ^ t + 1) x P' o w →
      ∃ c, Extends hs old (2 ^ t * q) n b P o w c := by
  intro n
  induction n using Nat.strongRecOn with
  | ind n ih =>
  intro t q o w x b P P' hq hlt hst hp
  rcases hlt with hlt | ⟨rfl, rfl⟩
  · have hq0 : 0 < 2 ^ t * q := Nat.mul_pos (Nat.two_pow_pos t) (by omega)
    obtain ⟨p, hkp, h1, h2⟩ := k_spec (n := n) (by omega)
    obtain ⟨htp, hkn, hN, hfull, hrest, hle⟩ := k_level (t := t) (q := q) (by omega) hlt h1 h2
    rcases hp.top hs hN with ⟨s, P1, l, rfl, hi, rfl, h⟩ | ⟨s, P1, o', w', rfl, hi, rfl, rfl, h⟩
    · rw [hkn] at hi
      have hmk : 2 ^ t * q ≤ 2 ^ p := hle.mpr (by omega)
      rw [hkn, ← hfull] at h
      obtain ⟨P0, rfl, hst0⟩ := hst.unsnoc
      have hlast : 2 ^ t * q < 2 ^ p ∨ (2 ^ t * q = 2 ^ p ∧ q = 1) := by
        by_cases e : 2 ^ t * q = 2 ^ p
        · exact Or.inr ⟨e, odd_part_eq_one hq e⟩
        · exact Or.inl (by omega)
      obtain ⟨c, hx⟩ := ih (2 ^ p) h1 t q hq hlast hst0 h
      exact ⟨_, .left s hq0 hlt (by omega) (by rw [hkp]; exact hx)⟩
    · rw [hkn] at hi
      have hmk : 2 ^ p < 2 ^ t * q := by
        by_contra hc
        have := hle.mp (by omega)
        omega
      obtain ⟨hq1, hm', hodd⟩ := odd_part_right hq htp hmk (by omega)
      rw [hkn, ← hrest, show q - 1 - 2 ^ (p - t) = q - 2 ^ (p - t) - 1 by omega] at h
      have hpos := Nat.two_pow_pos (p - t)
      have hP : P = (x :: P1) ++ [s] := by
        rcases hst with ⟨-, hq', -⟩ | ⟨-, hP⟩
        · omega
        · exact hP
      obtain ⟨c, hx⟩ := ih (n - 2 ^ p) (by have := Nat.two_pow_pos p; omega) t (q - 2 ^ (p - t)) hodd
        (Or.inl (by omega)) (b := false) (Or.inr ⟨by simp, rfl⟩) h
      rw [← hm', ← hkp] at hx
      rw [hP]
      exact ⟨_, .right s (by omega) hlt hx⟩
  · rw [Nat.mul_one, Nat.div_eq_of_lt (by have := Nat.two_pow_pos t; omega)] at hp
    obtain ⟨rfl, rfl, rfl⟩ := hp.one hs
    rcases hst with ⟨rfl, -, rfl, rfl⟩ | ⟨hb, rfl⟩
    · exact ⟨_, .shared _⟩
    · obtain rfl : b = false := by simpa using hb
      exact ⟨_, .elem _ _⟩

/-! ## The amended algorithm -/

theorem dropFull_eq {q : Nat} (hq : q % 2 = 1) : ∀ t sn, dropFull (2 ^ t * q - 1) sn = (q - 1, sn / 2 ^ t) := by
  intro t
  induction t with
  | zero =>
    intro sn
    rw [dropFull, dif_neg (by omega)]
    simp
  | succ t ih =>
    intro sn
    have hpos : 0 < 2 ^ t * q := Nat.mul_pos (Nat.two_pow_pos t) (by omega)
    have hm : 2 ^ (t + 1) * q = 2 * (2 ^ t * q) := by rw [Nat.pow_succ, Nat.mul_comm (2 ^ t), Nat.mul_assoc]
    rw [dropFull, dif_pos (by omega), Nat.shiftRight_one, Nat.shiftRight_one, hm,
      show (2 * (2 ^ t * q) - 1) / 2 = 2 ^ t * q - 1 by omega, ih, Nat.div_div_eq_div_mul, Nat.mul_comm 2, Nat.pow_succ]

section

variable [DecidableEq H] {oldRoot newRoot : H} {n t q : Nat} {P : List H}

/-- What the amended algorithm accepts, at `m = 2^t * q`. -/
theorem verifyAmended_iff (hq : q % 2 = 1) (hmn : 2 ^ t * q < n) :
    verifyAmended hs oldRoot newRoot (2 ^ t * q) n P = some true ↔
      ∃ x P', Start oldRoot true q P x P' ∧ Path hs (q - 1) ((n - 1) / 2 ^ t + 1) x P' oldRoot newRoot := by
  have hle : q - 1 ≤ (n - 1) / 2 ^ t :=
    (Nat.le_div_iff_mul_le (Nat.two_pow_pos t)).mpr (by rw [Nat.sub_mul, Nat.mul_comm]; omega)
  unfold verifyAmended
  rw [if_neg (by omega), dropFull_eq hq]
  by_cases h1 : q = 1
  · subst h1
    simp only [Nat.sub_self, ne_eq, not_true_eq_false, if_false, Option.some.injEq]
    rw [loop_iff hs (Nat.zero_le _)]
    constructor
    · intro h
      exact ⟨oldRoot, P, Or.inl ⟨rfl, rfl, rfl, rfl⟩, h⟩
    · rintro ⟨x, P', ⟨-, -, rfl, rfl⟩ | ⟨hn, -⟩, h⟩
      · exact h
      · exact absurd ⟨rfl, rfl⟩ hn
  · simp only [ne_eq, show ¬ q - 1 = 0 by omega, not_false_eq_true, if_true]
    cases P with
    | nil =>
      constructor
      · intro h; cases h
      · rintro ⟨x, P', ⟨-, h, -⟩ | ⟨-, h⟩, -⟩
        · exact absurd h h1
        · cases h
    | cons first P =>
      simp only [Option.some.injEq]
      rw [loop_iff hs hle]
      constructor
      · intro h
        exact ⟨first, P, Or.inr ⟨by simp [h1], rfl⟩, h⟩
      · rintro ⟨x, P', ⟨-, h, -⟩ | ⟨-, h⟩, hp⟩
        · exact absurd h h1
        · cases h
          exact hp

theorem verifyConsistency_path (hq : q % 2 = 1) (hmn : 2 ^ t * q < n) :
    (verifyConsistency hs (2 ^ t * q) n P oldRoot newRoot).val = true ↔
      ∃ x P', Start oldRoot true q P x P' ∧ Path hs (q - 1) ((n - 1) / 2 ^ t + 1) x P' oldRoot newRoot := by
  have hq0 : 0 < 2 ^ t * q := Nat.mul_pos (Nat.two_pow_pos t) (by omega)
  constructor
  · intro h
    rcases verifyConsistency_iff.mp (congrArg (Traced.mk · _) h) with ⟨e, -⟩ | ⟨-, -, hx⟩
    · omega
    · exact Extends.path hs hx t q rfl hq (Or.inl hmn)
  · rintro ⟨x, P', hst, hp⟩
    obtain ⟨c, hx⟩ := extends_of_path hs n t q hq (Or.inl hmn) hst hp
    rw [verifyConsistency_iff.mpr (Or.inr ⟨hq0, hmn, hx⟩)]

end

/-! ## The algorithm as it is written -/

/-- How many steps the walk from `fn` takes. -/
def levels (fn sn : Nat) : Nat :=
  if _ : sn = 0 then 0 else (if fn = sn ∧ fn % 2 = 0 then 0 else 1) + levels (fn / 2) (sn / 2)
termination_by sn

theorem levels_half_le (fn sn : Nat) : levels (fn / 2) (sn / 2) ≤ levels fn sn := by
  by_cases h : sn = 0
  · subst h
    rw [levels, dif_pos rfl]
    omega
  · rw [levels.eq_def fn sn, dif_neg h]
    omega

theorem levels_step {fn sn : Nat} (h : fn ≠ sn ∨ fn % 2 = 1) (h0 : sn ≠ 0) :
    levels fn sn = 1 + levels (fn / 2) (sn / 2) := by
  rw [levels, dif_neg h0, if_neg (by omega)]

theorem Climbs.length {hs : Hasher H Q} {fn sn : Nat} {r t : H} {P : List H} {c : List Q} (h : Climbs hs fn sn r P t c) :
    P.length = levels fn sn := by
  induction h with
  | top => rw [levels, dif_pos rfl]; rfl
  | left s h1 h2 _ ih => rw [levels_step (Or.inr h1) h2, List.length_cons, ih, Nat.add_comm]
  | right s h1 h2 h3 _ ih => rw [levels_step (Or.inl h2) h3, List.length_cons, ih, Nat.add_comm]
  | skip h1 h2 _ ih => rw [levels, dif_neg h2, if_pos ⟨rfl, h1⟩, ih, Nat.zero_add]

theorem Path.length {i n : Nat} {x o w : H} {P : List H} (h : Path hs i n x P o w) : P.length = levels i (n - 1) := by
  obtain ⟨c, h⟩ := h
  rw [← Climbs.length h.climbs.2, List.length_map]

theorem levels_skipLevels : ∀ fn sn, fn ≤ sn → (skipLevels fn sn).1 ≤ (skipLevels fn sn).2 ∧
    levels (skipLevels fn sn).1 (skipLevels fn sn).2 ≤ levels fn sn := by
  intro fn sn
  induction fn, sn using skipLevels.induct with
  | case1 fn sn h ih =>
    intro hle
    rw [skipLevels, dif_pos h]
    simp only [Nat.shiftRight_one] at ih ⊢
    obtain ⟨h1, h2⟩ := ih (by omega)
    exact ⟨h1, Nat.le_trans h2 (levels_half_le fn sn)⟩
  | case2 fn sn h => intro hle; rw [skipLevels, dif_neg h]; exact ⟨hle, Nat.le_refl _⟩

theorem levels_dropFull {q : Nat} (hq : 0 < q) : ∀ t sn, 2 ^ t * q - 1 ≤ sn →
    levels (2 ^ t * q - 1) sn = t + levels (q - 1) (sn / 2 ^ t) := by
  intro t
  induction t with
  | zero => intro sn _; simp
  | succ t ih =>
    intro sn hle
    have hpos : 0 < 2 ^ t * q := Nat.mul_pos (Nat.two_pow_pos t) hq
    have hm : 2 ^ (t + 1) * q = 2 * (2 ^ t * q) := by rw [Nat.pow_succ, Nat.mul_comm (2 ^ t), Nat.mul_assoc]
    rw [hm] at hle ⊢
    rw [levels_step (Or.inr (by omega)) (by omega), show (2 * (2 ^ t * q) - 1) / 2 = 2 ^ t * q - 1 by omega,
      ih _ (by omega), Nat.div_div_eq_div_mul, Nat.mul_comm 2, ← Nat.pow_succ, ← Nat.add_assoc, Nat.add_comm 1]

/-- For `m > 1` the algorithm as written takes proofs of another length. -/
theorem verify_length [DecidableEq H] {oldRoot newRoot : H} {n t q : Nat} {P : List H} (hq : q % 2 = 1)
    (h1 : 1 < 2 ^ t * q) (hmn : 2 ^ t * q < n) (h : verify hs oldRoot newRoot (2 ^ t * q) n P = some true) :
    (t = 0 ∧ P.length < 1 + levels (q - 1) ((n - 1) / 2 ^ t)) ∨ 1 + levels (q - 1) ((n - 1) / 2 ^ t) < P.length := by
  obtain ⟨hle, hlv⟩ := levels_skipLevels (2 ^ t * q - 1) (n - 1) (by omega)
  unfold verify at h
  rw [if_neg (by omega)] at h
  simp only [ne_eq, show ¬ 2 ^ t * q - 1 = 0 by omega, not_false_eq_true, if_true] at h
  cases P with
  | nil => cases h
  | cons first P =>
    simp only [Option.some.injEq] at h
    have hlen := ((loop_iff hs hle).mp h).length hs
    rw [Nat.add_sub_cancel] at hlen
    rw [List.length_cons, hlen]
    cases t with
    | zero =>
      -- `fn` is even: the levels dropped are those the proof has steps for
      left
      rw [Nat.pow_zero, Nat.one_mul] at h1 hmn ⊢
      have hskip := (levels_skipLevels ((q - 1) / 2) ((n - 1) / 2) (by omega)).2
      have hstep : levels (q - 1) (n - 1) = 1 + levels ((q - 1) / 2) ((n - 1) / 2) :=
        levels_step (Or.inl (by omega)) (by omega)
      rw [Nat.div_one, skipLevels_even (by omega) (by omega), hstep]
      omega
    | succ t =>
      -- `fn` is odd: nothing is dropped
      right
      have hm : 2 ^ (t + 1) * q = 2 * (2 ^ t * q) := by rw [Nat.pow_succ, Nat.mul_comm (2 ^ t), Nat.mul_assoc]
      have hdrop := levels_dropFull (q := q) (by omega) (t + 1) (n - 1) (by omega)
      rw [skipLevels_stop (by omega), hdrop]
      omega

end WireFormat

/-- Against section 4.2, for all sizes `0 < m < n`, proofs and roots. With the levels at
    which `fn` is odd dropped before the test of its bits, the document's algorithm
    returns true exactly when `verify_consistency` does. As it is written it does so for
    `m = 1`, and for `m > 1` no proof is accepted by both. -/
theorem verifyConsistency_wireFormat [DecidableEq H] (m n : Nat) (hm : 0 < m) (hmn : m < n) (proof : List H)
    (oldRoot newRoot : H) :
    ((verifyConsistency hs m n proof oldRoot newRoot).val = true ↔
      WireFormat.verifyAmended hs oldRoot newRoot m n proof = some true) ∧
    (m = 1 → ((verifyConsistency hs m n proof oldRoot newRoot).val = true ↔
      WireFormat.verify hs oldRoot newRoot m n proof = some true)) ∧
    (1 < m → ¬ ((verifyConsistency hs m n proof oldRoot newRoot).val = true ∧
      WireFormat.verify hs oldRoot newRoot m n proof = some true)) := by
  obtain ⟨t, q, hq, rfl⟩ := Nat.exists_eq_two_pow_mul_odd (n := m) (by omega)
  have hq : q % 2 = 1 := Nat.odd_iff.mp hq
  have hcore := @WireFormat.verifyConsistency_path H Q hs _ oldRoot newRoot n t q proof hq hmn
  have hiff := hcore.trans (WireFormat.verifyAmended_iff hs hq hmn).symm
  refine ⟨hiff, fun h1 => ?_, fun h1 ⟨hv, hw⟩ => ?_⟩
  · -- no bit is set, and nothing is dropped by either
    rw [hiff, h1]
    unfold WireFormat.verify WireFormat.verifyAmended WireFormat.dropFull
    rfl
  · obtain ⟨x, P', hst, hp⟩ := hcore.mp hv
    have hlen := hp.length hs
    rw [Nat.add_sub_cancel] at hlen
    rcases hst with ⟨-, rfl, -, rfl⟩ | ⟨-, rfl⟩
    · rcases WireFormat.verify_length hs hq h1 hmn hw with ⟨rfl, -⟩ | hl
      · simp at h1
      · omega
    · rcases WireFormat.verify_length hs hq h1 hmn hw with ⟨-, hl⟩ | hl
      · rw [List.length_cons] at hl; omega
      · rw [List.length_cons] at hl; omega

/-- The first two of three leaves, and their root. -/
def rootOfTwo : Hash := (Hasher.sha Sha256.sha256).node (.fill 0) (.fill 1)

/-- All three. -/
def rootOfThree : Hash := (Hasher.sha Sha256.sha256).node rootOfTwo (.fill 2)

/-- From two leaves to three: the generated proof, which is the third leaf. -/
theorem verifyConsistency_wireFormat_two_three :
    ((verifyConsistency (.sha Sha256.sha256) 2 3 [.fill 2] rootOfTwo rootOfThree).val = true ↔
      WireFormat.verifyAmended (.sha Sha256.sha256) rootOfTwo rootOfThree 2 3 [.fill 2] = some true) ∧
    WireFormat.verifyAmended (.sha Sha256.sha256) rootOfTwo rootOfThree 2 3 [.fill 2] = some true :=
  ⟨(verifyConsistency_wireFormat (.sha Sha256.sha256) 2 3 (by decide) (by decide) [.fill 2] rootOfTwo rootOfThree).1,
    by decide +kernel⟩

/-- `verify_consistency` accepts it, and the algorithm as written does not: it takes the
    third leaf for the shared subtree, and then has no step for the levels above. -/
theorem wireFormat_rejects_two_three :
    (verifyConsistency (.sha Sha256.sha256) 2 3 [.fill 2] rootOfTwo rootOfThree).val = true ∧
    WireFormat.verify (.sha Sha256.sha256) rootOfTwo rootOfThree 2 3 [.fill 2] = some false := by
  decide +kernel

end Settled.Core
