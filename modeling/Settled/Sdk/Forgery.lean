/-
  Settled.Sdk.Forgery — where the first element of a consistency proof is the shared
  subtree and its length is not checked, any leaf can be put in place of the last old
  one.

  Let `N` and `S` be the last two subtrees that `old_root` is built from. A proof that
  gives the shared subtree as the empty string and its left sibling as `N || S` rebuilds
  `old_root` from the very string the honest tree hashes, while the subtree that the new
  root is built from is empty too, so that the string hashed over it is the sender's to
  choose: it is cut there after the path of another leaf.

  `forgery`: for every old size that is not a power of two and every larger new size the
  law of `Settled.Sdk.TamperEvidence` fails. The hash it fails for adds up its 32-byte
  blocks: every string the honest tree and the two runs put to it has a sum of its own.
-/

import Mathlib.Tactic.Ring
import Settled.Core.Sha256
import Settled.Sdk.TamperEvidence

namespace Settled.Sdk

open Settled.Lib Settled.Core

/-! ## A hash that adds -/

/-- The `w` little-endian digits of `x` to base 256. -/
def digits : Nat → Nat → Bytes
  | 0, _ => []
  | w + 1, x => UInt8.ofNat x :: digits w (x / 256)

theorem length_digits : ∀ w x, (digits w x).length = w := by
  intro w
  induction w with
  | zero => intro x; rfl
  | succ w ih => intro x; rw [digits, List.length_cons, ih]

/-- The sum of the 32-byte little-endian blocks; `j` is the position of the first byte. -/
def weight : Nat → Bytes → Nat
  | _, [] => 0
  | j, b :: bs => b.toNat * 256 ^ (j % 32) + weight (j + 1) bs

def enc (x : Nat) : Hash := ⟨digits 32 x, length_digits 32 x⟩

/-- What the hash makes of a query: the sum of its blocks, the prefix byte left out. -/
def rank (q : Bytes) : Nat := weight 0 (q.drop 1)

def sumSha (q : Bytes) : Hash := enc (rank q)

theorem weight_append : ∀ (x y : Bytes) (j : Nat), weight j (x ++ y) = weight j x + weight (j + x.length) y := by
  intro x y
  induction x with
  | nil => intro j; simp [weight]
  | cons b x ih =>
    intro j
    rw [List.cons_append, weight, weight, ih, List.length_cons, Nat.add_right_comm j 1, Nat.add_assoc j, Nat.add_assoc]

theorem weight_add_block : ∀ (x : Bytes) (j : Nat), weight (j + 32) x = weight j x := by
  intro x
  induction x with
  | nil => intro j; rfl
  | cons b x ih => intro j; rw [weight, weight, Nat.add_mod_right, Nat.add_right_comm, ih]

theorem weight_block_append (x : Hash) (y : Bytes) : weight 0 (x.val ++ y) = weight 0 x.val + weight 0 y := by
  rw [weight_append, x.property, weight_add_block]

theorem weight_digits : ∀ (w j x : Nat), j + w ≤ 32 → weight j (digits w x) = 256 ^ j * (x % 256 ^ w) := by
  intro w
  induction w with
  | zero => intro j x _; simp [digits, weight, Nat.mod_one]
  | succ w ih =>
    intro j x h
    have hb : (UInt8.ofNat x).toNat = x % 256 := by simp
    rw [digits, weight, ih (j + 1) (x / 256) (by omega), hb, Nat.mod_eq_of_lt (show j < 32 by omega),
      Nat.pow_succ 256 w, Nat.mul_comm (256 ^ w), Nat.mod_mul]
    ring

/-- Sums below this are read back. -/
theorem weight_enc {x : Nat} (h : x < 256 ^ 32) : weight 0 (enc x).val = x := by
  show weight 0 (digits 32 x) = x
  rw [weight_digits 32 0 x (by omega), Nat.pow_zero, Nat.one_mul, Nat.mod_eq_of_lt h]

theorem enc_inj {x y : Nat} (hx : x < 256 ^ 32) (hy : y < 256 ^ 32) (h : enc x = enc y) : x = y := by
  rw [← weight_enc hx, ← weight_enc hy, h]

theorem rank_node {x y : Nat} (hx : x < 256 ^ 32) (hy : y < 256 ^ 32) :
    rank (nodeInput (enc x).val (enc y).val) = x + y := by
  show weight 0 ((enc x).val ++ (enc y).val) = x + y
  rw [weight_block_append, weight_enc hx, weight_enc hy]

theorem rank_node_pair {x y z : Nat} (hx : x < 256 ^ 32) (hy : y < 256 ^ 32) (hz : z < 256 ^ 32) :
    rank (nodeInput ((enc x).val ++ (enc y).val) (enc z).val) = x + y + z := by
  show weight 0 (((enc x).val ++ (enc y).val) ++ (enc z).val) = x + y + z
  rw [List.append_assoc, weight_block_append, weight_block_append, weight_enc hx, weight_enc hy, weight_enc hz,
    Nat.add_assoc]

theorem query_bytes (sha256 : Bytes → Hash) (x y : Bytes) : (hasher sha256).query x y = nodeInput x y := rfl

theorem node_sum (x y : Bytes) : (hasher sumSha).node x y = (enc (rank (nodeInput x y))).val := rfl

/-! ## The honest tree -/

/-- What is hashed for the root of `t` leaves, each `enc 1`. -/
def honest (t : Nat) : Bytes := nodeInput (enc (Core.k t)).val (enc (t - Core.k t)).val

theorem rank_honest {t : Nat} (h1 : 1 < t) (ht : t < 256 ^ 32) : rank (honest t) = t := by
  have := k_lt h1
  rw [honest, rank_node (by omega) (by omega)]
  omega

theorem mth_honest : ∀ t, 0 < t → t < 256 ^ 32 →
    (mth (.sha sumSha) (List.replicate t (enc 1))).val = some (enc t) ∧
      ∀ q ∈ (mth (.sha sumSha) (List.replicate t (enc 1))).calls, ∃ u, 1 < u ∧ u ≤ t ∧ q = honest u := by
  intro t
  induction t using Nat.strongRecOn with
  | ind t ih =>
  intro h0 ht
  by_cases h1 : t = 1
  · subst h1
    rw [List.replicate_one, mth]
    exact ⟨rfl, fun q hq => by cases hq⟩
  have hgt : 1 < t := by omega
  have hlt := k_lt hgt
  have hpos := k_pos t
  obtain ⟨l, r, hl, hr, hv, hc⟩ := mth_split (.sha sumSha) (L := List.replicate t (enc 1)) (by simpa using hgt)
  rw [List.length_replicate, List.take_replicate, Nat.min_eq_left (by omega)] at hl hc
  rw [List.length_replicate, List.drop_replicate] at hr
  rw [List.drop_replicate] at hc
  obtain ⟨hl', hcl⟩ := ih (Core.k t) hlt hpos (by omega)
  obtain ⟨hr', hcr⟩ := ih (t - Core.k t) (by omega) (by omega) (by omega)
  obtain rfl : enc (Core.k t) = l := by rw [hl'] at hl; exact Option.some.inj hl
  obtain rfl : enc (t - Core.k t) = r := by rw [hr'] at hr; exact Option.some.inj hr
  refine ⟨?_, ?_⟩
  · rw [hv]
    show some (enc (rank (honest t))) = some (enc t)
    rw [rank_honest hgt ht]
  · intro q hq
    rw [hc] at hq
    rcases List.mem_append.mp hq with hq | hq
    · obtain ⟨u, hu1, hu, rfl⟩ := hcl q hq
      exact ⟨u, hu1, by omega, rfl⟩
    rcases List.mem_append.mp hq with hq | hq
    · obtain ⟨u, hu1, hu, rfl⟩ := hcr q hq
      exact ⟨u, hu1, by omega, rfl⟩
    · rw [List.mem_singleton] at hq
      exact ⟨t, hgt, Nat.le_refl t, hq⟩

/-! ## The forged runs -/

/-- The sum of the leaf put in place of the last old one. -/
def forgedLeaf : Nat := 2 ^ 128

/-- Queries of ever larger sums: all above the forged leaf's, none above `t`. -/
structure Chain (F : List Bytes) (t : Nat) : Prop where
  sorted : F.Pairwise fun q q' => rank q < rank q'
  above : ∀ q ∈ F, forgedLeaf < rank q ∧ rank q ≤ t
  low : forgedLeaf ≤ t

theorem Chain.push {F : List Bytes} {t : Nat} (h : Chain F t) {q : Bytes} (hq : t < rank q) :
    Chain (F ++ [q]) (rank q) := by
  have hlow := h.low
  refine ⟨?_, ?_, by omega⟩
  · rw [List.pairwise_append]
    refine ⟨h.sorted, List.pairwise_singleton _ _, ?_⟩
    intro x hx y hy
    rw [List.mem_singleton] at hy
    have := (h.above x hx).2
    rw [hy]
    omega
  · intro x hx
    rcases List.mem_append.mp hx with hx | hx
    · have := h.above x hx
      omega
    · rw [List.mem_singleton] at hx
      rw [hx]
      omega

/-- A consistency proof from `m` to `n` leaves that rebuilds `o` and a path of the forged
    leaf to the same new root. Apart from the forged chain `F` both make only queries of
    the honest tree. -/
def Forged (b : Bool) (old : Bytes) (m n : Nat) (o : Bytes) : Prop :=
  ∃ P Q t F c d, Extends (hasher sumSha) old m n b P o (enc t).val c ∧
    Opens (hasher sumSha) (m - 1) n (enc forgedLeaf).val Q (enc t).val d ∧ Chain F t ∧ t ≤ forgedLeaf + 2 * n ∧
    (∀ q ∈ c, q ∈ F ∨ ∃ u, 1 < u ∧ u ≤ m ∧ q = honest u) ∧ ∀ q ∈ d, q ∈ F

theorem mem_push {F d : List Bytes} (h : ∀ q ∈ d, q ∈ F) (x : Bytes) : ∀ q ∈ d ++ [x], q ∈ F ++ [x] := by
  intro q hq
  rcases List.mem_append.mp hq with hq | hq
  · exact List.mem_append_left _ (h q hq)
  · exact List.mem_append_right _ hq

theorem mem_or_push {F c : List Bytes} {p : Bytes → Prop} (h : ∀ q ∈ c, q ∈ F ∨ p q) (x : Bytes) :
    ∀ q ∈ c ++ [x], q ∈ F ++ [x] ∨ p q := by
  intro q hq
  rcases List.mem_append.mp hq with hq | hq
  · exact (h q hq).imp_left (List.mem_append_left _)
  · exact Or.inl (List.mem_append_right _ hq)

/-- The forged leaf as the last of a complete subtree. -/
theorem opens_forged : ∀ p, p ≤ 62 → ∃ Q t F d,
    Opens (hasher sumSha) (2 ^ p - 1) (2 ^ p) (enc forgedLeaf).val Q (enc t).val d ∧ Chain F t ∧
      t ≤ forgedLeaf + p ∧ ∀ q ∈ d, q ∈ F := by
  intro p
  induction p with
  | zero =>
    intro _
    have hF : Chain [] forgedLeaf := ⟨.nil, fun q hq => absurd hq List.not_mem_nil, Nat.le_refl _⟩
    exact ⟨[], forgedLeaf, [], [], .leaf _, hF, by omega, fun q hq => hq⟩
  | succ p ih =>
    intro hp
    obtain ⟨Q, t, F, d, ho, hF, ht, hd⟩ := ih (by omega)
    have hpos : 0 < 2 ^ p := Nat.two_pow_pos p
    have hk : Core.k (2 ^ (p + 1)) = 2 ^ p := by rw [k_eq, pow2Below_two_pow]
    have hsucc : 2 ^ (p + 1) = 2 ^ p * 2 := Nat.pow_succ 2 p
    let q := nodeInput (enc 1).val (enc t).val
    have hr : rank q = 1 + t := rank_node (by decide) (by unfold forgedLeaf at ht; omega)
    have hstep := Opens.right (i := 2 ^ (p + 1) - 1) (n := 2 ^ (p + 1)) (enc 1).val (by omega)
      (by rw [hk]; omega) (by rw [hk, show 2 ^ (p + 1) - 1 - 2 ^ p = 2 ^ p - 1 by omega,
        show 2 ^ (p + 1) - 2 ^ p = 2 ^ p by omega]; exact ho)
    exact ⟨_, rank q, F ++ [q], d ++ [q], hstep, hF.push (by omega), by omega, mem_push hd q⟩

/-- A further right sibling over both. -/
theorem Forged.left {b : Bool} {old o : Bytes} {m n : Nat} (h : Forged b old m (Core.k n) o) (h0 : 0 < m) (hmn : m < n)
    (hk : m ≤ Core.k n) (hn : n ≤ 2 ^ 62) : Forged b old m n o := by
  obtain ⟨P, Q, t, F, c, d, hx, ho, hF, ht, hc, hd⟩ := h
  have hlt := k_lt (n := n) (by omega)
  let q := nodeInput (enc t).val (enc 1).val
  have hr : rank q = t + 1 := rank_node (by unfold forgedLeaf at ht; omega) (by decide)
  refine ⟨P ++ [(enc 1).val], Q ++ [(enc 1).val], rank q, F ++ [q], c ++ [q], d ++ [q], hx.left _ h0 hmn hk,
    ho.left _ (by omega) (by omega), hF.push (by omega), by omega, mem_or_push hc q, mem_push hd q⟩

/-- The old subtree is complete: the proof gives it as the empty string, and the new
    one's left half along with its right half. -/
theorem forged_complete (old : Bytes) (p : Nat) : ∀ n, 2 ^ p < n → n ≤ 2 ^ 62 → Forged false old (2 ^ p) n [] := by
  intro n
  induction n using Nat.strongRecOn with
  | ind n ih =>
  intro hpn hn
  have hpos : 0 < 2 ^ p := Nat.two_pow_pos p
  have hlt := k_lt (n := n) (by omega)
  have hkp : 2 ^ p ≤ Core.k n := by
    by_contra hgt
    rw [k_eq] at hgt
    exact pow2Below_not_pow (by omega) hpn
  by_cases hk : 2 ^ p < Core.k n
  · exact (ih (Core.k n) hlt hk (by omega)).left hpos hpn hkp hn
  -- the string hashed over the empty subtree: the path of the forged leaf, then a sibling
  have hk : Core.k n = 2 ^ p := by omega
  have hp : p ≤ 62 := by
    by_contra hgt
    have : 2 ^ 62 < 2 ^ p := Nat.pow_lt_pow_right (by omega) (by omega)
    omega
  have hpp : p < 2 ^ p := Nat.lt_two_pow_self
  obtain ⟨Q, t, F, d, ho, hF, ht, hd⟩ := opens_forged p hp
  let q := nodeInput (enc t).val (enc 1).val
  have hr : rank q = t + 1 := rank_node (by unfold forgedLeaf at ht; omega) (by decide)
  have hx : Extends (hasher sumSha) old (2 ^ p) (Core.k n) false [[]] [] [] [] := by rw [hk]; exact .elem _ []
  have hcut : nodeInput [] ((enc t).val ++ (enc 1).val) = q := rfl
  have hxl := hx.left ((enc t).val ++ (enc 1).val) hpos hpn hkp
  rw [node_sum, query_bytes, hcut] at hxl
  exact ⟨_, Q ++ [(enc 1).val], rank q, F ++ [q], _, d ++ [q], hxl,
    Opens.left _ (by omega) (by omega) (by rw [hk]; exact ho), hF.push (by omega), by omega,
    mem_or_push (fun q hq => absurd hq List.not_mem_nil) q, mem_push hd q⟩

theorem mem_or_push_right {F c : List Bytes} {m m' : Nat} (hm : m' ≤ m) (h1 : 1 < m)
    (h : ∀ q ∈ c, q ∈ F ∨ ∃ u, 1 < u ∧ u ≤ m' ∧ q = honest u) (x : Bytes) :
    ∀ q ∈ c ++ [honest m, x], q ∈ F ++ [x] ∨ ∃ u, 1 < u ∧ u ≤ m ∧ q = honest u := by
  intro q hq
  simp only [List.mem_append, List.mem_cons, List.not_mem_nil, or_false] at hq ⊢
  rcases hq with hq | hq | hq
  · rcases h q hq with hq | ⟨u, hu1, hu, hq⟩
    · exact Or.inl (Or.inl hq)
    · exact Or.inr ⟨u, hu1, by omega, hq⟩
  · exact Or.inr ⟨m, h1, Nat.le_refl m, hq⟩
  · exact Or.inl (Or.inr hq)

/-- A left sibling over both: what is hashed with the rebuilt half is what the honest tree
    hashes, and what is hashed with the forged half has a larger sum. -/
theorem Forged.right {b : Bool} {old o : Bytes} {m n : Nat} (h : Forged false old (m - Core.k n) (n - Core.k n) o)
    (lh : Bytes) (more : Nat) (hk : Core.k n < m) (hmn : m < n) (hn : n ≤ 2 ^ 62) (hq : nodeInput lh o = honest m) (hmore : 0 < more ∧ more ≤ 2 * Core.k n)
    (hr : ∀ t, t ≤ forgedLeaf + 2 * 2 ^ 62 → rank (nodeInput lh (enc t).val) = more + t) : Forged b old m n (enc m).val := by
  obtain ⟨P, Q, t, F, c, d, hx, ho, hF, ht, hc, hd⟩ := h
  have h1 : 1 < m := by have := k_pos n; omega
  let q := nodeInput lh (enc t).val
  have hrank : rank q = more + t := hr t (by omega)
  have hpath : m - 1 - Core.k n = m - Core.k n - 1 := Nat.sub_right_comm m 1 _
  have hxr := Extends.right (b := b) lh hk hmn hx
  rw [node_sum, query_bytes, hq, rank_honest h1 (by omega)] at hxr
  exact ⟨P ++ [lh], Q ++ [lh], rank q, F ++ [q], _, d ++ [q], hxr,
    Opens.right _ (by omega) (by omega) (by rw [hpath]; exact ho), hF.push (by omega), by omega,
    mem_or_push_right (Nat.sub_le ..) h1 hc q, mem_push hd q⟩

/-- Any other old tree: rebuilt as it is, from the very strings the honest tree hashes. -/
theorem forged_of_not_pow (old : Bytes) : ∀ (n m : Nat) (b : Bool), 0 < m → m < n → n ≤ 2 ^ 62 → (∀ p, m ≠ 2 ^ p) →
    Forged b old m n (enc m).val := by
  intro n
  induction n using Nat.strongRecOn with
  | ind n ih =>
  intro m b h0 hmn hn hp
  have hlt := k_lt (n := n) (by omega)
  have hpos := k_pos n
  obtain ⟨e, he, -, he2⟩ := k_spec (n := n) (by omega)
  have hne : m ≠ Core.k n := by rw [he]; exact hp e
  by_cases hk : m < Core.k n
  · exact (ih (Core.k n) hlt m b h0 hk (by omega) hp).left h0 hmn (by omega) hn
  have hkm : Core.k m = Core.k n := k_stable (by omega) (by omega)
  have hle : n ≤ 2 * Core.k n := by rw [Nat.pow_succ] at he2; omega
  by_cases hcut : ∃ p, m - Core.k n = 2 ^ p
  · -- the right half is complete: its place is empty, and its hash follows the left half's
    obtain ⟨p, hp'⟩ := hcut
    have hf := forged_complete old p (n - Core.k n) (by omega) (by omega)
    rw [← hp'] at hf
    refine hf.right ((enc (Core.k n)).val ++ (enc (m - Core.k n)).val) (Core.k n + (m - Core.k n)) (by omega) hmn hn
      ?_ (by omega) fun t ht => ?_
    · rw [honest, hkm, nodeInput, nodeInput, List.append_nil]
    · exact rank_node_pair (by omega) (by omega) (by unfold forgedLeaf at ht; omega)
  · have hf := ih (n - Core.k n) (by omega) (m - Core.k n) false (by omega) (by omega) (by omega) fun p e => hcut ⟨p, e⟩
    refine hf.right (enc (Core.k n)).val (Core.k n) (by omega) hmn hn ?_ (by omega) fun t ht => ?_
    · rw [honest, hkm]
    · exact rank_node (by omega) (by unfold forgedLeaf at ht; omega)

/-- Every query of the honest tree and of the forged runs has a sum of its own. -/
theorem no_collision {F l : List Bytes} {m t : Nat} (hF : Chain F t) (ht : t < 256 ^ 32) (hm : m < forgedLeaf)
    (hl : ∀ q ∈ l, q ∈ F ∨ ∃ u, 1 < u ∧ u ≤ m ∧ q = honest u) : ¬ Collides sumSha l := by
  rintro ⟨x, hx, y, hy, hne, he⟩
  have hcap : forgedLeaf < 256 ^ 32 := by decide
  have hrank : ∀ q ∈ l, rank q < 256 ^ 32 ∧ ((q ∈ F ∧ forgedLeaf < rank q) ∨ (rank q ≤ m ∧ q = honest (rank q))) := by
    intro q hq
    rcases hl q hq with hq | ⟨u, hu1, hu, rfl⟩
    · have := hF.above q hq
      exact ⟨by omega, Or.inl ⟨hq, this.1⟩⟩
    · rw [rank_honest hu1 (by omega)]
      exact ⟨by omega, Or.inr ⟨hu, rfl⟩⟩
  obtain ⟨hxc, hx⟩ := hrank x hx
  obtain ⟨hyc, hy⟩ := hrank y hy
  have hxy : rank x = rank y := enc_inj hxc hyc he
  rcases hx with ⟨hxF, hx⟩ | ⟨hx, ex⟩ <;> rcases hy with ⟨hyF, hy⟩ | ⟨hy, ey⟩
  · rcases List.pairwise_iff_getElem.mp hF.sorted with hs
    obtain ⟨i, hi, rfl⟩ := List.getElem_of_mem hxF
    obtain ⟨j, hj, rfl⟩ := List.getElem_of_mem hyF
    rcases Nat.lt_trichotomy i j with h | h | h
    · have := hs i j hi hj h; omega
    · subst h; exact hne rfl
    · have := hs j i hj hi h; omega
  · omega
  · omega
  · exact hne (by rw [ex, ey, hxy])

/-! ## The law at the SDKs -/

section

variable {ι : Type} [DecidableEq ι] {I : Ints ι} {D : ι → Prop} {val : ι → Nat} (of : Nat → ι)

/-- Two accepting runs of settled-core over byte strings that break the law break it
    for an SDK whose integers model the naturals. -/
theorem not_tamperEvident (M : I.Model D val) {n : Nat} (hof : ∀ x, x ≤ n → D (of x) ∧ val (of x) = x) (hn : n ≤ 2 ^ 62)
    {sha256 : Bytes → Hash} {leaves : List Hash} {oldRoot b : Hash} {newRoot : Bytes} {P Q : List Bytes} {i : Nat}
    {c d : List Bytes} (hi : i ≤ n) (hmn : leaves.length ≤ n) (hroot : (mth (.sha sha256) leaves).val = some oldRoot)
    (hc : Core.verifyConsistency (hasher sha256) leaves.length n P oldRoot.val newRoot = ⟨true, c⟩)
    (hd : Core.verifyInclusion (hasher sha256) b.val i n Q newRoot = ⟨true, d⟩) (hne : leaves[i]? ≠ some b)
    (hcol : ¬ Collides sha256 ((mth (.sha sha256) leaves).calls ++ (c ++ d))) :
    ¬ TamperEvident (verifyConsistency I) (verifyInclusion I) of sha256 leaves n newRoot P Q i b := by
  intro h
  obtain ⟨hdn, en⟩ := hof n (Nat.le_refl n)
  obtain ⟨hdm, em⟩ := hof leaves.length hmn
  obtain ⟨hdi, ei⟩ := hof i hi
  have hcons := verifyConsistency_returns M sha256 M.exact hdm hdn (by rw [en]; exact hn) (Nat.le_refl _) P oldRoot.val newRoot
  have hincl := verifyInclusion_sim M sha256 hdi hdn b.val Q newRoot
  rw [em, en, hc] at hcons
  rw [ei, en, hd] at hincl
  have := h oldRoot _ c hroot hcons (by rw [hincl])
  rw [hincl] at this
  exact this.elim hne hcol

theorem forgery (M : I.Model D val) {m n : Nat} (hof : ∀ x, x ≤ n → D (of x) ∧ val (of x) = x) (h0 : 0 < m) (hmn : m < n)
    (hn : n ≤ 2 ^ 62) (hp : ∀ p, m ≠ 2 ^ p) : ∃ newRoot P Q, ¬ TamperEvident (verifyConsistency I) (verifyInclusion I) of
      sumSha (List.replicate m (enc 1)) n newRoot P Q (m - 1) (enc forgedLeaf) := by
  obtain ⟨hroot, hcalls⟩ := mth_honest m h0 (by omega)
  obtain ⟨P, Q, t, F, c, d, hx, ho, hF, ht, hc, hd⟩ := forged_of_not_pow (enc m).val n m true h0 hmn hn hp
  have hlen : (List.replicate m (enc 1)).length = m := List.length_replicate
  have hmf : m < forgedLeaf := by unfold forgedLeaf; omega
  have htf : t < 256 ^ 32 := by unfold forgedLeaf at ht; omega
  refine ⟨(enc t).val, P, Q, not_tamperEvident of M hof hn (by omega) (by omega) hroot (c := c) (d := d) ?_ ?_ ?_ ?_⟩
  · rw [hlen, verifyConsistency_iff]
    exact Or.inr ⟨h0, hmn, hx⟩
  · rw [verifyInclusion_iff]
    exact ho
  · intro h
    have he : enc 1 = enc forgedLeaf := by
      rw [List.getElem?_replicate_of_lt (by omega)] at h
      exact Option.some.inj h
    have := enc_inj (by decide) (by decide) he
    unfold forgedLeaf at this
    omega
  · refine no_collision hF htf hmf fun q hq => ?_
    rcases List.mem_append.mp hq with hq | hq
    · exact Or.inr (hcalls q hq)
    rcases List.mem_append.mp hq with hq | hq
    · exact hc q hq
    · exact Or.inl (hd q hq)

end

/-- The law for one SDK at every input with these old and new sizes. -/
def LawAt {ι : Type}
    (verifyConsistency : (Bytes → Hash) → Nat → ι → ι → List Bytes → Bytes → Bytes → Option (Traced Bytes Bool))
    (verifyInclusion : (Bytes → Hash) → Bytes → ι → ι → List Bytes → Bytes → Traced Bytes Bool) (of : Nat → ι)
    (m n : Nat) : Prop :=
  ∀ (sha256 : Bytes → Hash) (leaves : List Hash) (newRoot : Bytes) (P Q : List Bytes) (i : Nat) (b : Hash),
    leaves.length = m → i < m → TamperEvident verifyConsistency verifyInclusion of sha256 leaves n newRoot P Q i b

theorem lawAt_iff {ι : Type} [DecidableEq ι] {I : Ints ι} {D : ι → Prop} {val : ι → Nat} {of : Nat → ι} (M : I.Model D val)
    {m n : Nat} (hof : ∀ x, x ≤ n → D (of x) ∧ val (of x) = x) (h0 : 0 < m) (hmn : m ≤ n) (hn : n ≤ 2 ^ 62) :
    LawAt (verifyConsistency I) (verifyInclusion I) of m n ↔ m = n ∨ ∃ p, m = 2 ^ p := by
  constructor
  · intro h
    by_contra hcon
    obtain ⟨hne, hp⟩ := not_or.mp hcon
    obtain ⟨newRoot, P, Q, hforged⟩ := forgery of M hof h0 (by omega) hn (fun p e => hp ⟨p, e⟩)
    exact hforged (h _ _ _ _ _ _ _ List.length_replicate (by omega))
  · intro h sha256 leaves newRoot P Q i b hl hi
    subst hl
    exact tamperEvident_of_bound M hof sha256 leaves newRoot P Q i b hi hmn (h.imp_right Or.inl)

/-- Tamper evidence of the SDK verifiers. Where the old size is the new size or a power
    of two, or a first element of the consistency proof, if there is one, is 32 bytes long
    (or longer than 64), the law holds; up to 2^62 the sizes of the first kind are exactly
    those at which it holds for every proof. Java's sizes stop at 2^63, where the loop of
    its `k` breaks off, unless they are equal, where it has none. -/
theorem sdk_tamper_evidence (m n : Nat) (hmn : m ≤ n) :
    (∀ (sha256 : Bytes → Hash) (leaves : List Hash) (newRoot : Bytes) (P Q : List Bytes) (i : Nat) (b : Hash),
      leaves.length = m → i < m → Bound m n P →
      TamperEvident Python.verifyConsistency Python.verifyInclusion Int.ofNat sha256 leaves n newRoot P Q i b ∧
      TamperEvident TypeScript.verifyConsistency TypeScript.verifyInclusion Int.ofNat sha256 leaves n newRoot P Q i b ∧
      (n < 2 ^ 63 ∨ m = n ∧ n < 2 ^ 64 →
        TamperEvident Java.verifyConsistency Java.verifyInclusion (BitVec.ofNat 64) sha256 leaves n newRoot P Q i b) ∧
      (n < 2 ^ 64 →
        TamperEvident Dotnet.verifyConsistency Dotnet.verifyInclusion (BitVec.ofNat 64) sha256 leaves n newRoot P Q i b)) ∧
    (0 < m → n ≤ 2 ^ 62 →
      (LawAt Python.verifyConsistency Python.verifyInclusion Int.ofNat m n ↔ m = n ∨ ∃ p, m = 2 ^ p) ∧
      (LawAt TypeScript.verifyConsistency TypeScript.verifyInclusion Int.ofNat m n ↔ m = n ∨ ∃ p, m = 2 ^ p) ∧
      (LawAt Java.verifyConsistency Java.verifyInclusion (BitVec.ofNat 64) m n ↔ m = n ∨ ∃ p, m = 2 ^ p) ∧
      (LawAt Dotnet.verifyConsistency Dotnet.verifyInclusion (BitVec.ofNat 64) m n ↔ m = n ∨ ∃ p, m = 2 ^ p)) := by
  have hbig : ∀ x : Nat, x ≤ n → (0 : Int) ≤ Int.ofNat x ∧ (Int.ofNat x).toNat = x := fun x _ => bigInts_of x
  have hlong : n < 2 ^ 63 → ∀ x, x ≤ n → (BitVec.ofNat 64 x).toNat < 2 ^ 63 ∧ (BitVec.ofNat 64 x).toNat = x := by
    intro hn x hx
    rw [bitVec_of (by omega)]
    exact ⟨by omega, rfl⟩
  have hulong : n < 2 ^ 64 → ∀ x, x ≤ n → True ∧ (BitVec.ofNat 64 x).toNat = x :=
    fun hn x hx => ⟨trivial, bitVec_of (by omega)⟩
  refine ⟨?_, ?_⟩
  · intro sha256 leaves newRoot P Q i b hm hi hb
    subst hm
    have hint := tamperEvident_of_bound bigInts_model hbig sha256 leaves newRoot P Q i b hi hmn hb
    have hdotnet : n < 2 ^ 64 → TamperEvident Dotnet.verifyConsistency Dotnet.verifyInclusion (BitVec.ofNat 64) sha256 leaves n
        newRoot P Q i b := fun hn => tamperEvident_of_bound ulongs_model (hulong hn) sha256 leaves newRoot P Q i b hi hmn hb
    refine ⟨hint, hint, fun hn => ?_, hdotnet⟩
    rcases hn with hn | ⟨hsame, hn⟩
    · exact tamperEvident_of_bound longs_model (hlong hn) sha256 leaves newRoot P Q i b hi hmn hb
    · exact tamperEvident_java_same hsame (hdotnet hn)
  · intro h0 hn
    have hint := lawAt_iff bigInts_model hbig h0 hmn hn
    exact ⟨hint, hint, lawAt_iff longs_model (hlong (by omega)) h0 hmn hn,
      lawAt_iff ulongs_model (hulong (by omega)) h0 hmn hn⟩

/-- Old size 2 and new size 3, with the honest proofs of the second leaf. -/
theorem sdk_tamper_evidence_two_three :
    1 < [enc 1, enc 2].length ∧ Bound 2 3 [(enc 4).val] ∧
      TamperEvident Java.verifyConsistency Java.verifyInclusion (BitVec.ofNat 64) sumSha [enc 1, enc 2] 3 (enc 7).val
        [(enc 4).val] [(enc 1).val, (enc 4).val] 1 (enc 2) :=
  have hb : Bound 2 3 [(enc 4).val] := Or.inr (Or.inl ⟨1, rfl⟩)
  ⟨by decide, hb, (((sdk_tamper_evidence 2 3 (by decide)).1 sumSha [enc 1, enc 2] (enc 7).val [(enc 4).val]
    [(enc 1).val, (enc 4).val] 1 (enc 2) rfl (by decide) hb).2.2.1 (Or.inl (by decide)))⟩

/-- Whatever the hash, the third of three leaves can be exchanged for `b` in a tree of four:
    the proof gives it as the empty string, and its left sibling with it as one string. -/
theorem third_leaf_exchanged (sha256 : Bytes → Hash) (left third b last : Hash) :
    let right := sha256 (nodeInput b.val last.val)
    let newRoot := sha256 (nodeInput (left.val ++ third.val) right.val)
    Core.verifyConsistency (hasher sha256) 3 4 [[], b.val ++ last.val, left.val ++ third.val]
        (sha256 (nodeInput left.val third.val)).val newRoot.val =
      ⟨true, [nodeInput b.val last.val, nodeInput left.val third.val, nodeInput (left.val ++ third.val) right.val]⟩ ∧
    Core.verifyInclusion (hasher sha256) b.val 2 4 [last.val, left.val ++ third.val] newRoot.val =
      ⟨true, [nodeInput b.val last.val, nodeInput (left.val ++ third.val) right.val]⟩ := by
  intro right newRoot
  have hcut : nodeInput (left.val ++ third.val) [] = nodeInput left.val third.val := by
    rw [nodeInput, nodeInput, List.append_nil]
  constructor
  · have hright : Extends (hasher sha256) (sha256 (nodeInput left.val third.val)).val 1 2 false [[], b.val ++ last.val] []
        right.val [nodeInput b.val last.val] :=
      Extends.left (m := 1) (n := 2) (b.val ++ last.val) (by decide) (by decide) (by decide) (.elem 1 [])
    have hx := Extends.right (m := 3) (n := 4) (b := true) (left.val ++ third.val) (by decide) (by decide) hright
    rw [query_bytes, show (hasher sha256).node (left.val ++ third.val) [] =
      (sha256 (nodeInput (left.val ++ third.val) [])).val from rfl, hcut] at hx
    exact verifyConsistency_iff.mpr (Or.inr ⟨by decide, by decide, hx⟩)
  · have hright : Opens (hasher sha256) 0 2 b.val [last.val] right.val [nodeInput b.val last.val] :=
      Opens.left (i := 0) (n := 2) last.val (by decide) (by decide) (.leaf b.val)
    exact verifyInclusion_iff.mpr (Opens.right (i := 2) (n := 4) (left.val ++ third.val) (by decide) (by decide) hright)

/-- With SHA-256 itself, all four SDKs accept another third leaf `b` in place of the
    third of three, and nothing collides. The consistency proof gives the third leaf as
    the empty string and its left sibling as `N || l2`. -/
theorem sdk_forged_third_leaf :
    let l (x : UInt8) : Hash := ⟨List.replicate 32 x, List.length_replicate⟩
    let N := Sha256.sha256 (nodeInput (l 0).val (l 1).val)
    let newRoot := Sha256.sha256 (nodeInput (N.val ++ (l 2).val) (Sha256.sha256 (nodeInput (l 9).val (l 4).val)).val)
    let P : List Bytes := [[], (l 9).val ++ (l 4).val, N.val ++ (l 2).val]
    let Q : List Bytes := [(l 4).val, N.val ++ (l 2).val]
    ¬ TamperEvident Python.verifyConsistency Python.verifyInclusion Int.ofNat Sha256.sha256 [l 0, l 1, l 2] 4
        newRoot.val P Q 2 (l 9) ∧
      ¬ TamperEvident TypeScript.verifyConsistency TypeScript.verifyInclusion Int.ofNat Sha256.sha256 [l 0, l 1, l 2] 4
        newRoot.val P Q 2 (l 9) ∧
      ¬ TamperEvident Java.verifyConsistency Java.verifyInclusion (BitVec.ofNat 64) Sha256.sha256 [l 0, l 1, l 2] 4
        newRoot.val P Q 2 (l 9) ∧
      ¬ TamperEvident Dotnet.verifyConsistency Dotnet.verifyInclusion (BitVec.ofNat 64) Sha256.sha256 [l 0, l 1, l 2] 4
        newRoot.val P Q 2 (l 9) := by
  intro l N newRoot P Q
  have hmth := mth_triple (.sha Sha256.sha256) (l 0) (l 1) (l 2)
  have hroot : (mth (.sha Sha256.sha256) [l 0, l 1, l 2]).val = some (Sha256.sha256 (nodeInput N.val (l 2).val)) := by
    rw [hmth]
    rfl
  obtain ⟨hc, hd⟩ := third_leaf_exchanged Sha256.sha256 N (l 2) (l 9) (l 4)
  have hcol : ¬ Collides Sha256.sha256 ((mth (.sha Sha256.sha256) [l 0, l 1, l 2]).calls ++
      ([nodeInput (l 9).val (l 4).val, nodeInput N.val (l 2).val,
        nodeInput (N.val ++ (l 2).val) (Sha256.sha256 (nodeInput (l 9).val (l 4).val)).val] ++
      [nodeInput (l 9).val (l 4).val,
        nodeInput (N.val ++ (l 2).val) (Sha256.sha256 (nodeInput (l 9).val (l 4).val)).val])) := by
    -- four different strings in all
    have hfour : ([nodeInput (l 0).val (l 1).val, nodeInput N.val (l 2).val, nodeInput (l 9).val (l 4).val,
        nodeInput (N.val ++ (l 2).val) (Sha256.sha256 (nodeInput (l 9).val (l 4).val)).val].map Sha256.sha256).Nodup := by
      decide +kernel
    rw [hmth]
    refine fun h => not_collides_of_nodup hfour (h.mono fun q hq => ?_)
    simp only [List.mem_append, List.mem_cons, List.not_mem_nil, or_false] at hq ⊢
    rcases hq with (rfl | rfl) | (rfl | rfl | rfl) | rfl | rfl
    · exact Or.inl rfl
    · exact Or.inr (Or.inl rfl)
    · exact Or.inr (Or.inr (Or.inl rfl))
    · exact Or.inr (Or.inl rfl)
    · exact Or.inr (Or.inr (Or.inr rfl))
    · exact Or.inr (Or.inr (Or.inl rfl))
    · exact Or.inr (Or.inr (Or.inr rfl))
  have hne : [l 0, l 1, l 2][2]? ≠ some (l 9) := by decide +kernel
  have hint := not_tamperEvident Int.ofNat bigInts_model (fun x _ => bigInts_of x) (by decide) (by decide)
    (by decide) hroot hc hd hne hcol
  refine ⟨hint, hint, ?_, ?_⟩
  · exact not_tamperEvident (BitVec.ofNat 64) longs_model
      (fun x hx => by rw [bitVec_of (by omega)]; exact ⟨by omega, rfl⟩) (by decide) (by decide) (by decide) hroot hc hd hne
      hcol
  · exact not_tamperEvident (BitVec.ofNat 64) ulongs_model (fun x hx => ⟨trivial, bitVec_of (by omega)⟩) (by decide)
      (by decide) (by decide) hroot hc hd hne hcol

end Settled.Sdk
