/-
  Settled.Sdk.TamperEvidence — tamper evidence for verifiers that take byte strings of
  any length as hashes.

  `0x01 || left || right` can be cut anywhere unless one half is known to be 32 bytes
  long. On the inclusion side the running hash always is. On the consistency side the
  shared subtree is the first element of the proof unless the old size is a power of
  two, and nothing checks its length. So the law holds when the old size is the new one
  or a power of two, or a first element, if there is one, is 32 bytes long, or too long
  for any cut (`tamperEvident_of_bound`); `Settled.Sdk.Forgery` shows that it fails
  otherwise.
-/

import Settled.Core.TamperEvidence
import Settled.Sdk.Simulation

namespace Settled.Sdk

open Settled.Lib Settled.Core

/-- Nothing in `0x01 || left || right` says where `left` ends: one half must be known
    to be 32 bytes long. -/
theorem hasher_cuts (sha256 : Bytes → Hash) : (hasher sha256).Cuts fun b => b.length = 32 where
  left h ha hc := List.append_inj (List.cons.inj h).2 (ha.trans hc.symm)
  right h hb hd := List.append_inj' (List.cons.inj h).2 (hb.trans hd.symm)
  digest q := (sha256 q).property

theorem tooLong (sha256 : Bytes → Hash) {h : Bytes} (hl : 64 < h.length) :
    (hasher sha256).TooLong (fun b => b.length = 32) h := by
  intro a c d hc hd e
  have := congrArg List.length (List.cons.inj e).2
  simp only [List.length_append] at this
  omega

/-- A path through 32-byte hashes, read as byte strings. -/
theorem opens_bytes {sha256 : Bytes → Hash} {i n : Nat} {a r : Hash} {P : List Hash} {c : List Bytes}
    (h : Opens (.sha sha256) i n a P r c) : Opens (hasher sha256) i n a.val (P.map (·.val)) r.val c := by
  induction h with
  | leaf a => exact .leaf _
  | left s h1 h2 _ ih => rw [List.map_append]; exact .left s.val h1 h2 ih
  | right s h1 h2 _ ih => rw [List.map_append]; exact .right s.val h1 h2 ih

section

variable {ι : Type}

/-- The law for one SDK at one input: if both verifiers accept, `b` is the leaf the old
    tree has at `i`, or two of the strings hashed for the old root and by the two runs
    collide. `of` reads a size as the SDK's integer. -/
def TamperEvident
    (verifyConsistency : (Bytes → Hash) → Nat → ι → ι → List Bytes → Bytes → Bytes → Option (Traced Bytes Bool))
    (verifyInclusion : (Bytes → Hash) → Bytes → ι → ι → List Bytes → Bytes → Traced Bytes Bool) (of : Nat → ι)
    (sha256 : Bytes → Hash) (leaves : List Hash) (n : Nat) (newRoot : Bytes) (P Q : List Bytes) (i : Nat) (b : Hash) :
    Prop :=
  ∀ (oldRoot : Hash) (fuel : Nat) (c : List Bytes), (mth (.sha sha256) leaves).val = some oldRoot →
    verifyConsistency sha256 fuel (of leaves.length) (of n) P oldRoot.val newRoot = some ⟨true, c⟩ →
    (verifyInclusion sha256 b.val (of i) (of n) Q newRoot).val = true →
    leaves[i]? = some b ∨ Collides sha256 ((mth (.sha sha256) leaves).calls ++
      (c ++ (verifyInclusion sha256 b.val (of i) (of n) Q newRoot).calls))

/-- No choice of where to cut is left: the old tree is the new one or complete, or the
    first element of the consistency proof, if it has any, has the length of a hash, or is
    longer than two. -/
def Bound (m n : Nat) (P : List Bytes) : Prop :=
  m = n ∨ (∃ p, m = 2 ^ p) ∨ ∀ h, P.head? = some h → h.length = 32 ∨ 64 < h.length

theorem Bound.firstSized (sha256 : Bytes → Hash) {m n : Nat} {P : List Bytes} (h : Bound m n P) (hmn : m < n)
    {old new : Bytes} {c : List Bytes} (hx : Extends (hasher sha256) old m n true P old new c) :
    FirstSized (hasher sha256) (fun b => b.length = 32) true m n P := by
  rcases h with h | h | hfirst
  · omega
  · exact Or.inl ⟨rfl, h⟩
  · by_cases hp : ∃ p, m = 2 ^ p
    · exact Or.inl ⟨rfl, hp⟩
    cases P with
    | nil => have := (hx.of_nil rfl).2; omega
    | cons x P =>
      rcases hfirst x rfl with h32 | h64
      · exact Or.inr (Or.inl ⟨x, rfl, h32⟩)
      · exact Or.inr (Or.inr ⟨hmn, fun p e => hp ⟨p, e⟩, x, rfl, tooLong sha256 h64⟩)

/-- Over a model of the naturals the law holds wherever no cut is left to choose. -/
theorem tamperEvident_of_bound [DecidableEq ι] {I : Ints ι} {D : ι → Prop} {val : ι → Nat} (M : I.Model D val)
    {of : Nat → ι} {n : Nat} (hof : ∀ x, x ≤ n → D (of x) ∧ val (of x) = x) (sha256 : Bytes → Hash)
    (leaves : List Hash) (newRoot : Bytes) (P Q : List Bytes) (i : Nat) (b : Hash) (hi : i < leaves.length)
    (hmn : leaves.length ≤ n) (hb : Bound leaves.length n P) :
    TamperEvident (verifyConsistency I) (verifyInclusion I) of sha256 leaves n newRoot P Q i b := by
  intro oldRoot fuel c hroot hcons hincl
  obtain ⟨hdn, en⟩ := hof n (Nat.le_refl n)
  obtain ⟨hdm, em⟩ := hof leaves.length hmn
  obtain ⟨hdi, ei⟩ := hof i (by omega)
  have hcons := verifyConsistency_sim M sha256 hdm hdn hcons
  rw [em, en] at hcons
  rw [verifyInclusion_sim M sha256 hdi hdn, ei, en] at hincl ⊢
  have hopen : Opens (hasher sha256) i n b.val Q newRoot
      (Core.verifyInclusion (hasher sha256) b.val i n Q newRoot).calls := by
    rw [← verifyInclusion_iff, ← hincl]
  have hfirst : leaves.length = n ∨ FirstSized (hasher sha256) (fun b => b.length = 32) true leaves.length n P := by
    rcases verifyConsistency_iff.mp hcons.symm with ⟨hsame, -⟩ | ⟨-, hlt, hx⟩
    · exact Or.inl hsame
    · exact Or.inr (hb.firstSized sha256 hlt hx)
  -- the honest path of the old leaf, whose queries were made for the old root
  obtain ⟨path, r, c1, -, hr, hold, hsub⟩ :=
    opens_path (.sha sha256) leaves.length leaves i leaves[i] rfl (List.getElem?_eq_getElem hi)
  obtain rfl : r = oldRoot := by rw [hr] at hroot; exact Option.some.inj hroot
  rcases verified_agree (hasher_cuts sha256) hi hcons.symm (opens_bytes hold) hopen r.property
    hfirst leaves[i].property b.property
    (fun s hs => by obtain ⟨h, -, rfl⟩ := List.mem_map.mp hs; exact h.property) with e | hcol
  · exact Or.inl (by rw [List.getElem?_eq_getElem hi, Subtype.ext e])
  · obtain ⟨x, hx, y, hy, hne, he⟩ := hcol
    have hmem : ∀ q ∈ c ++ (c1 ++ (Core.verifyInclusion (hasher sha256) b.val i n Q newRoot).calls),
        q ∈ (mth (.sha sha256) leaves).calls ++
          (c ++ (Core.verifyInclusion (hasher sha256) b.val i n Q newRoot).calls) := by
      intro q hq
      simp only [List.mem_append] at hq ⊢
      rcases hq with hq | hq | hq
      · exact Or.inr (Or.inl hq)
      · exact Or.inl (hsub q hq)
      · exact Or.inr (Or.inr hq)
    exact Or.inr ⟨x, hmem x hx, y, hmem y hy, hne, Subtype.ext he⟩

end

/-! ## Sizes as the SDKs' integers -/

theorem bigInts_of (x : Nat) : (0 : Int) ≤ (x : Int) ∧ (x : Int).toNat = x := by omega

/-- Java's inclusion is .NET's: it never comes to the loop of `k`. -/
theorem longs_skipLevels (fn sn : BitVec 64) : skipLevels longs fn sn = skipLevels ulongs fn sn := by
  induction fn, sn using skipLevels.induct longs with
  | case1 fn sn hc ih =>
    rw [skipLevels, dif_pos hc, ih]
    conv => rhs; rw [skipLevels, dif_pos (show fn ≠ ulongs.zero ∧ ulongs.odd fn = false from hc)]
    rfl
  | case2 fn sn hc =>
    rw [skipLevels, dif_neg hc, skipLevels, dif_neg (show ¬ (fn ≠ ulongs.zero ∧ ulongs.odd fn = false) from hc)]

theorem longs_verifyInclusionLoop (sha256 : Bytes → Hash) (root : Bytes) (proof : List Bytes) :
    ∀ (fn sn : BitVec 64) (r : Bytes),
      verifyInclusionLoop longs sha256 root fn sn r proof = verifyInclusionLoop ulongs sha256 root fn sn r proof := by
  induction proof with
  | nil => intro fn sn r; rfl
  | cons step proof ih =>
    intro fn sn r
    simp only [verifyInclusionLoop, longs_skipLevels, ih]
    rfl

theorem java_verifyInclusion (sha256 : Bytes → Hash) (leaf : Bytes) (i n : BitVec 64) (proof : List Bytes) (root : Bytes) :
    Java.verifyInclusion sha256 leaf i n proof root = Dotnet.verifyInclusion sha256 leaf i n proof root := by
  simp only [Java.verifyInclusion, Dotnet.verifyInclusion, verifyInclusion, longs_verifyInclusionLoop]
  rfl

/-- Between equal sizes the verifiers compare the roots, whatever the integers. -/
theorem java_verifyConsistency_same (sha256 : Bytes → Hash) (fuel : Nat) (n : BitVec 64) (proof : List Bytes) (old new : Bytes) :
    Java.verifyConsistency sha256 fuel n n proof old new = Dotnet.verifyConsistency sha256 fuel n n proof old new := by
  rw [Java.verifyConsistency, Dotnet.verifyConsistency, verifyConsistency, verifyConsistency, if_pos rfl, if_pos rfl]

theorem tamperEvident_java_same {sha256 : Bytes → Hash} {leaves : List Hash} {n : Nat} {newRoot : Bytes} {P Q : List Bytes}
    {i : Nat} {b : Hash} (hn : leaves.length = n)
    (h : TamperEvident Dotnet.verifyConsistency Dotnet.verifyInclusion (BitVec.ofNat 64) sha256 leaves n newRoot P Q i b) :
    TamperEvident Java.verifyConsistency Java.verifyInclusion (BitVec.ofNat 64) sha256 leaves n newRoot P Q i b := by
  intro oldRoot fuel c hroot hcons hincl
  rw [hn, java_verifyConsistency_same] at hcons
  rw [java_verifyInclusion] at hincl ⊢
  exact h oldRoot fuel c hroot (by rw [hn]; exact hcons) hincl

theorem bitVec_of {x : Nat} (h : x < 2 ^ 64) : (BitVec.ofNat 64 x).toNat = x := by
  rw [BitVec.toNat_ofNat, Nat.mod_eq_of_lt h]

end Settled.Sdk
