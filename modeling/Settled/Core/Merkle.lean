/-
  Settled.Core.Merkle — `settled-core/src/merkle.rs`: the split point `k`, the RFC
  6962 root `mth` and the incremental `MerkleTree`.

  Sizes, indices and levels are `Nat`s: the code's `u64`s are only compared, masked,
  shifted right and subtracted under a guard, and `size += 1` reaches `2^64` only past
  any log. `k` is the code's `1 << (63 - leading_zeros(n - 1))`: for `1 < n ≤ 2^64`
  the shift is the position of the top bit of `n - 1`.

  `none` in `MerkleTree.append` is the code's index panic (`frontier[level]` past the
  end); `none` in `mth` is its `None`, and would also be an `unwrap` of an empty half.
-/

import Settled.Core.Hash
import Settled.Lib.Pow2

namespace Settled.Core

open Settled.Lib

/-- Largest power of 2 strictly less than `n`; the code panics for `n ≤ 1`. -/
def k (n : Nat) : Nat := 1 <<< Nat.log2 (n - 1)

theorem k_eq (n : Nat) : k n = pow2Below n := by rw [k, Nat.one_shiftLeft, pow2Below]

theorem k_pos (n : Nat) : 0 < k n := by rw [k_eq]; exact pow2Below_pos n
theorem k_lt {n : Nat} (h : 1 < n) : k n < n := by rw [k_eq]; exact pow2Below_lt h

theorem k_spec {n : Nat} (h : 1 < n) : ∃ p, k n = 2 ^ p ∧ 2 ^ p < n ∧ n ≤ 2 ^ (p + 1) := by
  refine ⟨Nat.log2 (n - 1), k_eq n, pow2Below_lt h, ?_⟩
  have := le_two_mul_pow2Below h
  rw [Nat.pow_succ, Nat.mul_comm]
  exact this

section

variable {H Q : Type} (hs : Hasher H Q)

/-- The Merkle root over pre-computed leaf hashes (RFC 6962). -/
def mth : List H → Traced Q (Option H)
  | [] => pure none
  | [lh] => pure (some lh)
  | x :: y :: rest => do
    let left ← mth ((x :: y :: rest).take (k (rest.length + 2)))
    let right ← mth ((x :: y :: rest).drop (k (rest.length + 2)))
    match left, right with
    | some l, some r => do
      let h ← hs.nodeHash l r
      pure (some h)
    | _, _ => pure none
termination_by l => l.length
decreasing_by
  · have := k_lt (n := rest.length + 2) (by omega)
    simp only [List.length_take, List.length_cons]; omega
  · have := k_pos (rest.length + 2)
    simp only [List.length_drop, List.length_cons]; omega

end

/-! ## The incremental tree -/

/-- Append-only Merkle tree: `frontier[i]` holds the hash of the complete subtree at
    level `i`, if bit `i` of `size` is set. -/
structure MerkleTree (H : Type) where
  frontier : List H
  size : Nat
  deriving DecidableEq, Repr

namespace MerkleTree

variable {H Q : Type} (hs : Hasher H Q)

def new : MerkleTree H := ⟨[], 0⟩

/-- The `while` loop of `append`: combine with the frontier while the bit at `level`
    is set. Returns the level it stopped at and the combined hash. -/
def carry (frontier : List H) (size level : Nat) (hash : H) : Option (Nat × H) :=
  if _ : size &&& (1 <<< level) ≠ 0 then
    match frontier[level]? with
    | none => none
    | some f => carry frontier size (level + 1) (hs.node f hash)
  else some (level, hash)
termination_by size / 2 ^ level
decreasing_by exact div_pow_succ_lt_of_testBit (and_one_shiftLeft_ne_zero.mp ‹_›)

/-- Append a pre-computed leaf hash; returns the leaf index and the tree. -/
def append [Inhabited H] (t : MerkleTree H) (lh : H) : Option (Nat × MerkleTree H) :=
  match carry hs t.frontier t.size 0 lh with
  | none => none
  | some (level, hash) =>
    let frontier := if level < t.frontier.length then t.frontier.set level hash else t.frontier ++ [hash]
    -- the lower levels are now incorporated in `hash`: the code zeroes them
    let frontier := (List.range level).foldl (fun f l => f.set l default) frontier
    some (t.size, ⟨frontier, t.size + 1⟩)

/-- One level of `root`'s loop. -/
def rootStep (size : Nat) (hash : Option H) (x : H × Nat) : Option H :=
  if size &&& (1 <<< x.2) = 0 then hash
  else some (match hash with
    | none => x.1
    | some h => hs.node x.1 h)

def root (t : MerkleTree H) : Option H :=
  if t.size = 0 then none else t.frontier.zipIdx.foldl (rootStep hs t.size) none

/-- `append` for each leaf in turn. -/
def appendAll [Inhabited H] (t : MerkleTree H) : List H → Option (MerkleTree H)
  | [] => some t
  | lh :: rest =>
    match append hs t lh with
    | none => none
    | some (_, t) => appendAll t rest

end MerkleTree

end Settled.Core
