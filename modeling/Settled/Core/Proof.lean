/-
  Settled.Core.Proof — `settled-core/src/proof.rs`: generation and verification of
  inclusion and consistency proofs.

  The generators return `none` where the code panics (`unwrap` of an empty tree's
  root, `k` of a size below 2); their callers' guards exclude it. The verifiers are
  traced: each run is its Boolean and the `node_hash` queries it made, in order. A
  proof iterator is the list of the elements not yet consumed.
-/

import Settled.Core.Merkle

namespace Settled.Core

open Settled.Lib

inductive ProofError where
  | leafIndexOutOfRange (leafIndex treeSize : Nat)
  | invalidSizes (oldSize newSize : Nat)
  /-- The process panicked; no run reaches it. -/
  | panic
  deriving DecidableEq, Repr

section

variable {H Q : Type} (hs : Hasher H Q)

/-! ## Inclusion proofs -/

/-- RFC 6962 PATH: the sibling hashes from leaf to root for the leaf at index `m`. -/
def path (leafHashes : List H) (m : Nat) : Option (List H) :=
  if leafHashes.length = 1 then some []
  else if _ : leafHashes.length = 0 then none
  else
    let split := k leafHashes.length
    if m < split then do
      let p ← path (leafHashes.take split) m
      let r ← (mth hs (leafHashes.drop split)).val
      some (p ++ [r])
    else do
      let p ← path (leafHashes.drop split) (m - split)
      let l ← (mth hs (leafHashes.take split)).val
      some (p ++ [l])
termination_by leafHashes.length
decreasing_by
  · have := k_lt (n := leafHashes.length) (by omega)
    simp only [List.length_take]; omega
  · have := k_pos leafHashes.length
    simp only [List.length_drop]; omega

def inclusionProof (leafHashes : List H) (leafIndex : Nat) : Except ProofError (List H) :=
  if leafHashes.length ≤ leafIndex then .error (.leafIndexOutOfRange leafIndex leafHashes.length)
  else match path hs leafHashes leafIndex with
    | some p => .ok p
    | none => .error .panic

/-- The inner `while` of `verify_inclusion`: drop the levels at which the node has no
    sibling. -/
def skipLevels (fn sn : Nat) : Nat × Nat :=
  if _ : fn ≠ 0 ∧ fn &&& 1 = 0 then skipLevels (fn >>> 1) (sn >>> 1) else (fn, sn)
termination_by fn
decreasing_by rw [Nat.shiftRight_one]; omega

/-- The `for step in proof` loop of `verify_inclusion` and its final test. -/
def verifyInclusionLoop [DecidableEq H] (root : H) (fn sn : Nat) (r : H) : List H → Traced Q Bool
  | [] => pure (decide (sn = 0) && decide (r = root))
  | step :: proof =>
    if sn = 0 then pure false
    else if fn &&& 1 ≠ 0 ∨ fn = sn then do
      let r ← hs.nodeHash step r
      let (fn, sn) := skipLevels fn sn
      verifyInclusionLoop root (fn >>> 1) (sn >>> 1) r proof
    else do
      let r ← hs.nodeHash r step
      verifyInclusionLoop root (fn >>> 1) (sn >>> 1) r proof

def verifyInclusion [DecidableEq H] (leafHash : H) (leafIndex treeSize : Nat) (proof : List H) (root : H) :
    Traced Q Bool :=
  if treeSize = 0 ∨ treeSize ≤ leafIndex then pure false
  else verifyInclusionLoop hs root leafIndex (treeSize - 1) leafHash proof

/-! ## Consistency proofs -/

def subproof (leafHashes : List H) (m : Nat) (b : Bool) : Option (List H) :=
  if m = leafHashes.length then
    if b then some [] else do
      let r ← (mth hs leafHashes).val
      some [r]
  else if _ : leafHashes.length ≤ 1 then none
  else
    let split := k leafHashes.length
    if m ≤ split then do
      let p ← subproof (leafHashes.take split) m b
      let r ← (mth hs (leafHashes.drop split)).val
      some (p ++ [r])
    else do
      let p ← subproof (leafHashes.drop split) (m - split) false
      let l ← (mth hs (leafHashes.take split)).val
      some (p ++ [l])
termination_by leafHashes.length
decreasing_by
  · have := k_lt (n := leafHashes.length) (by omega)
    simp only [List.length_take]; omega
  · have := k_pos leafHashes.length
    simp only [List.length_drop]; omega

/-- RFC 6962 PROOF: `leafHashes` are all the leaves of the new tree. -/
def consistencyProof (leafHashes : List H) (oldSize : Nat) : Except ProofError (List H) :=
  let newSize := leafHashes.length
  if oldSize = 0 ∨ newSize < oldSize then .error (.invalidSizes oldSize newSize)
  else if oldSize = newSize then .ok []
  else match subproof hs leafHashes oldSize true with
    | some p => .ok p
    | none => .error .panic

/-- The reconstructed old and new roots and the rest of the iterator; `none` when the
    proof runs out. A subtree shared by both trees is `old_root` itself while `b`. -/
def verifySubproof (m n : Nat) (oldRoot : H) (iter : List H) (b : Bool) :
    Traced Q (Option ((H × H) × List H)) :=
  if m = n then
    if b then pure (some ((oldRoot, oldRoot), iter))
    else match iter with
      | [] => pure none
      | h :: iter => pure (some ((h, h), iter))
  else if _ : n ≤ 1 then pure none
  else
    let split := k n
    if m ≤ split then do
      match ← verifySubproof m split oldRoot iter b with
      | none => pure none
      | some (_, []) => pure none
      | some ((lo, ln), rh :: iter) => do
        let actualNew ← hs.nodeHash ln rh
        pure (some ((lo, actualNew), iter))
    else do
      match ← verifySubproof (m - split) (n - split) oldRoot iter false with
      | none => pure none
      | some (_, []) => pure none
      | some ((ro, rn), lh :: iter) => do
        let old ← hs.nodeHash lh ro
        let new ← hs.nodeHash lh rn
        pure (some ((old, new), iter))
termination_by n
decreasing_by
  · exact k_lt (by omega)
  · have := k_pos n; omega

def verifyConsistency [DecidableEq H] (oldSize newSize : Nat) (proof : List H) (oldRoot newRoot : H) :
    Traced Q Bool :=
  if oldSize = newSize then pure (proof.isEmpty && decide (oldRoot = newRoot))
  else if oldSize = 0 ∨ newSize < oldSize then pure false
  else do
    match ← verifySubproof hs oldSize newSize oldRoot proof true with
    | some ((computedOld, computedNew), iter) =>
      pure (iter.isEmpty && decide (computedOld = oldRoot) && decide (computedNew = newRoot))
    | none => pure false

end

end Settled.Core
