/-
  Settled.Core.Vectors — the generator of the test vectors (`scripts/gen-test-vectors.py`), an
  implementation of roots, proofs and verifiers in Python that settled-core "must produce
  identical outputs" to.

  The script does some things another way. `_k` doubles past `n` and halves; `verify_consistency`
  runs an iterator down a nested function that raises `StopIteration` when the proof ends
  early, and gives `None` for the subtree that is the old tree itself, which the caller
  replaces by `old_root`. What it does not foresee it asserts.

  `generator_agrees`: on all inputs, not only the vectors, the two give the same roots, the
  same proofs and the same verdicts. Where settled-core returns an error the script asserts;
  the verifiers raise nothing.

  Hashes are 32 bytes in both (`node_hash` asserts it), and `node_hash` is a parameter.
-/

import Settled.Core.Completeness

namespace Settled.Core.Vectors

open Settled.Lib

/-- What the script can raise. -/
inductive Raised where
  | assertionError
  | valueError
  | stopIteration
  | typeError
  deriving DecidableEq

/-- `while k < n: k <<= 1`. -/
def kLoop (n k : Nat) (hk : 0 < k) : Nat :=
  if k < n then kLoop n (k <<< 1) (by rw [Nat.shiftLeft_eq]; omega) else k
termination_by n - k
decreasing_by rw [Nat.shiftLeft_eq]; omega

/-- `_k`. -/
def k (n : Nat) : Except Raised Nat :=
  if 1 < n then .ok (kLoop n 1 Nat.one_pos >>> 1) else .error .assertionError

theorem kLoop_eq {n p : Nat} (h1 : 2 ^ p < n) (h2 : n ≤ 2 ^ (p + 1)) : ∀ (d j : Nat) (hj : 0 < 2 ^ j), j + d = p + 1 →
    kLoop n (2 ^ j) hj = 2 ^ (p + 1) := by
  intro d
  induction d with
  | zero =>
    intro j hj hd
    obtain rfl : j = p + 1 := by omega
    rw [kLoop, if_neg (by omega)]
  | succ d ih =>
    intro j hj hd
    have hlt : 2 ^ j ≤ 2 ^ p := Nat.pow_le_pow_right (by omega) (by omega)
    have hnext : 2 ^ j <<< 1 = 2 ^ (j + 1) := by rw [Nat.shiftLeft_eq, Nat.pow_one, Nat.pow_succ]
    rw [kLoop, if_pos (by omega)]
    simp only [hnext]
    exact ih (j + 1) (Nat.two_pow_pos _) (by omega)

theorem k_eq {n : Nat} (h : 1 < n) : k n = .ok (Core.k n) := by
  obtain ⟨p, hk, h1, h2⟩ := k_spec h
  have hloop : kLoop n 1 Nat.one_pos = 2 ^ (p + 1) := kLoop_eq h1 h2 (p + 1) 0 Nat.one_pos (by omega)
  rw [k, if_pos h, hloop, hk, Nat.shiftRight_one, Nat.pow_succ, Nat.mul_div_cancel _ (by omega)]

theorem k_bounds {n split : Nat} (h : k n = .ok split) : 0 < split ∧ split < n := by
  by_cases h1 : 1 < n
  · rw [k_eq h1] at h
    cases h
    exact ⟨k_pos n, k_lt h1⟩
  · rw [k, if_neg h1] at h
    cases h

section

variable {H Q : Type} (hs : Hasher H Q)

def mth : List H → Except Raised H
  | [] => .error .valueError
  | [lh] => .ok lh
  | x :: y :: rest =>
    match _ : k (x :: y :: rest).length with
    | .error e => .error e
    | .ok split => do
      let left ← mth ((x :: y :: rest).take split)
      let right ← mth ((x :: y :: rest).drop split)
      return hs.node left right
termination_by leafHashes => leafHashes.length
decreasing_by
  · have := k_bounds ‹_›
    rw [List.length_take]
    omega
  · have := k_bounds ‹_›
    rw [List.length_drop]
    omega

def inclusionProofPath (m : Nat) (leafHashes : List H) : Except Raised (List H) :=
  if leafHashes.length ≤ m then .error .assertionError
  else if leafHashes.length = 1 then .ok []
  else
    match _ : k leafHashes.length with
    | .error e => .error e
    | .ok split =>
      if m < split then do
        let path ← inclusionProofPath m (leafHashes.take split)
        let sibling ← mth hs (leafHashes.drop split)
        return path ++ [sibling]
      else do
        let path ← inclusionProofPath (m - split) (leafHashes.drop split)
        let sibling ← mth hs (leafHashes.take split)
        return path ++ [sibling]
termination_by leafHashes.length
decreasing_by
  · have := k_bounds ‹_›
    rw [List.length_take]
    omega
  · have := k_bounds ‹_›
    rw [List.length_drop]
    omega

def verifyInclusionLoop [DecidableEq H] (root : H) (fn sn : Nat) (r : H) : List H → Bool
  | [] => decide (sn = 0) && decide (r = root)
  | step :: path =>
    if sn = 0 then false
    else if fn &&& 1 ≠ 0 ∨ fn = sn then
      let (fn, sn) := skipLevels fn sn
      verifyInclusionLoop root (fn >>> 1) (sn >>> 1) (hs.node step r) path
    else verifyInclusionLoop root (fn >>> 1) (sn >>> 1) (hs.node r step) path

def verifyInclusion [DecidableEq H] (leafHash : H) (m n : Nat) (path : List H) (root : H) : Bool :=
  if n = 0 ∨ n ≤ m then false else verifyInclusionLoop hs root m (n - 1) leafHash path

/-- `_subproof`. -/
def subproof (m : Nat) (leafHashes : List H) (b : Bool) : Except Raised (List H) :=
  if m = leafHashes.length then
    if b then .ok [] else do
      let root ← mth hs leafHashes
      return [root]
  else
    match _ : k leafHashes.length with
    | .error e => .error e
    | .ok split =>
      if m ≤ split then do
        let proof ← subproof m (leafHashes.take split) b
        let sibling ← mth hs (leafHashes.drop split)
        return proof ++ [sibling]
      else do
        let proof ← subproof (m - split) (leafHashes.drop split) false
        let sibling ← mth hs (leafHashes.take split)
        return proof ++ [sibling]
termination_by leafHashes.length
decreasing_by
  · have := k_bounds ‹_›
    rw [List.length_take]
    omega
  · have := k_bounds ‹_›
    rw [List.length_drop]
    omega

def consistencyProof (oldSize : Nat) (leafHashes : List H) : Except Raised (List H) :=
  let newSize := leafHashes.length
  if 0 < oldSize ∧ oldSize ≤ newSize then
    if oldSize = newSize then .ok [] else subproof hs oldSize leafHashes true
  else .error .assertionError

/-- `next(proof_iter)`. -/
def next : List H → Except Raised (H × List H)
  | [] => .error .stopIteration
  | h :: iter => .ok (h, iter)

/-- The nested `subproof` of `verify_consistency`: the two hashes and the rest of the
    iterator. `none` is `(None, None)`. -/
def verifySubproof (oldRoot : H) (m n : Nat) (b : Bool) (iter : List H) : Except Raised (Option (H × H) × List H) :=
  if m = n then
    if b then .ok (none, iter) else do
      let (h, iter) ← next iter
      return (some (h, h), iter)
  else
    match _ : k n with
    | .error e => .error e
    | .ok split =>
      if m ≤ split then do
        let (l, iter) ← verifySubproof oldRoot m split b iter
        let (rh, iter) ← next iter
        match l with
        | none => return (some (oldRoot, hs.node oldRoot rh), iter)
        | some (lo, ln) => return (some (lo, hs.node ln rh), iter)
      else do
        let (r, iter) ← verifySubproof oldRoot (m - split) (n - split) false iter
        let (lh, iter) ← next iter
        match r with
        | none => .error .typeError
        | some (ro, rn) => return (some (hs.node lh ro, hs.node lh rn), iter)
termination_by n
decreasing_by
  · exact (k_bounds ‹_›).2
  · have := k_bounds ‹_›
    omega

def verifyConsistency [DecidableEq H] (oldSize newSize : Nat) (proof : List H) (oldRoot newRoot : H) : Except Raised Bool :=
  if oldSize = newSize then .ok (proof.isEmpty && decide (oldRoot = newRoot))
  else if oldSize = 0 ∨ newSize < oldSize then .ok false
  else
    match verifySubproof hs oldRoot oldSize newSize true proof with
    | .error .stopIteration => .ok false
    | .error e => .error e
    | .ok (computed, iter) =>
      match iter, computed with
      | _ :: _, _ => .ok false
      | [], some (computedOld, computedNew) => .ok (decide (computedOld = oldRoot) && decide (computedNew = newRoot))
      -- `computed_old` becomes `old_root`, and `computed_new` is still `None`
      | [], none => .ok false

/-! ## Roots -/

theorem mth_two {L : List H} (h : 1 < L.length) : mth hs L = do
    let left ← mth hs (L.take (Core.k L.length))
    let right ← mth hs (L.drop (Core.k L.length))
    return hs.node left right := by
  match L with
  | x :: y :: rest =>
    rw [mth]
    split
    next e hk => rw [k_eq h] at hk; cases hk
    next split hk => rw [k_eq h] at hk; cases hk; rfl

theorem mth_agrees : ∀ (n : Nat) (L : List H), L.length = n → ∀ r, (Core.mth hs L).val = some r → mth hs L = .ok r := by
  intro n
  induction n using Nat.strongRecOn with
  | ind n ih =>
  intro L hL r hr
  by_cases h1 : 1 < L.length
  · have hlt := k_lt h1
    have hpos := k_pos L.length
    obtain ⟨left, right, hleft, hright, hv, -⟩ := mth_split hs h1
    have hl := ih (L.take (Core.k L.length)).length (by rw [List.length_take]; omega) _ rfl left hleft
    have hr' := ih (L.drop (Core.k L.length)).length (by rw [List.length_drop]; omega) _ rfl right hright
    rw [hv] at hr
    cases hr
    rw [mth_two hs h1, hl, hr']
    rfl
  · match L with
    | [] => rw [Core.mth] at hr; cases hr
    | [lh] => rw [Core.mth] at hr; cases hr; rw [mth]
    | _ :: _ :: rest => rw [List.length_cons, List.length_cons] at h1; omega

/-! ## Proofs -/

theorem path_agrees : ∀ (n : Nat) (L : List H) (m : Nat), L.length = n → m < n →
    ∃ P, path hs L m = some P ∧ inclusionProofPath hs m L = .ok P := by
  intro n
  induction n using Nat.strongRecOn with
  | ind n ih =>
  intro L m hL hm
  subst hL
  have hin : ¬ L.length ≤ m := by omega
  rw [path, inclusionProofPath, if_neg hin]
  by_cases h1 : L.length = 1
  · rw [if_pos h1, if_pos h1]
    exact ⟨[], rfl, rfl⟩
  have hgt : 1 < L.length := by omega
  have hlt := k_lt hgt
  have hpos := k_pos L.length
  obtain ⟨left, right, hleft, hright, -⟩ := mth_split hs hgt
  have hl := mth_agrees hs _ _ rfl left hleft
  have hr := mth_agrees hs _ _ rfl right hright
  rw [if_neg h1, if_neg h1, dif_neg (by omega)]
  split
  next e hk => rw [k_eq hgt] at hk; cases hk
  next split hk =>
    rw [k_eq hgt] at hk
    cases hk
    dsimp only
    by_cases hlow : m < Core.k L.length
    · obtain ⟨P, hP, hP'⟩ := ih (Core.k L.length) hlt (L.take (Core.k L.length)) m (by rw [List.length_take]; omega) hlow
      rw [if_pos hlow, if_pos hlow, hP, hP', hright, hr]
      exact ⟨P ++ [right], rfl, rfl⟩
    · obtain ⟨P, hP, hP'⟩ := ih (L.length - Core.k L.length) (by omega) (L.drop (Core.k L.length)) (m - Core.k L.length)
        List.length_drop (by omega)
      rw [if_neg hlow, if_neg hlow, hP, hP', hleft, hl]
      exact ⟨P ++ [left], rfl, rfl⟩

theorem subproof_agrees : ∀ (n : Nat) (L : List H) (m : Nat) (b : Bool), L.length = n → 0 < m → m ≤ n →
    ∃ P, Core.subproof hs L m b = some P ∧ subproof hs m L b = .ok P := by
  intro n
  induction n using Nat.strongRecOn with
  | ind n ih =>
  intro L m b hL hm hmn
  subst hL
  rw [Core.subproof, subproof]
  by_cases heq : m = L.length
  · rw [if_pos heq, if_pos heq]
    cases b with
    | true => exact ⟨[], rfl, rfl⟩
    | false =>
      obtain ⟨root, hroot⟩ := mth_some hs _ L rfl (by rintro rfl; rw [List.length_nil] at heq; omega)
      rw [hroot, mth_agrees hs _ L rfl root hroot]
      exact ⟨[root], rfl, rfl⟩
  have hgt : 1 < L.length := by omega
  have hlt := k_lt hgt
  have hpos := k_pos L.length
  obtain ⟨left, right, hleft, hright, -⟩ := mth_split hs hgt
  have hl := mth_agrees hs _ _ rfl left hleft
  have hr := mth_agrees hs _ _ rfl right hright
  rw [if_neg heq, if_neg heq, dif_neg (by omega)]
  split
  next e hk => rw [k_eq hgt] at hk; cases hk
  next split hk =>
    rw [k_eq hgt] at hk
    cases hk
    dsimp only
    by_cases hlow : m ≤ Core.k L.length
    · obtain ⟨P, hP, hP'⟩ := ih (Core.k L.length) hlt (L.take (Core.k L.length)) m b (by rw [List.length_take]; omega) hm hlow
      rw [if_pos hlow, if_pos hlow, hP, hP', hright, hr]
      exact ⟨P ++ [right], rfl, rfl⟩
    · obtain ⟨P, hP, hP'⟩ := ih (L.length - Core.k L.length) (by omega) (L.drop (Core.k L.length)) (m - Core.k L.length) false
        List.length_drop (by omega) (by omega)
      rw [if_neg hlow, if_neg hlow, hP, hP', hleft, hl]
      exact ⟨P ++ [left], rfl, rfl⟩

/-! ## Verifiers -/

theorem verifyInclusionLoop_agrees [DecidableEq H] (root : H) : ∀ (proof : List H) (fn sn : Nat) (r : H),
    verifyInclusionLoop hs root fn sn r proof = (Core.verifyInclusionLoop hs root fn sn r proof).val := by
  intro proof
  induction proof with
  | nil => intro fn sn r; rfl
  | cons step proof ih =>
    intro fn sn r
    rw [verifyInclusionLoop, Core.verifyInclusionLoop]
    split
    · rfl
    · split
      · exact ih _ _ _
      · exact ih _ _ _

/-- How the script shows what settled-core's walk gives: nothing for the old tree itself. -/
def shown (m n : Nat) (b : Bool) : Option ((H × H) × List H) → Except Raised (Option (H × H) × List H)
  | none => .error .stopIteration
  | some (hashes, iter) => .ok (if m = n ∧ b = true then none else some hashes, iter)

theorem verifySubproof_agrees (oldRoot : H) : ∀ (n m : Nat) (b : Bool) (iter : List H), 0 < m → m ≤ n →
    verifySubproof hs oldRoot m n b iter = shown m n b (Core.verifySubproof hs m n oldRoot iter b).val := by
  intro n
  induction n using Nat.strongRecOn with
  | ind n ih =>
  intro m b iter hm hmn
  rw [verifySubproof]
  unfold Core.verifySubproof
  by_cases heq : m = n
  · rw [if_pos heq, if_pos heq]
    cases b with
    | true => simp [shown, heq]
    | false => cases iter <;> simp [shown, next]
  have hne : ¬ (m = n ∧ b = true) := fun h => heq h.1
  have hgt : 1 < n := by omega
  have hlt := k_lt hgt
  have hpos := k_pos n
  rw [if_neg heq, if_neg heq, dif_neg (by omega)]
  split
  next e hk => rw [k_eq hgt] at hk; cases hk
  next split hk =>
    rw [k_eq hgt] at hk
    cases hk
    dsimp only
    by_cases hlow : m ≤ Core.k n
    · rw [if_pos hlow, if_pos hlow, ih (Core.k n) hlt m b iter hm hlow]
      -- the old tree itself: settled-core's walk gives `old_root` for it
      have hold : m = Core.k n ∧ b = true → (Core.verifySubproof hs m (Core.k n) oldRoot iter b).val =
          some ((oldRoot, oldRoot), iter) := by
        rintro ⟨hk, rfl⟩
        unfold Core.verifySubproof
        rw [if_pos hk]
        rfl
      rw [Traced.val_bind]
      generalize (Core.verifySubproof hs m (Core.k n) oldRoot iter b).val = v at hold
      cases v with
      | none => rfl
      | some x =>
        obtain ⟨⟨lo, ln⟩, iter'⟩ := x
        cases iter' with
        | nil => rfl
        | cons rh iter' =>
          by_cases hshared : m = Core.k n ∧ b = true
          · cases hold hshared
            simp only [shown, if_pos hshared, if_neg hne]
            rfl
          · simp only [shown, if_neg hshared, if_neg hne]
            rfl
    · rw [if_neg hlow, if_neg hlow, ih (n - Core.k n) (by omega) (m - Core.k n) false iter (by omega) (by omega)]
      rw [Traced.val_bind]
      generalize (Core.verifySubproof hs (m - Core.k n) (n - Core.k n) oldRoot iter false).val = v
      cases v with
      | none => rfl
      | some x =>
        obtain ⟨⟨ro, rn⟩, iter'⟩ := x
        cases iter' with
        | nil => rfl
        | cons lh iter' =>
          simp only [shown, Bool.false_eq_true, and_false, if_false, if_neg hne]
          rfl

theorem verifyConsistency_agrees [DecidableEq H] (oldSize newSize : Nat) (proof : List H) (oldRoot newRoot : H) :
    verifyConsistency hs oldSize newSize proof oldRoot newRoot =
      .ok (Core.verifyConsistency hs oldSize newSize proof oldRoot newRoot).val := by
  unfold verifyConsistency Core.verifyConsistency
  by_cases heq : oldSize = newSize
  · rw [if_pos heq, if_pos heq]
    rfl
  by_cases hrange : oldSize = 0 ∨ newSize < oldSize
  · rw [if_neg heq, if_neg heq, if_pos hrange, if_pos hrange]
    rfl
  rw [if_neg heq, if_neg heq, if_neg hrange, if_neg hrange,
    verifySubproof_agrees hs oldRoot newSize oldSize true proof (by omega) (by omega), Traced.val_bind]
  cases (Core.verifySubproof hs oldSize newSize oldRoot proof true).val with
  | none => rfl
  | some x =>
    obtain ⟨⟨computedOld, computedNew⟩, iter⟩ := x
    simp only [shown, heq, false_and, if_false]
    cases iter <;> rfl

end

/-- What settled-core returns, an error being what the script asserts. -/
def asserted {α : Type} : Except ProofError α → Except Raised α
  | .ok a => .ok a
  | .error _ => .error .assertionError

/-- The script and settled-core compute the same on all inputs. -/
theorem generator_agrees {H Q : Type} [DecidableEq H] (hs : Hasher H Q) :
    (∀ leafHashes : List H, mth hs leafHashes = match (Core.mth hs leafHashes).val with
      | some root => .ok root
      | none => .error .valueError) ∧
    (∀ (m : Nat) (leafHashes : List H), inclusionProofPath hs m leafHashes = asserted (inclusionProof hs leafHashes m)) ∧
    (∀ (oldSize : Nat) (leafHashes : List H),
      consistencyProof hs oldSize leafHashes = asserted (Core.consistencyProof hs leafHashes oldSize)) ∧
    (∀ (leafHash : H) (m n : Nat) (path : List H) (root : H),
      verifyInclusion hs leafHash m n path root = (Core.verifyInclusion hs leafHash m n path root).val) ∧
    ∀ (oldSize newSize : Nat) (proof : List H) (oldRoot newRoot : H),
      verifyConsistency hs oldSize newSize proof oldRoot newRoot =
        .ok (Core.verifyConsistency hs oldSize newSize proof oldRoot newRoot).val := by
  refine ⟨fun L => ?_, fun m L => ?_, fun oldSize L => ?_, fun leafHash m n path root => ?_, verifyConsistency_agrees hs⟩
  · by_cases hne : L = []
    · subst hne
      rw [mth, Core.mth]
      rfl
    · obtain ⟨root, hroot⟩ := mth_some hs _ L rfl hne
      rw [mth_agrees hs _ L rfl root hroot, hroot]
  · unfold inclusionProof
    by_cases hm : L.length ≤ m
    · rw [inclusionProofPath, if_pos hm, if_pos hm]
      rfl
    · obtain ⟨P, hP, hP'⟩ := path_agrees hs _ L m rfl (by omega)
      rw [if_neg hm, hP, hP']
      rfl
  · unfold consistencyProof Core.consistencyProof
    dsimp only
    by_cases hrange : oldSize = 0 ∨ L.length < oldSize
    · rw [if_neg (by omega), if_pos hrange]
      rfl
    · rw [if_pos (by omega), if_neg hrange]
      split
      · rfl
      · obtain ⟨P, hP, hP'⟩ := subproof_agrees hs _ L oldSize true rfl (by omega) (by omega)
        rw [hP, hP']
        rfl
  · unfold verifyInclusion Core.verifyInclusion
    split
    · rfl
    · exact verifyInclusionLoop_agrees hs root path m (n - 1) leafHash

end Settled.Core.Vectors
