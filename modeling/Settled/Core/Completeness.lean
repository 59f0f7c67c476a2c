/-
  Settled.Core.Completeness — every generated proof verifies, for any `node_hash`.

  - `inclusionProof_verifies`: the generated path of every leaf of every non-empty tree.
  - `consistencyProof_verifies`: the generated proof between any two sizes of a tree.

  Both go through the derivations of `Settled.Core.ProofShape`: the generator recurses
  on the split point exactly as `Opens` and `Extends` do. For a consistency proof whose
  old size `m` lies past the split of `n`, the old tree splits there too
  (`k_stable`), so the two trees share their left half.
-/

import Settled.Core.ProofShape

namespace Settled.Core

open Settled.Lib

section

variable {H Q : Type} (hs : Hasher H Q)

theorem k_stable {m n : Nat} (h1 : k n < m) (h2 : m ≤ n) : k m = k n := by
  rw [k_eq] at h1
  rw [k_eq, k_eq]
  exact pow2Below_stable h1 h2

/-! ## The root -/

theorem mth_some : ∀ (n : Nat) (L : List H), L.length = n → L ≠ [] → ∃ r, (mth hs L).val = some r := by
  intro n
  induction n using Nat.strongRecOn with
  | ind n ih =>
  intro L hL hne
  match L with
  | [x] => exact ⟨x, by rw [mth]; rfl⟩
  | x :: y :: rest =>
    simp only [List.length_cons] at hL
    have hlt := k_lt (n := rest.length + 2) (by omega)
    have hpos := k_pos (rest.length + 2)
    obtain ⟨l, hl⟩ := ih (k (rest.length + 2)) (by omega) ((x :: y :: rest).take (k (rest.length + 2)))
      (by simp only [List.length_take, List.length_cons]; omega)
      (by intro e; have := congrArg List.length e; simp only [List.length_take, List.length_cons, List.length_nil] at this; omega)
    obtain ⟨r, hr⟩ := ih (rest.length + 2 - k (rest.length + 2)) (by omega)
      ((x :: y :: rest).drop (k (rest.length + 2))) (by simp only [List.length_drop, List.length_cons])
      (by intro e; have := congrArg List.length e; simp only [List.length_drop, List.length_cons, List.length_nil] at this; omega)
    exact ⟨hs.node l r, by rw [mth]; simp [hl, hr]⟩

/-- The root of a tree of at least two leaves: the node over its two halves. -/
theorem mth_split {L : List H} (h : 1 < L.length) :
    ∃ l r, (mth hs (L.take (k L.length))).val = some l ∧ (mth hs (L.drop (k L.length))).val = some r ∧
      (mth hs L).val = some (hs.node l r) ∧
      (mth hs L).calls = (mth hs (L.take (k L.length))).calls ++
        ((mth hs (L.drop (k L.length))).calls ++ [hs.query l r]) := by
  have hlt := k_lt h
  have hpos := k_pos L.length
  obtain ⟨l, hl⟩ := mth_some hs _ (L.take (k L.length)) rfl
    (by intro e; have := congrArg List.length e; simp only [List.length_take, List.length_nil] at this; omega)
  obtain ⟨r, hr⟩ := mth_some hs _ (L.drop (k L.length)) rfl
    (by intro e; have := congrArg List.length e; simp only [List.length_drop, List.length_nil] at this; omega)
  refine ⟨l, r, hl, hr, ?_⟩
  match L with
  | x :: y :: rest =>
    simp only [List.length_cons] at hl hr
    rw [mth]
    simp [hl, hr]

theorem mth_pair (a b : H) : mth hs [a, b] = ⟨some (hs.node a b), [hs.query a b]⟩ := by
  have hk : k (([] : List H).length + 2) = 1 := rfl
  rw [mth, hk, List.take_succ_cons, List.take_zero, List.drop_succ_cons, List.drop_zero, mth, mth]
  rfl

theorem mth_triple (a b c : H) :
    mth hs [a, b, c] = ⟨some (hs.node (hs.node a b) c), [hs.query a b, hs.query (hs.node a b) c]⟩ := by
  have hk : k ([c].length + 2) = 2 := show k 3 = 2 by decide
  have htake : [a, b, c].take 2 = [a, b] := rfl
  have hdrop : [a, b, c].drop 2 = [c] := rfl
  rw [mth, hk, htake, hdrop, mth_pair, mth]
  rfl

/-! ## Inclusion -/

/-- The generated path opens its leaf, and its queries were made for the root. -/
theorem opens_path : ∀ (n : Nat) (L : List H) (i : Nat) (a : H), L.length = n → L[i]? = some a →
    ∃ P r c, path hs L i = some P ∧ (mth hs L).val = some r ∧ Opens hs i n a P r c ∧
      ∀ q ∈ c, q ∈ (mth hs L).calls := by
  intro n
  induction n using Nat.strongRecOn with
  | ind n ih =>
  intro L i a hL hi
  subst hL
  have hin : i < L.length := (List.getElem?_eq_some_iff.mp hi).1
  by_cases h1 : L.length = 1
  · match L, h1 with
    | [x], _ =>
      obtain rfl : i = 0 := by simp only [List.length_singleton] at hin; omega
      simp only [List.getElem?_cons_zero, Option.some.injEq] at hi
      subst hi
      exact ⟨[], x, [], by rw [path]; rfl, by rw [mth]; rfl, .leaf x, fun q hq => by cases hq⟩
  have hgt : 1 < L.length := by omega
  have hlt := k_lt hgt
  have hpos := k_pos L.length
  obtain ⟨l, r, hl, hr, hv, hc⟩ := mth_split hs hgt
  rw [path, if_neg h1, dif_neg (by omega)]
  by_cases hk : i < k L.length
  · obtain ⟨P, r', c, hP, hr', ho, hq⟩ := ih (k L.length) (by omega) (L.take (k L.length)) i a
      (by simp only [List.length_take]; omega) (by rw [List.getElem?_take_of_lt hk]; exact hi)
    obtain rfl : r' = l := by rw [hr'] at hl; exact Option.some.inj hl
    refine ⟨P ++ [r], _, _, ?_, hv, .left r hgt hk ho, ?_⟩
    · simp [hk, hP, hr]
    · intro q hqm
      rw [hc]
      rcases List.mem_append.mp hqm with hqm | hqm
      · exact List.mem_append_left _ (hq q hqm)
      · exact List.mem_append_right _ (List.mem_append_right _ hqm)
  · obtain ⟨P, r', c, hP, hr', ho, hq⟩ := ih (L.length - k L.length) (by omega) (L.drop (k L.length))
      (i - k L.length) a (by simp only [List.length_drop])
      (by rw [List.getElem?_drop, show k L.length + (i - k L.length) = i by omega]; exact hi)
    obtain rfl : r' = r := by rw [hr'] at hr; exact Option.some.inj hr
    refine ⟨P ++ [l], _, _, ?_, hv, .right l hgt (by omega) ho, ?_⟩
    · simp [hk, hP, hl]
    · intro q hqm
      rw [hc]
      rcases List.mem_append.mp hqm with hqm | hqm
      · exact List.mem_append_right _ (List.mem_append_left _ (hq q hqm))
      · exact List.mem_append_right _ (List.mem_append_right _ hqm)

theorem inclusionProof_opens {L : List H} {i : Nat} {a : H} (hi : L[i]? = some a) :
    ∃ P r c, inclusionProof hs L i = .ok P ∧ (mth hs L).val = some r ∧ Opens hs i L.length a P r c ∧
      ∀ q ∈ c, q ∈ (mth hs L).calls := by
  obtain ⟨P, r, c, hP, hr, ho, hq⟩ := opens_path hs L.length L i a rfl hi
  have hin : i < L.length := (List.getElem?_eq_some_iff.mp hi).1
  refine ⟨P, r, c, ?_, hr, ho, hq⟩
  rw [inclusionProof, if_neg (by omega), hP]

/-! ## Consistency -/

/-- The old tree past the new tree's split: the shared left half and a prefix of the
    right half. -/
theorem mth_take_split {L : List H} {m : Nat} (h1 : k L.length < m) (h2 : m ≤ L.length) :
    ∃ l r, (mth hs (L.take (k L.length))).val = some l ∧
      (mth hs ((L.drop (k L.length)).take (m - k L.length))).val = some r ∧
      (mth hs (L.take m)).val = some (hs.node l r) := by
  have hpos := k_pos L.length
  have hlen : (L.take m).length = m := by simp only [List.length_take]; omega
  obtain ⟨l, r, hl, hr, hv, -⟩ := mth_split hs (L := L.take m) (by omega)
  rw [hlen, k_stable h1 h2, List.take_take, Nat.min_eq_left (by omega)] at hl
  rw [hlen, k_stable h1 h2, List.drop_take] at hr
  exact ⟨l, r, hl, hr, hv⟩

theorem extends_subproof : ∀ (n : Nat) (L : List H) (m : Nat) (b : Bool) (old : H), L.length = n → 0 < m → m ≤ n →
    (b = true → (mth hs (L.take m)).val = some old) →
    ∃ P o w c, subproof hs L m b = some P ∧ (mth hs (L.take m)).val = some o ∧ (mth hs L).val = some w ∧
      Extends hs old m n b P o w c := by
  intro n
  induction n using Nat.strongRecOn with
  | ind n ih =>
  intro L m b old hL hm hmn hold
  subst hL
  unfold subproof
  by_cases e : m = L.length
  · subst e
    rw [if_pos rfl]
    obtain ⟨r, hr⟩ := mth_some hs _ L rfl (by intro h0; subst h0; simp at hm)
    have ht : L.take L.length = L := List.take_length
    rw [ht] at hold ⊢
    cases b with
    | true =>
      obtain rfl : old = r := by rw [hold rfl] at hr; exact Option.some.inj hr
      exact ⟨[], old, old, [], rfl, hr, hr, .shared _⟩
    | false => exact ⟨[r], r, r, [], by simp [hr], hr, hr, .elem _ r⟩
  rw [if_neg e, dif_neg (by omega)]
  have hlt := k_lt (n := L.length) (by omega)
  have hpos := k_pos L.length
  obtain ⟨l, r, hl, hr, hv, -⟩ := mth_split hs (L := L) (by omega)
  by_cases hk : m ≤ k L.length
  · have ht : (L.take (k L.length)).take m = L.take m := by rw [List.take_take, Nat.min_eq_left hk]
    obtain ⟨P, o, w, c, hP, ho, hw, hx⟩ := ih (k L.length) (by omega) (L.take (k L.length)) m b old
      (by simp only [List.length_take]; omega) hm hk (by rw [ht]; exact hold)
    rw [ht] at ho
    obtain rfl : w = l := by rw [hw] at hl; exact Option.some.inj hl
    exact ⟨P ++ [r], o, _, _, by simp [hk, hP, hr], ho, hv, .left r hm (by omega) hk hx⟩
  · obtain ⟨P, o, w, c, hP, ho, hw, hx⟩ := ih (L.length - k L.length) (by omega) (L.drop (k L.length))
      (m - k L.length) false old (by simp only [List.length_drop]) (by omega) (by omega) (by intro h; cases h)
    obtain ⟨l', ro, hl', hro, hov⟩ := mth_take_split hs (L := L) (m := m) (by omega) (by omega)
    obtain rfl : l' = l := by rw [hl'] at hl; exact Option.some.inj hl
    obtain rfl : o = ro := by rw [ho] at hro; exact Option.some.inj hro
    obtain rfl : w = r := by rw [hw] at hr; exact Option.some.inj hr
    exact ⟨P ++ [l'], _, _, _, by simp [hk, hP, hl], hov, hv, .right l' (by omega) (by omega) hx⟩

theorem consistencyProof_extends [DecidableEq H] {L : List H} {m : Nat} (hm : 0 < m) (hmn : m ≤ L.length) :
    ∃ P o w, consistencyProof hs L m = .ok P ∧ (mth hs (L.take m)).val = some o ∧ (mth hs L).val = some w ∧
      (verifyConsistency hs m L.length P o w).val = true := by
  obtain ⟨o, ho⟩ := mth_some hs m (L.take m) (by simp only [List.length_take]; omega)
    (by intro e; have := congrArg List.length e; simp only [List.length_take, List.length_nil] at this; omega)
  by_cases e : m = L.length
  · have ht : L.take m = L := by rw [e]; exact List.take_length
    rw [ht] at ho ⊢
    refine ⟨[], o, o, ?_, ho, ho, ?_⟩
    · rw [consistencyProof, if_neg (by omega), if_pos e]
    · rw [verifyConsistency, if_pos e]; simp
  · obtain ⟨P, o', w, c, hP, ho', hw, hx⟩ := extends_subproof hs L.length L m true o rfl hm hmn (fun _ => ho)
    obtain rfl : o' = o := by rw [ho'] at ho; exact Option.some.inj ho
    refine ⟨P, o', w, ?_, ho', hw, ?_⟩
    · rw [consistencyProof, if_neg (by omega), if_neg e, hP]
    · have := verifyConsistency_iff.mpr (Or.inr ⟨hm, by omega, hx⟩)
      rw [this]

end

/-! ## Generated proofs verify -/

variable {H : Type} [DecidableEq H] (nodeHash : H → H → H)

/-- The generated inclusion proof of every leaf verifies against the tree's root. -/
theorem inclusionProof_verifies (leafHashes : List H) (i : Nat) (hi : i < leafHashes.length) :
    ∃ proof root, inclusionProof (.pairs nodeHash) leafHashes i = .ok proof ∧
      (mth (.pairs nodeHash) leafHashes).val = some root ∧
      (verifyInclusion (.pairs nodeHash) leafHashes[i] i leafHashes.length proof root).val = true := by
  obtain ⟨P, r, c, hP, hr, ho, -⟩ := inclusionProof_opens (.pairs nodeHash) (List.getElem?_eq_getElem hi)
  exact ⟨P, r, hP, hr, by rw [verifyInclusion_iff.mpr ho]⟩

theorem inclusionProof_verifies_third :
    2 < [10, 20, 30].length ∧ ∃ proof root, inclusionProof (.pairs fun a b => 2 * a + b) [10, 20, 30] 2 = .ok proof ∧
      (mth (.pairs fun a b => 2 * a + b) [10, 20, 30]).val = some root ∧
      (verifyInclusion (.pairs fun a b => 2 * a + b) 30 2 3 proof root).val = true :=
  ⟨by decide, inclusionProof_verifies _ _ 2 (by decide)⟩

/-- The generated consistency proof between a tree and any non-empty prefix of it
    verifies against their roots. -/
theorem consistencyProof_verifies (leafHashes : List H) (m : Nat) (hm : 1 ≤ m) (hmn : m ≤ leafHashes.length) :
    ∃ proof oldRoot newRoot, consistencyProof (.pairs nodeHash) leafHashes m = .ok proof ∧
      (mth (.pairs nodeHash) (leafHashes.take m)).val = some oldRoot ∧
      (mth (.pairs nodeHash) leafHashes).val = some newRoot ∧
      (verifyConsistency (.pairs nodeHash) m leafHashes.length proof oldRoot newRoot).val = true :=
  consistencyProof_extends _ hm hmn

theorem consistencyProof_verifies_two_of_three :
    2 ≤ [10, 20, 30].length ∧ ∃ proof oldRoot newRoot,
      consistencyProof (.pairs fun a b => 2 * a + b) [10, 20, 30] 2 = .ok proof ∧
      (mth (.pairs fun a b => 2 * a + b) [10, 20]).val = some oldRoot ∧
      (mth (.pairs fun a b => 2 * a + b) [10, 20, 30]).val = some newRoot ∧
      (verifyConsistency (.pairs fun a b => 2 * a + b) 2 3 proof oldRoot newRoot).val = true :=
  ⟨by decide, consistencyProof_verifies _ [10, 20, 30] 2 (by decide) (by decide)⟩

end Settled.Core
