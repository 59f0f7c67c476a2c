/-
  Settled.Core.DomainSeparation — no payload passes an interior node off as an entry
  (`docs/wire-format.md`, 1.3).

  A leaf is hashed behind the byte `0x00` and a node behind `0x01`. The claimed index
  and size of an inclusion proof are the sender's, so the path need not have the shape
  of the tree whose root it is checked against: walking down from the root, it may stop
  at an interior node or go on past a leaf. Each of these equates the digest of a leaf's
  string with that of a node's (`Opens.separated`), and so is a collision.
-/

import Settled.Core.Completeness
import Settled.Core.Sha256

namespace Settled.Core

open Settled.Lib

theorem nodeInput_inj {a b c d : Hash} (h : nodeInput a.val b.val = nodeInput c.val d.val) : a = c ∧ b = d := by
  obtain ⟨h1, h2⟩ := List.append_inj (List.cons.inj h).2 (a.property.trans c.property.symm)
  exact ⟨Subtype.ext h1, Subtype.ext h2⟩

theorem leafInput_ne_nodeInput (d l r : Bytes) : leafInput d ≠ nodeInput l r := fun h => by
  cases (List.cons.inj h).1

variable (sha256 : Bytes → Hash)

/-- What is hashed for the root over the payloads `D`: their leaves, and the nodes. -/
def rootInputs (D : List Bytes) : List Bytes :=
  D.map leafInput ++ (mth (.sha sha256) (D.map (leafHash sha256))).calls

/-- The root over at least two payloads. -/
theorem rootInputs_split {D : List Bytes} (h : 1 < D.length) :
    ∃ l r, (mth (.sha sha256) ((D.take (k D.length)).map (leafHash sha256))).val = some l ∧
      (mth (.sha sha256) ((D.drop (k D.length)).map (leafHash sha256))).val = some r ∧
      (mth (.sha sha256) (D.map (leafHash sha256))).val = some (sha256 (nodeInput l.val r.val)) ∧
      nodeInput l.val r.val ∈ rootInputs sha256 D ∧
      (∀ q ∈ rootInputs sha256 (D.take (k D.length)), q ∈ rootInputs sha256 D) ∧
      ∀ q ∈ rootInputs sha256 (D.drop (k D.length)), q ∈ rootInputs sha256 D := by
  obtain ⟨l, r, hl, hr, hv, hc⟩ := mth_split (.sha sha256) (L := D.map (leafHash sha256)) (by simpa using h)
  simp only [List.length_map, ← List.map_take, ← List.map_drop] at hl hr hc
  refine ⟨l, r, hl, hr, hv, ?_, fun q hq => ?_, fun q hq => ?_⟩
  · unfold rootInputs
    rw [hc]
    simp [Hasher.sha]
  · unfold rootInputs at hq ⊢
    rw [hc]
    rcases List.mem_append.mp hq with hq | hq
    · obtain ⟨d, hd, rfl⟩ := List.mem_map.mp hq
      exact List.mem_append_left _ (List.mem_map_of_mem (List.mem_of_mem_take hd))
    · exact List.mem_append_right _ (List.mem_append_left _ hq)
  · unfold rootInputs at hq ⊢
    rw [hc]
    rcases List.mem_append.mp hq with hq | hq
    · obtain ⟨d, hd, rfl⟩ := List.mem_map.mp hq
      exact List.mem_append_left _ (List.mem_map_of_mem (List.mem_of_mem_drop hd))
    · exact List.mem_append_right _ (List.mem_append_right _ (List.mem_append_left _ hq))

/-- A root is the digest of one of its strings: the only payload's, or a node's whose
    halves are roots again. -/
theorem rootInputs_top {D : List Bytes} {root : Hash} (h : (mth (.sha sha256) (D.map (leafHash sha256))).val = some root) :
    (∃ x ∈ D, root = sha256 (leafInput x) ∧ leafInput x ∈ rootInputs sha256 D) ∨
    ∃ l r D1 D2, root = sha256 (nodeInput l.val r.val) ∧ nodeInput l.val r.val ∈ rootInputs sha256 D ∧
      (mth (.sha sha256) (D1.map (leafHash sha256))).val = some l ∧ (mth (.sha sha256) (D2.map (leafHash sha256))).val = some r ∧
      (∀ d ∈ D1, d ∈ D) ∧ (∀ d ∈ D2, d ∈ D) ∧ (∀ q ∈ rootInputs sha256 D1, q ∈ rootInputs sha256 D) ∧
      ∀ q ∈ rootInputs sha256 D2, q ∈ rootInputs sha256 D := by
  match D with
  | [] => simp [mth] at h
  | [x] =>
    left
    rw [List.map_singleton, mth] at h
    cases h
    exact ⟨x, List.mem_singleton_self x, rfl, by simp [rootInputs]⟩
  | x :: y :: rest =>
    right
    obtain ⟨l, r, hl, hr, hv, hq, h1, h2⟩ := rootInputs_split sha256 (D := x :: y :: rest) (by simp)
    rw [hv] at h
    cases h
    exact ⟨l, r, _, _, rfl, hq, hl, hr, fun d => List.mem_of_mem_take, fun d => List.mem_of_mem_drop, h1, h2⟩

/-- The walk down from the root: `c` are the strings of the path. -/
theorem Opens.separated {d : Bytes} {i n : Nat} {a r : Hash} {P : List Hash} {c : List Bytes}
    (h : Opens (.sha sha256) i n a P r c) (ha : a = sha256 (leafInput d)) :
    ∀ D : List Bytes, (mth (.sha sha256) (D.map (leafHash sha256))).val = some r →
      d ∈ D ∨ Collides sha256 (rootInputs sha256 D ++ (leafInput d :: c)) := by
  induction h with
  | leaf a =>
    intro D hr
    rcases rootInputs_top sha256 hr with ⟨x, hx, hroot, hm⟩ | ⟨l, r, D1, D2, hroot, hm, -⟩
    · rcases eq_or_collides (l := rootInputs sha256 D ++ [leafInput d]) (by simp) (by simp [hm]) (ha.symm.trans hroot)
        with e | hc
      · rw [(List.cons.inj e).2]
        exact Or.inl hx
      · exact Or.inr hc
    · -- the path stops at an interior node
      exact Or.inr ⟨_, by simp, _, List.mem_append_left _ hm, leafInput_ne_nodeInput _ _ _, ha.symm.trans hroot⟩
  | @left i n a x P c s h1 h2 h ih =>
    intro D hr
    rcases rootInputs_top sha256 hr with ⟨y, hy, hroot, hm⟩ | ⟨l, r, D1, D2, hroot, hm, hl, -, hD, -, hq, -⟩
    · -- the path goes on past a leaf
      exact Or.inr ⟨leafInput y, List.mem_append_left _ hm, (Hasher.sha sha256).query _ _, by simp, leafInput_ne_nodeInput _ _ _, hroot.symm⟩
    · rcases eq_or_collides (l := rootInputs sha256 D ++ (leafInput d :: (c ++ [(Hasher.sha sha256).query x s]))) (by simp)
        (List.mem_append_left _ hm) hroot with e | hc
      · obtain ⟨rfl, -⟩ := nodeInput_inj e
        rcases ih ha D1 hl with hd | hc
        · exact Or.inl (hD d hd)
        · exact Or.inr (hc.mono (by grind))
      · exact Or.inr hc
  | @right i n a x P c s h1 h2 h ih =>
    intro D hr
    rcases rootInputs_top sha256 hr with ⟨y, hy, hroot, hm⟩ | ⟨l, r, D1, D2, hroot, hm, -, hr', -, hD, -, hq⟩
    · exact Or.inr ⟨leafInput y, List.mem_append_left _ hm, (Hasher.sha sha256).query _ _, by simp, leafInput_ne_nodeInput _ _ _, hroot.symm⟩
    · rcases eq_or_collides (l := rootInputs sha256 D ++ (leafInput d :: (c ++ [(Hasher.sha sha256).query s x]))) (by simp)
        (List.mem_append_left _ hm) hroot with e | hc
      · obtain ⟨-, rfl⟩ := nodeInput_inj e
        rcases ih ha D2 hr' with hd | hc
        · exact Or.inl (hD d hd)
        · exact Or.inr (hc.mono (by grind))
      · exact Or.inr hc

/-- A payload accepted under the root over `D`, at whatever index and size and with
    whatever proof, is one of `D`; or two of the strings hashed for the root, for the
    payload's leaf and by the verification collide. -/
theorem domain_separation (D : List Bytes) (root : Hash)
    (hroot : (mth (.sha sha256) (D.map (leafHash sha256))).val = some root) (d : Bytes) (i n : Nat) (P : List Hash)
    (h : (verifyInclusion (.sha sha256) (leafHash sha256 d) i n P root).val = true) :
    d ∈ D ∨ Collides sha256 ((D.map leafInput ++ (mth (.sha sha256) (D.map (leafHash sha256))).calls) ++
      (leafInput d :: (verifyInclusion (.sha sha256) (leafHash sha256 d) i n P root).calls)) := by
  have ho : Opens (.sha sha256) i n (leafHash sha256 d) P root
      (verifyInclusion (.sha sha256) (leafHash sha256 d) i n P root).calls := by
    rw [← verifyInclusion_iff, ← h]
  exact ho.separated sha256 rfl D hroot

def threePayloads : List Bytes := [[1], [2], [3]]

/-- Three payloads, the second accepted with its own path. -/
theorem domain_separation_second_of_three : ∃ root P,
    (mth (.sha Sha256.sha256) (threePayloads.map (leafHash Sha256.sha256))).val = some root ∧
    (verifyInclusion (.sha Sha256.sha256) (leafHash Sha256.sha256 [2]) 1 3 P root).val = true ∧
    ([2] ∈ threePayloads ∨ Collides Sha256.sha256
      ((threePayloads.map leafInput ++ (mth (.sha Sha256.sha256) (threePayloads.map (leafHash Sha256.sha256))).calls) ++
        (leafInput [2] :: (verifyInclusion (.sha Sha256.sha256) (leafHash Sha256.sha256 [2]) 1 3 P root).calls))) := by
  obtain ⟨P, root, c, -, hroot, ho, -⟩ := inclusionProof_opens (.sha Sha256.sha256)
    (L := threePayloads.map (leafHash Sha256.sha256)) (i := 1) rfl
  have h : verifyInclusion (.sha Sha256.sha256) (leafHash Sha256.sha256 [2]) 1 3 P root = ⟨true, c⟩ :=
    verifyInclusion_iff.mpr ho
  have hv : (verifyInclusion (.sha Sha256.sha256) (leafHash Sha256.sha256 [2]) 1 3 P root).val = true := by rw [h]
  exact ⟨root, P, hroot, hv, domain_separation Sha256.sha256 threePayloads root hroot [2] 1 3 P hv⟩

end Settled.Core
