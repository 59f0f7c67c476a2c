/-
  Settled.Core.TamperEvidence — what an accepted proof binds, for arbitrary roots.

  - `inclusion_binding`: two accepted inclusion proofs of one index, size and root are
    of one leaf and equal, or their runs made colliding queries; so against a real
    tree's root only the true leaf with the generated path is accepted.
  - `tamper_evidence`: a leaf of the old tree and the leaf at the same index of any
    tree proved consistent with it are equal, or the three runs made colliding queries.
  - `consistency_nonmalleable`: two accepted consistency proofs between the same sizes and
    roots are equal, or their runs made colliding queries; and their length is a function
    of the sizes (`subproofLength`).

  The first two hold for every hasher whose queries can be cut back into the two hashes they
  were made of, given that one of them is of the right size (`Cuts W`). An arbitrary
  `node_hash` is queried with its argument pair, so `W` is `True`. For hashes that are
  byte strings of any length `W` is "32 bytes", and the lemmas keep track of which
  hashes are known to be: on a path everything but the siblings; in a consistency proof
  both roots, once the first element is, or is too long to pass for one (`FirstSized`).
-/

import Settled.Core.Completeness

namespace Settled.Core

open Settled.Lib

/-- A query determines both hashes when one side is known to be of the right size. -/
structure Hasher.Cuts {H Q : Type} (hs : Hasher H Q) (W : H → Prop) : Prop where
  left : ∀ {a b c d : H}, hs.query a b = hs.query c d → W a → W c → a = c ∧ b = d
  right : ∀ {a b c d : H}, hs.query a b = hs.query c d → W b → W d → a = c ∧ b = d
  digest : ∀ q, W (hs.digest q)

theorem Hasher.pairs_cuts {H : Type} (f : H → H → H) : (Hasher.pairs f).Cuts fun _ => True where
  left h _ _ := Prod.mk.inj h
  right h _ _ := Prod.mk.inj h
  digest _ := trivial

section

variable {H Q : Type} {hs : Hasher H Q} {W : H → Prop}

theorem Opens.sized (hW : hs.Cuts W) {i n : Nat} {a r : H} {P : List H} {c : List Q} (h : Opens hs i n a P r c)
    (ha : W a) : W r := by
  cases h with
  | leaf => exact ha
  | left => exact hW.digest _
  | right => exact hW.digest _

/-- Two nodes with one hash, both built by a query of `c`. -/
theorem node_eq_or_collides {a b d e : H} {c : List Q} (h1 : hs.query a b ∈ c) (h2 : hs.query d e ∈ c)
    (h : hs.node a b = hs.node d e) : hs.query a b = hs.query d e ∨ Collides hs.digest c :=
  eq_or_collides h1 h2 h

theorem Opens.binding (hW : hs.Cuts W) {i n : Nat} {a b r r' : H} {P P' : List H} {c c' : List Q}
    (h : Opens hs i n a P r c) (h' : Opens hs i n b P' r' c') (hr : r = r') (ha : W a) (hb : W b) :
    (a = b ∧ P = P') ∨ Collides hs.digest (c ++ c') := by
  induction h generalizing r' P' c' with
  | leaf a =>
    cases h' with
    | leaf => exact Or.inl ⟨hr, rfl⟩
    | left s h1 => omega
    | right s h1 => omega
  | @left i n a l P c s h1 h2 h ih =>
    cases h' with
    | leaf => omega
    | right _ _ h3 => omega
    | @left _ _ _ l' P' c' s' _ _ h' =>
      rcases node_eq_or_collides (c := (c ++ [hs.query l s]) ++ (c' ++ [hs.query l' s'])) (by simp) (by simp) hr
        with hq | hq
      · obtain ⟨rfl, rfl⟩ := hW.left hq (h.sized hW ha) (h'.sized hW hb)
        rcases ih h' rfl ha with ⟨rfl, rfl⟩ | hc
        · exact Or.inl ⟨rfl, rfl⟩
        · exact Or.inr (hc.mono (by grind))
      · exact Or.inr hq
  | @right i n a x P c s h1 h2 h ih =>
    cases h' with
    | leaf => omega
    | left _ _ h3 => omega
    | @right _ _ _ x' P' c' s' _ _ h' =>
      rcases node_eq_or_collides (c := (c ++ [hs.query s x]) ++ (c' ++ [hs.query s' x'])) (by simp) (by simp) hr
        with hq | hq
      · obtain ⟨rfl, rfl⟩ := hW.right hq (h.sized hW ha) (h'.sized hW hb)
        rcases ih h' rfl ha with ⟨rfl, rfl⟩ | hc
        · exact Or.inl ⟨rfl, rfl⟩
        · exact Or.inr (hc.mono (by grind))
      · exact Or.inr hq

/-! ## Consistency proofs -/

/-- No query made of two hashes of the right size ends in `h`. -/
def Hasher.TooLong (hs : Hasher H Q) (W : H → Prop) (h : H) : Prop :=
  ∀ {a c d : H}, W c → W d → hs.query c d ≠ hs.query a h

/-- The subtree both trees share is `old_root` itself (a power of two on the left
    spine), or the first element of the proof, which is of the right size or too long. -/
def FirstSized (hs : Hasher H Q) (W : H → Prop) (b : Bool) (m n : Nat) (P : List H) : Prop :=
  (b = true ∧ ∃ p, m = 2 ^ p) ∨ (∃ h, P.head? = some h ∧ W h) ∨
    (m < n ∧ (∀ p, m ≠ 2 ^ p) ∧ ∃ h, P.head? = some h ∧ hs.TooLong W h)

/-- An empty proof: the two trees are one, whose root is `old_root`. -/
theorem Extends.of_nil {old o w : H} {m n : Nat} {b : Bool} {P : List H} {c : List Q}
    (h : Extends hs old m n b P o w c) (hP : P = []) : b = true ∧ m = n := by
  cases h with
  | shared => exact ⟨rfl, rfl⟩
  | elem => cases hP
  | left => simp at hP
  | right => simp at hP

/-- Off the left spine a complete old tree is the first element. -/
theorem Extends.old_first {old o w : H} {m n : Nat} {b : Bool} {P : List H} {c : List Q}
    (h : Extends hs old m n b P o w c) (hb : b = false) (hm : ∃ p, m = 2 ^ p) : P.head? = some o := by
  induction h with
  | shared => cases hb
  | elem => rfl
  | left rh h1 h2 h3 h ih => rw [List.head?_append, ih hb hm]; rfl
  | right lh h1 h2 =>
    obtain ⟨p, rfl⟩ := hm
    rw [k_eq] at h1
    exact (pow2Below_not_pow h1 h2).elim

theorem head?_of_append_singleton {P : List H} {x h : H} (hP : P ≠ []) (hx : (P ++ [x]).head? = some h) :
    P.head? = some h := by
  cases P with
  | nil => exact absurd rfl hP
  | cons y P => exact hx

/-- Going left, the first element stays first, or the shared subtree is the left half. -/
theorem Extends.firstSized_left {old o w : H} {m n : Nat} {b : Bool} {P : List H} {c : List Q} {rh : H}
    (h : Extends hs old m (k n) b P o w c) (hmk : m ≤ k n) (hn : 1 < n) (hf : FirstSized hs W b m n (P ++ [rh])) :
    FirstSized hs W b m (k n) P := by
  obtain ⟨p, hp, -, -⟩ := k_spec hn
  by_cases hP : P = []
  · obtain ⟨hb, hm⟩ := h.of_nil hP
    exact Or.inl ⟨hb, p, hm.trans hp⟩
  · rcases hf with hf | ⟨x, hx, hw⟩ | ⟨-, hnp, x, hx, hl⟩
    · exact Or.inl hf
    · exact Or.inr (Or.inl ⟨x, head?_of_append_singleton hP hx, hw⟩)
    · have : m ≠ k n := by rw [hp]; exact hnp p
      exact Or.inr (Or.inr ⟨by omega, hnp, x, head?_of_append_singleton hP hx, hl⟩)

/-- Going right, the same, or the old half is complete and is the first element, which
    is too long. -/
theorem Extends.firstSized_right {old o w : H} {m n : Nat} {b : Bool} {P : List H} {c : List Q} {lh : H}
    (h : Extends hs old (m - k n) (n - k n) false P o w c) (h1 : k n < m) (h2 : m < n)
    (hf : FirstSized hs W b m n (P ++ [lh])) : FirstSized hs W false (m - k n) (n - k n) P ∨ hs.TooLong W o := by
  have hP : P ≠ [] := fun e => by cases (h.of_nil e).1
  rcases hf with ⟨-, p, rfl⟩ | ⟨x, hx, hw⟩ | ⟨-, -, x, hx, hl⟩
  · rw [k_eq] at h1
    exact (pow2Below_not_pow h1 h2).elim
  · exact Or.inl (Or.inr (Or.inl ⟨x, head?_of_append_singleton hP hx, hw⟩))
  · have hx' := head?_of_append_singleton hP hx
    by_cases hp : ∃ p, m - k n = 2 ^ p
    · rw [h.old_first rfl hp] at hx'
      cases hx'
      exact Or.inr hl
    · exact Or.inl (Or.inr (Or.inr ⟨by omega, fun p e => hp ⟨p, e⟩, x, hx', hl⟩))

theorem Extends.sized (hW : hs.Cuts W) {old o w : H} {m n : Nat} {b : Bool} {P : List H} {c : List Q}
    (h : Extends hs old m n b P o w c) (hold : W old) (hf : FirstSized hs W b m n P) : W o ∧ W w := by
  induction h with
  | shared => exact ⟨hold, hold⟩
  | elem n h =>
    rcases hf with ⟨hb, -⟩ | ⟨x, hx, hw⟩ | ⟨hlt, -⟩
    · cases hb
    · cases hx; exact ⟨hw, hw⟩
    · omega
  | left rh h1 h2 h3 h ih => exact ⟨(ih (h.firstSized_left h3 (by omega) hf)).1, hW.digest _⟩
  | right => exact ⟨hW.digest _, hW.digest _⟩

/-- A leaf opened in the old tree and the leaf opened at its index in the new tree. -/
theorem Extends.agree (hW : hs.Cuts W) {old o w : H} {m n : Nat} {b : Bool} {P : List H} {c : List Q}
    (h : Extends hs old m n b P o w c) (hold : W old) (hf : FirstSized hs W b m n P) :
    ∀ {i : Nat} {a a' r r' : H} {P1 P2 : List H} {c1 c2 : List Q}, i < m → Opens hs i m a P1 r c1 → r = o →
      Opens hs i n a' P2 r' c2 → r' = w → W a → W a' → (∀ s ∈ P1, W s) →
      a = a' ∨ Collides hs.digest (c ++ (c1 ++ c2)) := by
  induction h with
  | shared n =>
    intro i a a' r r' P1 P2 c1 c2 _ h1 hr h2 hr' ha ha' _
    rcases h1.binding hW h2 (hr.trans hr'.symm) ha ha' with ⟨rfl, -⟩ | hc
    · exact Or.inl rfl
    · exact Or.inr hc
  | elem n x =>
    intro i a a' r r' P1 P2 c1 c2 _ h1 hr h2 hr' ha ha' _
    rcases h1.binding hW h2 (hr.trans hr'.symm) ha ha' with ⟨rfl, -⟩ | hc
    · exact Or.inl rfl
    · exact Or.inr hc
  | @left m n b P lo ln c rh hm hmn hk h ih =>
    intro i a a' r r' P1 P2 c1 c2 hi h1 hr h2 hr' ha ha' hP1
    cases h2 with
    | leaf => omega
    | right _ _ h3 => omega
    | @left _ _ _ l _ c2 s _ _ h2 =>
      have hf' := h.firstSized_left hk (by omega) hf
      rcases node_eq_or_collides (c := (c ++ [hs.query ln rh]) ++ (c1 ++ (c2 ++ [hs.query l s]))) (by simp)
        (by simp) hr' with hq | hq
      · obtain ⟨hl, -⟩ := hW.left hq (h2.sized hW ha') (h.sized hW hold hf').2
        rcases ih hf' hi h1 hr h2 hl ha ha' hP1 with e | hc
        · exact Or.inl e
        · exact Or.inr (hc.mono (by grind))
      · exact Or.inr hq
  | @right m n b P ro rn c lh hk hmn h ih =>
    intro i a a' r r' P1 P2 c1 c2 hi h1 hr h2 hr' ha ha' hP1
    have hfits := h.firstSized_right hk hmn hf
    have hpos := k_pos n
    -- the old tree is split where the new one is
    have hkm : k m = k n := k_stable hk (by omega)
    cases h1 with
    | leaf => omega
    | @left _ _ _ x P1 c1 s _ hik h1 =>
      -- the leaf lies in the shared left half
      cases h2 with
      | leaf => omega
      | right _ _ h3 => omega
      | @left _ _ _ x' _ c2 s' _ _ h2 =>
        rcases node_eq_or_collides
          (c := (c ++ [hs.query lh ro, hs.query lh rn]) ++ ((c1 ++ [hs.query x s]) ++ (c2 ++ [hs.query x' s'])))
          (by simp) (by simp) hr with hq | hq
        · have hf' := hfits.resolve_right fun hl => hl (h1.sized hW ha) (hP1 s (by simp)) hq
          obtain ⟨hro, -⟩ := h.sized hW hold hf'
          obtain ⟨rfl, -⟩ := hW.right hq (hP1 s (by simp)) hro
          rcases node_eq_or_collides
            (c := (c ++ [hs.query x ro, hs.query x rn]) ++ ((c1 ++ [hs.query x s]) ++ (c2 ++ [hs.query x' s'])))
            (by simp) (by simp) hr' with hq' | hq'
          · obtain ⟨rfl, -⟩ := hW.left hq' (h2.sized hW ha') (h1.sized hW ha)
            rw [hkm] at h1
            rcases h1.binding hW h2 rfl ha ha' with ⟨rfl, -⟩ | hc
            · exact Or.inl rfl
            · exact Or.inr (hc.mono (by grind))
          · exact Or.inr hq'
        · exact Or.inr hq
    | @right _ _ _ x P1 c1 s _ hik h1 =>
      cases h2 with
      | leaf => omega
      | left _ _ h3 => omega
      | @right _ _ _ x' _ c2 s' _ _ h2 =>
        rcases node_eq_or_collides
          (c := (c ++ [hs.query lh ro, hs.query lh rn]) ++ ((c1 ++ [hs.query s x]) ++ (c2 ++ [hs.query s' x'])))
          (by simp) (by simp) hr with hq | hq
        · have hf' := hfits.resolve_right fun hl => hl (hP1 s (by simp)) (h1.sized hW ha) hq
          obtain ⟨hro, hrn⟩ := h.sized hW hold hf'
          obtain ⟨-, hx⟩ := hW.right hq (h1.sized hW ha) hro
          rcases node_eq_or_collides
            (c := (c ++ [hs.query lh ro, hs.query lh rn]) ++ ((c1 ++ [hs.query s x]) ++ (c2 ++ [hs.query s' x'])))
            (by simp) (by simp) hr' with hq' | hq'
          · obtain ⟨-, hx'⟩ := hW.right hq' (h2.sized hW ha') hrn
            rw [hkm] at h1
            rcases ih hf' (by omega) h1 hx h2 hx' ha ha' (fun t ht => hP1 t (by simp [ht])) with e | hc
            · exact Or.inl e
            · exact Or.inr (hc.mono (by grind))
          · exact Or.inr hq'
        · exact Or.inr hq

/-- How many elements `verify_subproof` takes. -/
def subproofLength (m n : Nat) (b : Bool) : Nat :=
  if m = n then if b then 0 else 1
  else if _ : n ≤ 1 then 0
  else if m ≤ k n then subproofLength m (k n) b + 1
  else subproofLength (m - k n) (n - k n) false + 1
termination_by n
decreasing_by
  · exact k_lt (by omega)
  · have := k_pos n; omega

theorem Extends.length {old o w : H} {m n : Nat} {b : Bool} {P : List H} {c : List Q}
    (h : Extends hs old m n b P o w c) : P.length = subproofLength m n b := by
  induction h with
  | shared n => rw [subproofLength, if_pos rfl]; rfl
  | elem n h => rw [subproofLength, if_pos rfl]; rfl
  | left rh h1 h2 h3 _ ih =>
    rw [subproofLength.eq_def, if_neg (by omega), dif_neg (by omega), if_pos h3, List.length_append, ih]
    rfl
  | right lh h1 h2 _ ih =>
    rw [subproofLength.eq_def, if_neg (by omega), dif_neg (by omega), if_neg (by omega), List.length_append, ih]
    rfl

/-- The two roots rebuilt determine the proof: every element enters the new one, below a
    node both proofs have. -/
theorem Extends.binding (hq : ∀ {a b c d : H}, hs.query a b = hs.query c d → a = c ∧ b = d) {old o w : H} {m n : Nat}
    {b : Bool} {P : List H} {c : List Q} (h : Extends hs old m n b P o w c) :
    ∀ {o' w' : H} {P' : List H} {c' : List Q}, Extends hs old m n b P' o' w' c' → o = o' → w = w' →
      P = P' ∨ Collides hs.digest (c ++ c') := by
  induction h with
  | shared n =>
    intro o' w' P' c' h' _ _
    cases h' with
    | shared => exact Or.inl rfl
    | left _ _ hlt => omega
    | right _ _ hlt => omega
  | elem n x =>
    intro o' w' P' c' h' ho _
    cases h' with
    | elem => exact Or.inl (by rw [ho])
    | left _ _ hlt => omega
    | right _ _ hlt => omega
  | @left m n b P lo ln c rh h1 h2 h3 h ih =>
    intro o' w' P' c' h' ho hw
    cases h' with
    | shared => omega
    | elem => omega
    | right _ h4 => omega
    | @left _ _ _ P' _ ln' c' rh' _ _ _ h' =>
      rcases node_eq_or_collides (c := (c ++ [hs.query ln rh]) ++ (c' ++ [hs.query ln' rh'])) (by simp) (by simp) hw
        with he | hc
      · obtain ⟨hln, rfl⟩ := hq he
        rcases ih h' ho hln with rfl | hc
        · exact Or.inl rfl
        · exact Or.inr (hc.mono (by grind))
      · exact Or.inr hc
  | @right m n b P ro rn c lh h1 h2 h ih =>
    intro o' w' P' c' h' ho hw
    cases h' with
    | shared => omega
    | elem => omega
    | left _ _ _ h4 => omega
    | @right _ _ _ P' ro' rn' c' lh' _ _ h' =>
      -- one element on the left of both roots
      rcases node_eq_or_collides
        (c := (c ++ [hs.query lh ro, hs.query lh rn]) ++ (c' ++ [hs.query lh' ro', hs.query lh' rn'])) (by simp) (by simp) ho
        with he | hc
      · rcases node_eq_or_collides
          (c := (c ++ [hs.query lh ro, hs.query lh rn]) ++ (c' ++ [hs.query lh' ro', hs.query lh' rn'])) (by simp) (by simp) hw
          with he' | hc
        · obtain ⟨-, hro⟩ := hq he
          obtain ⟨rfl, hrn⟩ := hq he'
          rcases ih h' hro hrn with rfl | hc
          · exact Or.inl rfl
          · exact Or.inr (hc.mono (by grind))
        · exact Or.inr hc
      · exact Or.inr hc

/-- `verify_consistency` and the two openings, whatever the hasher: the proof's first
    element has to be of the right size, or too long, unless the old tree is a complete
    left part of the new one. -/
theorem verified_agree [DecidableEq H] (hW : hs.Cuts W) {m n i : Nat} {P P1 P2 : List H} {old new a a' : H}
    {c c1 c2 : List Q} (hi : i < m) (h : verifyConsistency hs m n P old new = ⟨true, c⟩)
    (h1 : Opens hs i m a P1 old c1) (h2 : Opens hs i n a' P2 new c2) (hold : W old)
    (hf : m = n ∨ FirstSized hs W true m n P) (ha : W a) (ha' : W a') (hP1 : ∀ s ∈ P1, W s) :
    a = a' ∨ Collides hs.digest (c ++ (c1 ++ c2)) := by
  rcases verifyConsistency_iff.mp h with ⟨rfl, rfl, rfl, rfl⟩ | ⟨-, hmn, hx⟩
  · rcases h1.binding hW h2 rfl ha ha' with ⟨rfl, -⟩ | hc
    · exact Or.inl rfl
    · exact Or.inr hc
  · have hf' : FirstSized hs W true m n P := by
      rcases hf with e | hf
      · omega
      · exact hf
    exact hx.agree hW hold hf' hi h1 rfl h2 rfl ha ha' hP1

end

/-! ## An arbitrary `node_hash` -/

variable {H : Type} [DecidableEq H] (nodeHash : H → H → H)

theorem accepted_opens {a root : H} {i n : Nat} {P : List H}
    (h : (verifyInclusion (.pairs nodeHash) a i n P root).val = true) :
    Opens (.pairs nodeHash) i n a P root (verifyInclusion (.pairs nodeHash) a i n P root).calls := by
  rw [← verifyInclusion_iff, ← h]

/-- Tamper evidence: for any roots, a leaf accepted in the old tree and a leaf
    accepted at its index in a tree proved to extend it are equal, or two of the
    `node_hash` calls the three runs made collide. -/
theorem tamper_evidence (m n : Nat) (P : List H) (oldRoot newRoot : H) (i : Nat) (hi : i < m) (a b : H)
    (Q1 Q2 : List H) (hc : (verifyConsistency (.pairs nodeHash) m n P oldRoot newRoot).val = true)
    (h1 : (verifyInclusion (.pairs nodeHash) a i m Q1 oldRoot).val = true)
    (h2 : (verifyInclusion (.pairs nodeHash) b i n Q2 newRoot).val = true) :
    a = b ∨ Collides (fun p : H × H => nodeHash p.1 p.2)
      ((verifyConsistency (.pairs nodeHash) m n P oldRoot newRoot).calls ++
        ((verifyInclusion (.pairs nodeHash) a i m Q1 oldRoot).calls ++
          (verifyInclusion (.pairs nodeHash) b i n Q2 newRoot).calls)) := by
  have hv : verifyConsistency (.pairs nodeHash) m n P oldRoot newRoot =
      ⟨true, (verifyConsistency (.pairs nodeHash) m n P oldRoot newRoot).calls⟩ := by rw [← hc]
  have hf : m = n ∨ FirstSized (.pairs nodeHash) (fun _ : H => True) true m n P := by
    rcases verifyConsistency_iff.mp hv with ⟨e, -⟩ | ⟨-, hmn, hx⟩
    · exact Or.inl e
    · right
      cases P with
      | cons x P => exact Or.inr (Or.inl ⟨x, rfl, trivial⟩)
      | nil => have := (hx.of_nil rfl).2; omega
  exact verified_agree (Hasher.pairs_cuts nodeHash) hi hv (accepted_opens nodeHash h1) (accepted_opens nodeHash h2)
    trivial hf trivial trivial (fun _ _ => trivial)

/-- Old size 2, new size 3 and leaf 1, with a numeric `node_hash`: the three runs accept. -/
theorem tamper_evidence_two_three :
    let h : Nat → Nat → Nat := fun x y => 2 * x + y
    (verifyConsistency (.pairs h) 2 3 [30] 40 110).val = true ∧ (verifyInclusion (.pairs h) 20 1 2 [10] 40).val = true ∧
      (verifyInclusion (.pairs h) 20 1 3 [10, 30] 110).val = true ∧
      (20 = 20 ∨ Collides (fun p : Nat × Nat => h p.1 p.2)
        ((verifyConsistency (.pairs h) 2 3 [30] 40 110).calls ++
          ((verifyInclusion (.pairs h) 20 1 2 [10] 40).calls ++ (verifyInclusion (.pairs h) 20 1 3 [10, 30] 110).calls))) :=
  ⟨by decide +kernel, by decide +kernel, by decide +kernel,
    tamper_evidence _ 2 3 [30] 40 110 1 (by decide) 20 20 [10] [10, 30] (by decide +kernel) (by decide +kernel)
      (by decide +kernel)⟩

/-- Inclusion proofs bind, for any root: one index, size and root take one leaf with one
    path, or two of the `node_hash` calls of the two runs collide. So against a real
    tree's root only the true leaf with the generated path is accepted. -/
theorem inclusion_binding :
    (∀ (n i : Nat) (root a b : H) (P Q : List H), (verifyInclusion (.pairs nodeHash) a i n P root).val = true →
      (verifyInclusion (.pairs nodeHash) b i n Q root).val = true →
      (a = b ∧ P = Q) ∨ Collides (fun p : H × H => nodeHash p.1 p.2)
        ((verifyInclusion (.pairs nodeHash) a i n P root).calls ++
          (verifyInclusion (.pairs nodeHash) b i n Q root).calls)) ∧
    (∀ (leafHashes : List H) (i : Nat) (hi : i < leafHashes.length) (root a : H) (P : List H),
      (mth (.pairs nodeHash) leafHashes).val = some root →
      (verifyInclusion (.pairs nodeHash) a i leafHashes.length P root).val = true →
      ∃ proof, inclusionProof (.pairs nodeHash) leafHashes i = .ok proof ∧
        ((a = leafHashes[i] ∧ P = proof) ∨ Collides (fun p : H × H => nodeHash p.1 p.2)
          ((verifyInclusion (.pairs nodeHash) a i leafHashes.length P root).calls ++
            (verifyInclusion (.pairs nodeHash) leafHashes[i] i leafHashes.length proof root).calls))) := by
  have first : ∀ (n i : Nat) (root a b : H) (P Q : List H),
      (verifyInclusion (.pairs nodeHash) a i n P root).val = true →
      (verifyInclusion (.pairs nodeHash) b i n Q root).val = true →
      (a = b ∧ P = Q) ∨ Collides (fun p : H × H => nodeHash p.1 p.2)
        ((verifyInclusion (.pairs nodeHash) a i n P root).calls ++
          (verifyInclusion (.pairs nodeHash) b i n Q root).calls) :=
    fun n i root a b P Q h1 h2 => (accepted_opens nodeHash h1).binding (Hasher.pairs_cuts nodeHash)
      (accepted_opens nodeHash h2) rfl trivial trivial
  refine ⟨first, fun leafHashes i hi root a P hr h => ?_⟩
  obtain ⟨proof, r, c, hp, hr', ho, -⟩ := inclusionProof_opens (.pairs nodeHash) (List.getElem?_eq_getElem hi)
  obtain rfl : r = root := by rw [hr'] at hr; exact Option.some.inj hr
  exact ⟨proof, hp, first _ _ _ _ _ _ _ h (by rw [verifyInclusion_iff.mpr ho])⟩

theorem inclusion_binding_second_of_three :
    let h : Nat → Nat → Nat := fun x y => 2 * x + y
    (verifyInclusion (.pairs h) 20 1 3 [10, 30] 110).val = true ∧
      ((20 = 20 ∧ [10, 30] = [10, 30]) ∨ Collides (fun p : Nat × Nat => h p.1 p.2)
        ((verifyInclusion (.pairs h) 20 1 3 [10, 30] 110).calls ++
          (verifyInclusion (.pairs h) 20 1 3 [10, 30] 110).calls)) ∧
      ∃ proof, inclusionProof (.pairs h) [10, 20, 30] 1 = .ok proof ∧
        ((20 = 20 ∧ [10, 30] = proof) ∨ Collides (fun p : Nat × Nat => h p.1 p.2)
          ((verifyInclusion (.pairs h) 20 1 3 [10, 30] 110).calls ++
            (verifyInclusion (.pairs h) 20 1 3 proof 110).calls)) :=
  ⟨by decide +kernel, (inclusion_binding _).1 3 1 110 20 20 [10, 30] [10, 30] (by decide +kernel) (by decide +kernel),
    (inclusion_binding _).2 [10, 20, 30] 1 (by decide) 110 20 [10, 30] (by decide +kernel) (by decide +kernel)⟩

/-- Consistency proofs are not malleable: between two sizes and two roots one proof is
    accepted, or two of the `node_hash` calls of the two runs collide; and every accepted
    proof has the length the sizes say. -/
theorem consistency_nonmalleable (m n : Nat) (oldRoot newRoot : H) (P Q : List H)
    (hP : (verifyConsistency (.pairs nodeHash) m n P oldRoot newRoot).val = true)
    (hQ : (verifyConsistency (.pairs nodeHash) m n Q oldRoot newRoot).val = true) :
    (P = Q ∨ Collides (fun p : H × H => nodeHash p.1 p.2)
      ((verifyConsistency (.pairs nodeHash) m n P oldRoot newRoot).calls ++
        (verifyConsistency (.pairs nodeHash) m n Q oldRoot newRoot).calls)) ∧
    P.length = subproofLength m n true ∧ Q.length = subproofLength m n true := by
  have length : ∀ R : List H, (verifyConsistency (.pairs nodeHash) m n R oldRoot newRoot).val = true →
      (m = n ∧ R = []) ∨ (m < n ∧ Extends (.pairs nodeHash) oldRoot m n true R oldRoot newRoot
        (verifyConsistency (.pairs nodeHash) m n R oldRoot newRoot).calls) := by
    intro R hR
    rcases verifyConsistency_iff.mp (show verifyConsistency (.pairs nodeHash) m n R oldRoot newRoot =
      ⟨true, (verifyConsistency (.pairs nodeHash) m n R oldRoot newRoot).calls⟩ by rw [← hR]) with ⟨e, hR, -⟩ | ⟨-, hmn, hx⟩
    · exact Or.inl ⟨e, hR⟩
    · exact Or.inr ⟨hmn, hx⟩
  rcases length P hP with ⟨rfl, rfl⟩ | ⟨hmn, hx⟩
  · rcases length Q hQ with ⟨-, rfl⟩ | ⟨hmn, -⟩
    · have h0 : subproofLength m m true = 0 := by rw [subproofLength, if_pos rfl]; rfl
      exact ⟨Or.inl rfl, h0.symm, h0.symm⟩
    · omega
  · rcases length Q hQ with ⟨rfl, -⟩ | ⟨-, hy⟩
    · omega
    · exact ⟨hx.binding Prod.mk.inj hy rfl rfl, hx.length, hy.length⟩

theorem consistency_nonmalleable_three_five :
    let h : Nat → Nat → Nat := fun x y => 2 * x + y
    (verifyConsistency (.pairs h) 3 5 [30, 40, 40, 50] 110 410).val = true ∧
      ([30, 40, 40, 50] = [30, 40, 40, 50] ∨ Collides (fun p : Nat × Nat => h p.1 p.2)
        ((verifyConsistency (.pairs h) 3 5 [30, 40, 40, 50] 110 410).calls ++
          (verifyConsistency (.pairs h) 3 5 [30, 40, 40, 50] 110 410).calls)) ∧ subproofLength 3 5 true = 4 :=
  ⟨by decide +kernel, (consistency_nonmalleable _ 3 5 110 410 _ _ (by decide +kernel) (by decide +kernel)).1,
    (consistency_nonmalleable (fun x y => 2 * x + y) 3 5 110 410 [30, 40, 40, 50] [30, 40, 40, 50] (by decide +kernel)
      (by decide +kernel)).2.1.symm⟩

end Settled.Core
