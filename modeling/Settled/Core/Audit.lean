/-
  Settled.Core.Audit — a client that follows the log from head to head with
  `verify_consistency` (`settled-core/src/proof.rs`), for arbitrary heads.

  The client holds a head and moves on to a later one when the proof between the two is
  accepted (`follow`). The heads it skipped over do not matter:

  - `follow_composes`: between any two heads of an accepted chain there is a proof that
    `verify_consistency` accepts directly, made of nothing but hashes the chain has made,
    or two of the chain's queries collide (`Extends.trans`).
  - `follow_tamper_evidence`: an entry shown against one head of the chain and the entry
    shown at its index against any other are one, or the runs made colliding queries.
  - `follow_prefix_of_leaves`: where the two heads are the roots of real trees, the leaves
    of the earlier one are the first leaves of the later one.
  - `fork_consistency`: two clients whose chains ever meet in one head agree on every
    size both have seen, or their queries collide (`Extends.old_binding`): a server that
    has shown two histories can never bring the two clients together again.

  As everywhere in the core, the collision is among the queries the runs made.
-/

import Settled.Core.TamperEvidence

namespace Settled.Core

open Settled.Lib

/-! ## Derivations compose -/

section

variable {H Q : Type} {hs : Hasher H Q}

theorem Extends.size {old o w : H} {m n : Nat} {b : Bool} {P : List H} {c : List Q} (h : Extends hs old m n b P o w c) :
    m = n ∨ (0 < m ∧ m < n) := by
  cases h with
  | shared => exact Or.inl rfl
  | elem => exact Or.inl rfl
  | left _ h1 h2 => exact Or.inr ⟨h1, h2⟩
  | right _ h1 h2 => exact Or.inr ⟨by omega, h2⟩

/-- `old_root` enters a derivation as the old root it rebuilds, or not at all. -/
theorem Extends.rebase {old old' o w : H} {m n : Nat} {b : Bool} {P : List H} {c : List Q}
    (h : Extends hs old m n b P o w c) (hb : b = true → old' = o) : Extends hs old' m n b P o w c := by
  induction h with
  | shared n =>
    rw [hb rfl]
    exact .shared n
  | elem n x => exact .elem n x
  | left rh h1 h2 h3 _ ih => exact .left rh h1 h2 h3 (ih hb)
  | right lh h1 h2 _ ih => exact .right lh h1 h2 (ih fun hf => by cases hf)

/-- `verify_consistency` accepts exactly where a derivation from `old_root` to itself and
    `new_root` is. -/
theorem accepts_iff_extends [DecidableEq H] {m n : Nat} {P : List H} {old new : H} {c : List Q} :
    verifyConsistency hs m n P old new = ⟨true, c⟩ ↔ Extends hs old m n true P old new c := by
  rw [verifyConsistency_iff]
  constructor
  · intro h
    rcases h with ⟨rfl, rfl, rfl, rfl⟩ | ⟨-, -, hx⟩
    · exact .shared m
    · exact hx
  · intro h
    rcases h.size with rfl | ⟨h1, h2⟩
    · cases h with
      | shared => exact Or.inl ⟨rfl, rfl, rfl, rfl⟩
      | left _ _ hlt => omega
      | right _ _ hlt => omega
    · exact Or.inr ⟨h1, h2, h⟩

variable (hq : ∀ {a b c d : H}, hs.query a b = hs.query c d → a = c ∧ b = d)

include hq

/-- Two derivations in a row are one, made of their queries. -/
theorem Extends.trans {old₂ o₂ w₂ : H} {n p : Nat} {b : Bool} {P₂ : List H} {c₂ : List Q}
    (h₂ : Extends hs old₂ n p b P₂ o₂ w₂ c₂) : ∀ {old o w : H} {m : Nat} {P : List H} {c : List Q},
    Extends hs old m n b P o w c → w = o₂ →
      (∃ P' c', Extends hs old m p b P' o w₂ c' ∧ ∀ q ∈ c', q ∈ c ++ c₂) ∨ Collides hs.digest (c ++ c₂) := by
  induction h₂ with
  | shared n =>
    intro old o w m P c h hw
    subst hw
    exact Or.inl ⟨P, c, h, fun q hq' => List.mem_append_left _ hq'⟩
  | elem n x =>
    intro old o w m P c h hw
    subst hw
    exact Or.inl ⟨P, c, h, fun q hq' => List.mem_append_left _ hq'⟩
  | @left n p b P₂ lo ln c₂ rh h1 h2 h3 h₂ ih =>
    intro old o w m P c h hw
    have hm : 0 < m ∧ m ≤ n := by
      rcases h.size with e | e
      · omega
      · omega
    rcases ih h hw with ⟨P', c', hx, hc'⟩ | hc
    · exact Or.inl ⟨P' ++ [rh], c' ++ [hs.query ln rh], .left rh hm.1 (by omega) (by omega) hx, by grind⟩
    · exact Or.inr (hc.mono (by grind))
  | @right n p b P₂ ro rn c₂ lh h1 h2 h₂ ih =>
    intro old o w m P c h hw
    have hx₂ := Extends.right (b := b) lh h1 h2 h₂
    -- the middle tree is split where the last one is
    have hkn : k n = k p := k_stable h1 (by omega)
    cases h with
    | shared =>
      rw [← hw] at hx₂
      exact Or.inl ⟨_, _, hx₂.rebase fun _ => rfl, fun q hq' => List.mem_append_right _ hq'⟩
    | elem =>
      rw [← hw] at hx₂
      exact Or.inl ⟨_, _, hx₂.rebase (fun hf => by cases hf), fun q hq' => List.mem_append_right _ hq'⟩
    | @left _ _ _ P lo ln c rh g1 g2 g3 h =>
      -- the old tree lies in the left half, which the second proof gives whole
      rcases node_eq_or_collides (c := (c ++ [hs.query ln rh]) ++ (c₂ ++ [hs.query lh ro, hs.query lh rn])) (by simp)
        (by simp) hw with he | hc
      · obtain ⟨rfl, rfl⟩ := hq he
        rw [hkn] at g3 h
        exact Or.inl ⟨_, _, .left rn g1 (by omega) g3 h, by grind⟩
      · exact Or.inr hc
    | @right _ _ _ P ro' rn' c lh' g1 g2 h =>
      rcases node_eq_or_collides
        (c := (c ++ [hs.query lh' ro', hs.query lh' rn']) ++ (c₂ ++ [hs.query lh ro, hs.query lh rn])) (by simp) (by simp) hw
        with he | hc
      · obtain ⟨rfl, hrn⟩ := hq he
        rw [hkn] at g1 h
        rcases ih h hrn with ⟨P', c', hx, hc'⟩ | hc
        · exact Or.inl ⟨_, _, .right lh' g1 (by omega) hx, by grind⟩
        · exact Or.inr (hc.mono (by grind))
      · exact Or.inr hc

/-- One new root has one old root of each size. -/
theorem Extends.old_binding {old o w : H} {m n : Nat} {b : Bool} {P : List H} {c : List Q}
    (h : Extends hs old m n b P o w c) : ∀ {old' o' w' : H} {P' : List H} {c' : List Q},
    Extends hs old' m n b P' o' w' c' → w = w' → o = o' ∨ Collides hs.digest (c ++ c') := by
  induction h with
  | shared n =>
    intro old' o' w' P' c' h' hw
    cases h' with
    | shared => exact Or.inl hw
    | left _ _ hlt => omega
    | right _ _ hlt => omega
  | elem n x =>
    intro old' o' w' P' c' h' hw
    cases h' with
    | elem => exact Or.inl hw
    | left _ _ hlt => omega
    | right _ _ hlt => omega
  | @left m n b P lo ln c rh h1 h2 h3 h ih =>
    intro old' o' w' P' c' h' hw
    cases h' with
    | shared => omega
    | elem => omega
    | right _ h4 => omega
    | @left _ _ _ P' _ ln' c' rh' _ _ _ h' =>
      rcases node_eq_or_collides (c := (c ++ [hs.query ln rh]) ++ (c' ++ [hs.query ln' rh'])) (by simp) (by simp) hw
        with he | hc
      · rcases ih h' (hq he).1 with ho | hc
        · exact Or.inl ho
        · exact Or.inr (hc.mono (by grind))
      · exact Or.inr hc
  | @right m n b P ro rn c lh h1 h2 h ih =>
    intro old' o' w' P' c' h' hw
    cases h' with
    | shared => omega
    | elem => omega
    | left _ _ _ h4 => omega
    | @right _ _ _ P' ro' rn' c' lh' _ _ h' =>
      rcases node_eq_or_collides
        (c := (c ++ [hs.query lh ro, hs.query lh rn]) ++ (c' ++ [hs.query lh' ro', hs.query lh' rn'])) (by simp) (by simp) hw
        with he | hc
      · obtain ⟨rfl, hrn⟩ := hq he
        rcases ih h' hrn with rfl | hc
        · exact Or.inl rfl
        · exact Or.inr (hc.mono (by grind))
      · exact Or.inr hc

end

/-! ## Following the log -/

/-- What a client keeps of a tree head. -/
structure Checkpoint (H : Type) where
  size : Nat
  root : H
  deriving DecidableEq

variable {H Q : Type} [DecidableEq H] (hs : Hasher H Q)

/-- From the head `c`, move on over each of `heads` with its proof; `false` at the first
    proof that is refused. -/
def follow (c : Checkpoint H) : List (Checkpoint H × List H) → Traced Q Bool
  | [] => pure true
  | (d, proof) :: heads => do
    if ← verifyConsistency hs c.size d.size proof c.root d.root then follow d heads else pure false

/-- All the heads of a chain. -/
def chain (c : Checkpoint H) (heads : List (Checkpoint H × List H)) : List (Checkpoint H) := c :: heads.map (·.1)

variable {hs}

theorem follow_cons {c d : Checkpoint H} {proof : List H} {heads : List (Checkpoint H × List H)}
    (h : (follow hs c ((d, proof) :: heads)).val = true) :
    ∃ q, Extends hs c.root c.size d.size true proof c.root d.root q ∧ (follow hs d heads).val = true ∧
      (follow hs c ((d, proof) :: heads)).calls = q ++ (follow hs d heads).calls := by
  rw [follow, Traced.val_bind] at h
  rw [follow, Traced.calls_bind]
  cases hv : (verifyConsistency hs c.size d.size proof c.root d.root).val with
  | false =>
    rw [hv] at h
    cases h
  | true =>
    rw [hv] at h
    exact ⟨_, accepts_iff_extends.mp (by rw [← hv]), h, rfl⟩

section

variable (hq : ∀ {a b c d : H}, hs.query a b = hs.query c d → a = c ∧ b = d)

include hq

/-- From the first head to each. -/
theorem follow_first : ∀ {heads : List (Checkpoint H × List H)} {c : Checkpoint H}, (follow hs c heads).val = true →
    ∀ d ∈ chain c heads, (∃ P q, Extends hs c.root c.size d.size true P c.root d.root q ∧ ∀ x ∈ q, x ∈ (follow hs c heads).calls) ∨
      Collides hs.digest (follow hs c heads).calls := by
  intro heads
  induction heads with
  | nil =>
    intro c _ d hd
    obtain rfl : d = c := List.mem_singleton.mp hd
    exact Or.inl ⟨[], [], .shared _, fun x hx => by cases hx⟩
  | cons e heads ih =>
    intro c h d hd
    obtain ⟨e, proof⟩ := e
    obtain ⟨q, hx, h', hcalls⟩ := follow_cons h
    rw [hcalls]
    rcases List.mem_cons.mp hd with rfl | hd
    · exact Or.inl ⟨[], [], .shared _, fun x hx => by cases hx⟩
    · rcases ih h' d hd with ⟨P', q', hx', hq'⟩ | hc
      · rcases hx'.trans hq hx rfl with ⟨P, r, hr, hrq⟩ | hc
        · exact Or.inl ⟨P, r, hr, by grind⟩
        · exact Or.inr (hc.mono (by grind))
      · exact Or.inr (hc.mono (by grind))

/-- From each head to each later one, and to itself. -/
theorem follow_pairs : ∀ {heads : List (Checkpoint H × List H)} {c : Checkpoint H}, (follow hs c heads).val = true →
    ∀ (i j : Nat) (x y : Checkpoint H), i ≤ j → (chain c heads)[i]? = some x → (chain c heads)[j]? = some y →
      (∃ P q, Extends hs x.root x.size y.size true P x.root y.root q ∧ ∀ z ∈ q, z ∈ (follow hs c heads).calls) ∨
        Collides hs.digest (follow hs c heads).calls := by
  intro heads
  induction heads with
  | nil =>
    intro c h i j x y hij hx hy
    have hi := (List.getElem?_eq_some_iff.mp hx).1
    obtain rfl : i = 0 := by simpa [chain] using hi
    cases hx
    exact follow_first hq h y (List.mem_of_getElem? hy)
  | cons e heads ih =>
    intro c h i j x y hij hx hy
    cases i with
    | zero =>
      cases hx
      exact follow_first hq h y (List.mem_of_getElem? hy)
    | succ i =>
      obtain ⟨d, proof⟩ := e
      obtain ⟨q, -, h', hcalls⟩ := follow_cons h
      rw [hcalls]
      cases j with
      | zero => omega
      | succ j =>
        rcases ih h' i j x y (by omega) hx hy with ⟨P, q', hx', hq'⟩ | hc
        · exact Or.inl ⟨P, q', hx', fun z hz => List.mem_append_right _ (hq' z hz)⟩
        · exact Or.inr (hc.mono fun z hz => List.mem_append_right _ hz)

end

/-! ## An arbitrary `node_hash` -/

section

variable (nodeHash : H → H → H)

/-- Consistency is transitive: for every accepted chain, from each head to each later one
    some proof is accepted, and that run makes only calls the chain's runs have made; or two
    of these collide. -/
theorem follow_composes (c : Checkpoint H) (heads : List (Checkpoint H × List H))
    (h : (follow (.pairs nodeHash) c heads).val = true) (i j : Nat) (x y : Checkpoint H) (hij : i ≤ j)
    (hx : (chain c heads)[i]? = some x) (hy : (chain c heads)[j]? = some y) :
    (∃ P, (verifyConsistency (.pairs nodeHash) x.size y.size P x.root y.root).val = true ∧
      ∀ q ∈ (verifyConsistency (.pairs nodeHash) x.size y.size P x.root y.root).calls,
        q ∈ (follow (.pairs nodeHash) c heads).calls) ∨
      Collides (fun p : H × H => nodeHash p.1 p.2) (follow (.pairs nodeHash) c heads).calls := by
  rcases follow_pairs Prod.mk.inj h i j x y hij hx hy with ⟨P, q, hxy, hq⟩ | hc
  · have hv := accepts_iff_extends.mpr hxy
    exact Or.inl ⟨P, by rw [hv], by rw [hv]; exact hq⟩
  · exact Or.inr hc

/-- Heads of 1, 2 and 3 leaves: straight from the first to the third. -/
theorem follow_composes_three :
    let h : Nat → Nat → Nat := fun x y => 2 * x + y
    (follow (.pairs h) ⟨1, 10⟩ [(⟨2, 40⟩, [20]), (⟨3, 110⟩, [30])]).val = true ∧
      ((∃ P, (verifyConsistency (.pairs h) 1 3 P 10 110).val = true ∧
        ∀ q ∈ (verifyConsistency (.pairs h) 1 3 P 10 110).calls,
          q ∈ (follow (.pairs h) ⟨1, 10⟩ [(⟨2, 40⟩, [20]), (⟨3, 110⟩, [30])]).calls) ∨
        Collides (fun p : Nat × Nat => h p.1 p.2) (follow (.pairs h) ⟨1, 10⟩ [(⟨2, 40⟩, [20]), (⟨3, 110⟩, [30])]).calls) :=
  ⟨by decide +kernel,
    follow_composes _ ⟨1, 10⟩ [(⟨2, 40⟩, [20]), (⟨3, 110⟩, [30])] (by decide +kernel) 0 2 ⟨1, 10⟩ ⟨3, 110⟩ (by decide) rfl rfl⟩

/-- A leaf opened against one head of a chain and the leaf opened at its index against a
    later one. -/
theorem chain_agree {c : Checkpoint H} {heads : List (Checkpoint H × List H)} (h : (follow (.pairs nodeHash) c heads).val = true)
    {i j : Nat} {x y : Checkpoint H} (hij : i ≤ j) (hx : (chain c heads)[i]? = some x) (hy : (chain c heads)[j]? = some y)
    {index : Nat} {a b : H} {Q₁ Q₂ : List H} {c₁ c₂ : List (H × H)} (o₁ : Opens (.pairs nodeHash) index x.size a Q₁ x.root c₁)
    (o₂ : Opens (.pairs nodeHash) index y.size b Q₂ y.root c₂) :
    a = b ∨ Collides (fun p : H × H => nodeHash p.1 p.2) ((follow (.pairs nodeHash) c heads).calls ++ (c₁ ++ c₂)) := by
  rcases follow_pairs Prod.mk.inj h i j x y hij hx hy with ⟨P, q, hxy, hq⟩ | hc
  · have hf : x.size = y.size ∨ FirstSized (.pairs nodeHash) (fun _ : H => True) true x.size y.size P := by
      cases P with
      | cons s P => exact Or.inr (Or.inr (Or.inl ⟨s, rfl, trivial⟩))
      | nil => exact Or.inl (hxy.of_nil rfl).2
    rcases verified_agree (Hasher.pairs_cuts nodeHash) o₁.climbs.1 (accepts_iff_extends.mpr hxy) o₁ o₂ trivial hf trivial
      trivial (fun _ _ => trivial) with e | hc
    · exact Or.inl e
    · refine Or.inr (hc.mono fun z hz => ?_)
      rcases List.mem_append.mp hz with hz | hz
      · exact List.mem_append_left _ (hq z hz)
      · exact List.mem_append_right _ hz
  · exact Or.inr (hc.mono fun z hz => List.mem_append_left _ hz)

/-- Tamper evidence along a chain: an entry accepted at an index against one head of an
    accepted chain is the entry accepted there against any later head, however many heads lie
    between the two; or two of the calls made collide. -/
theorem follow_tamper_evidence (c : Checkpoint H) (heads : List (Checkpoint H × List H))
    (h : (follow (.pairs nodeHash) c heads).val = true) (i j : Nat) (x y : Checkpoint H) (hij : i ≤ j)
    (hx : (chain c heads)[i]? = some x) (hy : (chain c heads)[j]? = some y) (index : Nat) (a b : H) (Q₁ Q₂ : List H)
    (h₁ : (verifyInclusion (.pairs nodeHash) a index x.size Q₁ x.root).val = true)
    (h₂ : (verifyInclusion (.pairs nodeHash) b index y.size Q₂ y.root).val = true) :
    a = b ∨ Collides (fun p : H × H => nodeHash p.1 p.2)
      ((follow (.pairs nodeHash) c heads).calls ++
        ((verifyInclusion (.pairs nodeHash) a index x.size Q₁ x.root).calls ++
          (verifyInclusion (.pairs nodeHash) b index y.size Q₂ y.root).calls)) :=
  chain_agree nodeHash h hij hx hy (accepted_opens nodeHash h₁) (accepted_opens nodeHash h₂)

/-- Leaf 0 against the heads of 1 and of 3 leaves. -/
theorem follow_tamper_evidence_three :
    let h : Nat → Nat → Nat := fun x y => 2 * x + y
    (follow (.pairs h) ⟨1, 10⟩ [(⟨2, 40⟩, [20]), (⟨3, 110⟩, [30])]).val = true ∧
      (verifyInclusion (.pairs h) 10 0 1 [] 10).val = true ∧ (verifyInclusion (.pairs h) 10 0 3 [20, 30] 110).val = true ∧
      (10 = 10 ∨ Collides (fun p : Nat × Nat => h p.1 p.2)
        ((follow (.pairs h) ⟨1, 10⟩ [(⟨2, 40⟩, [20]), (⟨3, 110⟩, [30])]).calls ++
          ((verifyInclusion (.pairs h) 10 0 1 [] 10).calls ++ (verifyInclusion (.pairs h) 10 0 3 [20, 30] 110).calls))) :=
  ⟨by decide +kernel, by decide +kernel, by decide +kernel,
    follow_tamper_evidence _ ⟨1, 10⟩ [(⟨2, 40⟩, [20]), (⟨3, 110⟩, [30])] (by decide +kernel) 0 2 ⟨1, 10⟩ ⟨3, 110⟩ (by decide) rfl
      rfl 0 10 10 [] [20, 30] (by decide +kernel) (by decide +kernel)⟩

/-- What a chain between two real trees says: the leaves of the earlier one are the first
    leaves of the later one, or two of the calls made collide. -/
theorem follow_prefix_of_leaves (c : Checkpoint H) (heads : List (Checkpoint H × List H))
    (h : (follow (.pairs nodeHash) c heads).val = true) (i j : Nat) (x y : Checkpoint H) (hij : i ≤ j)
    (hx : (chain c heads)[i]? = some x) (hy : (chain c heads)[j]? = some y) (old new : List H)
    (hold : old.length = x.size) (hnew : new.length = y.size) (hroot : (mth (.pairs nodeHash) old).val = some x.root)
    (hroot' : (mth (.pairs nodeHash) new).val = some y.root) :
    old = new.take old.length ∨ Collides (fun p : H × H => nodeHash p.1 p.2)
      ((follow (.pairs nodeHash) c heads).calls ++ ((mth (.pairs nodeHash) old).calls ++ (mth (.pairs nodeHash) new).calls)) := by
  by_cases hcol : Collides (fun p : H × H => nodeHash p.1 p.2)
      ((follow (.pairs nodeHash) c heads).calls ++ ((mth (.pairs nodeHash) old).calls ++ (mth (.pairs nodeHash) new).calls))
  · exact Or.inr hcol
  · have hle : x.size ≤ y.size := by
      rcases follow_pairs Prod.mk.inj h i j x y hij hx hy with ⟨P, q, hxy, -⟩ | hc
      · rcases hxy.size with e | e
        · omega
        · omega
      · exact absurd (hc.mono fun z hz => List.mem_append_left _ hz) hcol
    left
    apply List.ext_getElem?
    intro index
    by_cases hi : index < old.length
    · have hi' : index < new.length := by omega
      rw [List.getElem?_take_of_lt hi]
      obtain ⟨P₁, r₁, c₁, -, hr₁, o₁, hc₁⟩ :=
        opens_path (.pairs nodeHash) old.length old index old[index] rfl (List.getElem?_eq_getElem hi)
      obtain ⟨P₂, r₂, c₂, -, hr₂, o₂, hc₂⟩ :=
        opens_path (.pairs nodeHash) new.length new index new[index] rfl (List.getElem?_eq_getElem hi')
      rw [hroot, Option.some.injEq] at hr₁
      rw [hroot', Option.some.injEq] at hr₂
      rw [hold, ← hr₁] at o₁
      rw [hnew, ← hr₂] at o₂
      rcases chain_agree nodeHash h hij hx hy o₁ o₂ with e | hc
      · rw [List.getElem?_eq_getElem hi, List.getElem?_eq_getElem hi', e]
      · refine absurd (hc.mono fun z hz => ?_) hcol
        simp only [List.mem_append] at hz ⊢
        rcases hz with hz | hz | hz
        · exact Or.inl hz
        · exact Or.inr (Or.inl (hc₁ z hz))
        · exact Or.inr (Or.inr (hc₂ z hz))
    · rw [List.getElem?_eq_none (by omega), List.getElem?_eq_none (by rw [List.length_take]; omega)]

theorem follow_prefix_of_leaves_three :
    let h : Nat → Nat → Nat := fun x y => 2 * x + y
    (follow (.pairs h) ⟨1, 10⟩ [(⟨2, 40⟩, [20]), (⟨3, 110⟩, [30])]).val = true ∧
      ([10] = [10, 20, 30].take 1 ∨ Collides (fun p : Nat × Nat => h p.1 p.2)
        ((follow (.pairs h) ⟨1, 10⟩ [(⟨2, 40⟩, [20]), (⟨3, 110⟩, [30])]).calls ++
          ((mth (.pairs h) [10]).calls ++ (mth (.pairs h) [10, 20, 30]).calls))) :=
  ⟨by decide +kernel,
    follow_prefix_of_leaves _ ⟨1, 10⟩ [(⟨2, 40⟩, [20]), (⟨3, 110⟩, [30])] (by decide +kernel) 0 2 ⟨1, 10⟩ ⟨3, 110⟩ (by decide) rfl
      rfl [10] [10, 20, 30] rfl rfl (by decide +kernel) (by decide +kernel)⟩

/-- No way back from a fork: if the accepted chains of two clients have a head in common,
    then whatever heads of one size the two have accepted before it have one root; or two of
    the calls made collide. -/
theorem fork_consistency (c d : Checkpoint H) (cs ds : List (Checkpoint H × List H))
    (hc : (follow (.pairs nodeHash) c cs).val = true) (hd : (follow (.pairs nodeHash) d ds).val = true)
    (i j i' j' : Nat) (x y z : Checkpoint H) (hij : i ≤ j) (hij' : i' ≤ j')
    (hx : (chain c cs)[i]? = some x) (hy : (chain d ds)[i']? = some y) (hsize : x.size = y.size)
    (hz : (chain c cs)[j]? = some z) (hz' : (chain d ds)[j']? = some z) :
    x.root = y.root ∨ Collides (fun p : H × H => nodeHash p.1 p.2)
      ((follow (.pairs nodeHash) c cs).calls ++ (follow (.pairs nodeHash) d ds).calls) := by
  rcases follow_pairs Prod.mk.inj hc i j x z hij hx hz with ⟨P, q, hxz, hq⟩ | hcol
  · rcases follow_pairs Prod.mk.inj hd i' j' y z hij' hy hz' with ⟨P', q', hyz, hq'⟩ | hcol
    · rw [← hsize] at hyz
      rcases hxz.old_binding Prod.mk.inj hyz rfl with e | hcol
      · exact Or.inl e
      · refine Or.inr (hcol.mono fun w hw => ?_)
        rcases List.mem_append.mp hw with hw | hw
        · exact List.mem_append_left _ (hq w hw)
        · exact List.mem_append_right _ (hq' w hw)
    · exact Or.inr (hcol.mono fun w hw => List.mem_append_right _ hw)
  · exact Or.inr (hcol.mono fun w hw => List.mem_append_left _ hw)

/-- One client goes from 2 leaves to 4 by 3, the other straight. -/
theorem fork_consistency_four :
    let h : Nat → Nat → Nat := fun x y => 2 * x + y
    (follow (.pairs h) ⟨2, 40⟩ [(⟨3, 110⟩, [30]), (⟨4, 180⟩, [30, 40, 40])]).val = true ∧
      (follow (.pairs h) ⟨2, 40⟩ [(⟨4, 180⟩, [100])]).val = true ∧
      (40 = 40 ∨ Collides (fun p : Nat × Nat => h p.1 p.2)
        ((follow (.pairs h) ⟨2, 40⟩ [(⟨3, 110⟩, [30]), (⟨4, 180⟩, [30, 40, 40])]).calls ++
          (follow (.pairs h) ⟨2, 40⟩ [(⟨4, 180⟩, [100])]).calls)) :=
  ⟨by decide +kernel, by decide +kernel,
    fork_consistency _ ⟨2, 40⟩ ⟨2, 40⟩ [(⟨3, 110⟩, [30]), (⟨4, 180⟩, [30, 40, 40])] [(⟨4, 180⟩, [100])] (by decide +kernel)
      (by decide +kernel) 0 2 0 1 ⟨2, 40⟩ ⟨2, 40⟩ ⟨4, 180⟩ (by decide) (by decide) rfl rfl rfl rfl rfl⟩

end

end Settled.Core
