/-
  Settled.Core.MerkleTree — the incremental tree holds the RFC 6962 root of what was
  appended to it.

  `Rep t L`: `t` is the tree over the leaves `L`. Its frontier has a slot for each bit of
  the size, and the slot of a set bit `l` is the root of the `2^l` leaves before the last
  `size % 2^l`. `append` keeps it and never indexes past the frontier (`Rep.append`);
  `root` is `mth` of the leaves (`Rep.root`), for any `node_hash`. Together, and with the
  levels below the width of the code's shifts: `incremental_tree`.
-/

import Settled.Core.Completeness

namespace Settled.Core

open Settled.Lib

section

variable {H Q : Type} (hs : Hasher H Q)

/-- A complete left half and a right half no larger: the node over the two roots. -/
theorem mth_append {p : Nat} {A B : List H} (hA : A.length = 2 ^ p) (hB : B ≠ []) (hle : B.length ≤ 2 ^ p) :
    ∃ a b, (mth hs A).val = some a ∧ (mth hs B).val = some b ∧ (mth hs (A ++ B)).val = some (hs.node a b) := by
  have hpos : 0 < 2 ^ p := Nat.two_pow_pos p
  have hb : 0 < B.length := List.length_pos_iff.mpr hB
  have hlen : (A ++ B).length = 2 ^ p + B.length := by rw [List.length_append, hA]
  have hk : k (A ++ B).length = 2 ^ p := by
    rw [k_eq, hlen]
    exact pow2Below_unique (by omega) (by rw [Nat.pow_succ]; omega)
  obtain ⟨a, b, ha, hb', hv, -⟩ := mth_split hs (L := A ++ B) (by omega)
  rw [hk, ← hA, List.take_left] at ha
  rw [hk, ← hA, List.drop_left] at hb'
  exact ⟨a, b, ha, hb', hv⟩

/-- The last `r` leaves. -/
def lastN {α : Type} (L : List α) (r : Nat) : List α := L.drop (L.length - r)

theorem length_lastN {α : Type} {L : List α} {r : Nat} (h : r ≤ L.length) : (lastN L r).length = r := by
  rw [lastN, List.length_drop]; omega

theorem lastN_zero {α : Type} (L : List α) : lastN L 0 = [] := by rw [lastN, Nat.sub_zero, List.drop_length]

theorem lastN_length {α : Type} (L : List α) : lastN L L.length = L := by rw [lastN, Nat.sub_self, List.drop_zero]

theorem lastN_add {α : Type} {L : List α} {m r : Nat} (h : m + r ≤ L.length) :
    lastN L (m + r) = (lastN L (m + r)).take m ++ lastN L r := by
  have hd : (lastN L (m + r)).drop m = lastN L r := by
    rw [lastN, List.drop_drop, lastN]
    congr 1
    omega
  rw [← hd, List.take_append_drop]

theorem length_take_lastN {α : Type} {L : List α} {m r : Nat} (h : m + r ≤ L.length) :
    ((lastN L (m + r)).take m).length = m := by
  rw [List.length_take, length_lastN h]; omega

theorem lastN_append_singleton {α : Type} {L : List α} {r : Nat} (h : r ≤ L.length) (x : α) :
    lastN (L ++ [x]) (r + 1) = lastN L r ++ [x] := by
  rw [lastN, List.length_append, List.length_singleton, show L.length + 1 - (r + 1) = L.length - r by omega,
    List.drop_append_of_le_length (by omega), lastN]

/-- A block that ends before the last leaf does not see it. -/
theorem take_lastN_append_singleton {α : Type} {L : List α} {m r : Nat} (h : m + r ≤ L.length) (x : α) :
    (lastN (L ++ [x]) (m + (r + 1))).take m = (lastN L (m + r)).take m := by
  rw [← Nat.add_assoc, lastN_append_singleton h, List.take_append_of_le_length (by rw [length_lastN h]; omega)]

namespace MerkleTree

/-- `t` is the tree over the leaves `L`. -/
structure Rep (t : MerkleTree H) (L : List H) : Prop where
  size : t.size = L.length
  slots : ∀ l, l < t.frontier.length ↔ 2 ^ l ≤ t.size
  block : ∀ l, t.size.testBit l = true →
    t.frontier[l]? = (mth hs ((lastN L (2 ^ l + t.size % 2 ^ l)).take (2 ^ l))).val

theorem Rep.new : Rep hs (new : MerkleTree H) [] where
  size := rfl
  slots l := by have := Nat.two_pow_pos l; simp only [MerkleTree.new, List.length_nil]; omega
  block l h := by simp [MerkleTree.new] at h

variable {hs} {t : MerkleTree H} {L : List H}

theorem Rep.mod_le (h : Rep hs t L) {l : Nat} (hb : t.size.testBit l = true) : 2 ^ l + t.size % 2 ^ l ≤ L.length := by
  rw [← mod_two_pow_succ_of_testBit hb, ← h.size]
  exact Nat.mod_le _ _

/-! ## Appending -/

/-- The loop of `append`: at level `l`, with all lower bits set, `hash` is the root of
    the last `2^l` leaves, the new one included. -/
theorem Rep.carry (h : Rep hs t L) (lh : H) (l : Nat) (hash : H) (hl : t.size % 2 ^ l = 2 ^ l - 1)
    (hhash : (mth hs (lastN (L ++ [lh]) (2 ^ l))).val = some hash) :
    ∃ l' hash', MerkleTree.carry hs t.frontier t.size l hash = some (l', hash') ∧ t.size.testBit l' = false ∧
      t.size % 2 ^ l' = 2 ^ l' - 1 ∧ (mth hs (lastN (L ++ [lh]) (2 ^ l'))).val = some hash' := by
  induction l, hash using MerkleTree.carry.induct hs t.frontier t.size with
  | case1 l hash hbit hnone =>
    have hb := and_one_shiftLeft_ne_zero.mp hbit
    have := (h.slots l).mpr (Nat.ge_two_pow_of_testBit hb)
    rw [List.getElem?_eq_none_iff] at hnone
    omega
  | case2 l hash hbit f hf ih =>
    have hb := and_one_shiftLeft_ne_zero.mp hbit
    have hpos : 0 < 2 ^ l := Nat.two_pow_pos l
    have hle := h.mod_le hb
    have hlen : 2 ^ l + 2 ^ l ≤ (L ++ [lh]).length := by rw [List.length_append, List.length_singleton]; omega
    -- the slot's block and the last `2^l` leaves are the last `2^(l+1)`
    have hblock : (lastN (L ++ [lh]) (2 ^ l + 2 ^ l)).take (2 ^ l) = (lastN L (2 ^ l + t.size % 2 ^ l)).take (2 ^ l) := by
      rw [← take_lastN_append_singleton hle lh, hl, show 2 ^ l - 1 + 1 = 2 ^ l by omega]
    have hne : lastN (L ++ [lh]) (2 ^ l) ≠ [] := by
      intro e
      have := length_lastN (L := L ++ [lh]) (r := 2 ^ l) (by omega)
      rw [e, List.length_nil] at this
      omega
    obtain ⟨a, b, ha, hb', hv⟩ := mth_append hs (length_take_lastN hlen) hne (by rw [length_lastN (by omega)])
    rw [hblock, ← h.block l hb, hf] at ha
    rw [hhash] at hb'
    rw [← lastN_add hlen, ← Option.some.inj ha, ← Option.some.inj hb', ← Nat.mul_two, ← Nat.pow_succ] at hv
    rw [MerkleTree.carry.eq_def, dif_pos hbit]
    simp only [hf]
    refine ih ?_ hv
    rw [mod_two_pow_succ_of_testBit hb, hl, Nat.pow_succ]
    omega
  | case3 l hash hbit =>
    have hb : t.size.testBit l = false := by rw [← Bool.not_eq_true, ← and_one_shiftLeft_ne_zero]; exact hbit
    exact ⟨l, hash, by rw [MerkleTree.carry.eq_def, dif_neg hbit], hb, hl, hhash⟩

/-- Zeroing the lower levels leaves the length and the other levels as they are. -/
theorem foldl_set_range (d : H) (F : List H) : ∀ n, ((List.range n).foldl (fun f l => f.set l d) F).length = F.length ∧
    ∀ i, n ≤ i → ((List.range n).foldl (fun f l => f.set l d) F)[i]? = F[i]? := by
  intro n
  induction n with
  | zero => exact ⟨rfl, fun i _ => rfl⟩
  | succ n ih =>
    rw [List.range_succ, List.foldl_append]
    refine ⟨by rw [List.foldl_cons, List.foldl_nil, List.length_set]; exact ih.1, fun i hi => ?_⟩
    rw [List.foldl_cons, List.foldl_nil, List.getElem?_set_ne (by omega)]
    exact ih.2 i (by omega)

/-- The level the loop stops at is a slot, or the first one past them. -/
theorem Rep.stop_le (h : Rep hs t L) {l : Nat} (hl : t.size % 2 ^ l = 2 ^ l - 1) : l ≤ t.frontier.length := by
  by_contra hgt
  have hslot := h.slots t.frontier.length
  have hpow : 2 ^ (t.frontier.length + 1) ≤ 2 ^ l := Nat.pow_le_pow_right (by omega) (by omega)
  have := Nat.mod_le t.size (2 ^ l)
  rw [Nat.pow_succ] at hpow
  omega

/-- A slot more exactly when the size reaches the next power of two. -/
theorem Rep.slots_succ (h : Rep hs t L) {l : Nat} (hl : t.size % 2 ^ l = 2 ^ l - 1) (hb : t.size.testBit l = false)
    (j : Nat) : j < max t.frontier.length (l + 1) ↔ 2 ^ j ≤ t.size + 1 := by
  have hj := h.slots j
  have hslot := h.slots l
  have hstop := h.stop_le hl
  by_cases hlt : l < t.frontier.length
  · rw [Nat.max_eq_left hlt, hj]
    refine ⟨by omega, fun hle => ?_⟩
    by_contra hgt
    have hjl := eq_of_succ_eq_two_pow hl hb (show t.size + 1 = 2 ^ j by omega)
    subst hjl
    omega
  · have hfull : t.size + 1 = 2 ^ l := by
      have hpos : 0 < 2 ^ l := Nat.two_pow_pos l
      have := Nat.mod_eq_of_lt (show t.size < 2 ^ l by omega)
      omega
    rw [Nat.max_eq_right (by omega), hfull, Nat.pow_le_pow_iff_right (by omega)]
    omega

theorem Rep.append [Inhabited H] (h : Rep hs t L) (lh : H) :
    ∃ t', t.append hs lh = some (L.length, t') ∧ Rep hs t' (L ++ [lh]) := by
  have h0 : (mth hs (lastN (L ++ [lh]) (2 ^ 0))).val = some lh := by
    rw [lastN, List.length_append, List.length_singleton, Nat.pow_zero, Nat.add_sub_cancel, List.drop_left, mth]
    rfl
  obtain ⟨l, hash, hc, hb, hl, hv⟩ := h.carry lh 0 lh (by omega) h0
  let F := if l < t.frontier.length then t.frontier.set l hash else t.frontier ++ [hash]
  let F' := (List.range l).foldl (fun f l => f.set l default) F
  have happ : t.append hs lh = some (t.size, ⟨F', t.size + 1⟩) := by rw [MerkleTree.append, hc]
  obtain ⟨hlen, hget⟩ := foldl_set_range default F l
  have hsize := h.size
  have hle := h.stop_le hl
  have hF : F.length = max t.frontier.length (l + 1) ∧ F[l]? = some hash ∧ ∀ j, l < j → F[j]? = t.frontier[j]? := by
    by_cases hlt : l < t.frontier.length
    · simp only [F, if_pos hlt]
      refine ⟨by rw [List.length_set]; omega, List.getElem?_set_self hlt, fun j hj => ?_⟩
      rw [List.getElem?_set_ne (by omega)]
    · have heq : l = t.frontier.length := by omega
      simp only [F, if_neg hlt]
      refine ⟨by rw [List.length_append, List.length_singleton]; omega, ?_, fun j hj => ?_⟩
      · rw [heq, List.getElem?_concat_length]
      · rw [List.getElem?_eq_none (by rw [List.length_append, List.length_singleton]; omega),
          List.getElem?_eq_none (by omega)]
  obtain ⟨hFlen, hFl, hFj⟩ := hF
  refine ⟨⟨F', t.size + 1⟩, by rw [happ, hsize], ?_, fun j => ?_, fun j hbit => ?_⟩
  · rw [List.length_append, List.length_singleton, ← hsize]
  · show j < F'.length ↔ 2 ^ j ≤ t.size + 1
    rw [hlen, hFlen]
    exact h.slots_succ hl hb j
  · show F'[j]? = (mth hs ((lastN (L ++ [lh]) (2 ^ j + (t.size + 1) % 2 ^ j)).take (2 ^ j))).val
    rcases Nat.lt_trichotomy j l with hjl | hjl | hjl
    · have hbit' : (t.size + 1).testBit j = true := hbit
      rw [succ_testBit_below hl hjl] at hbit'
      cases hbit'
    · subst hjl
      have hlen' : (lastN (L ++ [lh]) (2 ^ j)).length = 2 ^ j := by
        have hpos : 0 < 2 ^ j := Nat.two_pow_pos j
        have := Nat.mod_le t.size (2 ^ j)
        exact length_lastN (by rw [List.length_append, List.length_singleton]; omega)
      rw [hget j (Nat.le_refl j), succ_mod_two_pow_self hl, Nat.add_zero, List.take_of_length_le (by omega), hv]
      exact hFl
    · have hbit' : t.size.testBit j = true := by rw [← succ_testBit_above hl hb hjl]; exact hbit
      rw [hget j (by omega), hFj j hjl, h.block j hbit', succ_mod_two_pow hl hb hjl,
        take_lastN_append_singleton (h.mod_le hbit') lh]

/-! ## The root -/

theorem rootStep_spec (h : Rep hs t L) {l : Nat} {f : H} (hf : t.frontier[l]? = some f) :
    rootStep hs t.size (mth hs (lastN L (t.size % 2 ^ l))).val (f, l) = (mth hs (lastN L (t.size % 2 ^ (l + 1)))).val := by
  have hlt : t.size % 2 ^ l < 2 ^ l := Nat.mod_lt _ (Nat.two_pow_pos l)
  cases hb : t.size.testBit l with
  | false =>
    have hz : t.size &&& (1 <<< l) = 0 := by
      by_contra hne
      rw [and_one_shiftLeft_ne_zero.mp hne] at hb
      cases hb
    rw [rootStep.eq_def, if_pos hz, mod_two_pow_succ_of_not_testBit hb]
  | true =>
    have hle := h.mod_le hb
    have hblock := h.block l hb
    rw [hf] at hblock
    rw [rootStep.eq_def, if_neg (and_one_shiftLeft_ne_zero.mpr hb), mod_two_pow_succ_of_testBit hb]
    by_cases h0 : t.size % 2 ^ l = 0
    · rw [h0, Nat.add_zero, List.take_of_length_le (by rw [length_lastN (by omega)])] at hblock
      rw [h0, lastN_zero, Nat.add_zero, ← hblock, mth]
      rfl
    · have hne : lastN L (t.size % 2 ^ l) ≠ [] := by
        intro e
        have := length_lastN (L := L) (r := t.size % 2 ^ l) (by omega)
        rw [e, List.length_nil] at this
        omega
      obtain ⟨a, b, ha, hb', hv⟩ := mth_append hs (length_take_lastN hle) hne (by rw [length_lastN (by omega)]; omega)
      rw [← lastN_add hle] at hv
      rw [← hblock] at ha
      rw [hv, hb', Option.some.inj ha]

theorem Rep.root (h : Rep hs t L) : t.root hs = (mth hs L).val := by
  unfold MerkleTree.root
  by_cases h0 : t.size = 0
  · have hL : L = [] := List.length_eq_zero_iff.mp (by rw [← h.size]; exact h0)
    rw [if_pos h0, hL, mth]
    rfl
  rw [if_neg h0]
  -- from level `l` on, with `F` the slots left
  have hfold : ∀ (F : List H) (l : Nat), t.frontier.drop l = F → l + F.length = t.frontier.length →
      (F.zipIdx l).foldl (rootStep hs t.size) (mth hs (lastN L (t.size % 2 ^ l))).val =
        (mth hs (lastN L (t.size % 2 ^ t.frontier.length))).val := by
    intro F
    induction F with
    | nil => intro l _ hlen; rw [List.length_nil, Nat.add_zero] at hlen; rw [hlen]; rfl
    | cons f F ih =>
      intro l hd hlen
      have hf : t.frontier[l]? = some f := by
        have h0 : (t.frontier.drop l)[0]? = some f := by rw [hd, List.getElem?_cons_zero]
        rw [List.getElem?_drop, Nat.add_zero] at h0
        exact h0
      rw [List.zipIdx_cons, List.foldl_cons, rootStep_spec h hf]
      refine ih (l + 1) ?_ (by rw [List.length_cons] at hlen; omega)
      rw [← List.drop_drop, hd]
      rfl
  have hmod : t.size % 2 ^ t.frontier.length = t.size := by
    have := h.slots t.frontier.length
    exact Nat.mod_eq_of_lt (by omega)
  have := hfold t.frontier 0 rfl (Nat.zero_add _)
  rw [Nat.pow_zero, Nat.mod_one, lastN_zero, hmod, h.size, lastN_length] at this
  rw [← this, mth]
  rw [h.size]
  rfl

/-- Leaf by leaf. -/
theorem Rep.appendAll [Inhabited H] : ∀ (l : List H) {t : MerkleTree H} {L : List H}, Rep hs t L →
    ∃ t', t.appendAll hs l = some t' ∧ Rep hs t' (L ++ l) := by
  intro l
  induction l with
  | nil => intro t L h; exact ⟨t, rfl, by rw [List.append_nil]; exact h⟩
  | cons x l ih =>
    intro t L h
    obtain ⟨t1, ha, h1⟩ := h.append x
    obtain ⟨t2, hb, h2⟩ := ih h1
    refine ⟨t2, ?_, by rw [List.append_assoc] at h2; exact h2⟩
    rw [MerkleTree.appendAll, ha]
    exact hb

theorem appendAll_append [Inhabited H] {l : List H} : ∀ {t t' : MerkleTree H}, t.appendAll hs l = some t' →
    ∀ l', t.appendAll hs (l ++ l') = t'.appendAll hs l' := by
  induction l with
  | nil => intro t t' h l'; cases h; rfl
  | cons x l ih =>
    intro t t' h l'
    rw [List.cons_append, MerkleTree.appendAll]
    rw [MerkleTree.appendAll] at h
    split at h
    next => cases h
    next => exact ih h l'

/-- `1 << level` is tested at the levels of the frontier and at the one past them: below
    `2^63` leaves these are less than 64. -/
theorem Rep.frontier_le (h : Rep hs t L) {p : Nat} (hL : L.length < 2 ^ p) : t.frontier.length ≤ p := by
  by_contra hgt
  have := (h.slots p).mp (by omega)
  rw [h.size] at this
  omega

/-- The tree after any leaves, fewer than `2^63`: no append indexes past the frontier, and
    each returns the number of leaves before it; the size is the number of leaves, and the
    root is `mth` of them, which is none exactly for no leaves. -/
theorem incremental_tree [Inhabited H] (hs : Hasher H Q) (L : List H) (hL : L.length < 2 ^ 63) :
    (∃ t, new.appendAll hs L = some t ∧ t.size = L.length ∧ t.root hs = (mth hs L).val ∧ (t.root hs = none ↔ L = []) ∧
      t.frontier.length ≤ 63) ∧
    ∀ A lh B, L = A ++ lh :: B → ∃ t t', new.appendAll hs A = some t ∧ t.append hs lh = some (A.length, t') ∧
      new.appendAll hs (A ++ [lh]) = some t' := by
  obtain ⟨t, ht, h⟩ := Rep.appendAll L (Rep.new hs)
  rw [List.nil_append] at h
  refine ⟨⟨t, ht, h.size, h.root, ?_, h.frontier_le hL⟩, fun A lh B _ => ?_⟩
  · rw [h.root]
    constructor
    · intro h0
      by_contra hne
      obtain ⟨r, hr⟩ := mth_some hs _ L rfl hne
      rw [h0] at hr
      cases hr
    · intro h0
      rw [h0, mth]
      rfl
  · obtain ⟨tA, hA, hRep⟩ := Rep.appendAll A (Rep.new hs)
    rw [List.nil_append] at hRep
    obtain ⟨t', ht', -⟩ := hRep.append lh
    refine ⟨tA, t', hA, ht', ?_⟩
    rw [appendAll_append hA, MerkleTree.appendAll, ht']
    rfl

theorem incremental_tree_three :
    ∃ t, new.appendAll (.pairs fun a b => 2 * a + b) [10, 20, 30] = some t ∧ t.size = 3 ∧
      t.root (.pairs fun a b => 2 * a + b) = some 110 := by
  obtain ⟨⟨t, ht, hsize, hroot, -⟩, -⟩ := incremental_tree (.pairs fun a b => 2 * a + b) [10, 20, 30] (by decide)
  refine ⟨t, ht, hsize, ?_⟩
  rw [hroot, mth_triple]
  rfl

end MerkleTree

end

end Settled.Core
