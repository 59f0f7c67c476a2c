/-
  Settled.Storage.TreeStore — the tree CF (`tree_store.rs`): the hash of every complete
  subtree, by level and index, recomputed from a scan of the log.

  `compute_nodes_from_leaves` reads the children of a node from a cache of the nodes
  before it and panics (`none`) where one is missing. Over leaves numbered 0, 1, ... none
  is: after `n` leaves the cache has, for each level below 63, the root of every block of
  that size within them (`Cached`), and the list has each of these nodes once (`Filled`).
  So a rebuild of the CF, under its byte keys and whatever it held before, leaves exactly
  the complete subtrees of the log (`materialised_nodes`).
-/

import Mathlib.Tactic.Ring
import Settled.Core.MerkleTree
import Settled.Storage.Keys
import Settled.Storage.Store

namespace Settled.Storage

open Settled.Lib Settled.Core

/-- By level and index: the cache, and the CF itself, which is only read and written by
    key. -/
abbrev Nodes (H : Type) := Nat × Nat → Option H

def Nodes.put {H : Type} (nodes : Nodes H) (level index : Nat) (hash : H) : Nodes H :=
  fun key => if key = (level, index) then some hash else nodes key

theorem Nodes.put_self {H : Type} (nodes : Nodes H) (level index : Nat) (hash : H) :
    nodes.put level index hash (level, index) = some hash := if_pos rfl

theorem Nodes.put_of_ne {H : Type} {nodes : Nodes H} {level index l i : Nat} (hash : H) (h : (l, i) ≠ (level, index)) :
    nodes.put level index hash (l, i) = nodes (l, i) := if_neg h

structure Node (H : Type) where
  level : Nat
  index : Nat
  hash : H
  deriving DecidableEq

section

variable {H Q : Type} (hs : Hasher H Q)

/-- The `while` loop for leaf `j` at level `h`; `left` levels are left below 63. -/
def completeLevels (j : Nat) : (left h : Nat) → Nodes H → List (Node H) → Option (Nodes H × List (Node H))
  | 0, _, cache, nodes => some (cache, nodes)
  | left + 1, h, cache, nodes =>
    if (j + 1) % 2 ^ h = 0 then
      let idx := j >>> h
      match cache (h - 1, 2 * idx), cache (h - 1, 2 * idx + 1) with
      | some l, some r =>
        let parent := hs.node l r
        completeLevels j left (h + 1) (cache.put h idx parent) (nodes ++ [⟨h, idx, parent⟩])
      | _, _ => none
    else some (cache, nodes)

def computeNodesLoop : List (Nat × H) → Nodes H → List (Node H) → Option (List (Node H))
  | [], _, nodes => some nodes
  | (j, hash) :: leaves, cache, nodes =>
    match completeLevels hs j 62 1 (cache.put 0 j hash) (nodes ++ [⟨0, j, hash⟩]) with
    | none => none
    | some (cache, nodes) => computeNodesLoop leaves cache nodes

def computeNodesFromLeaves (leaves : List (Nat × H)) : Option (List (Node H)) :=
  computeNodesLoop hs leaves (fun _ => none) []

end

def writeNodes (tree : Nodes Hash) (nodes : List (Node Hash)) : Nodes Hash :=
  nodes.foldl (fun tree n => tree.put n.level n.index n.hash) tree

/-- The tree CF after a rebuild (it is cleared first), `none` if that panics. -/
def rebuildFromLog (sha256 : Bytes → Hash) (s : Store) : Option (Nodes Hash) :=
  match computeNodesFromLeaves (.sha sha256) ((s.seqRange 0 u64Max).map fun e => (e.seq, e.leafHash)) with
  | none => none
  | some nodes => some (writeNodes (fun _ => none) nodes)

/-! ## Over leaves without gaps no lookup misses -/

section

variable {H Q : Type} {hs : Hasher H Q}

/-- The `i`-th block of `2^h` leaves. -/
def block (L : List H) (h i : Nat) : List H := (L.drop (i * 2 ^ h)).take (2 ^ h)

theorem length_block {L : List H} {h i : Nat} (hi : (i + 1) * 2 ^ h ≤ L.length) : (block L h i).length = 2 ^ h := by
  rw [block, List.length_take, List.length_drop]
  rw [Nat.add_mul] at hi
  omega

theorem block_succ (L : List H) (h i : Nat) : block L (h + 1) i = block L h (2 * i) ++ block L h (2 * i + 1) := by
  have hi : i * 2 ^ (h + 1) = 2 * i * 2 ^ h := by rw [Nat.pow_succ]; ring
  have hi' : (2 * i + 1) * 2 ^ h = 2 * i * 2 ^ h + 2 ^ h := by ring
  rw [block, block, block, hi, hi', Nat.pow_succ, Nat.mul_two, List.take_add, List.drop_drop]

/-- The cache has the root of this block. -/
def Cached (hs : Hasher H Q) (L : List H) (cache : Nodes H) (h i : Nat) : Prop :=
  ∃ v, cache (h, i) = some v ∧ (mth hs (block L h i)).val = some v

theorem Cached.put_self {L : List H} {h i : Nat} {v : H} (hv : (mth hs (block L h i)).val = some v) (cache : Nodes H) :
    Cached hs L (cache.put h i v) h i := ⟨v, cache.put_self h i v, hv⟩

theorem Cached.put {L : List H} {cache : Nodes H} {h i l k : Nat} {v : H} (hc : Cached hs L cache l k)
    (hne : (l, k) ≠ (h, i)) : Cached hs L (cache.put h i v) l k := by
  obtain ⟨w, hw, hm⟩ := hc
  exact ⟨w, by rw [Nodes.put_of_ne v hne]; exact hw, hm⟩

/-- Two cached halves make their parent. -/
theorem Cached.parent {L : List H} {cache : Nodes H} {h i : Nat} (hi : (i + 1) * 2 ^ (h + 1) ≤ L.length)
    (hl : Cached hs L cache h (2 * i)) (hr : Cached hs L cache h (2 * i + 1)) :
    ∃ l r, cache (h, 2 * i) = some l ∧ cache (h, 2 * i + 1) = some r ∧
      (mth hs (block L (h + 1) i)).val = some (hs.node l r) := by
  obtain ⟨l, hl, hml⟩ := hl
  obtain ⟨r, hr, hmr⟩ := hr
  have hpos : 0 < 2 ^ h := Nat.two_pow_pos h
  have hle : (2 * i + 1 + 1) * 2 ^ h ≤ L.length := by
    have : (2 * i + 1 + 1) * 2 ^ h = (i + 1) * 2 ^ (h + 1) := by rw [Nat.pow_succ]; ring
    omega
  have hlenl : (block L h (2 * i)).length = 2 ^ h := length_block (by rw [Nat.add_mul] at hle; omega)
  have hlenr : (block L h (2 * i + 1)).length = 2 ^ h := length_block hle
  have hne : block L h (2 * i + 1) ≠ [] := by
    intro h0
    rw [h0, List.length_nil] at hlenr
    omega
  obtain ⟨a, b, ha, hb, hv⟩ := mth_append hs hlenl hne (Nat.le_of_eq hlenr)
  rw [hml, Option.some.injEq] at ha
  rw [hmr, Option.some.injEq] at hb
  exact ⟨l, r, hl, hr, by rw [block_succ, hv, ha, hb]⟩

/-- The blocks of the first `m` leaves. -/
def Within (m l i : Nat) : Prop := l < 63 ∧ (i + 1) * 2 ^ l ≤ m

/-- The blocks before leaf `j`, and those that end with it below level `h`. -/
def Upto (j h l i : Nat) : Prop := l < 63 ∧ (i + 1) * 2 ^ l ≤ j + 1 ∧ (l < h ∨ (i + 1) * 2 ^ l ≤ j)

def Node.key (n : Node H) : Nat × Nat := (n.level, n.index)

/-- The cache has the blocks of `D`, and the list has each of their nodes once. -/
structure Filled (hs : Hasher H Q) (L : List H) (D : Nat → Nat → Prop) (cache : Nodes H) (nodes : List (Node H)) : Prop where
  cached : ∀ l i, D l i → Cached hs L cache l i
  nodup : (nodes.map Node.key).Nodup
  mem : ∀ n, n ∈ nodes ↔ D n.level n.index ∧ (mth hs (block L n.level n.index)).val = some n.hash

theorem Filled.congr {L : List H} {D D' : Nat → Nat → Prop} {cache : Nodes H} {nodes : List (Node H)}
    (h : Filled hs L D cache nodes) (hD : ∀ l i, D' l i ↔ D l i) : Filled hs L D' cache nodes where
  cached l i hl := h.cached l i ((hD l i).mp hl)
  nodup := h.nodup
  mem n := by rw [hD]; exact h.mem n

/-- One node more. -/
theorem Filled.push {L : List H} {D D' : Nat → Nat → Prop} {cache : Nodes H} {nodes : List (Node H)}
    (h : Filled hs L D cache nodes) {l i : Nat} {v : H} (hnew : ¬ D l i) (hv : (mth hs (block L l i)).val = some v)
    (hD : ∀ l' i', D' l' i' ↔ D l' i' ∨ (l', i') = (l, i)) : Filled hs L D' (cache.put l i v) (nodes ++ [⟨l, i, v⟩]) where
  cached l' i' hl := by
    by_cases hkey : (l', i') = (l, i)
    · obtain ⟨rfl, rfl⟩ := Prod.mk.inj hkey
      exact Cached.put_self hv cache
    · exact Cached.put (h.cached l' i' (((hD l' i').mp hl).resolve_right hkey)) hkey
  nodup := by
    rw [List.map_append, List.map_singleton]
    refine List.nodup_append.mpr ⟨h.nodup, List.nodup_singleton _, fun a ha b hb => ?_⟩
    obtain ⟨n, hn, rfl⟩ := List.mem_map.mp ha
    rw [List.mem_singleton.mp hb]
    intro hkey
    obtain ⟨hl, hi⟩ := Prod.mk.inj hkey
    have hDn := ((h.mem n).mp hn).1
    rw [hl, hi] at hDn
    exact hnew hDn
  mem n := by
    rw [List.mem_append, List.mem_singleton, h.mem n, hD]
    constructor
    · intro hn
      rcases hn with ⟨hDn, hn⟩ | rfl
      · exact ⟨Or.inl hDn, hn⟩
      · exact ⟨Or.inr rfl, hv⟩
    · intro ⟨hDn, hn⟩
      rcases hDn with hDn | hkey
      · exact Or.inl ⟨hDn, hn⟩
      · obtain ⟨hl, hi⟩ := Prod.mk.inj hkey
        rw [hl, hi, hv] at hn
        cases n
        cases hl
        cases hi
        exact Or.inr (by rw [Option.some.inj hn])

/-- A leaf by itself. -/
theorem upto_one (j l i : Nat) : Upto j 1 l i ↔ Within j l i ∨ (l, i) = (0, j) := by
  constructor
  · intro ⟨hl, hi, hcase⟩
    by_cases hkey : (l, i) = (0, j)
    · exact Or.inr hkey
    · refine Or.inl ⟨hl, ?_⟩
      rcases hcase with h0 | h0
      · have hl0 : l = 0 := by omega
        subst hl0
        have hne : i ≠ j := fun h => hkey (by rw [h])
        rw [Nat.pow_zero] at hi ⊢
        omega
      · exact h0
  · intro h
    rcases h with ⟨hl, hi⟩ | hkey
    · exact ⟨hl, by omega, Or.inr hi⟩
    · obtain ⟨rfl, rfl⟩ := Prod.mk.inj hkey
      exact ⟨by omega, by rw [Nat.pow_zero]; omega, Or.inl Nat.one_pos⟩

/-- At level `h` the block that ends with leaf `j` is number `q - 1`, if `2^h` divides
    `j + 1` `q` times. -/
theorem upto_succ {j h q : Nat} (hh : h < 63) (hend : (q - 1 + 1) * 2 ^ h = j + 1) (l i : Nat) :
    Upto j (h + 1) l i ↔ Upto j h l i ∨ (l, i) = (h, q - 1) := by
  have hpow : 0 < 2 ^ h := Nat.two_pow_pos h
  constructor
  · intro ⟨hl, hi, hcase⟩
    by_cases hkey : (l, i) = (h, q - 1)
    · exact Or.inr hkey
    · refine Or.inl ⟨hl, hi, ?_⟩
      by_cases hlevel : l = h
      · subst hlevel
        have hne : (i + 1) * 2 ^ l ≠ j + 1 := by
          rw [← hend]
          intro heq
          have := Nat.eq_of_mul_eq_mul_right hpow heq
          exact hkey (by rw [show i = q - 1 by omega])
        exact Or.inr (by omega)
      · rcases hcase with hcase | hcase
        · exact Or.inl (by omega)
        · exact Or.inr hcase
  · intro hU
    rcases hU with ⟨hl, hi, hcase⟩ | hkey
    · exact ⟨hl, hi, hcase.imp_left fun h => by omega⟩
    · obtain ⟨rfl, rfl⟩ := Prod.mk.inj hkey
      exact ⟨hh, Nat.le_of_eq hend, Or.inl (Nat.lt_succ_self _)⟩

/-- No block of `2^h` leaves or more ends with leaf `j`. -/
theorem upto_stop {j h : Nat} (hmod : (j + 1) % 2 ^ h ≠ 0) (l i : Nat) : Within (j + 1) l i ↔ Upto j h l i := by
  constructor
  · intro ⟨hl, hi⟩
    refine ⟨hl, hi, ?_⟩
    by_cases hlevel : l < h
    · exact Or.inl hlevel
    · refine Or.inr (Nat.le_of_lt_succ (Nat.lt_of_le_of_ne hi fun heq => hmod ?_))
      have hdvd : 2 ^ h ∣ j + 1 := by
        rw [show j + 1 = (i + 1) * 2 ^ l from heq.symm]
        exact Nat.dvd_mul_left_of_dvd (Nat.pow_dvd_pow 2 (by omega)) _
      exact Nat.mod_eq_zero_of_dvd hdvd
  · intro ⟨hl, hi, _⟩
    exact ⟨hl, hi⟩

/-- The level loop, from level `h` on: with the levels below `h` of leaf `j` done and all
    blocks before it, it ends with all blocks up to and with leaf `j`. -/
theorem completeLevels_filled {L : List H} {j : Nat} (hj : j < L.length) : ∀ (left h : Nat) {cache : Nodes H}
    {nodes : List (Node H)}, left + h = 63 → 0 < h → Filled hs L (Upto j h) cache nodes →
    ∃ cache' nodes', completeLevels hs j left h cache nodes = some (cache', nodes') ∧
      Filled hs L (Within (j + 1)) cache' nodes' := by
  intro left
  induction left with
  | zero =>
    intro h cache nodes hh hpos hf
    refine ⟨cache, nodes, rfl, hf.congr fun l i => ?_⟩
    exact ⟨fun ⟨hl, hi⟩ => ⟨hl, hi, Or.inl (by omega)⟩, fun ⟨hl, hi, _⟩ => ⟨hl, hi⟩⟩
  | succ left ih =>
    intro h cache nodes hh hpos hf
    obtain ⟨g, rfl⟩ : ∃ g, h = g + 1 := ⟨h - 1, by omega⟩
    by_cases hmod : (j + 1) % 2 ^ (g + 1) = 0
    · obtain ⟨q, hq⟩ := Nat.dvd_of_mod_eq_zero hmod
      have hq0 : 0 < q := Nat.pos_of_ne_zero fun h0 => by rw [h0, Nat.mul_zero] at hq; omega
      -- the block that ends with leaf `j`
      have hidx := shiftRight_eq_pred hq
      have hend : (q - 1 + 1) * 2 ^ (g + 1) = j + 1 := by rw [hq, Nat.mul_comm]; congr 1; omega
      have hhalf : (2 * (q - 1) + 1 + 1) * 2 ^ g = j + 1 := by rw [← hend, Nat.pow_succ]; ring
      have hg : 0 < 2 ^ g := Nat.two_pow_pos g
      have hleft : Cached hs L cache g (2 * (q - 1)) :=
        hf.cached _ _ ⟨by omega, by rw [Nat.add_mul] at hhalf; omega, Or.inl (Nat.lt_succ_self g)⟩
      have hright : Cached hs L cache g (2 * (q - 1) + 1) :=
        hf.cached _ _ ⟨by omega, Nat.le_of_eq hhalf, Or.inl (Nat.lt_succ_self g)⟩
      obtain ⟨l, r, hl, hr, hv⟩ := Cached.parent (by rw [hend]; exact hj) hleft hright
      have hstep : completeLevels hs j (left + 1) (g + 1) cache nodes =
          completeLevels hs j left (g + 1 + 1) (cache.put (g + 1) (q - 1) (hs.node l r))
            (nodes ++ [⟨g + 1, q - 1, hs.node l r⟩]) := by
        rw [completeLevels, if_pos hmod]
        simp only [hidx, Nat.add_sub_cancel, hl, hr]
      rw [hstep]
      refine ih (g + 1 + 1) (by omega) (by omega) (hf.push (fun hU => ?_) hv (upto_succ (by omega) hend))
      rcases hU with ⟨-, -, hlt | hle⟩
      · exact Nat.lt_irrefl _ hlt
      · omega
    · exact ⟨cache, nodes, by rw [completeLevels, if_neg hmod], hf.congr (upto_stop hmod)⟩

theorem computeNodesLoop_filled : ∀ (leaves : List (Nat × H)) (front : List H) {cache : Nodes H} {nodes : List (Node H)},
    leaves.map (·.1) = List.range' front.length leaves.length →
    Filled hs (front ++ leaves.map (·.2)) (Within front.length) cache nodes →
    ∃ cache' nodes', computeNodesLoop hs leaves cache nodes = some nodes' ∧
      Filled hs (front ++ leaves.map (·.2)) (Within (front.length + leaves.length)) cache' nodes' := by
  intro leaves
  induction leaves with
  | nil => intro front cache nodes _ hf; exact ⟨cache, nodes, rfl, hf⟩
  | cons leaf leaves ih =>
    intro front cache nodes hnum hf
    obtain ⟨j, hash⟩ := leaf
    rw [List.map_cons, List.length_cons, List.range'_succ, List.cons.injEq] at hnum
    obtain ⟨rfl, hnum⟩ := hnum
    have hL : front ++ ((front.length, hash) :: leaves).map (·.2) = (front ++ [hash]) ++ leaves.map (·.2) := by
      rw [List.map_cons, List.append_assoc, List.singleton_append]
    rw [hL] at hf ⊢
    generalize hLdef : (front ++ [hash]) ++ leaves.map (·.2) = L at hf
    have hj : front.length < L.length := by
      rw [← hLdef, List.length_append, List.length_append, List.length_singleton]
      omega
    have hleaf : (mth hs (block L 0 front.length)).val = some hash := by
      rw [block, Nat.pow_zero, Nat.mul_one, ← hLdef, List.append_assoc, List.drop_left, List.singleton_append,
        List.take_succ_cons, List.take_zero, mth]
      rfl
    have hnew : ¬ Within front.length 0 front.length := by
      intro hw
      have hi := hw.2
      rw [Nat.pow_zero] at hi
      omega
    obtain ⟨cache', nodes', hlevels, hf'⟩ := completeLevels_filled hj 62 1 rfl Nat.one_pos
      (hf.push hnew hleaf (upto_one front.length))
    rw [computeNodesLoop, hlevels]
    have hlen : (front ++ [hash]).length = front.length + 1 := by rw [List.length_append, List.length_singleton]
    have hf' : Filled hs (front ++ [hash] ++ leaves.map (·.2)) (Within (front ++ [hash]).length) cache' nodes' := by
      rw [hLdef, hlen]
      exact hf'
    obtain ⟨cache'', nodes'', hloop, hf''⟩ := ih (front ++ [hash]) (by rw [hlen]; exact hnum) hf'
    refine ⟨cache'', nodes'', hloop, ?_⟩
    rw [hLdef, hlen, Nat.add_right_comm] at hf''
    rw [← hLdef]
    rw [← hLdef] at hf''
    exact hf''

/-- Over leaves numbered 0, 1, ... no lookup misses, and the nodes are those of the
    complete subtrees. -/
theorem computeNodesFromLeaves_filled (hs : Hasher H Q) {leaves : List (Nat × H)} (h : leaves.map (·.1) = List.range leaves.length) :
    ∃ cache nodes, computeNodesFromLeaves hs leaves = some nodes ∧
      Filled hs (leaves.map (·.2)) (Within leaves.length) cache nodes := by
  have hempty : Filled hs ([] ++ leaves.map (·.2)) (Within ([] : List H).length) (fun _ => none) [] := by
    have hnone : ∀ l i, ¬ Within ([] : List H).length l i := by
      intro l i ⟨_, hi⟩
      have := Nat.two_pow_pos l
      rw [List.length_nil, Nat.add_mul] at hi
      omega
    exact ⟨fun l i hl => absurd hl (hnone l i), List.nodup_nil,
      fun n => ⟨fun hn => absurd hn List.not_mem_nil, fun hn => absurd hn.1 (hnone _ _)⟩⟩
  obtain ⟨cache, nodes, hloop, hf⟩ := computeNodesLoop_filled leaves [] (by rw [h, List.length_nil, List.range_eq_range']) hempty
  rw [List.nil_append, List.length_nil, Nat.zero_add] at hf
  exact ⟨cache, nodes, hloop, hf⟩

theorem computeNodesFromLeaves_some {leaves : List (Nat × H)} (h : leaves.map (·.1) = List.range leaves.length) :
    ∃ nodes, computeNodesFromLeaves hs leaves = some nodes := by
  obtain ⟨-, nodes, hn, -⟩ := computeNodesFromLeaves_filled hs h
  exact ⟨nodes, hn⟩

end

/-- A log without gaps is rebuilt without a panic. -/
theorem Holds.rebuildFromLog {sha256 : Bytes → Hash} {s : Store} {es : List LogEntry} (h : Holds sha256 s es) :
    ∃ tree, Storage.rebuildFromLog sha256 s = some tree := by
  have hnum : ((es.take u64Max).map fun e => (e.seq, e.leafHash)).map (·.1) =
      List.range ((es.take u64Max).map fun e => (e.seq, e.leafHash)).length := by
    rw [List.map_map, List.length_map, List.range_eq_range']
    exact (h.numbered.take sha256 u64Max).map_seq
  obtain ⟨nodes, hn⟩ : ∃ nodes, computeNodesFromLeaves (.sha sha256) _ = some nodes := computeNodesFromLeaves_some hnum
  refine ⟨writeNodes (fun _ => none) nodes, ?_⟩
  rw [Storage.rebuildFromLog, h.seqRange, hn]

/-! ## The column family by its keys -/

abbrev TreeCf := OrdMap Key Hash

def TreeCf.writeBatch (tree : TreeCf) (nodes : List (Node Hash)) : TreeCf :=
  nodes.foldl (fun tree n => tree.put (treeKey n.level n.index) n.hash) tree

def TreeCf.getNode (tree : TreeCf) (level index : Nat) : Option Hash := tree.get? (treeKey level index)

/-- The keys there are, deleted one by one. -/
def TreeCf.clear (tree : TreeCf) : TreeCf := (tree.entries.map (·.1)).foldl OrdMap.erase tree

/-- `rebuild_from_log`; `none` if it panics. -/
def TreeCf.rebuildFromLog (sha256 : Bytes → Hash) (tree : TreeCf) (s : Store) : Option TreeCf :=
  match computeNodesFromLeaves (.sha sha256) ((s.seqRange 0 u64Max).map fun e => (e.seq, e.leafHash)) with
  | none => none
  | some nodes => some (tree.clear.writeBatch nodes)

variable {sha256 : Bytes → Hash}

/-- Below `2^62` leaves no block is cut off by the loop's bound on the levels, and levels
    and indices have keys of their own. -/
theorem within_iff {n l i : Nat} (hn : n < 2 ^ 62) : Within n l i ↔ (i + 1) * 2 ^ l ≤ n := by
  refine ⟨And.right, fun h => ⟨?_, h⟩⟩
  by_contra hl
  have hpow : 2 ^ 63 ≤ 2 ^ l := Nat.pow_le_pow_right (by omega) (by omega)
  have hle : 2 ^ l ≤ (i + 1) * 2 ^ l := Nat.le_mul_of_pos_left _ (Nat.succ_pos i)
  omega

theorem Within.bounds {n l i : Nat} (h : Within n l i) (hn : n < 2 ^ 62) : l < 2 ^ 64 ∧ i < 2 ^ 64 := by
  obtain ⟨hl, hi⟩ := h
  have hle : i + 1 ≤ (i + 1) * 2 ^ l := Nat.le_mul_of_pos_right _ (Nat.two_pow_pos l)
  omega

/-- The leaves of a log without gaps are numbered, and all of them are read. -/
theorem Holds.leaves {s : Store} {es : List LogEntry} (h : Holds sha256 s es) (hn : es.length < 2 ^ 62) :
    ((s.seqRange 0 u64Max).map fun e => (e.seq, e.leafHash)) = (List.range (hashes es).length).zip (hashes es) := by
  have htake : es.take u64Max = es := List.take_of_length_le (by rw [u64Max]; omega)
  have hseq : es.map (·.seq) = List.range (hashes es).length := by
    rw [length_hashes, List.range_eq_range']
    exact h.numbered.map_seq
  rw [h.seqRange, htake, ← hseq, hashes, List.zip_map']

theorem map_fst_zip_range {α : Type} (L : List α) : (((List.range L.length).zip L).map (·.1)) =
    List.range ((List.range L.length).zip L).length := by
  rw [List.map_fst_zip (by rw [List.length_range]), List.length_zip, List.length_range, Nat.min_self]

/-- The nodes computed for `L`. -/
theorem computeNodes_exact (sha256 : Bytes → Hash) (L : List Hash) :
    ∃ nodes, computeNodesFromLeaves (.sha sha256) ((List.range L.length).zip L) = some nodes ∧
      (nodes.map Node.key).Nodup ∧
      ∀ n, n ∈ nodes ↔ Within L.length n.level n.index ∧ (mth (.sha sha256) (block L n.level n.index)).val = some n.hash := by
  obtain ⟨cache, nodes, hnodes, hf⟩ := computeNodesFromLeaves_filled (.sha sha256) (map_fst_zip_range L)
  rw [List.map_snd_zip (by rw [List.length_range]), List.length_zip, List.length_range, Nat.min_self] at hf
  exact ⟨nodes, hnodes, hf.nodup, hf.mem⟩

/-- What a rebuild leaves: the complete subtrees under their keys. -/
theorem Holds.rebuild_exact {s : Store} {es : List LogEntry} (h : Holds sha256 s es) (hn : es.length < 2 ^ 62) :
    ∃ tree', (∀ tree, TreeCf.rebuildFromLog sha256 tree s = some tree') ∧
      ∀ key v, tree'.get? key = some v ↔ ∃ l i, key = treeKey l i ∧ (i + 1) * 2 ^ l ≤ es.length ∧
        (mth (.sha sha256) (block (hashes es) l i)).val = some v := by
  have hlen : (hashes es).length < 2 ^ 62 := by rw [length_hashes]; exact hn
  obtain ⟨nodes, hnodes, hnodup, hmem⟩ := computeNodes_exact sha256 (hashes es)
  refine ⟨TreeCf.writeBatch OrdMap.empty nodes, fun tree => ?_, fun key v => ?_⟩
  · rw [TreeCf.rebuildFromLog, h.leaves hn, hnodes, TreeCf.clear, OrdMap.erase_all]
  · -- different nodes have different keys
    have hkeys : (nodes.map fun n => treeKey n.level n.index).Nodup := by
      refine List.Nodup.map_on (fun a ha b hb hab => ?_) (List.Nodup.of_map _ hnodup)
      obtain ⟨hla, hia⟩ := ((hmem a).mp ha).1.bounds hlen
      obtain ⟨hlb, hib⟩ := ((hmem b).mp hb).1.bounds hlen
      obtain ⟨hl, hi⟩ := treeKey_inj hla hia hlb hib hab
      exact List.inj_on_of_nodup_map hnodup ha hb (Prod.ext hl hi)
    rw [TreeCf.writeBatch, OrdMap.get?_foldl_put (fun n : Node Hash => treeKey n.level n.index) Node.hash hkeys]
    constructor
    · intro hx
      rcases hx with ⟨n, hmn, rfl, rfl⟩ | ⟨-, hx⟩
      · obtain ⟨hw, hv⟩ := (hmem n).mp hmn
        rw [length_hashes] at hw
        exact ⟨n.level, n.index, rfl, hw.2, hv⟩
      · cases hx
    · intro ⟨l, i, hkey, hi, hv⟩
      refine Or.inl ⟨⟨l, i, v⟩, (hmem _).mpr ⟨?_, hv⟩, hkey.symm, rfl⟩
      rw [within_iff hlen, length_hashes]
      exact hi

/-- Nodes written under their keys and by level and index. -/
theorem getNode_writeBatch : ∀ {ns : List (Node Hash)} {tree : TreeCf} {nodes : Nodes Hash},
    (∀ n ∈ ns, n.level < 2 ^ 64 ∧ n.index < 2 ^ 64) →
    (∀ l i, l < 2 ^ 64 → i < 2 ^ 64 → tree.getNode l i = nodes (l, i)) →
    ∀ l i, l < 2 ^ 64 → i < 2 ^ 64 → (tree.writeBatch ns).getNode l i = writeNodes nodes ns (l, i) := by
  intro ns
  induction ns with
  | nil => intro tree nodes _ h; exact h
  | cons n ns ih =>
    intro tree nodes hb h
    obtain ⟨hn, hb⟩ := List.forall_mem_cons.mp hb
    have hput : ∀ l i, l < 2 ^ 64 → i < 2 ^ 64 → TreeCf.getNode (tree.put (treeKey n.level n.index) n.hash) l i =
        nodes.put n.level n.index n.hash (l, i) := by
      intro l i hl hi
      rw [TreeCf.getNode, OrdMap.get?_put]
      by_cases hkey : (l, i) = (n.level, n.index)
      · obtain ⟨rfl, rfl⟩ := Prod.mk.inj hkey
        rw [if_pos rfl, Nodes.put_self]
      · have hne : treeKey l i ≠ treeKey n.level n.index := by
          intro he
          obtain ⟨h1, h2⟩ := treeKey_inj hl hi hn.1 hn.2 he
          exact hkey (by rw [h1, h2])
        rw [if_neg hne, Nodes.put_of_ne n.hash hkey]
        exact h l i hl hi
    exact ih hb hput

/-- The CF by its keys has the nodes of `rebuildFromLog`. -/
theorem Holds.rebuild_getNode {s : Store} {es : List LogEntry} (h : Holds sha256 s es) (hn : es.length < 2 ^ 62) {t tree : TreeCf}
    {nodes : Nodes Hash} (ht : TreeCf.rebuildFromLog sha256 t s = some tree)
    (hnodes : Storage.rebuildFromLog sha256 s = some nodes) {l i : Nat} (hl : l < 2 ^ 64) (hi : i < 2 ^ 64) :
    tree.getNode l i = nodes (l, i) := by
  obtain ⟨ns, hns, -, hmem⟩ := computeNodes_exact sha256 (hashes es)
  rw [TreeCf.rebuildFromLog, h.leaves hn, hns, TreeCf.clear, OrdMap.erase_all] at ht
  rw [Storage.rebuildFromLog, h.leaves hn, hns] at hnodes
  cases ht
  cases hnodes
  refine getNode_writeBatch (fun n hmn => ?_) (fun l i _ _ => rfl) l i hl hi
  exact ((hmem n).mp hmn).1.bounds (by rw [length_hashes]; exact hn)

/-- A block of the first leaves stays as it is when leaves follow. -/
theorem block_append {H : Type} {L M : List H} {l i : Nat} (hi : (i + 1) * 2 ^ l ≤ L.length) :
    block (L ++ M) l i = block L l i := by
  rw [Nat.add_mul, Nat.one_mul] at hi
  have hdrop : i * 2 ^ l ≤ L.length := Nat.le_trans (Nat.le_add_right _ _) hi
  rw [block, block, List.drop_append_of_le_length hdrop, List.take_append_of_le_length]
  rw [List.length_drop]
  exact Nat.le_sub_of_add_le (by rw [Nat.add_comm]; exact hi)

/-- The materialised nodes are exactly the complete subtrees. Over fewer than `2^62` leaves
    numbered from 0 no lookup misses, and the nodes are, each once, those of the blocks of
    `2^h` leaves. So a rebuild from a log without gaps leaves them under their keys and
    nothing else, whatever there was before, a rebuilt CF included; and the nodes of a
    longer log extend those of a shorter one. -/
theorem materialised_nodes (sha256 : Bytes → Hash) :
    (∀ L : List Hash, L.length < 2 ^ 62 →
      ∃ nodes, computeNodesFromLeaves (.sha sha256) ((List.range L.length).zip L) = some nodes ∧
        (nodes.map fun n => (n.level, n.index)).Nodup ∧
        ∀ h i v, ⟨h, i, v⟩ ∈ nodes ↔ (i + 1) * 2 ^ h ≤ L.length ∧
          (mth (.sha sha256) ((L.drop (i * 2 ^ h)).take (2 ^ h))).val = some v) ∧
    (∀ (s : Store) (es : List LogEntry), Holds sha256 s es → es.length < 2 ^ 62 →
      ∃ tree', (∀ tree, TreeCf.rebuildFromLog sha256 tree s = some tree') ∧
        TreeCf.rebuildFromLog sha256 tree' s = some tree' ∧
        ∀ key v, tree'.get? key = some v ↔ ∃ h i, key = treeKey h i ∧ (i + 1) * 2 ^ h ≤ es.length ∧
          (mth (.sha sha256) (((hashes es).drop (i * 2 ^ h)).take (2 ^ h))).val = some v) ∧
    ∀ (s s' : Store) (es fs : List LogEntry) (t t' tree tree' : TreeCf), Holds sha256 s es → Holds sha256 s' (es ++ fs) →
      (es ++ fs).length < 2 ^ 62 → TreeCf.rebuildFromLog sha256 t s = some tree →
      TreeCf.rebuildFromLog sha256 t' s' = some tree' → ∀ key v, tree.get? key = some v → tree'.get? key = some v := by
  refine ⟨fun L hn => ?_, fun s es h hn => ?_, fun s s' es fs t t' tree tree' h h' hn ht ht' key v hv => ?_⟩
  · obtain ⟨nodes, hnodes, hnodup, hmem⟩ := computeNodes_exact sha256 L
    refine ⟨nodes, hnodes, hnodup, fun h i v => ?_⟩
    rw [hmem, within_iff hn]
    rfl
  · obtain ⟨tree', htree, hget⟩ := h.rebuild_exact hn
    exact ⟨tree', htree, htree tree', hget⟩
  · have hlen : es.length < 2 ^ 62 := by rw [List.length_append] at hn; omega
    obtain ⟨tree₁, htree, hget⟩ := h.rebuild_exact hlen
    obtain ⟨tree₂, htree', hget'⟩ := h'.rebuild_exact hn
    rw [htree t] at ht
    rw [htree' t'] at ht'
    cases ht
    cases ht'
    obtain ⟨l, i, hkey, hi, hm⟩ := (hget key v).mp hv
    refine (hget' key v).mpr ⟨l, i, hkey, by rw [List.length_append]; omega, ?_⟩
    rw [hashes_append, block_append (by rw [length_hashes]; exact hi)]
    exact hm

/-- Three leaves: the nodes, and a CF rebuilt from a log of two of them. -/
theorem materialised_nodes_three :
    (∃ nodes, computeNodesFromLeaves (.sha Sha256.sha256) ((List.range 3).zip [.fill 1, .fill 2, .fill 3]) = some nodes ∧
      (⟨0, 2, .fill 3⟩ : Node Hash) ∈ nodes) ∧
    ∃ tree', TreeCf.rebuildFromLog Sha256.sha256 OrdMap.empty
      (Store.empty.writeBatch (entriesOf Sha256.sha256 0 5 [([1], [10]), ([2], [20])])) = some tree' := by
  refine ⟨?_, ?_⟩
  · obtain ⟨nodes, hnodes, -, hmem⟩ := (materialised_nodes Sha256.sha256).1 [.fill 1, .fill 2, .fill 3] (by decide)
    refine ⟨nodes, hnodes, (hmem 0 2 (.fill 3)).mpr ⟨by decide, ?_⟩⟩
    rw [show (([.fill 1, .fill 2, .fill 3] : List Hash).drop (2 * 2 ^ 0)).take (2 ^ 0) = [.fill 3] from rfl, mth]
    rfl
  · obtain ⟨tree', htree, -⟩ := (materialised_nodes Sha256.sha256).2.1 _ _
      ((Holds.empty Sha256.sha256).writeBatch Sha256.sha256 (numbered_entriesOf Sha256.sha256 [([1], [10]), ([2], [20])] 0 5)) (by decide)
    exact ⟨tree', htree _⟩

end Settled.Storage
