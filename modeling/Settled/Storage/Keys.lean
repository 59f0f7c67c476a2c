/-
  Settled.Storage.Keys — the keys of the column families (`log_store.rs`, `tree_store.rs`):
  `to_be_bytes` of a number, and for the tree CF of a level and an index.

  RocksDB keeps a column family in the byte order of its keys. For numbers of one width
  big-endian byte order is the numeric order (`seqKey_lt`), so a scan of the log CF from
  `to_be_bytes` of a number meets the entries from that number on, in order. The maps of
  `Settled.Storage.Store` are keyed by the numbers themselves.
-/

import Mathlib.Data.List.Lex
import Settled.Core.Sth
import Settled.Lib.OrdMap

namespace Settled.Storage

open Settled.Lib Settled.Core

/-- A key of a column family: keys are compared byte by byte. -/
structure Key where
  bytes : Bytes
  deriving DecidableEq

def Key.digits (k : Key) : List Nat := k.bytes.map UInt8.toNat

theorem Key.digits_injective : Function.Injective Key.digits := by
  intro a b h
  cases a
  cases b
  congr 1
  exact List.map_injective_iff.mpr (fun x y hxy => UInt8.toNat_inj.mp hxy) h

instance : LinearOrder Key := LinearOrder.lift' Key.digits Key.digits_injective

theorem Key.lt_iff {a b : Key} : a < b ↔ a.digits < b.digits := Iff.rfl

/-- `seq.to_be_bytes()`. -/
def seqKey (seq : Nat) : Key := ⟨toBeBytes 8 seq⟩

def treeKey (level index : Nat) : Key := ⟨toBeBytes 8 level ++ toBeBytes 8 index⟩

/-- `u64::from_be_bytes` after `try_into`; `none` where the length is not 8. -/
def fromBeBytes (b : Bytes) : Option Nat :=
  if b.length = 8 then some (b.foldl (fun n x => 256 * n + x.toNat) 0) else none

/-! ## Big-endian digits -/

theorem length_toBeBytes : ∀ (w : Nat) (x : Int), (toBeBytes w x).length = w := by
  intro w
  induction w with
  | zero => intro x; rfl
  | succ w ih => intro x; rw [toBeBytes, List.length_append, ih, List.length_singleton]

/-- The digits of a natural number, the last one split off. -/
theorem digits_succ (w n : Nat) :
    (toBeBytes (w + 1) (n : Int)).map UInt8.toNat = (toBeBytes w ((n / 256 : Nat) : Int)).map UInt8.toNat ++ [n % 256] := by
  have hdiv : (n : Int) / 256 = ((n / 256 : Nat) : Int) := by omega
  have hmod : ((n : Int) % 256).toNat = n % 256 := by omega
  have hbyte : (UInt8.ofNat (n % 256)).toNat = n % 256 := by simp
  rw [toBeBytes, List.map_append, hdiv, hmod, List.map_singleton, hbyte]

/-- Between lists of one length, a last digit only breaks a tie. -/
theorem concat_lt_concat : ∀ {l l' : List Nat} {a b : Nat}, l.length = l'.length →
    (l ++ [a] < l' ++ [b] ↔ l < l' ∨ (l = l' ∧ a < b)) := by
  intro l
  induction l with
  | nil =>
    intro l' a b h
    obtain rfl : l' = [] := List.length_eq_zero_iff.mp h.symm
    simp [List.cons_lt_cons_iff]
  | cons x l ih =>
    intro l' a b h
    cases l' with
    | nil => cases h
    | cons y l' =>
      rw [List.cons_append, List.cons_append, List.cons_lt_cons_iff, List.cons_lt_cons_iff, ih (Nat.succ.inj h),
        List.cons.injEq]
      constructor
      · intro h
        rcases h with h | ⟨h1, h2 | ⟨h2, h3⟩⟩
        · exact Or.inl (Or.inl h)
        · exact Or.inl (Or.inr ⟨h1, h2⟩)
        · exact Or.inr ⟨⟨h1, h2⟩, h3⟩
      · intro h
        rcases h with (h | ⟨h1, h2⟩) | ⟨⟨h1, h2⟩, h3⟩
        · exact Or.inl h
        · exact Or.inr ⟨h1, Or.inl h2⟩
        · exact Or.inr ⟨h1, Or.inr ⟨h2, h3⟩⟩

theorem digits_inj : ∀ {w a b : Nat}, a < 256 ^ w → b < 256 ^ w →
    (toBeBytes w (a : Int)).map UInt8.toNat = (toBeBytes w (b : Int)).map UInt8.toNat → a = b := by
  intro w
  induction w with
  | zero => intro a b ha hb _; omega
  | succ w ih =>
    intro a b ha hb h
    rw [Nat.pow_succ] at ha hb
    rw [digits_succ, digits_succ] at h
    obtain ⟨h1, h2⟩ := List.append_inj' h rfl
    have := ih (by omega) (by omega) h1
    have := (List.cons.inj h2).1
    omega

/-- Numeric order is byte order. -/
theorem digits_lt : ∀ {w a b : Nat}, a < 256 ^ w → b < 256 ^ w →
    ((toBeBytes w (a : Int)).map UInt8.toNat < (toBeBytes w (b : Int)).map UInt8.toNat ↔ a < b) := by
  intro w
  induction w with
  | zero => intro a b ha hb; simp [toBeBytes]; omega
  | succ w ih =>
    intro a b ha hb
    rw [Nat.pow_succ] at ha hb
    rw [digits_succ, digits_succ, concat_lt_concat (by rw [List.length_map, List.length_map, length_toBeBytes, length_toBeBytes]),
      ih (by omega) (by omega)]
    constructor
    · intro h
      rcases h with h | ⟨h1, h2⟩
      · omega
      · have := digits_inj (by omega) (by omega) h1
        omega
    · intro h
      by_cases hdiv : a / 256 = b / 256
      · exact Or.inr ⟨by rw [hdiv], by omega⟩
      · exact Or.inl (by omega)

theorem foldl_digits : ∀ {w n : Nat}, n < 256 ^ w →
    (toBeBytes w (n : Int)).foldl (fun n x => 256 * n + x.toNat) 0 = n := by
  have hmap : ∀ (b : Bytes) (n : Nat), b.foldl (fun n x => 256 * n + x.toNat) n =
      (b.map UInt8.toNat).foldl (fun n x => 256 * n + x) n := fun b n => by rw [List.foldl_map]
  intro w
  induction w with
  | zero => intro n h; rw [toBeBytes, List.foldl_nil]; omega
  | succ w ih =>
    intro n h
    rw [Nat.pow_succ] at h
    rw [hmap, digits_succ, List.foldl_append, ← hmap, ih (by omega), List.foldl_cons, List.foldl_nil]
    omega

/-! ## Keys of numbers below `2^64` -/

theorem seqKey_lt {a b : Nat} (ha : a < 2 ^ 64) (hb : b < 2 ^ 64) : seqKey a < seqKey b ↔ a < b :=
  Key.lt_iff.trans (digits_lt (w := 8) ha hb)

theorem fromBeBytes_seqKey {a : Nat} (ha : a < 2 ^ 64) : fromBeBytes (seqKey a).bytes = some a := by
  have hlen : (seqKey a).bytes.length = 8 := length_toBeBytes 8 a
  rw [fromBeBytes, if_pos hlen]
  exact congrArg some (foldl_digits (w := 8) ha)

theorem treeKey_inj {l i l' i' : Nat} (hl : l < 2 ^ 64) (hi : i < 2 ^ 64) (hl' : l' < 2 ^ 64) (hi' : i' < 2 ^ 64)
    (h : treeKey l i = treeKey l' i') : l = l' ∧ i = i' := by
  obtain ⟨h1, h2⟩ := List.append_inj (Key.mk.inj h) ((length_toBeBytes 8 l).trans (length_toBeBytes 8 l').symm)
  exact ⟨digits_inj (w := 8) hl hl' (congrArg _ h1), digits_inj (w := 8) hi hi' (congrArg _ h2)⟩

end Settled.Storage
