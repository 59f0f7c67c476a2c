/-
  Settled.Lib.Paired — two lists kept in step: `List.Forall₂` under the ways a list of tasks
  changes (`push`, `set`, `eraseIdx`), and two ordered maps kept in step: one map under
  other keys and values (`Mirrors`), where the keys have the same order.
-/

import Mathlib.Data.List.Forall2
import Settled.Lib.OrdMap

namespace Settled.Lib

variable {α β : Type} {R : α → β → Prop} {as : List α} {bs : List β}

theorem paired_push (h : List.Forall₂ R as bs) {a : α} {b : β} (hab : R a b) : List.Forall₂ R (as ++ [a]) (bs ++ [b]) :=
  List.rel_append h (.cons hab .nil)

theorem paired_eraseIdx (h : List.Forall₂ R as bs) : ∀ i, List.Forall₂ R (as.eraseIdx i) (bs.eraseIdx i) := by
  induction h with
  | nil => intro i; exact .nil
  | cons hab h ih =>
    intro i
    cases i with
    | zero => exact h
    | succ i => exact .cons hab (ih i)

/-- The task at `i` has moved, and still goes with what stands beside it. -/
theorem paired_set (h : List.Forall₂ R as bs) {b' : β} : ∀ {i : Nat} {b : β}, bs[i]? = some b → (∀ a, R a b → R a b') →
    List.Forall₂ R as (bs.set i b') := by
  induction h with
  | nil => intro i b hi; cases hi
  | cons hab h ih =>
    intro i b hi hR
    cases i with
    | zero =>
      cases hi
      exact .cons (hR _ hab) h
    | succ i => exact .cons hab (ih hi hR)

theorem paired_getElem? (h : List.Forall₂ R as bs) : ∀ {i : Nat} {b : β}, bs[i]? = some b → ∃ a, as[i]? = some a ∧ R a b := by
  induction h with
  | nil => intro i b hi; cases hi
  | cons hab h ih =>
    intro i b hi
    cases i with
    | zero =>
      cases hi
      exact ⟨_, rfl, hab⟩
    | succ i => exact ih hi

theorem paired_getLast? (h : List.Forall₂ R as bs) : Option.Rel R as.getLast? bs.getLast? := by
  rw [← List.head?_reverse, ← List.head?_reverse]
  have hrev := List.rel_reverse h
  revert hrev
  generalize as.reverse = as'
  generalize bs.reverse = bs'
  intro hrev
  cases hrev with
  | nil => exact .none
  | cons hab _ => exact .some hab

/-! ## Ordered maps in step -/

section

variable {K K' V V' : Type} [LinearOrder K] [LinearOrder K']

/-- Rows in step: the keys are, and the values. -/
def RowRel (rk : K → K' → Prop) (rv : V → V' → Prop) (x : K × V) (y : K' × V') : Prop := rk x.1 y.1 ∧ rv x.2 y.2

def Mirrors (rk : K → K' → Prop) (rv : V → V' → Prop) (m : OrdMap K V) (m' : OrdMap K' V') : Prop :=
  List.Forall₂ (RowRel rk rv) m.entries m'.entries

variable {rk : K → K' → Prop} {rv : V → V' → Prop} (hlt : ∀ {a b : K} {a' b' : K'}, rk a a' → rk b b' → (a < b ↔ a' < b'))

theorem Mirrors.empty : Mirrors rk rv .empty .empty := .nil

include hlt

theorem key_eq_iff {a b : K} {a' b' : K'} (ha : rk a a') (hb : rk b b') : a = b ↔ a' = b' := by
  rw [eq_iff_le_not_lt, eq_iff_le_not_lt, ← not_lt, ← not_lt, hlt hb ha, hlt ha hb]

theorem paired_insert {k : K} {k' : K'} {v : V} {v' : V'} (hk : rk k k') (hv : rv v v') : ∀ {l : List (K × V)} {l' : List (K' × V')},
    List.Forall₂ (RowRel rk rv) l l' → List.Forall₂ (RowRel rk rv) (OrdMap.insert k v l) (OrdMap.insert k' v' l') := by
  intro l l' h
  induction h with
  | nil => exact .cons ⟨hk, hv⟩ .nil
  | @cons x y l l' hxy h ih =>
    unfold OrdMap.insert
    by_cases hx : k < x.1
    · rw [if_pos hx, if_pos ((hlt hk hxy.1).mp hx)]
      exact .cons ⟨hk, hv⟩ (.cons hxy h)
    · rw [if_neg hx, if_neg (fun hy => hx ((hlt hk hxy.1).mpr hy))]
      by_cases he : k = x.1
      · rw [if_pos he, if_pos ((key_eq_iff hlt hk hxy.1).mp he)]
        exact .cons ⟨hk, hv⟩ h
      · rw [if_neg he, if_neg (fun hy => he ((key_eq_iff hlt hk hxy.1).mpr hy))]
        exact .cons hxy ih

theorem Mirrors.put {m : OrdMap K V} {m' : OrdMap K' V'} (h : Mirrors rk rv m m') {k : K} {k' : K'} {v : V} {v' : V'}
    (hk : rk k k') (hv : rv v v') : Mirrors rk rv (m.put k v) (m'.put k' v') := paired_insert hlt hk hv h

theorem paired_lookup {k : K} {k' : K'} (hk : rk k k') : ∀ {l : List (K × V)} {l' : List (K' × V')},
    List.Forall₂ (RowRel rk rv) l l' → Option.Rel rv (OrdMap.lookup k l) (OrdMap.lookup k' l') := by
  intro l l' h
  induction h with
  | nil => exact .none
  | @cons x y l l' hxy h ih =>
    unfold OrdMap.lookup
    by_cases he : k = x.1
    · rw [if_pos he, if_pos ((key_eq_iff hlt hk hxy.1).mp he)]
      exact .some hxy.2
    · rw [if_neg he, if_neg (fun hy => he ((key_eq_iff hlt hk hxy.1).mpr hy))]
      exact ih

theorem Mirrors.get? {m : OrdMap K V} {m' : OrdMap K' V'} (h : Mirrors rk rv m m') {k : K} {k' : K'} (hk : rk k k') :
    Option.Rel rv (m.get? k) (m'.get? k') := paired_lookup hlt hk h

/-- A scan from a key on. -/
theorem paired_dropWhile {k : K} {k' : K'} (hk : rk k k') : ∀ {l : List (K × V)} {l' : List (K' × V')},
    List.Forall₂ (RowRel rk rv) l l' →
    List.Forall₂ (RowRel rk rv) (l.dropWhile fun e => e.1 < k) (l'.dropWhile fun e => e.1 < k') := by
  intro l l' h
  induction h with
  | nil => exact .nil
  | @cons x y l l' hxy h ih =>
    rw [List.dropWhile_cons, List.dropWhile_cons]
    by_cases hx : x.1 < k
    · rw [if_pos (decide_eq_true hx), if_pos (decide_eq_true ((hlt hxy.1 hk).mp hx))]
      exact ih
    · have hy : ¬ y.1 < k' := fun hy => hx ((hlt hxy.1 hk).mpr hy)
      rw [if_neg (by simpa using hx), if_neg (by simpa using hy)]
      exact .cons hxy h

omit hlt

theorem Mirrors.last? {m : OrdMap K V} {m' : OrdMap K' V'} (h : Mirrors rk rv m m') :
    Option.Rel (RowRel rk rv) m.last? m'.last? := paired_getLast? h

end

end Settled.Lib
