/-
  Settled.Lib.Tasks — a list of tasks of which one takes a step (`set`) or ends
  (`eraseIdx`), what holds between every two of them, how much they have left to do, and
  waiting for all of them (`mapM`).
-/

import Mathlib.Data.List.Basic

namespace Settled.Lib

variable {α : Type} {l : List α} {i : Nat} {a : α}

/-- A list cut at one of its elements. -/
theorem split_at (h : l[i]? = some a) :
    ∃ l₁ l₂, l = l₁ ++ a :: l₂ ∧ (∀ b, l.set i b = l₁ ++ b :: l₂) ∧ l.eraseIdx i = l₁ ++ l₂ := by
  obtain ⟨hlt, ha⟩ := List.getElem?_eq_some_iff.mp h
  refine ⟨l.take i, l.drop (i + 1), ?_, fun b => ?_, List.eraseIdx_eq_take_drop_succ l i⟩
  · rw [← ha, List.getElem_cons_drop, List.take_append_drop]
  · rw [List.set_eq_take_append_cons_drop, if_pos hlt]

/-- After a task's step: the task as it is now, and the others. -/
theorem mem_set_iff (h : l[i]? = some a) {b x : α} : x ∈ l.set i b ↔ x = b ∨ x ∈ l.eraseIdx i := by
  obtain ⟨l₁, l₂, -, hset, herase⟩ := split_at h
  rw [hset, herase]
  simp only [List.mem_append, List.mem_cons]
  exact or_left_comm

/-- Before it: the task as it was, and the others. -/
theorem mem_iff_eraseIdx (h : l[i]? = some a) {x : α} : x ∈ l ↔ x = a ∨ x ∈ l.eraseIdx i := by
  obtain ⟨l₁, l₂, hl, -, herase⟩ := split_at h
  rw [herase]
  rw [hl]
  simp only [List.mem_append, List.mem_cons]
  exact or_left_comm

section

variable {R : α → α → Prop} (hR : ∀ {x y : α}, R x y → R y x)

include hR

theorem pairwise_rest (h : l.Pairwise R) (hi : l[i]? = some a) : ∀ x ∈ l.eraseIdx i, R a x := by
  obtain ⟨l₁, l₂, hl, -, herase⟩ := split_at hi
  rw [hl, List.pairwise_middle hR] at h
  rw [herase]
  exact (List.pairwise_cons.mp h).1

theorem pairwise_set (h : l.Pairwise R) (hi : l[i]? = some a) {b : α} (hb : ∀ x ∈ l.eraseIdx i, R b x) :
    (l.set i b).Pairwise R := by
  obtain ⟨l₁, l₂, hl, hset, herase⟩ := split_at hi
  rw [hset, List.pairwise_middle hR]
  rw [hl, List.pairwise_middle hR] at h
  rw [herase] at hb
  exact List.pairwise_cons.mpr ⟨hb, (List.pairwise_cons.mp h).2⟩

/-- A new task at the end of the list. -/
theorem pairwise_push (h : l.Pairwise R) (ha : ∀ x ∈ l, R a x) : (l ++ [a]).Pairwise R :=
  List.pairwise_append.mpr ⟨h, List.pairwise_singleton R a, fun x hx y hy => by
    rw [List.mem_singleton.mp hy]
    exact hR (ha x hx)⟩

end

theorem pairwise_eraseIdx {R : α → α → Prop} (h : l.Pairwise R) (i : Nat) : (l.eraseIdx i).Pairwise R :=
  h.sublist (List.eraseIdx_sublist l i)

/-! ## What is left to do -/

/-- What all the tasks have left to do together. -/
def sumOf (f : α → Nat) (l : List α) : Nat :=
  l.foldr (fun a n => f a + n) 0

section

variable (f : α → Nat)

@[simp] theorem sumOf_nil : sumOf f [] = 0 := rfl

@[simp] theorem sumOf_cons (a : α) (l : List α) : sumOf f (a :: l) = f a + sumOf f l := rfl

@[simp] theorem sumOf_append (l₁ l₂ : List α) : sumOf f (l₁ ++ l₂) = sumOf f l₁ + sumOf f l₂ := by
  induction l₁ with
  | nil => simp
  | cons a l₁ ih => simp [ih, Nat.add_assoc]

theorem sumOf_eraseIdx (h : l[i]? = some a) : sumOf f l = f a + sumOf f (l.eraseIdx i) := by
  obtain ⟨l₁, l₂, hl, -, herase⟩ := split_at h
  rw [herase, hl]
  simp only [sumOf_append, sumOf_cons]
  omega

theorem sumOf_set (h : l[i]? = some a) (b : α) : sumOf f (l.set i b) + f a = sumOf f l + f b := by
  obtain ⟨l₁, l₂, hl, hset, -⟩ := split_at h
  rw [hset, hl]
  simp only [sumOf_append, sumOf_cons]
  omega

/-- Where every task has something left, nothing left is no task. -/
theorem sumOf_eq_zero (hpos : ∀ a, 0 < f a) (h : sumOf f l = 0) : l = [] := by
  cases l with
  | nil => rfl
  | cons a l =>
    have hp := hpos a
    rw [sumOf_cons] at h
    omega

end

/-! ## What tasks have in common -/

/-- A step that keeps `f`. -/
theorem map_set_of_eq {β : Type} {f : α → β} {b : α} (h : l[i]? = some a) (hf : f b = f a) :
    (l.set i b).map f = l.map f := by
  obtain ⟨l₁, l₂, hl, hset, -⟩ := split_at h
  rw [hset, hl, List.map_append, List.map_append, List.map_cons, List.map_cons, hf]

theorem map_perm_eraseIdx {β : Type} {f : α → β} (h : l[i]? = some a) :
    (f a :: (l.eraseIdx i).map f).Perm (l.map f) := by
  obtain ⟨l₁, l₂, hl, -, herase⟩ := split_at h
  rw [herase, hl, List.map_append, List.map_append, List.map_cons]
  exact List.perm_middle.symm

/-! ## Waiting for all -/

/-- All have a result: these, in the order of the list. -/
theorem mapM_eq_some {β : Type} (f : α → Option β) : ∀ (xs : List α) (ys : List β),
    xs.mapM f = some ys ↔ xs.map f = ys.map some := by
  intro xs
  induction xs with
  | nil =>
    intro ys
    cases ys with
    | nil => simp
    | cons y ys => simp
  | cons x xs ih =>
    intro ys
    rw [List.mapM_cons, List.map_cons]
    cases hx : f x with
    | none =>
      cases ys with
      | nil => simp
      | cons y ys => simp
    | some y =>
      cases ys with
      | nil => simp [Option.bind_eq_some_iff]
      | cons z zs =>
        rw [List.map_cons, List.cons.injEq, ← ih zs]
        simp [Option.bind_eq_some_iff, and_comm]

theorem mapM_total {β : Type} {f : α → Option β} : ∀ {xs : List α}, (∀ x ∈ xs, f x ≠ none) →
    ∃ ys, xs.mapM f = some ys := by
  intro xs
  induction xs with
  | nil => exact fun _ => ⟨[], rfl⟩
  | cons x xs ih =>
    intro h
    obtain ⟨y, hy⟩ := Option.ne_none_iff_exists'.mp (h x List.mem_cons_self)
    obtain ⟨ys, hys⟩ := ih fun x hx => h x (List.mem_cons_of_mem _ hx)
    exact ⟨y :: ys, by simp [List.mapM_cons, hy, hys]⟩

end Settled.Lib
