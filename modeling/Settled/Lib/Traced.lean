/-
  Settled.Lib.Traced — computations that call a function, kept with the calls they
  made.

  `Traced Q α` is a result and the list of queries the computation put to the
  function, in call order; `ask f q` is one call. Security statements about a hash
  function that is an arbitrary parameter name a collision inside such a list
  (`Collides`): a bare "some collision exists" would be true of every function with
  a small range.
-/

namespace Settled.Lib

structure Traced (Q α : Type) where
  val : α
  calls : List Q
  deriving DecidableEq, Repr

namespace Traced

variable {Q α β : Type}

instance : Monad (Traced Q) where
  pure a := ⟨a, []⟩
  bind x f := ⟨(f x.val).val, x.calls ++ (f x.val).calls⟩

/-- One call of `f`. -/
def ask (f : Q → α) (q : Q) : Traced Q α := ⟨f q, [q]⟩

@[simp] theorem val_pure (a : α) : (pure a : Traced Q α).val = a := rfl
@[simp] theorem calls_pure (a : α) : (pure a : Traced Q α).calls = [] := rfl
@[simp] theorem val_bind (x : Traced Q α) (f : α → Traced Q β) : (x >>= f).val = (f x.val).val := rfl
@[simp] theorem calls_bind (x : Traced Q α) (f : α → Traced Q β) :
    (x >>= f).calls = x.calls ++ (f x.val).calls := rfl
@[simp] theorem val_ask (f : Q → α) (q : Q) : (ask f q).val = f q := rfl
@[simp] theorem calls_ask (f : Q → α) (q : Q) : (ask f q).calls = [q] := rfl

/-- A run in two parts. -/
theorem bind_eq {x : Traced Q α} {g : α → Traced Q β} {v : β} {c : List Q} :
    (x >>= g) = ⟨v, c⟩ ↔ ∃ a c1 c2, x = ⟨a, c1⟩ ∧ g a = ⟨v, c2⟩ ∧ c = c1 ++ c2 := by
  have hb : (x >>= g) = ⟨(g x.val).val, x.calls ++ (g x.val).calls⟩ := rfl
  rw [hb, Traced.mk.injEq]
  constructor
  · rintro ⟨rfl, rfl⟩
    exact ⟨x.val, x.calls, _, rfl, rfl, rfl⟩
  · rintro ⟨a, c1, c2, rfl, h, rfl⟩
    rw [h]
    exact ⟨rfl, rfl⟩

/-- A run that starts with a call: that call, then the rest of the run. -/
theorem ask_bind_eq {f : Q → α} {q : Q} {g : α → Traced Q β} {v : β} {c : List Q} :
    (ask f q >>= g) = ⟨v, c⟩ ↔ ∃ c', c = q :: c' ∧ g (f q) = ⟨v, c'⟩ := by
  have hb : (ask f q >>= g) = ⟨(g (f q)).val, q :: (g (f q)).calls⟩ := rfl
  rw [hb, Traced.mk.injEq]
  constructor
  · rintro ⟨rfl, rfl⟩
    exact ⟨_, rfl, rfl⟩
  · rintro ⟨c', rfl, h⟩
    rw [h]
    exact ⟨rfl, rfl⟩

end Traced

/-! ## Collisions -/

variable {Q A : Type}

/-- Two different queries of `l` with one answer. -/
def Collides (f : Q → A) (l : List Q) : Prop := ∃ x ∈ l, ∃ y ∈ l, x ≠ y ∧ f x = f y

instance [DecidableEq Q] [DecidableEq A] (f : Q → A) (l : List Q) : Decidable (Collides f l) :=
  inferInstanceAs (Decidable (∃ x ∈ l, ∃ y ∈ l, x ≠ y ∧ f x = f y))

theorem Collides.mono {f : Q → A} {l l' : List Q} (h : Collides f l) (hs : ∀ q ∈ l, q ∈ l') : Collides f l' := by
  obtain ⟨x, hx, y, hy, hne, he⟩ := h
  exact ⟨x, hs x hx, y, hs y hy, hne, he⟩

/-- Queries with answers of their own. -/
theorem not_collides_of_nodup {f : Q → A} {l : List Q} (h : (l.map f).Nodup) : ¬ Collides f l := by
  rintro ⟨x, hx, y, hy, hne, he⟩
  have hpair : l.Pairwise fun a b => f a ≠ f b := List.pairwise_map.mp h
  obtain ⟨i, hi, rfl⟩ := List.getElem_of_mem hx
  obtain ⟨j, hj, rfl⟩ := List.getElem_of_mem hy
  rcases Nat.lt_trichotomy i j with hij | rfl | hij
  · exact List.pairwise_iff_getElem.mp hpair i j hi hj hij he
  · exact hne rfl
  · exact List.pairwise_iff_getElem.mp hpair j i hj hi hij he.symm

/-- Equal answers: the same query, or a collision. -/
theorem eq_or_collides {f : Q → A} {l : List Q} {x y : Q} (hx : x ∈ l) (hy : y ∈ l) (h : f x = f y) :
    x = y ∨ Collides f l := by
  by_cases e : x = y
  · exact Or.inl e
  · exact Or.inr ⟨x, hx, y, hy, e, h⟩

end Settled.Lib
