/-
  Settled.Lib.Lru — a cache of at most `max` values, each under its key; what was not used
  for the longest time makes room. A key has one value, and there are never more than
  `max` of them: both are fields.

  What is in the cache was put there under its key: `mem_of_get` and `mem_put` are all a
  proof about the values needs.
-/

import Mathlib.Data.List.Nodup

namespace Settled.Lib

variable {K V : Type} {max : Nat}

/-- The most recently used first. -/
structure Lru (K V : Type) (max : Nat) where
  entries : List (K × V)
  nodup : (entries.map (·.1)).Nodup
  bounded : entries.length ≤ max

namespace Lru

def empty : Lru K V max := ⟨[], List.nodup_nil, Nat.zero_le _⟩

variable [DecidableEq K]

/-- `k` first, the others in their order, and none past the end. -/
def first (c : Lru K V max) (k : K) (v : V) : Lru K V max where
  entries := ((k, v) :: c.entries.filter (·.1 ≠ k)).take max
  nodup := by
    rw [List.map_take, List.map_cons]
    refine (List.nodup_cons.mpr ⟨fun hk => ?_, ?_⟩).sublist (List.take_sublist _ _)
    · obtain ⟨x, hx, hxk⟩ := List.mem_map.mp hk
      have := (List.mem_filter.mp hx).2
      simp [hxk] at this
    · exact c.nodup.sublist (List.filter_sublist.map _)
  bounded := by
    rw [List.length_take]
    exact Nat.min_le_left _ _

/-- `get`: the value becomes the most recently used. -/
def get (c : Lru K V max) (k : K) : Option (V × Lru K V max) :=
  (c.entries.find? (·.1 = k)).map fun x => (x.2, c.first k x.2)

/-- `set`. -/
def put (c : Lru K V max) (k : K) (v : V) : Lru K V max := c.first k v

theorem mem_put {c : Lru K V max} {k : K} {v : V} {x : K × V} (h : x ∈ (c.put k v).entries) : x = (k, v) ∨ x ∈ c.entries := by
  rcases List.mem_cons.mp (List.mem_of_mem_take h) with h | h
  · exact Or.inl h
  · exact Or.inr (List.mem_of_mem_filter h)

theorem mem_of_get {c c' : Lru K V max} {k : K} {v : V} (h : c.get k = some (v, c')) :
    (k, v) ∈ c.entries ∧ ∀ x ∈ c'.entries, x ∈ c.entries := by
  obtain ⟨⟨k', v'⟩, hfind, heq⟩ := Option.map_eq_some_iff.mp h
  obtain ⟨rfl, rfl⟩ := Prod.mk.inj heq
  have hk : k' = k := by simpa using List.find?_some hfind
  subst hk
  refine ⟨List.mem_of_find?_eq_some hfind, fun x hx => ?_⟩
  rcases mem_put hx with rfl | hx
  · exact List.mem_of_find?_eq_some hfind
  · exact hx

end Lru

end Settled.Lib
