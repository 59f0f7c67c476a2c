/-
  Settled.Lib.OrdMap — finite maps kept as lists sorted by key, for stores that are
  written by key and read by key or in key order.

  `ofList l` is the map that numbers the elements of `l` from 0: writing its next number
  appends (`put_ofList`), and a scan from 0 up to a bound reads a prefix (`range_ofList`).
-/

import Mathlib.Data.List.Sort
import Mathlib.Data.List.TakeWhile
import Mathlib.Order.Lattice
import Mathlib.Order.Nat

namespace Settled.Lib

/-- Keys strictly ascending. -/
structure OrdMap (K V : Type) [LinearOrder K] where
  entries : List (K × V)
  sorted : entries.Pairwise fun a b => a.1 < b.1

namespace OrdMap

variable {K V : Type} [LinearOrder K]

theorem ext {m m' : OrdMap K V} (h : m.entries = m'.entries) : m = m' := by
  cases m; cases m'; cases h; rfl

def empty : OrdMap K V := ⟨[], .nil⟩

instance : Inhabited (OrdMap K V) := ⟨empty⟩

def insert (k : K) (v : V) : List (K × V) → List (K × V)
  | [] => [(k, v)]
  | e :: rest => if k < e.1 then (k, v) :: e :: rest else if k = e.1 then (k, v) :: rest else e :: insert k v rest

theorem mem_insert {k : K} {v : V} : ∀ {l : List (K × V)} {x : K × V}, x ∈ insert k v l → x = (k, v) ∨ x ∈ l := by
  intro l
  induction l with
  | nil => intro x hx; exact Or.inl (List.mem_singleton.mp hx)
  | cons e rest ih =>
    intro x hx
    unfold insert at hx
    split at hx
    · rcases List.mem_cons.mp hx with h | h
      · exact Or.inl h
      · exact Or.inr h
    · split at hx
      · rcases List.mem_cons.mp hx with h | h
        · exact Or.inl h
        · exact Or.inr (List.mem_cons_of_mem _ h)
      · rcases List.mem_cons.mp hx with h | h
        · exact Or.inr (h ▸ List.mem_cons_self)
        · exact (ih h).imp_right (List.mem_cons_of_mem _)

theorem insert_sorted (k : K) (v : V) : ∀ {l : List (K × V)}, l.Pairwise (fun a b => a.1 < b.1) →
    (insert k v l).Pairwise fun a b => a.1 < b.1 := by
  intro l
  induction l with
  | nil => intro _; exact List.pairwise_singleton _ _
  | cons e rest ih =>
    intro h
    obtain ⟨he, hr⟩ := List.pairwise_cons.mp h
    unfold insert
    split
    next hlt =>
      refine List.pairwise_cons.mpr ⟨fun x hx => ?_, h⟩
      rcases List.mem_cons.mp hx with rfl | hx
      · exact hlt
      · exact lt_trans hlt (he x hx)
    next hge =>
      split
      next heq => exact List.pairwise_cons.mpr ⟨fun x hx => by rw [heq]; exact he x hx, hr⟩
      next hne =>
        refine List.pairwise_cons.mpr ⟨fun x hx => ?_, ih hr⟩
        rcases mem_insert hx with rfl | hx
        · exact lt_of_le_of_ne (not_lt.mp hge) (Ne.symm hne)
        · exact he x hx

def put (m : OrdMap K V) (k : K) (v : V) : OrdMap K V := ⟨insert k v m.entries, insert_sorted k v m.sorted⟩

def lookup (k : K) : List (K × V) → Option V
  | [] => none
  | e :: rest => if k = e.1 then some e.2 else lookup k rest

def get? (m : OrdMap K V) (k : K) : Option V := lookup k m.entries

/-- The entry with the greatest key. -/
def last? (m : OrdMap K V) : Option (K × V) := m.entries.getLast?

/-- The values with keys in `[start, stop)`, in key order. -/
def range (m : OrdMap K V) (start stop : K) : List V :=
  ((m.entries.dropWhile fun e => e.1 < start).takeWhile fun e => e.1 < stop).map (·.2)

/-! ## Lookup -/

theorem lookup_insert (k : K) (v : V) (k' : K) : ∀ l : List (K × V),
    lookup k' (insert k v l) = if k' = k then some v else lookup k' l := by
  intro l
  induction l with
  | nil => rfl
  | cons e rest ih =>
    unfold insert
    split
    next => rfl
    next =>
      split
      next heq =>
        rw [lookup, lookup, ← heq]
        split <;> rfl
      next hne =>
        rw [lookup, lookup, ih]
        by_cases hk : k' = e.1
        · rw [if_pos hk, if_pos hk, if_neg (fun h => hne (h.symm.trans hk))]
        · rw [if_neg hk, if_neg hk]

theorem get?_put (m : OrdMap K V) (k : K) (v : V) (k' : K) :
    (m.put k v).get? k' = if k' = k then some v else m.get? k' := lookup_insert k v k' m.entries

theorem lookup_eq_some_of_mem {l : List (K × V)} (h : l.Pairwise fun a b => a.1 < b.1) {k : K} {v : V}
    (hm : (k, v) ∈ l) : lookup k l = some v := by
  induction l with
  | nil => cases hm
  | cons e rest ih =>
    obtain ⟨he, hr⟩ := List.pairwise_cons.mp h
    unfold lookup
    rcases List.mem_cons.mp hm with rfl | hm
    · rw [if_pos rfl]
    · have : k ≠ e.1 := fun h => absurd (he _ hm) (by rw [← h]; exact lt_irrefl _)
      rw [if_neg this, ih hr hm]

theorem mem_of_lookup_eq_some {l : List (K × V)} {k : K} {v : V} (h : lookup k l = some v) : (k, v) ∈ l := by
  induction l with
  | nil => cases h
  | cons e rest ih =>
    unfold lookup at h
    split at h
    next hk =>
      cases h
      rw [hk]
      exact List.mem_cons_self
    next => exact List.mem_cons_of_mem _ (ih h)

theorem mem_entries {m : OrdMap K V} {k : K} {v : V} : (k, v) ∈ m.entries ↔ m.get? k = some v :=
  ⟨lookup_eq_some_of_mem m.sorted, mem_of_lookup_eq_some⟩

/-- A map is its lookups. -/
theorem ext_get? {m m' : OrdMap K V} (h : ∀ k v, m.get? k = some v ↔ m'.get? k = some v) : m = m' := by
  have hirrefl : Std.Irrefl fun a b : K × V => a.1 < b.1 := ⟨fun a => lt_irrefl a.1⟩
  have hantisymm : Std.Antisymm fun a b : K × V => a.1 < b.1 := ⟨fun a b hab hba => absurd hba (lt_asymm hab)⟩
  apply ext
  apply m.sorted.eq_of_mem_iff m'.sorted
  intro e
  rw [mem_entries, mem_entries]
  exact h e.1 e.2

/-- Writes of different keys. -/
theorem get?_foldl_put {α : Type} (key : α → K) (val : α → V) : ∀ {l : List α} {m : OrdMap K V}, (l.map key).Nodup →
    ∀ {k : K} {v : V}, (l.foldl (fun m x => m.put (key x) (val x)) m).get? k = some v ↔
      (∃ x ∈ l, key x = k ∧ val x = v) ∨ (k ∉ l.map key ∧ m.get? k = some v) := by
  intro l
  induction l with
  | nil => intro m _ k v; simp
  | cons y l ih =>
    intro m hl k v
    obtain ⟨hy, hl⟩ := List.nodup_cons.mp hl
    rw [List.foldl_cons, ih hl, get?_put]
    by_cases hk : k = key y
    · subst hk
      -- no later write has this key
      have hlater : ∀ x ∈ l, key x ≠ key y := fun x hx h => hy (by rw [← h]; exact List.mem_map_of_mem hx)
      rw [if_pos rfl]
      constructor
      · intro h
        rcases h with ⟨x, hx, h, -⟩ | ⟨-, h⟩
        · exact absurd h (hlater x hx)
        · exact Or.inl ⟨y, List.mem_cons_self, rfl, Option.some.inj h⟩
      · intro h
        rcases h with ⟨x, hx, h, hv⟩ | ⟨h, -⟩
        · rcases List.mem_cons.mp hx with rfl | hx
          · exact Or.inr ⟨hy, congrArg some hv⟩
          · exact absurd h (hlater x hx)
        · exact absurd List.mem_cons_self h
    · rw [if_neg hk, List.map_cons]
      simp [hk, Ne.symm hk]

/-! ## Deleting -/

def erase (m : OrdMap K V) (k : K) : OrdMap K V := ⟨m.entries.filter fun e => e.1 ≠ k, m.sorted.filter _⟩

theorem entries_foldl_erase : ∀ (ks : List K) (m : OrdMap K V),
    (ks.foldl erase m).entries = m.entries.filter fun e => e.1 ∉ ks := by
  intro ks
  induction ks with
  | nil => intro m; exact (List.filter_eq_self.mpr fun e _ => decide_eq_true List.not_mem_nil).symm
  | cons k ks ih =>
    intro m
    rw [List.foldl_cons, ih]
    show (m.entries.filter fun e => e.1 ≠ k).filter _ = _
    rw [List.filter_filter]
    simp only [List.mem_cons, not_or, Bool.decide_and, Bool.and_comm]

/-- Deleting every key there is. -/
theorem erase_all (m : OrdMap K V) : (m.entries.map (·.1)).foldl erase m = empty := by
  apply ext
  rw [entries_foldl_erase]
  apply List.filter_eq_nil_iff.mpr
  intro e he
  simp [List.mem_map_of_mem he]

/-! ## The greatest key -/

theorem get?_last? {m : OrdMap K V} {k : K} {v : V} (h : m.last? = some (k, v)) :
    m.get? k = some v ∧ ∀ k' v', m.get? k' = some v' → k' ≤ k := by
  obtain ⟨l, hl⟩ := List.getLast?_eq_some_iff.mp h
  refine ⟨mem_entries.mp (by rw [hl]; simp), fun k' v' h' => ?_⟩
  have hmem := mem_entries.mpr h'
  have hs := m.sorted
  rw [hl] at hmem hs
  rcases List.mem_append.mp hmem with hm | hm
  · exact le_of_lt ((List.pairwise_append.mp hs).2.2 _ hm _ (List.mem_singleton_self _))
  · exact le_of_eq (congrArg Prod.fst (List.mem_singleton.mp hm))

theorem last?_eq_none_iff {m : OrdMap K V} : m.last? = none ↔ ∀ k, m.get? k = none := by
  constructor
  · intro h k
    rw [Option.eq_none_iff_forall_ne_some]
    intro v hv
    have hnil : m.entries = [] := List.getLast?_eq_none_iff.mp h
    have hmem := mem_entries.mpr hv
    rw [hnil] at hmem
    cases hmem
  · intro h
    rw [Option.eq_none_iff_forall_ne_some]
    rintro ⟨k, v⟩ hv
    have := (get?_last? hv).1
    rw [h k] at this
    cases this

theorem last?_eq_some_iff {m : OrdMap K V} {k : K} {v : V} :
    m.last? = some (k, v) ↔ m.get? k = some v ∧ ∀ k' v', m.get? k' = some v' → k' ≤ k := by
  refine ⟨get?_last?, fun ⟨h1, h2⟩ => ?_⟩
  cases h : m.last? with
  | none =>
    rw [last?_eq_none_iff.mp h k] at h1
    cases h1
  | some e =>
    obtain ⟨k', v'⟩ := e
    obtain ⟨h3, h4⟩ := get?_last? h
    have hk : k' = k := le_antisymm (h2 k' v' h3) (h4 k v h1)
    rw [hk, h1] at h3
    rw [hk, Option.some.inj h3]

/-- Writing a key that no other exceeds. -/
theorem last?_put_of_le {m : OrdMap K V} {k : K} (v : V) (h : ∀ k' v', m.get? k' = some v' → k' ≤ k) :
    (m.put k v).last? = some (k, v) := by
  refine last?_eq_some_iff.mpr ⟨by rw [get?_put, if_pos rfl], fun k' v' h' => ?_⟩
  rw [get?_put] at h'
  split at h'
  next heq => exact le_of_eq heq
  next => exact h k' v' h'

/-- Writing below the greatest key. -/
theorem last?_put_of_lt {m : OrdMap K V} {k k' : K} {v' : V} (v : V) (hl : m.last? = some (k', v')) (h : k < k') :
    (m.put k v).last? = some (k', v') := by
  obtain ⟨h1, h2⟩ := last?_eq_some_iff.mp hl
  refine last?_eq_some_iff.mpr ⟨by rw [get?_put, if_neg (ne_of_gt h)]; exact h1, fun k₂ v₂ hk₂ => ?_⟩
  rw [get?_put] at hk₂
  split at hk₂
  next heq => rw [heq]; exact le_of_lt h
  next => exact h2 k₂ v₂ hk₂

/-! ## Scans -/

/-- In a list whose keys ascend, what comes before a key stands in front. -/
theorem dropWhile_eq_filter {α : Type} (key : α → K) (k : K) : ∀ {l : List α}, l.Pairwise (fun a b => key a < key b) →
    (l.dropWhile fun a => key a < k) = l.filter fun a => k ≤ key a := by
  intro l
  induction l with
  | nil => intro _; rfl
  | cons a l ih =>
    intro h
    obtain ⟨ha, hl⟩ := List.pairwise_cons.mp h
    rw [List.dropWhile_cons]
    by_cases hlt : key a < k
    · rw [if_pos (decide_eq_true hlt), ih hl, List.filter_cons_of_neg (by simpa using hlt)]
    · rw [if_neg (by simpa using hlt), List.filter_eq_self.mpr]
      intro b hb
      rcases List.mem_cons.mp hb with rfl | hb
      · exact decide_eq_true (not_lt.mp hlt)
      · exact decide_eq_true (le_trans (not_lt.mp hlt) (le_of_lt (ha b hb)))

/-- What is kept up to a point, where it is kept before a key. -/
theorem takeWhile_eq_filter {α : Type} (key : α → K) {p : α → Bool} (hp : ∀ a b, key a < key b → p b = true → p a = true) :
    ∀ {l : List α}, l.Pairwise (fun a b => key a < key b) → l.takeWhile p = l.filter p := by
  intro l
  induction l with
  | nil => intro _; rfl
  | cons a l ih =>
    intro h
    obtain ⟨ha, hl⟩ := List.pairwise_cons.mp h
    rw [List.takeWhile_cons]
    cases hpa : p a with
    | true => rw [if_pos rfl, ih hl, List.filter_cons_of_pos hpa]
    | false =>
      rw [if_neg (by decide), List.filter_eq_nil_iff.mpr]
      intro b hb hpb
      rcases List.mem_cons.mp hb with rfl | hb
      · rw [hpa] at hpb
        cases hpb
      · rw [hp a b (ha b hb) hpb] at hpa
        cases hpa

/-! ## Numbered lists -/

section

variable {V : Type}

theorem zipIdx_sorted (l : List V) (n : Nat) :
    ((l.zipIdx n).map fun x => (x.2, x.1)).Pairwise fun a b => a.1 < b.1 := by
  induction l generalizing n with
  | nil => exact .nil
  | cons v l ih =>
    rw [List.zipIdx_cons, List.map_cons]
    refine List.pairwise_cons.mpr ⟨fun x hx => ?_, ih (n + 1)⟩
    obtain ⟨y, hy, rfl⟩ := List.mem_map.mp hx
    have := (List.mem_zipIdx hy).1
    show n < y.2
    omega

/-- The map that numbers the elements of `l` from 0. -/
def ofList (l : List V) : OrdMap Nat V := ⟨l.zipIdx.map fun x => (x.2, x.1), zipIdx_sorted l 0⟩

theorem insert_of_forall_lt {k : Nat} {v : V} : ∀ {l : List (Nat × V)}, (∀ e ∈ l, e.1 < k) → insert k v l = l ++ [(k, v)] := by
  intro l
  induction l with
  | nil => intro _; rfl
  | cons e rest ih =>
    intro h
    have he := h e List.mem_cons_self
    rw [insert, if_neg (by omega), if_neg (by omega), ih fun x hx => h x (List.mem_cons_of_mem _ hx)]
    rfl

theorem insert_ofList (l : List V) (v : V) :
    insert l.length v (ofList l).entries = (ofList l).entries ++ [(l.length, v)] := by
  apply insert_of_forall_lt
  intro e he
  obtain ⟨y, hy, rfl⟩ := List.mem_map.mp he
  have := (List.mem_zipIdx hy).2.1
  show y.2 < l.length
  omega

theorem put_ofList (l : List V) (v : V) : (ofList l).put l.length v = ofList (l ++ [v]) := by
  apply ext
  show insert l.length v (ofList l).entries = (l ++ [v]).zipIdx.map fun x => (x.2, x.1)
  rw [insert_ofList, List.zipIdx_append, List.map_append]
  simp [ofList]

theorem get?_ofList (l : List V) (i : Nat) : (ofList l).get? i = l[i]? := by
  cases h : l[i]? with
  | some v =>
    rw [← mem_entries]
    exact List.mem_map.mpr ⟨(v, i), by rw [List.mem_zipIdx_iff_getElem?]; exact h, rfl⟩
  | none =>
    rw [Option.eq_none_iff_forall_ne_some]
    intro v hv
    obtain ⟨y, hy, he⟩ := List.mem_map.mp (mem_entries.mpr hv)
    rw [List.mem_zipIdx_iff_getElem?] at hy
    obtain ⟨rfl, rfl⟩ := Prod.mk.inj he
    rw [h] at hy
    cases hy

theorem last?_ofList_append (l : List V) (v : V) : (ofList (l ++ [v])).last? = some (l.length, v) := by
  rw [← put_ofList]
  show (insert l.length v (ofList l).entries).getLast? = _
  rw [insert_ofList]
  exact List.getLast?_concat

/-- Numbered from `n`, the elements below `stop`. -/
theorem takeWhile_zipIdx (stop : Nat) : ∀ (l : List V) (n : Nat),
    (((l.zipIdx n).map fun x => (x.2, x.1)).takeWhile fun e => e.1 < stop).map (·.2) = l.take (stop - n) := by
  intro l
  induction l with
  | nil => intro n; simp
  | cons v l ih =>
    intro n
    rw [List.zipIdx_cons, List.map_cons, List.takeWhile_cons]
    by_cases hn : n < stop
    · simp only [hn, decide_true, if_true, List.map_cons, ih]
      rw [show stop - n = (stop - (n + 1)) + 1 by omega, List.take_succ_cons]
    · simp only [hn, decide_false, Bool.false_eq_true, if_false, List.map_nil]
      rw [show stop - n = 0 by omega, List.take_zero]

theorem range_zero (m : OrdMap Nat V) (stop : Nat) : m.range 0 stop = (m.entries.takeWhile fun e => e.1 < stop).map (·.2) := by
  have hdrop : (m.entries.dropWhile fun e => e.1 < 0) = m.entries := by
    cases m.entries with
    | nil => rfl
    | cons e r => simp
  rw [range, hdrop]

/-- A scan from 0 reads a prefix. -/
theorem range_ofList (l : List V) (stop : Nat) : (ofList l).range 0 stop = l.take stop := by
  rw [range_zero]
  exact takeWhile_zipIdx stop l 0

/-- A scan over all keys. -/
theorem range_all {m : OrdMap Nat V} {stop : Nat} (h : ∀ e ∈ m.entries, e.1 < stop) : m.range 0 stop = m.entries.map (·.2) := by
  rw [range_zero, List.takeWhile_eq_self_iff.mpr fun e he => decide_eq_true (h e he)]

end

end OrdMap

end Settled.Lib
