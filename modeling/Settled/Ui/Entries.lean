/-
  Settled.Ui.Entries — the explorer's list of entries (`useEntries`) and the route it is
  filled from (`GET /api/entries`).

  The hook keeps the loaded entries with `minSeq` and `maxSeq`, "the range of seqs
  currently loaded". A seek or a jump replaces them by a page of the log, the two scroll
  actions merge a page into them, and every live entry is added wherever the window is.

  Three slips break the range:
  - a live entry that is not next to the window leaves a hole;
  - a seek or jump forgets the range before it asks, and an answer without entries leaves
    the old entries without one;
  - `loadOlder` asks for the page before the window but merges it as `asc`, which keeps
    only what is newer than `maxSeq`: the page is fetched and dropped, and the window
    still starts where it did.

  In every run without the first two the window is a contiguous slice of the log, and
  each of them breaks it; `loadOlder` never reaches below a window that starts above 0
  (`window_contiguous_iff`).

  Key mode is never entered here. `loading` and `error` are shown and not read.
-/

import Settled.Lib.Run
import Settled.Lib.Tasks
import Mathlib.Data.List.Sort

namespace Settled.Ui.Entries

open Settled.Lib

variable {α : Type}

/-- An entry as the explorer gets it; `fields` are its key, data, timestamp and leaf hash. -/
structure Entry (α : Type) where
  seq : Nat
  fields : α
  deriving DecidableEq, Repr

inductive Dir where
  | asc
  | desc
  deriving DecidableEq, Repr

structure EntriesResponse (α : Type) where
  entries : List (Entry α)
  treeSize : Nat
  deriving DecidableEq, Repr

/-! ## The route -/

def MAX_LIMIT : Nat := 100

/-- `rpc('get')`; what the cache holds is the same, since entries never change. -/
def fetchEntry (log : List α) (seq : Nat) : Option (Entry α) := log[seq]?.map (⟨seq, ·⟩)

/-- `for (let i = from; i < treeSize && seqs.length < limit; i++) seqs.push(i)`. -/
def ascSeqs (treeSize : Nat) : Nat → Nat → List Nat
  | 0, _ => []
  | limit + 1, i => if i < treeSize then i :: ascSeqs treeSize limit (i + 1) else []

/-- `for (let i = from; i >= 0 && seqs.length < limit; i--) seqs.push(i)`. -/
def descSeqs : Nat → Nat → List Nat
  | 0, _ => []
  | _ + 1, 0 => [0]
  | limit + 1, i + 1 => (i + 1) :: descSeqs limit i

/-- `GET /api/entries`: a page of the part of the log that the last signed head covers.
    Without a head, or an entry that cannot be read, the request fails. -/
def getEntries (log : List α) (head : Option Nat) (fromSeq limit : Option Nat) (dir : Dir) :
    Option (EntriesResponse α) := do
  let treeSize ← head
  if treeSize = 0 then return ⟨[], 0⟩
  let limit := min (limit.getD 50) MAX_LIMIT
  let fromSeq := match fromSeq with
    | some n => min n (treeSize - 1)
    | none => match dir with
      | .asc => 0
      | .desc => treeSize - 1
  let seqs := match dir with
    | .asc => ascSeqs treeSize limit fromSeq
    | .desc => descSeqs limit fromSeq
  let entries ← seqs.mapM (fetchEntry log)
  return ⟨entries, treeSize⟩

/-! ## The hook -/

def PAGE : Nat := 100

structure EntriesState (α : Type) where
  entries : List (Entry α)
  treeSize : Nat
  minSeq : Option Nat
  maxSeq : Option Nat
  deriving DecidableEq, Repr

def EntriesState.empty : EntriesState α := ⟨[], 0, none, none⟩

/-- `map.set(e.seq, e)`: a key that is there keeps its place. -/
def mapSet (m : List (Entry α)) (e : Entry α) : List (Entry α) :=
  if m.any (·.seq == e.seq) then m.map fun x => if x.seq == e.seq then e else x else m ++ [e]

/-- `Array.from(new Map(es.map(e => [e.seq, e])).values())`. -/
def uniqueBySeq (es : List (Entry α)) : List (Entry α) := es.foldl mapSet []

/-- `sort((a, b) => a.seq - b.seq)`, which is stable. -/
def sortBySeq (es : List (Entry α)) : List (Entry α) := es.insertionSort (·.seq ≤ ·.seq)

namespace EntriesState

/-- The entries, and the refs read off their ends. -/
def setEntries (u : EntriesState α) (es : List (Entry α)) : EntriesState α :=
  { u with entries := es, minSeq := es.head?.map (·.seq), maxSeq := es.getLast?.map (·.seq) }

/-- `api` is `api.entries` with `limit: PAGE`; `none` is a request that failed. -/
def load (api : Nat → Dir → Option (EntriesResponse α)) (u : EntriesState α) (fromSeq : Nat) (dir : Dir)
    (replace : Bool) : EntriesState α :=
  match api fromSeq dir with
  | none => u
  | some res =>
    let u := { u with treeSize := res.treeSize }
    if res.entries.length = 0 then u
    else
      let merged :=
        if replace then res.entries
        else match dir with
          | .asc => u.entries ++ res.entries.filter fun e => u.maxSeq.all (e.seq > ·)
          | .desc => (res.entries.filter fun e => u.minSeq.all (e.seq < ·)) ++ u.entries
      u.setEntries (sortBySeq (uniqueBySeq merged))

def forget (u : EntriesState α) : EntriesState α := { u with minSeq := none, maxSeq := none }

def seekTo (api : Nat → Dir → Option (EntriesResponse α)) (u : EntriesState α) (seq : Int) : EntriesState α :=
  u.forget.load api (max 0 (seq - PAGE / 2)).toNat .asc true

def loadOlder (api : Nat → Dir → Option (EntriesResponse α)) (u : EntriesState α) : EntriesState α :=
  match u.minSeq with
  | none => u
  | some a => if a = 0 then u else u.load api (a - PAGE) .asc false

def loadNewer (api : Nat → Dir → Option (EntriesResponse α)) (u : EntriesState α) : EntriesState α :=
  match u.maxSeq with
  | none => u
  | some b => u.load api (b + 1) .asc false

/-- `sth` is what `api.sth` answers: the size of some signed head, or a failure. -/
def jumpLatest (api : Nat → Dir → Option (EntriesResponse α)) (u : EntriesState α) (sth : Option Nat) : EntriesState α :=
  match sth with
  | none => u.forget
  | some treeSize => { u.forget with treeSize := treeSize }.load api (treeSize - PAGE) .asc true

def jumpFirst (api : Nat → Dir → Option (EntriesResponse α)) (u : EntriesState α) : EntriesState α :=
  u.forget.load api 0 .asc true

def appendLive (u : EntriesState α) (entry : Entry α) : EntriesState α :=
  let v :=
    if u.entries.any (·.seq == entry.seq) then u
    else u.setEntries (sortBySeq (u.entries ++ [entry]))
  { v with treeSize := max v.treeSize (entry.seq + 1) }

end EntriesState

/-! ## The explorer beside a log -/

structure World (α : Type) where
  log : List α
  /-- `tree_size` of the last signed head. -/
  head : Option Nat
  /-- The seq of the next live entry. -/
  live : Nat
  ui : EntriesState α
  deriving DecidableEq, Repr

/-- The explorer is opened on a log: live entries start at its end. -/
def World.start (log : List α) : World α := ⟨log, none, log.length, .empty⟩

/-- A request of the explorer; `ok` says that it gets through. -/
def World.api (w : World α) (ok : Bool) (fromSeq : Nat) (dir : Dir) : Option (EntriesResponse α) :=
  if ok then getEntries w.log w.head (some fromSeq) (some PAGE) dir else none

inductive Ev (α : Type) where
  | append (x : α)
  | signed (treeSize : Nat)
  | live
  | setTreeSize (n : Nat)
  | seekTo (seq : Int) (ok : Bool)
  | loadOlder (ok : Bool)
  | loadNewer (ok : Bool)
  | jumpLatest (sth : Option Nat) (ok : Bool)
  | jumpFirst (ok : Bool)
  deriving DecidableEq, Repr

def step (w : World α) : Ev α → Option (World α)
  | .append x => some { w with log := w.log ++ [x] }
  | .signed treeSize => if treeSize ≤ w.log.length then some { w with head := some treeSize } else none
  | .live =>
    match w.log[w.live]? with
    | some x => some { w with live := w.live + 1, ui := w.ui.appendLive ⟨w.live, x⟩ }
    | none => none
  | .setTreeSize n => some { w with ui := { w.ui with treeSize := n } }
  | .seekTo seq ok => some { w with ui := w.ui.seekTo (w.api ok) seq }
  | .loadOlder ok => some { w with ui := w.ui.loadOlder (w.api ok) }
  | .loadNewer ok => some { w with ui := w.ui.loadNewer (w.api ok) }
  | .jumpLatest sth ok => some { w with ui := w.ui.jumpLatest (w.api ok) sth }
  | .jumpFirst ok => some { w with ui := w.ui.jumpFirst (w.api ok) }

/-! ## Contiguity -/

/-- The entries are those of the log. -/
def Genuine (log : List α) (es : List (Entry α)) : Prop := ∀ e ∈ es, log[e.seq]? = some e.fields

/-- The entries are the slice `a..b` of the log, in order, and the refs say so. -/
structure Window (log : List α) (u : EntriesState α) (a b : Nat) : Prop where
  le : a ≤ b
  seqs : u.entries.map (·.seq) = List.range' a (b + 1 - a)
  genuine : Genuine log u.entries
  min : u.minSeq = some a
  max : u.maxSeq = some b

/-- `treeSize` is only shown. -/
theorem Window.withTreeSize {log : List α} {u : EntriesState α} {a b : Nat} (h : Window log u a b) (n : Nat) :
    Window log { u with treeSize := n } a b := ⟨h.le, h.seqs, h.genuine, h.min, h.max⟩

def Contiguous (log : List α) (u : EntriesState α) : Prop :=
  (u.entries = [] ∧ u.minSeq = none ∧ u.maxSeq = none) ∨ ∃ a b, Window log u a b

/-- A request for a page will bring entries. -/
def World.hasPage (w : World α) (ok : Bool) : Bool := ok && w.head.any (0 < ·)

/-- A live entry arrives inside the window or next to it, and a seek or jump away from
    loaded entries is answered with entries. -/
def fits (w : World α) : Ev α → Bool
  | .live => w.ui.entries.isEmpty || w.ui.minSeq.any (· ≤ w.live + 1) && w.ui.maxSeq.any (w.live ≤ · + 1)
  | .seekTo _ ok => w.ui.entries.isEmpty || w.hasPage ok
  | .jumpLatest sth ok => w.ui.entries.isEmpty || sth.isSome && w.hasPage ok
  | .jumpFirst ok => w.ui.entries.isEmpty || w.hasPage ok
  | _ => true

/-! ### Sorting and deduplicating -/

section Lists

variable {log : List α} {u : EntriesState α} {es : List (Entry α)} {a b n : Nat}

theorem sortBySeq_map (es : List (Entry α)) : (sortBySeq es).map (·.seq) = (es.map (·.seq)).insertionSort (· ≤ ·) :=
  List.map_insertionSort (·.seq ≤ ·.seq) (· ≤ ·) (·.seq) es fun _ _ _ _ => Iff.rfl

theorem mem_sortBySeq {e : Entry α} : e ∈ sortBySeq es ↔ e ∈ es := List.mem_insertionSort _

theorem sortBySeq_eq (h : (es.map (·.seq)).Pairwise (· ≤ ·)) : sortBySeq es = es :=
  (List.pairwise_map.mp h).insertionSort_eq

theorem foldl_mapSet : ∀ (es acc : List (Entry α)), ((acc ++ es).map (·.seq)).Nodup → es.foldl mapSet acc = acc ++ es := by
  intro es
  induction es with
  | nil =>
    intro acc _
    rw [List.foldl_nil, List.append_nil]
  | cons e es ih =>
    intro acc h
    have hnew : acc.any (·.seq == e.seq) = false := by
      rw [List.any_eq_false]
      intro x hx heq
      rw [List.map_append, List.map_cons, List.nodup_append] at h
      exact h.2.2 x.seq (List.mem_map_of_mem hx) e.seq List.mem_cons_self (by simpa using heq)
    have happ : acc ++ e :: es = (acc ++ [e]) ++ es := by simp
    rw [List.foldl_cons, mapSet, hnew]
    rw [happ] at h ⊢
    exact ih (acc ++ [e]) h

theorem uniqueBySeq_eq (h : (es.map (·.seq)).Nodup) : uniqueBySeq es = es := foldl_mapSet es [] h

/-- A slice is left as it is. -/
theorem sort_unique_eq (h : es.map (·.seq) = List.range' a n) : sortBySeq (uniqueBySeq es) = es := by
  rw [uniqueBySeq_eq (by rw [h]; exact List.nodup_range')]
  apply sortBySeq_eq
  rw [h]
  exact List.pairwise_le_range'

theorem length_ne_zero (h : es.map (·.seq) = List.range' a (n + 1)) : es.length ≠ 0 := by
  rw [← List.length_map (·.seq), h, List.length_range']
  exact Nat.succ_ne_zero n

theorem window_setEntries (u : EntriesState α) (h : es.map (·.seq) = List.range' a (n + 1)) (hg : Genuine log es) :
    Window log (u.setEntries es) a (a + n) := by
  refine ⟨Nat.le_add_right a n, ?_, hg, ?_, ?_⟩
  · rw [show a + n + 1 - a = n + 1 by omega]
    exact h
  · show es.head?.map (·.seq) = some a
    rw [← List.head?_map, h, List.range'_succ, List.head?_cons]
  · show es.getLast?.map (·.seq) = some (a + n)
    rw [← List.getLast?_map, h, List.range'_concat, List.getLast?_concat]
    simp

/-- What is above `b` of a slice that starts at most after it. -/
theorem filter_gt_range' {p : Nat} (hp : p ≤ b + 1) (n : Nat) :
    (List.range' p n).filter (· > b) = List.range' (b + 1) (p + n - (b + 1)) := by
  rcases Nat.lt_or_ge (b + 1) (p + n) with hlt | hge
  · have hsplit : List.range' p n = List.range' p (b + 1 - p) ++ List.range' (b + 1) (p + n - (b + 1)) := by
      have happ := List.range'_append_1 (s := p) (m := b + 1 - p) (n := p + n - (b + 1))
      rw [show p + (b + 1 - p) = b + 1 by omega, show b + 1 - p + (p + n - (b + 1)) = n by omega] at happ
      exact happ.symm
    rw [hsplit, List.filter_append, List.filter_eq_nil_iff.mpr, List.filter_eq_self.mpr, List.nil_append]
    · intro i hi
      have := List.mem_range'_1.mp hi
      exact decide_eq_true (by omega)
    · intro i hi
      have := List.mem_range'_1.mp hi
      simp
      omega
  · rw [show p + n - (b + 1) = 0 by omega, List.range'_zero, List.filter_eq_nil_iff]
    intro i hi
    have := List.mem_range'_1.mp hi
    simp
    omega

/-- A slice in any order is sorted into it. -/
theorem sort_perm_range' {l : List Nat} (h : l.Perm (List.range' a n)) : l.insertionSort (· ≤ ·) = List.range' a n :=
  ((List.perm_insertionSort _ l).trans h).eq_of_pairwise' (List.pairwise_insertionSort _ l) List.pairwise_le_range'

end Lists

/-! ### Pages -/

section Pages

variable {w : World α} {u : EntriesState α} {a b : Nat} {ok : Bool} {fromSeq : Nat}

theorem ascSeqs_eq (treeSize : Nat) : ∀ limit i, ascSeqs treeSize limit i = List.range' i (min limit (treeSize - i)) := by
  intro limit
  induction limit with
  | zero => intro i; simp [ascSeqs]
  | succ limit ih =>
    intro i
    rw [ascSeqs]
    split
    next h =>
      rw [ih, show min (limit + 1) (treeSize - i) = min limit (treeSize - (i + 1)) + 1 by omega, List.range'_succ]
    next h => rw [show min (limit + 1) (treeSize - i) = 0 by omega, List.range'_zero]

/-- A part of the log, fetched entry by entry. -/
theorem fetch_slice (log : List α) : ∀ n p, p + n ≤ log.length →
    ∃ es, (List.range' p n).mapM (fetchEntry log) = some es ∧ es.map (·.seq) = List.range' p n ∧ Genuine log es := by
  intro n
  induction n with
  | zero => exact fun p _ => ⟨[], rfl, rfl, fun e he => by cases he⟩
  | succ n ih =>
    intro p h
    obtain ⟨es, hes, hseqs, hg⟩ := ih (p + 1) (by omega)
    have hlt : p < log.length := by omega
    have hget := List.getElem?_eq_getElem hlt
    refine ⟨⟨p, log[p]⟩ :: es, ?_, ?_, ?_⟩
    · rw [List.range'_succ, List.mapM_cons, hes]
      simp [fetchEntry, hget]
    · rw [List.map_cons, hseqs, List.range'_succ]
    · intro e he
      obtain rfl | he := List.mem_cons.mp he
      · exact hget
      · exact hg e he

/-- The last signed head covers no more than the log. -/
def World.Signed (w : World α) : Prop := ∀ t, w.head = some t → t ≤ w.log.length

/-- A page is a slice of the log that starts at the entry asked for, or at the last one
    signed. -/
theorem api_page (hw : w.Signed) (h : w.hasPage ok = true) (fromSeq : Nat) :
    ∃ es t p n, w.api ok fromSeq .asc = some ⟨es, t⟩ ∧ p ≤ fromSeq ∧ es.map (·.seq) = List.range' p (n + 1) ∧
      Genuine w.log es := by
  obtain ⟨rfl, hany⟩ := Bool.and_eq_true_iff.mp h
  obtain ⟨t, ht, hpos⟩ := (Option.any_eq_true _ _).mp hany
  have ht0 : t ≠ 0 := Nat.pos_iff_ne_zero.mp (of_decide_eq_true hpos)
  have hle := hw t ht
  -- at least the entry the page starts at is there
  obtain ⟨n, hn⟩ : ∃ n, min (min PAGE MAX_LIMIT) (t - min fromSeq (t - 1)) = n + 1 :=
    Nat.exists_eq_succ_of_ne_zero (by simp [PAGE, MAX_LIMIT]; omega)
  obtain ⟨es, hes, hseqs, hg⟩ := fetch_slice w.log (n + 1) (min fromSeq (t - 1)) (by omega)
  refine ⟨es, t, min fromSeq (t - 1), n, ?_, Nat.min_le_left _ _, hseqs, hg⟩
  simp only [World.api, if_true, getEntries, ht, Option.bind_eq_bind, Option.bind_some, ht0, if_false, Option.getD_some,
    ascSeqs_eq, hn, hes]
  rfl

theorem api_no_page (h : w.hasPage ok = false) (fromSeq : Nat) :
    w.api ok fromSeq .asc = none ∨ w.api ok fromSeq .asc = some ⟨[], 0⟩ := by
  cases ok with
  | false => exact .inl rfl
  | true =>
    cases ht : w.head with
    | none => exact .inl (by simp [World.api, getEntries, ht])
    | some t =>
      have ht0 : t = 0 := by simpa [World.hasPage, ht] using h
      exact .inr (by simp [World.api, getEntries, ht, ht0])

/-! ### The actions -/

/-- Without its refs only an empty window is left. -/
theorem contiguous_forgotten {log : List α} (hmin : u.minSeq = none) (hmax : u.maxSeq = none) :
    Contiguous log u ↔ u.entries = [] := by
  constructor
  · rintro (⟨hnil, -⟩ | ⟨a, b, hwin⟩)
    · exact hnil
    · have hsome := hwin.min
      rw [hmin] at hsome
      cases hsome
  · intro hnil
    exact .inl ⟨hnil, hmin, hmax⟩

/-- A seek or jump: the refs are gone, and a page replaces whatever is loaded. -/
theorem load_replace (hw : w.Signed) (hmin : u.minSeq = none) (hmax : u.maxSeq = none) (fromSeq : Nat) :
    Contiguous w.log (u.load (w.api ok) fromSeq .asc true) ↔ u.entries = [] ∨ w.hasPage ok = true := by
  cases hp : w.hasPage ok with
  | true =>
    obtain ⟨es, t, p, n, hapi, -, hseqs, hg⟩ := api_page hw hp fromSeq
    have hne := length_ne_zero hseqs
    have hload : u.load (w.api ok) fromSeq .asc true = { u with treeSize := t }.setEntries es := by
      simp only [EntriesState.load, hapi, hne, if_false, if_true, sort_unique_eq hseqs]
    rw [hload]
    exact ⟨fun _ => .inr rfl, fun _ => .inr ⟨_, _, window_setEntries _ hseqs hg⟩⟩
  | false =>
    have hload : (u.load (w.api ok) fromSeq .asc true).entries = u.entries ∧
        (u.load (w.api ok) fromSeq .asc true).minSeq = none ∧ (u.load (w.api ok) fromSeq .asc true).maxSeq = none := by
      obtain hapi | hapi := api_no_page hp fromSeq
      · simp only [EntriesState.load, hapi]
        exact ⟨trivial, hmin, hmax⟩
      · simp only [EntriesState.load, hapi, List.length_nil, if_true]
        exact ⟨trivial, hmin, hmax⟩
    obtain ⟨he, hmin, hmax⟩ := hload
    rw [contiguous_forgotten hmin hmax, he, or_iff_left Bool.false_ne_true]

/-- A page merged as `asc` can only move the end of the window. -/
theorem Window.load_asc (hw : w.Signed) (h : Window w.log u a b) (hf : fromSeq ≤ b + 1) :
    ∃ b', b ≤ b' ∧ Window w.log (u.load (w.api ok) fromSeq .asc false) a b' := by
  have hle := h.le
  cases hp : w.hasPage ok with
  | true =>
    obtain ⟨es, t, p, n, hapi, hpf, hseqs, hg⟩ := api_page hw hp fromSeq
    have hne := length_ne_zero hseqs
    have hfilter : (es.filter fun e => u.maxSeq.all (e.seq > ·)).map (·.seq) =
        List.range' (b + 1) (p + (n + 1) - (b + 1)) := by
      rw [← filter_gt_range' (by omega), ← hseqs, List.filter_map]
      simp [h.max, Function.comp_def]
    have hmerged : (u.entries ++ es.filter fun e => u.maxSeq.all (e.seq > ·)).map (·.seq) =
        List.range' a (b - a + (p + (n + 1) - (b + 1)) + 1) := by
      have happ := List.range'_append_1 (s := a) (m := b + 1 - a) (n := p + (n + 1) - (b + 1))
      rw [show a + (b + 1 - a) = b + 1 by omega] at happ
      rw [List.map_append, h.seqs, hfilter, happ]
      congr 1
      omega
    have hload : u.load (w.api ok) fromSeq .asc false =
        { u with treeSize := t }.setEntries (u.entries ++ es.filter fun e : Entry α => u.maxSeq.all (e.seq > ·)) := by
      simp only [EntriesState.load, hapi, hne, if_false, Bool.false_eq_true, sort_unique_eq hmerged]
    refine ⟨_, ?_, hload ▸ window_setEntries _ hmerged ?_⟩
    · omega
    · intro e he
      obtain he | he := List.mem_append.mp he
      · exact h.genuine e he
      · exact hg e (List.mem_filter.mp he).1
  | false =>
    refine ⟨b, Nat.le_refl b, ?_⟩
    obtain hapi | hapi := api_no_page hp fromSeq
    · simp only [EntriesState.load, hapi]
      exact h
    · simp only [EntriesState.load, hapi, List.length_nil, if_true]
      exact h.withTreeSize 0

theorem appendLive_new {log : List α} {e : Entry α} (h : Window log u a b) (he : e.seq < a ∨ b < e.seq) :
    u.appendLive e = { u.setEntries (sortBySeq (u.entries ++ [e])) with treeSize := max u.treeSize (e.seq + 1) } := by
  have hnew : u.entries.any (·.seq == e.seq) = false := by
    rw [List.any_eq_false]
    intro x hx heq
    have hmem : x.seq ∈ u.entries.map (·.seq) := List.mem_map_of_mem hx
    rw [h.seqs, List.mem_range'_1, show x.seq = e.seq by simpa using heq] at hmem
    omega
  simp only [EntriesState.appendLive, hnew, Bool.false_eq_true, if_false]
  rfl

theorem genuine_live {log : List α} {e : Entry α} (hg : Genuine log u.entries) (he : log[e.seq]? = some e.fields) :
    Genuine log (sortBySeq (u.entries ++ [e])) := by
  intro x hx
  obtain hx | hx := List.mem_append.mp (mem_sortBySeq.mp hx)
  · exact hg x hx
  · rw [List.mem_singleton.mp hx]
    exact he

theorem Window.live_fits {log : List α} {e : Entry α} (h : Window log u a b) (he : log[e.seq]? = some e.fields)
    (ha : a ≤ e.seq + 1) (hb : e.seq ≤ b + 1) : ∃ a' b', Window log (u.appendLive e) a' b' := by
  have hle := h.le
  by_cases hin : a ≤ e.seq ∧ e.seq ≤ b
  · -- the entry is there
    have hmem : e.seq ∈ u.entries.map (·.seq) := by
      rw [h.seqs, List.mem_range'_1]
      omega
    obtain ⟨x, hx, hseq⟩ := List.mem_map.mp hmem
    have hold : u.entries.any (·.seq == e.seq) = true := List.any_eq_true.mpr ⟨x, hx, by simpa using hseq⟩
    refine ⟨a, b, ?_⟩
    simp only [EntriesState.appendLive, hold, if_true]
    exact h.withTreeSize _
  · -- it is the one after the window, or the one before it
    have hperm : ∃ a' n, (u.entries.map (·.seq) ++ [e.seq]).Perm (List.range' a' (n + 1)) := by
      rw [h.seqs]
      rcases Nat.lt_or_ge b e.seq with hlt | hge
      · refine ⟨a, b + 1 - a, ?_⟩
        rw [show e.seq = a + 1 * (b + 1 - a) by omega, ← List.range'_concat]
      · refine ⟨e.seq, b + 1 - a, ?_⟩
        rw [List.range'_succ, show e.seq + 1 = a by omega]
        exact List.perm_append_singleton _ _
    obtain ⟨a', n, hperm⟩ := hperm
    have hseqs : (sortBySeq (u.entries ++ [e])).map (·.seq) = List.range' a' (n + 1) := by
      rw [sortBySeq_map, List.map_append, List.map_singleton, sort_perm_range' hperm]
    have hwin := window_setEntries u hseqs (genuine_live h.genuine he)
    rw [appendLive_new h (by omega)]
    exact ⟨a', a' + n, hwin.withTreeSize _⟩

/-- A live entry away from the window leaves a hole: the number next to the window on its
    side is missing. -/
theorem Window.live_breaks {log : List α} {e : Entry α} (h : Window log u a b) (hgap : e.seq + 1 < a ∨ b + 1 < e.seq) :
    ¬ Contiguous log (u.appendLive e) := by
  have hle := h.le
  have hmem : ∀ i, i ∈ (u.appendLive e).entries.map (·.seq) ↔ (a ≤ i ∧ i ≤ b) ∨ i = e.seq := by
    intro i
    rw [appendLive_new h (by omega)]
    show i ∈ (sortBySeq (u.entries ++ [e])).map (·.seq) ↔ _
    rw [sortBySeq_map, List.mem_insertionSort, List.map_append, h.seqs, List.mem_append, List.mem_range'_1,
      List.map_singleton, List.mem_singleton]
    omega
  rintro (⟨hnil, -⟩ | ⟨a', b', hwin⟩)
  · have := (hmem e.seq).mpr (.inr rfl)
    simp [hnil] at this
  · simp only [hwin.seqs, List.mem_range'_1] at hmem
    have h1 := (hmem e.seq).mpr (.inr rfl)
    have h2 := (hmem a).mpr (.inl ⟨Nat.le_refl a, hle⟩)
    have h3 := (hmem b).mpr (.inl ⟨hle, Nat.le_refl b⟩)
    rcases hgap with hlt | hlt
    · have := (hmem (e.seq + 1)).mp (by omega)
      omega
    · have := (hmem (b + 1)).mp (by omega)
      omega

/-- The page before the window is asked for and dropped. -/
theorem Window.loadOlder (hw : w.Signed) (h : Window w.log u a b) (ok : Bool) :
    ∃ b', b ≤ b' ∧ Window w.log (u.loadOlder (w.api ok)) a b' := by
  have hle := h.le
  simp only [EntriesState.loadOlder, h.min]
  split
  next => exact ⟨b, Nat.le_refl b, h⟩
  next => exact h.load_asc hw (by omega)

theorem Window.loadNewer (hw : w.Signed) (h : Window w.log u a b) (ok : Bool) :
    ∃ b', b ≤ b' ∧ Window w.log (u.loadNewer (w.api ok)) a b' := by
  simp only [EntriesState.loadNewer, h.max]
  exact h.load_asc hw (Nat.le_refl _)

theorem Contiguous.append {log : List α} (h : Contiguous log u) (x : α) : Contiguous (log ++ [x]) u := by
  obtain hnil | ⟨a, b, hwin⟩ := h
  · exact .inl hnil
  · refine .inr ⟨a, b, hwin.le, hwin.seqs, ?_, hwin.min, hwin.max⟩
    intro e he
    have hget := hwin.genuine e he
    rw [List.getElem?_append_left (List.getElem?_eq_some_iff.mp hget).1, hget]

/-- With nothing loaded the first live entry is a window by itself. -/
theorem live_first {log : List α} {e : Entry α} (hnil : u.entries = []) (he : log[e.seq]? = some e.fields) :
    Window log (u.appendLive e) e.seq e.seq := by
  have hwin : Window log (u.setEntries [e]) e.seq (e.seq + 0) := by
    apply window_setEntries u rfl
    intro x hx
    rw [List.mem_singleton.mp hx]
    exact he
  have heq : u.appendLive e = { u.setEntries [e] with treeSize := max u.treeSize (e.seq + 1) } := by
    simp [EntriesState.appendLive, hnil, sortBySeq, EntriesState.setEntries]
  rw [heq]
  exact hwin.withTreeSize _

theorem appendLive_contiguous_iff {log : List α} {e : Entry α} (h : Contiguous log u) (he : log[e.seq]? = some e.fields) :
    Contiguous log (u.appendLive e) ↔
      (u.entries.isEmpty || u.minSeq.any (· ≤ e.seq + 1) && u.maxSeq.any (e.seq ≤ · + 1)) = true := by
  obtain ⟨hnil, -⟩ | ⟨a, b, hwin⟩ := h
  · simp only [hnil, List.isEmpty_nil, Bool.true_or, iff_true]
    exact .inr ⟨_, _, live_first hnil he⟩
  · have hne : u.entries.isEmpty = false := by
      rw [List.isEmpty_eq_false_iff]
      intro hnil
      have hlen := congrArg List.length hwin.seqs
      have hle := hwin.le
      simp only [hnil, List.map_nil, List.length_nil, List.length_range'] at hlen
      omega
    simp only [hne, hwin.min, hwin.max, Option.any_some, Bool.false_or, Bool.and_eq_true, decide_eq_true_eq]
    constructor
    · intro hc
      by_contra hgap
      exact hwin.live_breaks (by omega) hc
    · rintro ⟨ha, hb⟩
      exact .inr (hwin.live_fits he ha hb)

/-! ## Steps -/

variable {w' : World α} {e : Ev α}

theorem step_signed (hw : w.Signed) (hs : step w e = some w') : w'.Signed := by
  cases e with
  | append x =>
    cases hs
    intro t ht
    have := hw t ht
    show t ≤ (w.log ++ [x]).length
    rw [List.length_append]
    omega
  | signed treeSize =>
    simp only [step] at hs
    split at hs
    next hle =>
      cases hs
      intro t ht
      cases ht
      exact hle
    next => cases hs
  | live =>
    simp only [step] at hs
    split at hs
    next =>
      cases hs
      exact hw
    next => cases hs
  | setTreeSize n => cases hs; exact hw
  | seekTo seq ok => cases hs; exact hw
  | loadOlder ok => cases hs; exact hw
  | loadNewer ok => cases hs; exact hw
  | jumpLatest sth ok => cases hs; exact hw
  | jumpFirst ok => cases hs; exact hw

/-- A step keeps the window contiguous exactly when it fits. -/
theorem step_contiguous_iff (hw : w.Signed) (h : Contiguous w.log w.ui) (hs : step w e = some w') :
    Contiguous w'.log w'.ui ↔ fits w e = true := by
  cases e with
  | append x =>
    cases hs
    exact ⟨fun _ => rfl, fun _ => h.append x⟩
  | signed treeSize =>
    simp only [step] at hs
    split at hs
    next =>
      cases hs
      exact ⟨fun _ => rfl, fun _ => h⟩
    next => cases hs
  | live =>
    simp only [step] at hs
    split at hs
    next x hx =>
      cases hs
      exact appendLive_contiguous_iff h hx
    next => cases hs
  | setTreeSize n =>
    cases hs
    refine ⟨fun _ => rfl, fun _ => ?_⟩
    obtain hnil | ⟨a, b, hwin⟩ := h
    · exact .inl hnil
    · exact .inr ⟨a, b, hwin.withTreeSize n⟩
  | seekTo seq ok =>
    cases hs
    rw [fits, Bool.or_eq_true, List.isEmpty_iff]
    exact load_replace hw rfl rfl _
  | loadOlder ok =>
    cases hs
    refine ⟨fun _ => rfl, fun _ => ?_⟩
    obtain hnil | ⟨a, b, hwin⟩ := h
    · have heq : w.ui.loadOlder (w.api ok) = w.ui := by simp only [EntriesState.loadOlder, hnil.2.1]
      exact .inl (heq.symm ▸ hnil)
    · obtain ⟨b', -, hwin'⟩ := hwin.loadOlder hw ok
      exact .inr ⟨a, b', hwin'⟩
  | loadNewer ok =>
    cases hs
    refine ⟨fun _ => rfl, fun _ => ?_⟩
    obtain hnil | ⟨a, b, hwin⟩ := h
    · have heq : w.ui.loadNewer (w.api ok) = w.ui := by simp only [EntriesState.loadNewer, hnil.2.2]
      exact .inl (heq.symm ▸ hnil)
    · obtain ⟨b', -, hwin'⟩ := hwin.loadNewer hw ok
      exact .inr ⟨a, b', hwin'⟩
  | jumpLatest sth ok =>
    cases hs
    rw [fits, Bool.or_eq_true, List.isEmpty_iff]
    cases sth with
    | none =>
      rw [Option.isSome_none, Bool.false_and, or_iff_left Bool.false_ne_true]
      exact contiguous_forgotten rfl rfl
    | some t =>
      rw [Option.isSome_some, Bool.true_and]
      exact load_replace hw rfl rfl _
  | jumpFirst ok =>
    cases hs
    rw [fits, Bool.or_eq_true, List.isEmpty_iff]
    exact load_replace hw rfl rfl _

end Pages

/-! ## Runs -/

theorem reach_contiguous {log : List α} {w : World α} (h : Reach step fits (.start log) w) :
    w.Signed ∧ Contiguous w.log w.ui := by
  refine h.inv (P := fun w => w.Signed ∧ Contiguous w.log w.ui) ?_ ?_
  · exact ⟨fun t ht => (by cases ht), .inl ⟨rfl, rfl, rfl⟩⟩
  · intro w e w' hi hok hs
    exact ⟨step_signed hi.1 hs, (step_contiguous_iff hi.1 hi.2 hs).mpr hok⟩

/-- In every run in which live entries arrive next to the window or inside it, and no seek
    or jump away from loaded entries comes back without any, the window is a contiguous
    slice of the log; a step that does not fit makes it stop being one. `loadOlder` leaves
    the window's start where it is: it yields the window that starts a page earlier only
    if there is no window that starts above 0. -/
theorem window_contiguous_iff (log : List α) (w : World α) (h : Reach step fits (.start log) w) :
    Contiguous w.log w.ui ∧
    (∀ e w', step w e = some w' → (Contiguous w'.log w'.ui ↔ fits w e = true)) ∧
    ∀ ok, (∀ a b, Window w.log w.ui a b → ∃ b', b ≤ b' ∧ Window w.log (w.ui.loadOlder (w.api ok)) a b') ∧
      ((∀ a b, Window w.log w.ui a b → 0 < a → Window w.log (w.ui.loadOlder (w.api ok)) (a - PAGE) b) ↔
        ∀ a, w.ui.minSeq = some a → a = 0) := by
  obtain ⟨hw, hc⟩ := reach_contiguous h
  refine ⟨hc, fun e w' hs => step_contiguous_iff hw hc hs, ?_⟩
  intro ok
  refine ⟨fun a b hwin => hwin.loadOlder hw ok, ?_⟩
  constructor
  · intro holder a ha
    obtain ⟨-, hnone, -⟩ | ⟨a', b, hwin⟩ := hc
    · rw [hnone] at ha
      cases ha
    · obtain rfl : a' = a := Option.some.inj (hwin.min.symm.trans ha)
      rcases Nat.eq_zero_or_pos a' with h0 | hpos
      · exact h0
      · -- the start would have to be at `a'` and a page before it
        obtain ⟨b', -, hstay⟩ := hwin.loadOlder hw ok
        have hmove := holder a' b hwin hpos
        have heq := Option.some.inj (hstay.min.symm.trans hmove.min)
        simp only [PAGE] at heq
        omega
  · intro hzero a b hwin hpos
    have := hzero a hwin.min
    omega

/-- A log of 101 entries, all signed: a seek to 51 loads 1..100, the live entry 101 comes
    next to it, and the page before the window is not taken in. -/
theorem window_contiguous_iff_seek : ∃ w : World Nat, Reach step fits (.start (List.range 101)) w ∧
    w.ui.minSeq = some 1 ∧ w.ui.maxSeq = some 101 ∧ Contiguous w.log w.ui ∧
    ¬ ∀ a b, Window w.log w.ui a b → 0 < a → Window w.log (w.ui.loadOlder (w.api true)) (a - PAGE) b := by
  have hrun : (run step fits (.start (List.range 101)) [Ev.signed 101, .seekTo 51 true, .append 101, .live]).map
      (fun w => (w.ui.minSeq, w.ui.maxSeq)) = some (some 1, some 101) := by decide +kernel
  obtain ⟨w, hw, hui⟩ := Option.map_eq_some_iff.mp hrun
  obtain ⟨hmin, hmax⟩ := Prod.mk.inj hui
  have hreach := Reach.run .init hw
  obtain ⟨hc, -, hold⟩ := window_contiguous_iff (List.range 101) w hreach
  refine ⟨w, hreach, hmin, hmax, hc, ?_⟩
  intro holder
  have := (hold true).2.mp holder 1 hmin
  omega

/-- In the same log the first page is 0..99, and the live entry 101 then leaves out 100;
    and no page is loaded before 1..100. -/
theorem window_broken :
    (∃ w : World Nat, Reach step (fun _ _ => true) (.start (List.range 101)) w ∧ ¬ Contiguous w.log w.ui) ∧
    ∃ (w : World Nat) (a b : Nat), Reach step (fun _ _ => true) (.start (List.range 101)) w ∧ Window w.log w.ui a b ∧
      0 < a ∧ ¬ Window w.log (w.ui.loadOlder (w.api true)) (a - PAGE) b := by
  constructor
  · have hrun : (run step (fun _ _ => true) (.start (List.range 101))
        [Ev.signed 101, .jumpFirst true, .append 101, .live]).map
        (fun w => (w.ui.minSeq, w.ui.maxSeq, (w.ui.entries.map (·.seq)).contains 100)) =
        some (some 0, some 101, false) := by decide +kernel
    obtain ⟨w, hw, hui⟩ := Option.map_eq_some_iff.mp hrun
    obtain ⟨hmin, hui⟩ := Prod.mk.inj hui
    obtain ⟨hmax, hhole⟩ := Prod.mk.inj hui
    refine ⟨w, Reach.run .init hw, ?_⟩
    rintro (⟨-, hnone, -⟩ | ⟨a, b, hwin⟩)
    · rw [hmin] at hnone
      cases hnone
    · obtain rfl : 0 = a := Option.some.inj (hmin.symm.trans hwin.min)
      obtain rfl : 101 = b := Option.some.inj (hmax.symm.trans hwin.max)
      rw [hwin.seqs] at hhole
      simp at hhole
  · have hrun : (run step fits (.start (List.range 101)) [Ev.signed 101, .seekTo 51 true]).map (·.ui.minSeq) =
        some (some 1) := by decide +kernel
    obtain ⟨w, hw, hmin⟩ := Option.map_eq_some_iff.mp hrun
    have hreach := Reach.run .init hw
    obtain ⟨hs, ⟨-, hnone, -⟩ | ⟨a, b, hwin⟩⟩ := reach_contiguous hreach
    · rw [hmin] at hnone
      cases hnone
    · obtain rfl : 1 = a := Option.some.inj (hmin.symm.trans hwin.min)
      refine ⟨w, 1, b, hreach.mono (fun _ _ _ => rfl), hwin, Nat.one_pos, ?_⟩
      intro hmove
      obtain ⟨b', -, hstay⟩ := hwin.loadOlder hs true
      have := Option.some.inj (hstay.min.symm.trans hmove.min)
      simp [PAGE] at this

end Settled.Ui.Entries
