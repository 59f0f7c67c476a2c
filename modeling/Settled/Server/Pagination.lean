/-
  Settled.Server.Pagination — `ListEntries` and `GetByKey` (`service.rs`) over the log CF by
  its byte keys (`LogStore::seq_range_paged`, `LogStore::entries_by_key`), and a client
  that follows `next_cursor` until it is 0.

  A page ends when the log does, at the upper bound, or when it is full; only then does it
  return a cursor, the number after its last entry, and none at the upper bound. So 0 is
  never a number to go on from, and what a page passed over stays passed over: the log
  only grows at its end. The pages together are, in order and each once, the entries of
  the range in the log that the last request met, however it grew in between; and the
  client is done once it stops growing (`pagination_exact`).

  The two loops are one (`scanLoop`): they differ in which entries they keep and in the
  upper bound. `seqRangePaged_bytes` ties it to the scan by numbers that `watch` replays
  from.
-/

import Settled.Server.Machine
import Settled.Storage.Keys

namespace Settled.Server

open Settled.Lib Settled.Core Settled.Storage

/-! ## Pages -/

/-- The log CF: entries under the bytes of their numbers. -/
abbrev LogCf := OrdMap Key LogEntry

/-- The loop over the rows of an iterator; `entries` is what it has collected. -/
def scanLoop (keep : LogEntry → Bool) (stop limit : Nat) :
    List (Key × LogEntry) → List LogEntry → Except String (List LogEntry × Nat)
  | [], entries => .ok (entries, 0)
  | (k, e) :: rows, entries =>
    match fromBeBytes k.bytes with
    | none => .error "Data corruption: bad seq key length"
    | some seq =>
      if stop ≠ 0 ∧ stop ≤ seq then .ok (entries, 0)
      else if keep e then
        let entries := entries ++ [e]
        if limit ≤ entries.length then .ok (entries, if stop = 0 ∨ seq + 1 < stop then seq + 1 else 0)
        else scanLoop keep stop limit rows entries
      else scanLoop keep stop limit rows entries

/-- `IteratorMode::From(start, Forward)` and the loop. -/
def scan (keep : LogEntry → Bool) (stop limit : Nat) (cf : LogCf) (start : Nat) : Except String (List LogEntry × Nat) :=
  if limit = 0 then .ok ([], 0)
  else scanLoop keep stop limit (cf.entries.dropWhile fun row => row.1 < seqKey start) []

def LogCf.seqRangePaged (cf : LogCf) (start stop limit : Nat) : Except String (List LogEntry × Nat) :=
  scan (fun _ => true) stop limit cf start

def LogCf.entriesByKey (cf : LogCf) (key : Bytes) (fromSeq limit : Nat) : Except String (List LogEntry × Nat) :=
  scan (fun e => e.key = key) 0 limit cf fromSeq

/-! ## Handlers -/

def maxByKey : Nat := 1000
def defaultByKey : Nat := 50
def maxList : Nat := 1000
def defaultList : Nat := 50

structure ListEntriesRequest where
  fromSeq : Nat
  toSeq : Nat
  cursor : Nat
  limit : Nat

def listEntries (cf : LogCf) (req : ListEntriesRequest) : Except Status (List LogEntry × Nat) :=
  let limit := if req.limit = 0 then defaultList else min req.limit maxList
  let start := if 0 < req.cursor then req.cursor else req.fromSeq
  (cf.seqRangePaged start req.toSeq limit).mapError (⟨.internal, ·⟩)

structure GetByKeyRequest where
  key : Bytes
  cursor : Nat
  limit : Nat

def getByKey (cf : LogCf) (req : GetByKeyRequest) : Except Status (List LogEntry × Nat) :=
  if req.key = [] then .error ⟨.invalidArgument, "key must not be empty"⟩
  else
    let limit := if req.limit = 0 then defaultByKey else min req.limit maxByKey
    (cf.entriesByKey req.key req.cursor limit).mapError (⟨.internal, ·⟩)

/-- A client that follows the cursors: `page i cursor` is the answer to its request number
    `i`. What it got, and the number of its last request; `none` if it is still asking
    after `fuel` requests. -/
def follow (page : Nat → Nat → Except Status (List LogEntry × Nat)) :
    (fuel i cursor : Nat) → Option (Except Status (List LogEntry × Nat))
  | 0, _, _ => none
  | fuel + 1, i, cursor =>
    match page i cursor with
    | .error e => some (.error e)
    | .ok (entries, next) =>
      if next = 0 then some (.ok (entries, i))
      else (follow page fuel (i + 1) next).map fun r => r.map fun x => (entries ++ x.1, x.2)

/-! ## One page -/

/-- The CF holds `es`, numbered from 0: each entry under the bytes of its number. -/
structure LogCf.Holds (cf : LogCf) (es : List LogEntry) : Prop where
  numbered : ∀ (i : Nat) (e : LogEntry), es[i]? = some e → e.seq = i
  bound : es.length < 2 ^ 64
  rows : ∀ k v, cf.get? k = some v ↔ ∃ e ∈ es, seqKey e.seq = k ∧ e = v

def rowsOf (es : List LogEntry) : List (Key × LogEntry) := es.map fun e => (seqKey e.seq, e)

/-- Entries numbered from `first`, below the end of `u64`. -/
def From (first : Nat) (es : List LogEntry) : Prop :=
  (∀ (i : Nat) (e : LogEntry), es[i]? = some e → e.seq = first + i) ∧ first + es.length < 2 ^ 64

theorem From.cons {first : Nat} {e : LogEntry} {es : List LogEntry} (h : From first (e :: es)) :
    e.seq = first ∧ first < 2 ^ 64 ∧ From (first + 1) es := by
  obtain ⟨hn, hb⟩ := h
  rw [List.length_cons] at hb
  refine ⟨hn 0 e rfl, by omega, fun i f hi => ?_, by omega⟩
  have := hn (i + 1) f hi
  omega

theorem From.seq_lt {first : Nat} {es : List LogEntry} (h : From first es) {e : LogEntry} (he : e ∈ es) :
    first ≤ e.seq ∧ e.seq < first + es.length := by
  obtain ⟨i, hi, rfl⟩ := List.getElem_of_mem he
  have := h.1 i _ (List.getElem?_eq_getElem hi)
  omega

theorem From.drop {first : Nat} {es : List LogEntry} (h : From first es) (n : Nat) (hn : n ≤ es.length) :
    From (first + n) (es.drop n) := by
  refine ⟨fun i e hi => ?_, ?_⟩
  · rw [List.getElem?_drop] at hi
    have := h.1 _ e hi
    omega
  · have := h.2
    rw [List.length_drop]
    omega

theorem From.seq_lt_of_mem_take {first n : Nat} {es : List LogEntry} (h : From first es) {e : LogEntry} (he : e ∈ es.take n) :
    e.seq < first + n := by
  obtain ⟨i, hi, rfl⟩ := List.getElem_of_mem he
  rw [List.length_take] at hi
  have := h.1 i _ (List.getElem?_eq_getElem (show i < es.length by omega))
  rw [List.getElem_take]
  omega

theorem From.le_seq_of_mem_drop {first n : Nat} {es : List LogEntry} (h : From first es) {e : LogEntry} (he : e ∈ es.drop n) :
    first + n ≤ e.seq := by
  obtain ⟨i, hi, rfl⟩ := List.getElem_of_mem he
  rw [List.length_drop] at hi
  have := h.1 (n + i) _ (List.getElem?_eq_getElem (show n + i < es.length by omega))
  rw [List.getElem_drop]
  omega

/-- Byte order is the order of the numbers. -/
theorem rowsOf_sorted : ∀ {es : List LogEntry} {first : Nat}, From first es →
    (rowsOf es).Pairwise fun a b => a.1 < b.1 := by
  intro es
  induction es with
  | nil => intro first _; exact List.Pairwise.nil
  | cons e es ih =>
    intro first h
    obtain ⟨he, hlt, h'⟩ := h.cons
    refine List.pairwise_cons.mpr ⟨fun row hrow => ?_, ih h'⟩
    obtain ⟨f, hf, rfl⟩ := List.mem_map.mp hrow
    have hfs := h'.seq_lt hf
    have hb := h'.2
    exact (seqKey_lt (by omega) (by omega)).mpr (by omega)

theorem LogCf.Holds.from {cf : LogCf} {es : List LogEntry} (h : cf.Holds es) : From 0 es :=
  ⟨fun i e hi => by rw [Nat.zero_add]; exact h.numbered i e hi, by rw [Nat.zero_add]; exact h.bound⟩

theorem mem_rowsOf {es : List LogEntry} {k : Key} {v : LogEntry} :
    (k, v) ∈ rowsOf es ↔ ∃ e ∈ es, seqKey e.seq = k ∧ e = v := by
  rw [rowsOf, List.mem_map]
  constructor
  · intro ⟨e, he, hkv⟩
    obtain ⟨hk, hv⟩ := Prod.mk.inj hkv
    exact ⟨e, he, hk, hv⟩
  · intro ⟨e, he, hk, hv⟩
    exact ⟨e, he, by rw [hk, hv]⟩

theorem LogCf.Holds.entries {cf : LogCf} {es : List LogEntry} (h : cf.Holds es) : cf.entries = rowsOf es := by
  have heq : cf = ⟨rowsOf es, rowsOf_sorted h.from⟩ := by
    apply OrdMap.ext_get?
    intro k v
    rw [h.rows, ← mem_rowsOf]
    exact OrdMap.mem_entries (m := ⟨rowsOf es, rowsOf_sorted h.from⟩)
  rw [heq]

/-- An iterator from `start` meets the entries from number `start` on. -/
theorem dropWhile_rowsOf : ∀ {es : List LogEntry} {first start : Nat}, From first es → first ≤ start → start < 2 ^ 64 →
    (rowsOf es).dropWhile (fun row => row.1 < seqKey start) = rowsOf (es.drop (start - first)) := by
  intro es
  induction es with
  | nil => intro first start _ _ _; rw [List.drop_nil]; rfl
  | cons e es ih =>
    intro first start h hle hs
    obtain ⟨he, hlt, h'⟩ := h.cons
    rw [rowsOf, List.map_cons, List.dropWhile_cons]
    by_cases hlt' : first < start
    · have hk : seqKey e.seq < seqKey start := by rw [he]; exact (seqKey_lt hlt hs).mpr hlt'
      rw [if_pos (decide_eq_true hk), show start - first = (start - (first + 1)) + 1 by omega, List.drop_succ_cons]
      exact ih h' hlt' hs
    · have hk : ¬ seqKey e.seq < seqKey start := by
        rw [he, seqKey_lt hlt hs]
        exact hlt'
      rw [if_neg (by rw [decide_eq_true_iff]; exact hk), show start - first = 0 by omega, List.drop_zero]
      rfl

/-- Below the upper bound, if there is one. -/
def below (stop : Nat) (e : LogEntry) : Bool := stop = 0 ∨ e.seq < stop

/-- What a page is, over entries numbered from `first`: with no cursor all that is to be
    kept below the bound; with a cursor, all that is to be kept before it. -/
def PageOf (keep : LogEntry → Bool) (stop first : Nat) (es page : List LogEntry) (next : Nat) : Prop :=
  (next = 0 ∧ page = es.filter fun e => keep e && below stop e) ∨
  (first < next ∧ next ≤ first + es.length ∧ (stop = 0 ∨ next < stop) ∧ page = (es.take (next - first)).filter keep)

/-- An entry that the loop goes past, kept or not. -/
theorem PageOf.cons {keep : LogEntry → Bool} {stop first : Nat} {e : LogEntry} {es page : List LogEntry} {next : Nat}
    (h : PageOf keep stop (first + 1) es page next) (he : below stop e = true) :
    PageOf keep stop first (e :: es) ([e].filter keep ++ page) next := by
  rcases h with ⟨h0, rfl⟩ | ⟨h1, h2, h3, rfl⟩
  · refine Or.inl ⟨h0, ?_⟩
    cases hk : keep e <;> simp [hk, he]
  · refine Or.inr ⟨by omega, by rw [List.length_cons]; omega, h3, ?_⟩
    rw [show next - first = (next - (first + 1)) + 1 by omega, List.take_succ_cons]
    cases hk : keep e <;> simp [hk]

/-- From the upper bound on nothing is kept. -/
theorem From.filter_past {first stop : Nat} {es : List LogEntry} (h : From first es) (keep : LogEntry → Bool) (h0 : stop ≠ 0)
    (hstop : stop ≤ first) : es.filter (fun e => keep e && below stop e) = [] := by
  apply List.filter_eq_nil_iff.mpr
  intro f hf
  have := (h.seq_lt hf).1
  simp only [below, Bool.and_eq_true, decide_eq_true_eq, not_and]
  omega

theorem From.key {first : Nat} {e : LogEntry} {es : List LogEntry} (h : From first (e :: es)) :
    fromBeBytes (seqKey e.seq).bytes = some first := by
  obtain ⟨he, hlt, -⟩ := h.cons
  rw [he]
  exact fromBeBytes_seqKey hlt

theorem scanLoop_page (keep : LogEntry → Bool) (stop limit : Nat) : ∀ {es : List LogEntry} {first : Nat}
    (entries : List LogEntry), From first es →
    ∃ page next, scanLoop keep stop limit (rowsOf es) entries = .ok (entries ++ page, next) ∧
      PageOf keep stop first es page next := by
  intro es
  induction es with
  | nil => intro first entries _; exact ⟨[], 0, by rw [List.append_nil]; rfl, Or.inl ⟨rfl, rfl⟩⟩
  | cons e es ih =>
    intro first entries h
    obtain ⟨he, -, h'⟩ := h.cons
    rw [rowsOf, List.map_cons, scanLoop, h.key]
    dsimp only
    by_cases hstop : stop ≠ 0 ∧ stop ≤ first
    · -- the bound: this entry and all after it are past it
      rw [if_pos hstop]
      exact ⟨[], 0, by rw [List.append_nil], Or.inl ⟨rfl, (h.filter_past keep hstop.1 hstop.2).symm⟩⟩
    · rw [if_neg hstop]
      have hbelow : below stop e = true := by
        rw [below, decide_eq_true_iff, he]
        omega
      cases hk : keep e with
      | false =>
        obtain ⟨page, next, hloop, hpage⟩ := ih entries h'
        have := hpage.cons hbelow
        rw [List.filter_singleton, hk] at this
        exact ⟨page, next, hloop, this⟩
      | true =>
        rw [if_pos rfl]
        by_cases hfull : limit ≤ (entries ++ [e]).length
        · rw [if_pos hfull]
          refine ⟨[e], _, rfl, ?_⟩
          by_cases hnext : stop = 0 ∨ first + 1 < stop
          · rw [if_pos hnext]
            refine Or.inr ⟨by omega, by rw [List.length_cons]; omega, hnext, ?_⟩
            rw [Nat.add_sub_cancel_left, List.take_succ_cons, List.take_zero, List.filter_singleton, hk]
            rfl
          · -- full, and the bound is next
            rw [if_neg hnext]
            refine Or.inl ⟨rfl, ?_⟩
            have hrest : es.filter (fun f => keep f && below stop f) = [] := h'.filter_past keep (by omega) (by omega)
            rw [List.filter_cons_of_pos (by rw [hk, hbelow]; rfl), hrest]
        · rw [if_neg hfull]
          obtain ⟨page, next, hloop, hpage⟩ := ih (entries ++ [e]) h'
          have := hpage.cons hbelow
          rw [List.filter_singleton, hk] at this
          refine ⟨e :: page, next, ?_, this⟩
          rw [show entries ++ e :: page = (entries ++ [e]) ++ page by rw [List.append_assoc, List.singleton_append]]
          exact hloop

/-- The rest of a log from a number on, which may lie past its end. -/
theorem From.start {es : List LogEntry} (h : From 0 es) {start : Nat} (hs : start < 2 ^ 64) : From start (es.drop start) := by
  by_cases hle : start ≤ es.length
  · have := h.drop start hle
    rw [Nat.zero_add] at this
    exact this
  · rw [List.drop_eq_nil_of_le (by omega)]
    exact ⟨fun i e hi => absurd hi (by simp), hs⟩

/-- A page of a scan. -/
theorem LogCf.Holds.scan {cf : LogCf} {es : List LogEntry} (h : cf.Holds es) (keep : LogEntry → Bool) (stop : Nat)
    {limit start : Nat} (hl : 0 < limit) (hs : start < 2 ^ 64) :
    ∃ page next, Server.scan keep stop limit cf start = .ok (page, next) ∧ PageOf keep stop start (es.drop start) page next := by
  obtain ⟨page, next, hloop, hpage⟩ := scanLoop_page keep stop limit [] (h.from.start hs)
  refine ⟨page, next, ?_, hpage⟩
  rw [Server.scan, if_neg (by omega), h.entries, dropWhile_rowsOf h.from (Nat.zero_le _) hs, Nat.sub_zero, hloop]
  rfl

/-! ## All pages -/

/-- The pages of a client, request by request: `page` is what the handler answers, and
    `start` where it starts for a cursor. -/
structure Paging (logs : Nat → List LogEntry) (keep : LogEntry → Bool) (stop : Nat) (start : Nat → Nat)
    (page : Nat → Nat → Except Status (List LogEntry × Nat)) : Prop where
  from_zero : ∀ i, From 0 (logs i)
  grows : ∀ i, logs i <+: logs (i + 1)
  start_cursor : ∀ cursor, 0 < cursor → start cursor = cursor
  page_of : ∀ i cursor, start cursor < 2 ^ 64 → ∃ entries next, page i cursor = .ok (entries, next) ∧
    PageOf keep stop (start cursor) ((logs i).drop (start cursor)) entries next

section

variable {logs : Nat → List LogEntry} {keep : LogEntry → Bool} {stop : Nat} {start : Nat → Nat}
  {page : Nat → Nat → Except Status (List LogEntry × Nat)}

theorem Paging.prefix_of_le (h : Paging logs keep stop start page) {i j : Nat} (hij : i ≤ j) : logs i <+: logs j := by
  induction j with
  | zero =>
    obtain rfl := Nat.le_zero.mp hij
    exact List.prefix_rfl
  | succ j ih =>
    by_cases e : i = j + 1
    · subst e
      exact List.prefix_rfl
    · exact (ih (by omega)).trans (h.grows j)

/-- A page with a cursor goes on within the log it met. -/
theorem PageOf.next_le {first next : Nat} {es entries : List LogEntry} (h : PageOf keep stop first (es.drop first) entries next)
    (h0 : next ≠ 0) : first < next ∧ next ≤ es.length ∧ (stop = 0 ∨ next < stop) ∧
      entries = ((es.drop first).take (next - first)).filter keep := by
  rcases h with ⟨h, -⟩ | ⟨h1, h2, h3, h4⟩
  · exact absurd h h0
  · rw [List.length_drop] at h2
    exact ⟨h1, by omega, h3, h4⟩

theorem Paging.follow_exact (h : Paging logs keep stop start page) : ∀ {fuel i cursor : Nat}
    {r : Except Status (List LogEntry × Nat)}, start cursor < 2 ^ 64 → follow page fuel i cursor = some r →
    ∃ last, i ≤ last ∧ r = .ok (((logs last).drop (start cursor)).filter (fun e => keep e && below stop e), last) := by
  intro fuel
  induction fuel with
  | zero => intro i cursor r _ hr; cases hr
  | succ fuel ih =>
    intro i cursor r hs hr
    obtain ⟨entries, next, hp, hpage⟩ := h.page_of i cursor hs
    rw [follow, hp] at hr
    dsimp only at hr
    by_cases h0 : next = 0
    · rw [if_pos h0, Option.some.injEq] at hr
      rcases hpage with ⟨-, he⟩ | ⟨h1, -⟩
      · exact ⟨i, Nat.le_refl i, by rw [← hr, he]⟩
      · omega
    · rw [if_neg h0, Option.map_eq_some_iff] at hr
      obtain ⟨r', hr', rfl⟩ := hr
      obtain ⟨h1, h2, h3, h4⟩ := hpage.next_le h0
      have hb := (h.from_zero i).2
      have hnext := h.start_cursor next (by omega)
      obtain ⟨last, hle, rfl⟩ := ih (by omega) hr'
      refine ⟨last, by omega, ?_⟩
      -- the log then: what this page saw, up to its cursor, and what is from there on
      obtain ⟨t, ht⟩ := h.prefix_of_le (show i ≤ last by omega)
      have hsplit : (logs last).drop (start cursor) =
          ((logs i).drop (start cursor)).take (next - start cursor) ++ (logs last).drop next := by
        rw [← ht, List.drop_append_of_le_length (by omega), List.drop_append_of_le_length h2, ← List.append_assoc]
        congr 1
        rw [← List.take_append_drop (next - start cursor) ((logs i).drop (start cursor)), List.drop_drop,
          show start cursor + (next - start cursor) = next by omega, List.take_left']
        rw [List.length_take, List.length_drop]
        omega
      have hfirst : entries = (((logs i).drop (start cursor)).take (next - start cursor)).filter fun e => keep e && below stop e := by
        rw [h4]
        apply List.filter_congr
        intro e he
        have hlt := ((h.from_zero i).drop (start cursor) (by omega)).seq_lt_of_mem_take he
        have : below stop e = true := by
          rw [below, decide_eq_true_iff]
          omega
        rw [this, Bool.and_true]
      rw [hsplit, List.filter_append, ← hfirst, hnext]
      rfl

theorem Paging.follow_returns (h : Paging logs keep stop start page) {N : Nat} (hN : ∀ i, (logs i).length ≤ N) :
    ∀ {fuel i cursor : Nat}, start cursor < 2 ^ 64 → 0 < fuel → N < fuel + start cursor →
      (follow page fuel i cursor).isSome = true := by
  intro fuel
  induction fuel with
  | zero => intro i cursor _ h0; omega
  | succ fuel ih =>
    intro i cursor hs _ hlt
    obtain ⟨entries, next, hp, hpage⟩ := h.page_of i cursor hs
    rw [follow, hp]
    dsimp only
    by_cases h0 : next = 0
    · rw [if_pos h0]
      rfl
    · rw [if_neg h0, Option.isSome_map]
      obtain ⟨h1, h2, -⟩ := hpage.next_le h0
      have hb := (h.from_zero i).2
      have hle := hN i
      have hnext := h.start_cursor next (by omega)
      exact ih (by omega) (by omega) (by omega)

/-- What the client has got when it is done, and that it is, if the log stops growing. -/
theorem Paging.exact (h : Paging logs keep stop start page) (first : Nat) (hstart : start 0 = first) (hs : first < 2 ^ 64) :
    (∀ fuel r, follow page fuel 0 0 = some r → ∃ last entries, r = .ok (entries, last) ∧
      entries = (logs last).filter (fun e => first ≤ e.seq && (keep e && below stop e)) ∧
      entries.Pairwise fun a b => a.seq < b.seq) ∧
    ((∃ k, ∀ j, k ≤ j → logs j = logs k) → ∃ fuel, (follow page fuel 0 0).isSome = true) := by
  refine ⟨fun fuel r hr => ?_, fun ⟨k, hk⟩ => ?_⟩
  · obtain ⟨last, -, rfl⟩ := h.follow_exact (by rw [hstart]; exact hs) hr
    have hascending : (logs last).Pairwise fun a b => a.seq < b.seq := by
      rw [List.pairwise_iff_getElem]
      intro i j hi hj hij
      have h1 := (h.from_zero last).1 i _ (List.getElem?_eq_getElem hi)
      have h2 := (h.from_zero last).1 j _ (List.getElem?_eq_getElem hj)
      omega
    -- the entries from `first` on are those not below it
    have hdrop : (logs last).drop first = (logs last).filter fun e => first ≤ e.seq := by
      conv_rhs => rw [← List.take_append_drop first (logs last), List.filter_append]
      have hlow : ((logs last).take first).filter (fun e => first ≤ e.seq) = [] := by
        apply List.filter_eq_nil_iff.mpr
        intro e he
        have := (h.from_zero last).seq_lt_of_mem_take he
        rw [decide_eq_true_iff]
        omega
      have hhigh : ((logs last).drop first).filter (fun e => first ≤ e.seq) = (logs last).drop first := by
        apply List.filter_eq_self.mpr
        intro e he
        have := (h.from_zero last).le_seq_of_mem_drop he
        rw [decide_eq_true_iff]
        omega
      rw [hlow, hhigh, List.nil_append]
    refine ⟨last, _, rfl, ?_, ?_⟩
    · rw [hstart, hdrop, List.filter_filter]
      apply List.filter_congr
      intro e _
      rw [Bool.and_comm]
    · exact (hascending.sublist (List.drop_sublist _ _)).sublist List.filter_sublist
  · have hN : ∀ i, (logs i).length ≤ (logs k).length := by
      intro i
      by_cases hik : i ≤ k
      · exact (h.prefix_of_le hik).length_le
      · rw [hk i (by omega)]
    exact ⟨(logs k).length + 1, h.follow_returns hN (by rw [hstart]; exact hs) (by omega) (by omega)⟩

end

section

variable {cfs : Nat → LogCf} {logs : Nat → List LogEntry}

theorem paging_listEntries (hcf : ∀ i, (cfs i).Holds (logs i)) (hgrow : ∀ i, logs i <+: logs (i + 1))
    (fromSeq toSeq limit : Nat) : Paging logs (fun _ => true) toSeq (fun cursor => if 0 < cursor then cursor else fromSeq)
      fun i cursor => listEntries (cfs i) ⟨fromSeq, toSeq, cursor, limit⟩ where
  from_zero i := (hcf i).from
  grows := hgrow
  start_cursor cursor h := if_pos h
  page_of i cursor hs := by
    have hl : 0 < if limit = 0 then defaultList else min limit maxList := by
      split
      · decide
      · rw [maxList]; omega
    obtain ⟨entries, next, hscan, hpage⟩ := (hcf i).scan (fun _ => true) toSeq hl hs
    refine ⟨entries, next, ?_, hpage⟩
    simp only [listEntries, LogCf.seqRangePaged, hscan]
    rfl

theorem paging_getByKey (hcf : ∀ i, (cfs i).Holds (logs i)) (hgrow : ∀ i, logs i <+: logs (i + 1)) {key : Bytes}
    (hkey : key ≠ []) (limit : Nat) : Paging logs (fun e => e.key = key) 0 (fun cursor => cursor)
      fun i cursor => getByKey (cfs i) ⟨key, cursor, limit⟩ where
  from_zero i := (hcf i).from
  grows := hgrow
  start_cursor cursor h := rfl
  page_of i cursor hs := by
    have hl : 0 < if limit = 0 then defaultByKey else min limit maxByKey := by
      split
      · decide
      · rw [maxByKey]; omega
    obtain ⟨entries, next, hscan, hpage⟩ := (hcf i).scan (fun e => e.key = key) 0 hl hs
    refine ⟨entries, next, ?_, hpage⟩
    simp only [getByKey, hkey, if_false, LogCf.entriesByKey, hscan]
    rfl

/-- Cursor pagination is exact. The `i`-th request meets the log `logs i`, which only
    grows. A client that follows `next_cursor` to its end has got, in ascending order and
    each once, the entries of its range in the log its last request met; for `GetByKey`,
    the entries with its key there. And it comes to the end once the log stops growing. -/
theorem pagination_exact (hcf : ∀ i, (cfs i).Holds (logs i)) (hgrow : ∀ i, logs i <+: logs (i + 1)) :
    (∀ fromSeq toSeq limit, fromSeq < 2 ^ 64 →
      (∀ fuel r, follow (fun i cursor => listEntries (cfs i) ⟨fromSeq, toSeq, cursor, limit⟩) fuel 0 0 = some r →
        ∃ last entries, r = .ok (entries, last) ∧
          entries = (logs last).filter (fun e => fromSeq ≤ e.seq ∧ (toSeq = 0 ∨ e.seq < toSeq)) ∧
          entries.Pairwise fun a b => a.seq < b.seq) ∧
      ((∃ k, ∀ j, k ≤ j → logs j = logs k) →
        ∃ fuel, (follow (fun i cursor => listEntries (cfs i) ⟨fromSeq, toSeq, cursor, limit⟩) fuel 0 0).isSome = true)) ∧
    ∀ key limit, key ≠ [] →
      (∀ fuel r, follow (fun i cursor => getByKey (cfs i) ⟨key, cursor, limit⟩) fuel 0 0 = some r →
        ∃ last entries, r = .ok (entries, last) ∧ entries = (logs last).filter (fun e => e.key = key) ∧
          entries.Pairwise fun a b => a.seq < b.seq) ∧
      ((∃ k, ∀ j, k ≤ j → logs j = logs k) →
        ∃ fuel, (follow (fun i cursor => getByKey (cfs i) ⟨key, cursor, limit⟩) fuel 0 0).isSome = true) := by
  refine ⟨fun fromSeq toSeq limit hs => ?_, fun key limit hkey => ?_⟩
  · obtain ⟨hexact, hdone⟩ := (paging_listEntries hcf hgrow fromSeq toSeq limit).exact fromSeq rfl hs
    refine ⟨fun fuel r hr => ?_, hdone⟩
    obtain ⟨last, entries, rfl, he, hasc⟩ := hexact fuel r hr
    refine ⟨last, entries, rfl, ?_, hasc⟩
    rw [he]
    apply List.filter_congr
    intro e _
    rw [below, Bool.true_and, Bool.decide_and]
  · obtain ⟨hexact, hdone⟩ := (paging_getByKey hcf hgrow hkey limit).exact 0 rfl (by omega)
    refine ⟨fun fuel r hr => ?_, hdone⟩
    obtain ⟨last, entries, rfl, he, hasc⟩ := hexact fuel r hr
    refine ⟨last, entries, rfl, ?_, hasc⟩
    rw [he]
    apply List.filter_congr
    intro e _
    simp [below]

end

/-- The puts of `append` and `append_batch` into the log CF. -/
def LogCf.of (es : List LogEntry) : LogCf := es.foldl (fun cf e => cf.put (seqKey e.seq) e) .empty

theorem LogCf.of_holds {es : List LogEntry} (h : From 0 es) : (LogCf.of es).Holds es where
  numbered i e hi := by rw [h.1 i e hi, Nat.zero_add]
  bound := by have := h.2; omega
  rows k v := by
    have hkeys : (es.map fun e => seqKey e.seq).Nodup := by
      have := (List.pairwise_map.mp (rowsOf_sorted h)).imp fun hlt => ne_of_lt hlt
      exact List.pairwise_map.mpr this
    rw [LogCf.of, OrdMap.get?_foldl_put (fun e : LogEntry => seqKey e.seq) (fun e => e) hkeys]
    constructor
    · intro hx
      rcases hx with hx | ⟨-, hx⟩
      · exact hx
      · cases hx
    · exact Or.inl

/-- Two entries at the first request, a third before the second one, one key for all:
    pages of two. -/
theorem pagination_exact_three :
    let es := entriesOf Sha256.sha256 0 5 [([1], [10]), ([1], [20]), ([1], [30])]
    let cfs := fun i => LogCf.of (if i = 0 then es.take 2 else es)
    ∃ fuel r, follow (fun i cursor => listEntries (cfs i) ⟨1, 0, cursor, 1⟩) fuel 0 0 = some r ∧
      (∃ last entries, r = .ok (entries, last) ∧
        entries = (if last = 0 then es.take 2 else es).filter fun e => 1 ≤ e.seq ∧ (0 = 0 ∨ e.seq < 0)) ∧
      ∃ fuel, (follow (fun i cursor => getByKey (cfs i) ⟨[1], cursor, 2⟩) fuel 0 0).isSome = true := by
  intro es cfs
  have hnum := numbered_entriesOf Sha256.sha256 [([1], [10]), ([1], [20]), ([1], [30])] 0 5
  have hfrom : ∀ i : Nat, From 0 (if i = 0 then es.take 2 else es) := by
    intro i
    split
    · exact ⟨fun i e hi => ((hnum.take Sha256.sha256 2) i e hi).1, by decide⟩
    · exact ⟨fun i e hi => (hnum i e hi).1, by decide⟩
  have hgrow : ∀ i : Nat, (if i = 0 then es.take 2 else es) <+: if i + 1 = 0 then es.take 2 else es := by
    intro i
    rw [if_neg (show ¬ i + 1 = 0 by omega)]
    split
    · exact List.take_prefix 2 es
    · exact List.prefix_rfl
  have hstop : ∃ k, ∀ j, k ≤ j → (if j = 0 then es.take 2 else es) = if k = 0 then es.take 2 else es :=
    ⟨1, fun j hj => by rw [if_neg (by omega), if_neg (by omega)]⟩
  have hcf : ∀ i, (cfs i).Holds (if i = 0 then es.take 2 else es) := fun i => LogCf.of_holds (hfrom i)
  obtain ⟨hlist, hkey⟩ := pagination_exact hcf hgrow
  obtain ⟨hexact, hdone⟩ := hlist 1 0 1 (by decide)
  obtain ⟨fuel, hf⟩ := hdone hstop
  obtain ⟨r, hr⟩ := Option.isSome_iff_exists.mp hf
  obtain ⟨last, entries, hok, he, -⟩ := hexact fuel r hr
  exact ⟨fuel, r, hr, ⟨last, entries, hok, he⟩, (hkey [1] 2 (by decide)).2 hstop⟩

/-! ## The scan by numbers -/

/-- The cursor after a page with `room` for so many entries. -/
def nextCursor (stop room : Nat) (page : List LogEntry) : Nat :=
  match page.getLast? with
  | none => 0
  | some e => if page.length < room then 0 else if stop = 0 ∨ e.seq + 1 < stop then e.seq + 1 else 0

theorem nextCursor_cons {stop room : Nat} {e : LogEntry} {page : List LogEntry} (hr : 0 < room) :
    nextCursor stop (room + 1) (e :: page) = nextCursor stop room page := by
  cases page with
  | nil => rw [nextCursor, nextCursor, List.getLast?_singleton]; simp [hr]
  | cons f page => rw [nextCursor, nextCursor, List.getLast?_cons_cons]; simp

theorem scanLoop_all {stop limit : Nat} : ∀ {es : List LogEntry} {first : Nat} (entries : List LogEntry), From first es →
    entries.length < limit →
    scanLoop (fun _ => true) stop limit (rowsOf es) entries =
      .ok (entries ++ (es.takeWhile (below stop)).take (limit - entries.length),
        nextCursor stop (limit - entries.length) ((es.takeWhile (below stop)).take (limit - entries.length))) := by
  intro es
  induction es with
  | nil => intro first entries _ _; rw [List.takeWhile_nil, List.take_nil, List.append_nil]; rfl
  | cons e es ih =>
    intro first entries h hlt
    obtain ⟨he, -, h'⟩ := h.cons
    rw [rowsOf, List.map_cons, scanLoop, h.key, List.takeWhile_cons]
    dsimp only
    by_cases hstop : stop ≠ 0 ∧ stop ≤ first
    · have hbelow : below stop e = false := by
        rw [below, decide_eq_false_iff_not, he]
        omega
      rw [if_pos hstop, hbelow]
      simp [nextCursor]
    · have hbelow : below stop e = true := by
        rw [below, decide_eq_true_iff, he]
        omega
      rw [if_neg hstop, if_pos rfl, hbelow, if_pos rfl]
      by_cases hfull : limit ≤ (entries ++ [e]).length
      · rw [if_pos hfull]
        rw [List.length_append, List.length_singleton] at hfull
        rw [show limit - entries.length = 0 + 1 by omega, List.take_succ_cons, List.take_zero]
        simp [nextCursor, he]
      · rw [if_neg hfull]
        have hlen : (entries ++ [e]).length = entries.length + 1 := by rw [List.length_append, List.length_singleton]
        rw [hlen] at hfull
        have hloop := ih (entries ++ [e]) h' (by rw [hlen]; omega)
        rw [hlen] at hloop
        rw [show limit - entries.length = (limit - (entries.length + 1)) + 1 by omega, List.take_succ_cons,
          nextCursor_cons (by omega), show entries ++ e :: (es.takeWhile (below stop)).take (limit - (entries.length + 1)) =
            (entries ++ [e]) ++ (es.takeWhile (below stop)).take (limit - (entries.length + 1)) by
              rw [List.append_assoc, List.singleton_append]]
        exact hloop

theorem dropWhile_seq : ∀ {es : List LogEntry} {first start : Nat}, From first es → first ≤ start →
    es.dropWhile (fun e => e.seq < start) = es.drop (start - first) := by
  intro es
  induction es with
  | nil => intro first start _ _; rw [List.drop_nil]; rfl
  | cons e es ih =>
    intro first start h hle
    obtain ⟨he, -, h'⟩ := h.cons
    rw [List.dropWhile_cons, he]
    by_cases hlt : first < start
    · rw [if_pos (decide_eq_true hlt), show start - first = (start - (first + 1)) + 1 by omega, List.drop_succ_cons]
      exact ih h' hlt
    · rw [if_neg (by rw [decide_eq_true_iff]; exact hlt), show start - first = 0 by omega, List.drop_zero]

/-- A log without gaps, scanned by the bytes of the keys and by the numbers. -/
theorem seqRangePaged_bytes {sha256 : Bytes → Hash} {s : Store} {es : List LogEntry} (h : Storage.Holds sha256 s es)
    (hb : es.length < 2 ^ 64) {start stop limit : Nat} (hs : start < 2 ^ 64) :
    (LogCf.of es).seqRangePaged start stop limit = .ok (s.seqRangePaged start stop limit) := by
  have hfrom : From 0 es := ⟨fun i e hi => (h.numbered i e hi).1, by omega⟩
  have hlog : s.log.entries = es.map fun e => (e.seq, e) := by
    apply List.ext_getElem?
    intro i
    rw [h.log, OrdMap.ofList, List.getElem?_map, List.getElem?_map, List.getElem?_zipIdx, Option.map_map, Nat.zero_add]
    cases hi : es[i]? with
    | none => rfl
    | some e => simp [(h.numbered i e hi).1]
  rw [LogCf.seqRangePaged, scan, Store.seqRangePaged]
  by_cases hl : limit = 0
  · rw [if_pos hl, if_pos hl]
  · have htake : (if stop = 0 then es.drop start else (es.drop start).takeWhile fun e => e.seq < stop) =
        (es.drop start).takeWhile (below stop) := by
      by_cases h0 : stop = 0
      · rw [if_pos h0, List.takeWhile_eq_self_iff.mpr fun e _ => by rw [below, decide_eq_true_iff]; exact Or.inl h0]
      · rw [if_neg h0]
        congr 1
        funext e
        rw [below, decide_eq_decide]
        omega
    rw [if_neg hl, if_neg hl, (LogCf.of_holds hfrom).entries, dropWhile_rowsOf hfrom (Nat.zero_le _) hs, Nat.sub_zero,
      scanLoop_all [] (hfrom.start hs) (by rw [List.length_nil]; omega), List.nil_append, List.length_nil, Nat.sub_zero, ← htake, hlog]
    have hdrop : (es.map fun e => (e.seq, e)).dropWhile (fun x => x.1 < start) = (es.drop start).map fun e => (e.seq, e) := by
      rw [List.dropWhile_map]
      congr 1
      exact (dropWhile_seq hfrom (Nat.zero_le _)).trans (by rw [Nat.sub_zero])
    have hwhile : (if stop = 0 then (es.drop start).map fun e => (e.seq, e)
        else ((es.drop start).map fun e => (e.seq, e)).takeWhile fun x => x.1 < stop) =
        (if stop = 0 then es.drop start else (es.drop start).takeWhile fun e => e.seq < stop).map fun e => (e.seq, e) := by
      split
      · rfl
      · rw [List.takeWhile_map]
        rfl
    dsimp only
    rw [hdrop, hwhile, ← List.map_take, List.map_map, List.getLast?_map, List.length_map]
    generalize (if stop = 0 then es.drop start else (es.drop start).takeWhile fun e => e.seq < stop).take limit = page
    rw [nextCursor, show ((fun x : Nat × LogEntry => x.2) ∘ fun e => (e.seq, e)) = id from rfl, List.map_id]
    cases page.getLast? <;> rfl

end Settled.Server
