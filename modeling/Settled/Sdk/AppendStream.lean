/-
  Settled.Sdk.AppendStream — `appendStream` of the TypeScript SDK's client.

  The generator takes entries from its input into `batch`. A batch is flushed when it is
  full, when the flush timer fires, and at the end of the input: each of its entries is
  passed to `append` at once, and the promise for all their results goes to the end of
  `pending`. After every entry the generator drains `pending` from the front, and after
  the input a second loop walks what is left.

  The environment decides everything else: when the input gives an entry or ends, when
  the consumer asks for the next result, when a set timer fires and in which order the
  calls complete (`Ev`). A timer may fire wherever the generator is suspended, so that
  `pending` grows while it is being drained.

  Proved, for every input, batch size and order of events: the calls made so far are for
  a prefix of the input, in order, and the i-th result yielded is that of the i-th call;
  when the generator returns, every entry has been passed to `append` once and its result
  yielded in its place; it is never stuck before, and a run is at most five events an
  entry long (`append_stream_exactly_once`).
-/

import Settled.Lib.Run
import Settled.Lib.Tasks
import Mathlib.Data.List.Basic
import Mathlib.Data.List.Range

namespace Settled.Sdk.AppendStream

open Settled.Lib

variable {Entry AppendResult : Type}

/-! ## The generator -/

/-- The loop the generator takes its next batch in: the `while` after an entry, or the
    `for` after the input, whose iterator is at an index of `pending`. -/
inductive Loop where
  | drain
  | last (i : Nat)
  deriving DecidableEq, Repr

/-- Where the generator is suspended, or that it has returned. A promise for a batch is
    the list of its calls; `rest` is what the `for (const r of results)` has still to
    yield. -/
inductive Point (AppendResult : Type) where
  | nextEntry
  | await (l : Loop) (p : List Nat)
  | yielding (l : Loop) (rest : List AppendResult)
  | done
  deriving DecidableEq, Repr

structure Gen (Entry AppendResult : Type) where
  /-- What the iterable has still to give. -/
  input : List Entry
  batch : List Entry
  flushTimer : Option Nat
  /-- The timers that are set and have neither fired nor been cleared. -/
  timers : List Nat
  nextTimer : Nat
  /-- The calls of `append`, in the order they were made, each with its result. -/
  calls : List (Entry × Option AppendResult)
  pending : List (List Nat)
  point : Point AppendResult
  yielded : List AppendResult
  deriving DecidableEq, Repr

def Gen.start (entries : List Entry) : Gen Entry AppendResult := ⟨entries, [], none, [], 0, [], [], .nextEntry, []⟩

namespace Gen

def flush (s : Gen Entry AppendResult) : Gen Entry AppendResult :=
  if s.batch.length = 0 then s
  else
    { s with batch := [],
             calls := s.calls ++ s.batch.map fun e => (e, none),
             pending := s.pending ++ [List.range' s.calls.length s.batch.length] }

/-- `if (flushTimer) clearTimeout(flushTimer)`. -/
def clearTimer (s : Gen Entry AppendResult) : Gen Entry AppendResult :=
  match s.flushTimer with
  | none => s
  | some t => { s with timers := s.timers.filter (· != t) }

def resetTimer (s : Gen Entry AppendResult) : Gen Entry AppendResult :=
  let s := s.clearTimer
  { s with flushTimer := some s.nextTimer, timers := s.timers ++ [s.nextTimer], nextTimer := s.nextTimer + 1 }

/-- The body of the `for await`, up to the `while`. -/
def push (batchSize : Nat) (s : Gen Entry AppendResult) (entry : Entry) : Gen Entry AppendResult :=
  let s := resetTimer { s with batch := s.batch ++ [entry] }
  if s.batch.length ≥ batchSize then flush { s.clearTimer with flushTimer := none } else s

/-- The head of a loop: the next batch, or out of it. -/
def next (s : Gen Entry AppendResult) : Loop → Gen Entry AppendResult
  | .drain =>
    match s.pending with
    | [] => { s with point := .nextEntry }
    | p :: ps => { s with pending := ps, point := .await .drain p }
  | .last i =>
    match s.pending[i]? with
    | none => { s with point := .done }
    | some p => { s with point := .await (.last (i + 1)) p }

/-- `for (const r of results) yield r`, up to its first `yield`. -/
def emit (s : Gen Entry AppendResult) (l : Loop) : List AppendResult → Gen Entry AppendResult
  | [] => s.next l
  | r :: rest => { s with yielded := s.yielded ++ [r], point := .yielding l rest }

/-- What a call has resolved to. -/
def result (s : Gen Entry AppendResult) (i : Nat) : Option AppendResult := s.calls[i]?.bind (·.2)

end Gen

inductive Ev (AppendResult : Type) where
  /-- The input gives an entry. -/
  | entry
  /-- The input ends. -/
  | finish
  /-- `Promise.all` of the awaited batch resolves. -/
  | settled
  /-- The consumer asks for the next result. -/
  | resume
  | fire (t : Nat)
  /-- A call of `append` resolves. -/
  | complete (i : Nat) (r : AppendResult)
  deriving DecidableEq, Repr

def step (batchSize : Nat) (s : Gen Entry AppendResult) : Ev AppendResult → Option (Gen Entry AppendResult)
  | .entry =>
    match s.point, s.input with
    | .nextEntry, e :: es => some ((Gen.push batchSize { s with input := es } e).next .drain)
    | _, _ => none
  | .finish =>
    match s.point, s.input with
    | .nextEntry, [] => some (s.clearTimer.flush.next (.last 0))
    | _, _ => none
  | .settled =>
    match s.point with
    | .await l p => (p.mapM s.result).map (s.emit l)
    | _ => none
  | .resume =>
    match s.point with
    | .yielding l rest => some (s.emit l rest)
    | _ => none
  | .fire t => if t ∈ s.timers then some (Gen.flush { s with timers := s.timers.erase t }) else none
  | .complete i r =>
    match s.calls[i]? with
    | some (e, none) => some { s with calls := s.calls.set i (e, some r) }
    | _ => none

/-! ## The invariant -/

namespace Gen

/-- The batches a loop has still to take. -/
def ahead (s : Gen Entry AppendResult) : Loop → List (List Nat)
  | .drain => s.pending
  | .last i => s.pending.drop i

/-- The batches whose results have not been read yet. -/
def waiting (s : Gen Entry AppendResult) : List (List Nat) :=
  match s.point with
  | .nextEntry => s.pending
  | .await l p => p :: s.ahead l
  | .yielding l _ => s.ahead l
  | .done => []

/-- The results read and not yet yielded. -/
def rest (s : Gen Entry AppendResult) : List AppendResult :=
  match s.point with
  | .yielding _ rest => rest
  | _ => []

/-- The generator is past its input. -/
def inLast (s : Gen Entry AppendResult) : Bool :=
  match s.point with
  | .await (.last _) _ => true
  | .yielding (.last _) _ => true
  | .done => true
  | _ => false

end Gen

/-- `out` is what has been read of the calls' results, `ws` the batches that follow. The
    calls are in the order of the input, and the batches cut them into consecutive runs;
    the one timer that can fire is the one the next `clearTimeout` clears. -/
structure Ordered (entries : List Entry) (s : Gen Entry AppendResult) (out : List AppendResult) (ws : List (List Nat)) :
    Prop where
  passed : s.calls.map Prod.fst ++ s.batch ++ s.input = entries
  results : ∀ (i : Nat) (r : AppendResult), out[i]? = some r → ∃ e, s.calls[i]? = some (e, some r)
  queue : List.range out.length ++ ws.flatten = List.range s.calls.length
  timers : ∀ t ∈ s.timers, s.flushTimer = some t

structure Inv (entries : List Entry) (s : Gen Entry AppendResult) : Prop where
  ordered : Ordered entries s (s.yielded ++ s.rest) s.waiting
  /-- Past the input nothing is left to flush, and no timer to do it. -/
  flushed : s.inLast = true → s.input = [] ∧ s.batch = [] ∧ s.timers = []

theorem start_inv (entries : List Entry) : Inv entries (Gen.start entries : Gen Entry AppendResult) := by
  refine ⟨⟨rfl, ?_, rfl, ?_⟩, fun h => by cases h⟩
  · intro i r h
    cases h
  · intro t ht
    cases ht

/-! ## The pieces of a step -/

section Pieces

variable {entries : List Entry} {s s' : Gen Entry AppendResult} {out : List AppendResult} {ws : List (List Nat)} {l : Loop}

@[simp] theorem clearTimer_input (s : Gen Entry AppendResult) : s.clearTimer.input = s.input := by
  unfold Gen.clearTimer; split <;> rfl

@[simp] theorem clearTimer_batch (s : Gen Entry AppendResult) : s.clearTimer.batch = s.batch := by
  unfold Gen.clearTimer; split <;> rfl

@[simp] theorem clearTimer_calls (s : Gen Entry AppendResult) : s.clearTimer.calls = s.calls := by
  unfold Gen.clearTimer; split <;> rfl

@[simp] theorem clearTimer_pending (s : Gen Entry AppendResult) : s.clearTimer.pending = s.pending := by
  unfold Gen.clearTimer; split <;> rfl

@[simp] theorem clearTimer_point (s : Gen Entry AppendResult) : s.clearTimer.point = s.point := by
  unfold Gen.clearTimer; split <;> rfl

@[simp] theorem clearTimer_yielded (s : Gen Entry AppendResult) : s.clearTimer.yielded = s.yielded := by
  unfold Gen.clearTimer; split <;> rfl

/-- The timer that can fire is cleared. -/
theorem clearTimer_timers (h : ∀ t ∈ s.timers, s.flushTimer = some t) : s.clearTimer.timers = [] := by
  unfold Gen.clearTimer
  split
  next hn =>
    rw [List.eq_nil_iff_forall_not_mem]
    intro t ht
    have := h t ht
    simp [hn] at this
  next t ht =>
    rw [List.filter_eq_nil_iff]
    intro u hu
    have := h u hu
    simp_all

@[simp] theorem flush_input (s : Gen Entry AppendResult) : s.flush.input = s.input := by
  unfold Gen.flush; split <;> rfl

@[simp] theorem flush_timers (s : Gen Entry AppendResult) : s.flush.timers = s.timers := by
  unfold Gen.flush; split <;> rfl

@[simp] theorem flush_flushTimer (s : Gen Entry AppendResult) : s.flush.flushTimer = s.flushTimer := by
  unfold Gen.flush; split <;> rfl

@[simp] theorem flush_point (s : Gen Entry AppendResult) : s.flush.point = s.point := by
  unfold Gen.flush; split <;> rfl

@[simp] theorem flush_yielded (s : Gen Entry AppendResult) : s.flush.yielded = s.yielded := by
  unfold Gen.flush; split <;> rfl

@[simp] theorem flush_batch (s : Gen Entry AppendResult) : s.flush.batch = [] := by
  unfold Gen.flush
  split
  next h => exact List.eq_nil_of_length_eq_zero h
  next => rfl

@[simp] theorem flush_calls (s : Gen Entry AppendResult) : s.flush.calls = s.calls ++ s.batch.map fun e => (e, none) := by
  unfold Gen.flush
  split
  next h => simp [List.eq_nil_of_length_eq_zero h]
  next => rfl

/-- What a flush adds to `pending`: nothing, or one batch of the calls it makes. -/
theorem flush_pending (s : Gen Entry AppendResult) : ∃ bs, s.flush.pending = s.pending ++ bs ∧
    bs.flatten = List.range' s.calls.length s.batch.length ∧ bs.length ≤ s.batch.length := by
  unfold Gen.flush
  split
  next h => exact ⟨[], by simp [h]⟩
  next h => exact ⟨[_], rfl, by simp, by simp; omega⟩

theorem Ordered.flush (h : Ordered entries s out ws) {bs : List (List Nat)}
    (hbs : bs.flatten = List.range' s.calls.length s.batch.length) : Ordered entries s.flush out (ws ++ bs) := by
  refine ⟨?_, ?_, ?_, ?_⟩
  · simpa [Function.comp_def] using h.passed
  · intro i r hi
    obtain ⟨e, he⟩ := h.results i r hi
    refine ⟨e, ?_⟩
    rw [flush_calls, List.getElem?_append_left (List.getElem?_eq_some_iff.mp he).1, he]
  · rw [List.flatten_append, ← List.append_assoc, h.queue, hbs]
    have hr := List.range'_append_1 (s := 0) (m := s.calls.length) (n := s.batch.length)
    rw [Nat.zero_add] at hr
    simp only [List.range_eq_range', flush_calls, List.length_append, List.length_map, hr]
  · simpa using h.timers

theorem Ordered.clearTimer (h : Ordered entries s out ws) : Ordered entries s.clearTimer out ws := by
  refine ⟨?_, ?_, ?_, ?_⟩
  · simpa using h.passed
  · simpa using h.results
  · simpa using h.queue
  · rw [clearTimer_timers h.timers]
    intro t ht
    cases ht

/-- Whether a loop has still to see the input end. -/
def Loop.owed : Loop → Nat
  | .drain => 1
  | .last _ => 0

/-- The events that only leave a point: the end of the input, and the consumer asking for
    more than was yielded. -/
def Point.owed : Point AppendResult → Nat
  | .nextEntry => 1
  | .await l _ => l.owed
  | .yielding l _ => l.owed + 1
  | .done => 0

/-- The head of a loop moves the generator to another point and takes at most the front
    of `pending`. -/
theorem next_cases (s : Gen Entry AppendResult) (l : Loop) : ∃ ps pt, s.next l = { s with pending := ps, point := pt } ∧
    (s.next l).waiting = s.ahead l ∧ (s.next l).rest = [] ∧ (s.next l).inLast = decide (l ≠ .drain) ∧
    (s.next l).point.owed = l.owed := by
  cases l with
  | drain =>
    simp only [Gen.next]
    split
    next h => exact ⟨_, _, rfl, by simp [Gen.waiting, Gen.ahead, h], rfl, by simp [Gen.inLast], rfl⟩
    next p ps h => exact ⟨_, _, rfl, by simp [Gen.waiting, Gen.ahead, h], rfl, by simp [Gen.inLast], rfl⟩
  | last i =>
    simp only [Gen.next]
    split
    next h =>
      have hle := List.getElem?_eq_none_iff.mp h
      exact ⟨_, _, rfl, by simp [Gen.waiting, Gen.ahead, hle], rfl, by simp [Gen.inLast], rfl⟩
    next p h =>
      obtain ⟨hi, rfl⟩ := List.getElem?_eq_some_iff.mp h
      exact ⟨_, _, rfl, by simp [Gen.waiting, Gen.ahead], rfl, by simp [Gen.inLast], rfl⟩

theorem next_inv (h : Ordered entries s s.yielded (s.ahead l))
    (hf : l ≠ .drain → s.input = [] ∧ s.batch = [] ∧ s.timers = []) : Inv entries (s.next l) := by
  obtain ⟨ps, pt, heq, hw, hr, hl, -⟩ := next_cases s l
  constructor
  · rw [hw, hr, List.append_nil, heq]
    exact ⟨h.passed, h.results, h.queue, h.timers⟩
  · intro hin
    rw [hl] at hin
    rw [heq]
    exact hf (of_decide_eq_true hin)

theorem emit_inv {rs : List AppendResult} (h : Ordered entries s (s.yielded ++ rs) (s.ahead l))
    (hf : l ≠ .drain → s.input = [] ∧ s.batch = [] ∧ s.timers = []) : Inv entries (s.emit l rs) := by
  cases rs with
  | nil => exact next_inv (by simpa using h) hf
  | cons r rest =>
    constructor
    · show Ordered entries _ (s.yielded ++ [r] ++ rest) (s.ahead l)
      rw [List.append_assoc]
      exact ⟨h.passed, h.results, h.queue, h.timers⟩
    · intro hin
      apply hf
      rintro rfl
      cases hin

theorem Ordered.resetTimer (h : Ordered entries s out ws) : Ordered entries s.resetTimer out ws := by
  have hc := h.clearTimer
  refine ⟨hc.passed, hc.results, hc.queue, ?_⟩
  intro t ht
  change t ∈ s.clearTimer.timers ++ [s.clearTimer.nextTimer] at ht
  rw [clearTimer_timers h.timers] at ht
  rw [List.mem_singleton.mp ht]
  rfl

/-- An entry moves from the input to the end of the batch, and the batch, once it is
    full, to the end of the calls. -/
theorem Ordered.push (h : Ordered entries s out s.pending) {e : Entry} {es : List Entry} (hi : s.input = e :: es)
    (batchSize : Nat) : Ordered entries (Gen.push batchSize { s with input := es } e) out
      (Gen.push batchSize { s with input := es } e).pending := by
  have hb : Ordered entries { s with input := es, batch := s.batch ++ [e] } out s.pending := by
    refine ⟨?_, h.results, h.queue, h.timers⟩
    show s.calls.map Prod.fst ++ (s.batch ++ [e]) ++ es = entries
    rw [← h.passed, hi]
    simp only [List.append_assoc, List.cons_append, List.nil_append]
  have hr := hb.resetTimer
  have hp : (Gen.resetTimer { s with input := es, batch := s.batch ++ [e] }).pending = s.pending := by
    simp [Gen.resetTimer]
  simp only [Gen.push]
  split
  next =>
    generalize Gen.resetTimer { s with input := es, batch := s.batch ++ [e] } = s1 at hr hp
    have hc : Ordered entries { s1.clearTimer with flushTimer := none } out s1.clearTimer.pending := by
      rw [clearTimer_pending, hp]
      refine ⟨hr.clearTimer.passed, hr.clearTimer.results, hr.clearTimer.queue, ?_⟩
      intro t ht
      change t ∈ s1.clearTimer.timers at ht
      rw [clearTimer_timers hr.timers] at ht
      cases ht
    obtain ⟨bs, hbs, hf, -⟩ := flush_pending { s1.clearTimer with flushTimer := none }
    rw [hbs]
    exact hc.flush hf
  next => rwa [hp]

theorem push_yielded (batchSize : Nat) (s : Gen Entry AppendResult) (e : Entry) :
    (Gen.push batchSize s e).yielded = s.yielded := by
  simp only [Gen.push]
  split
  next => simp [Gen.resetTimer]
  next => simp [Gen.resetTimer]

/-- The front batch of the queue is the run of calls after those that were read. -/
theorem Ordered.front {p : List Nat} (h : Ordered entries s out (p :: ws)) :
    List.range out.length ++ p = List.range (out.length + p.length) := by
  have hq := h.queue
  rw [List.flatten_cons, ← List.append_assoc] at hq
  have hlen := congrArg List.length hq
  have htake := congrArg (List.take (out.length + p.length)) hq
  rw [List.take_left' (by simp), List.take_range] at htake
  simp only [List.length_append, List.length_range] at hlen
  rw [htake, Nat.min_eq_left (by omega)]

theorem Ordered.read {p : List Nat} (h : Ordered entries s out (p :: ws)) {rs : List AppendResult}
    (hrs : p.map s.result = rs.map some) : Ordered entries s (out ++ rs) ws := by
  have hlen : p.length = rs.length := by simpa using congrArg List.length hrs
  refine ⟨h.passed, ?_, ?_, h.timers⟩
  · intro i r hi
    rcases Nat.lt_or_ge i out.length with hlt | hge
    · rw [List.getElem?_append_left hlt] at hi
      exact h.results i r hi
    · rw [List.getElem?_append_right hge] at hi
      -- the i-th call stands at the same place of the batch as `r` of its results
      have hir := congrArg (·[i - out.length]?) hrs
      have hip := congrArg (·[i]?) h.front
      have hlt := (List.getElem?_eq_some_iff.mp hi).1
      have hge' : (List.range out.length).length ≤ i := by simpa using hge
      simp only [List.getElem?_map, hi, Option.map_some] at hir
      simp only [List.getElem?_append_right hge', List.length_range,
        List.getElem?_range (show i < out.length + p.length by omega)] at hip
      rw [hip, Option.map_some, Option.some.injEq] at hir
      obtain ⟨⟨e, x⟩, he, hx⟩ := Option.bind_eq_some_iff.mp hir
      exact ⟨e, by rw [he, ← hx]⟩
  · have hq := h.queue
    rwa [List.flatten_cons, ← List.append_assoc, h.front, hlen, ← List.length_append] at hq

/-- A call that resolves keeps its entry, and no result that was read changes. -/
theorem Ordered.complete (h : Ordered entries s out ws) {i : Nat} {e : Entry} (hi : s.calls[i]? = some (e, none))
    (r : AppendResult) : Ordered entries { s with calls := s.calls.set i (e, some r) } out ws := by
  obtain ⟨hlt, hget⟩ := List.getElem?_eq_some_iff.mp hi
  refine ⟨?_, ?_, ?_, h.timers⟩
  · show (s.calls.set i (e, some r)).map Prod.fst ++ s.batch ++ s.input = entries
    rw [← h.passed, List.map_set, show (e, some r).1 = (s.calls[i]).1 by rw [hget], ← List.getElem_map Prod.fst,
      List.set_getElem_self]
    simpa using hlt
  · intro j x hj
    obtain ⟨d, hd⟩ := h.results j x hj
    refine ⟨d, ?_⟩
    show (s.calls.set i (e, some r))[j]? = some (d, some x)
    have hne : i ≠ j := by
      rintro rfl
      rw [hi] at hd
      cases hd
    rw [List.getElem?_set_ne hne, hd]
  · show _ = List.range (s.calls.set i (e, some r)).length
    rw [List.length_set]
    exact h.queue

/-- Before the end of the input what a flush adds comes after every batch that waits. -/
theorem flush_waiting (hl : s.inLast = false) : ∃ bs, s.flush.waiting = s.waiting ++ bs ∧ s.flush.rest = s.rest ∧
    bs.flatten = List.range' s.calls.length s.batch.length ∧ bs.length ≤ s.batch.length := by
  obtain ⟨bs, hbs, hf, hlen⟩ := flush_pending s
  refine ⟨bs, ?_, by simp [Gen.rest], hf, hlen⟩
  unfold Gen.waiting
  rw [flush_point]
  cases hpt : s.point with
  | nextEntry => exact hbs
  | await l p =>
    cases l with
    | drain => exact congrArg (p :: ·) hbs
    | last i => simp [Gen.inLast, hpt] at hl
  | yielding l rest =>
    cases l with
    | drain => exact hbs
    | last i => simp [Gen.inLast, hpt] at hl
  | done => simp [Gen.inLast, hpt] at hl

/-! ## Steps -/

/-- What a step can be. -/
theorem step_cases {batchSize : Nat} {ev : Ev AppendResult} (h : step batchSize s ev = some s') :
    (∃ e es, s.point = .nextEntry ∧ s.input = e :: es ∧
      s' = (Gen.push batchSize { s with input := es } e).next .drain) ∨
    (s.point = .nextEntry ∧ s.input = [] ∧ s' = s.clearTimer.flush.next (.last 0)) ∨
    (∃ l p rs, s.point = .await l p ∧ p.map s.result = rs.map some ∧ s' = s.emit l rs) ∨
    (∃ l rest, s.point = .yielding l rest ∧ s' = s.emit l rest) ∨
    (∃ t, t ∈ s.timers ∧ s' = Gen.flush { s with timers := s.timers.erase t }) ∨
    (∃ i e r, s.calls[i]? = some (e, none) ∧ s' = { s with calls := s.calls.set i (e, some r) }) := by
  cases ev with
  | entry =>
    simp only [step] at h
    split at h
    next e es hpt hin => exact .inl ⟨e, es, hpt, hin, (Option.some.inj h).symm⟩
    next => cases h
  | finish =>
    simp only [step] at h
    split at h
    next hpt hin => exact .inr (.inl ⟨hpt, hin, (Option.some.inj h).symm⟩)
    next => cases h
  | settled =>
    simp only [step] at h
    split at h
    next l p hpt =>
      obtain ⟨rs, hrs, he⟩ := Option.map_eq_some_iff.mp h
      exact .inr (.inr (.inl ⟨l, p, rs, hpt, (mapM_eq_some _ _ _).mp hrs, he.symm⟩))
    next => cases h
  | resume =>
    simp only [step] at h
    split at h
    next l rest hpt => exact .inr (.inr (.inr (.inl ⟨l, rest, hpt, (Option.some.inj h).symm⟩)))
    next => cases h
  | fire t =>
    simp only [step] at h
    split at h
    next ht => exact .inr (.inr (.inr (.inr (.inl ⟨t, ht, (Option.some.inj h).symm⟩))))
    next => cases h
  | complete i r =>
    simp only [step] at h
    split at h
    next e hi => exact .inr (.inr (.inr (.inr (.inr ⟨i, e, r, hi, (Option.some.inj h).symm⟩))))
    next => cases h

/-- At a point of the last loop there is nothing left to flush. -/
theorem Inv.flushed_of (h : Inv entries s) (hpt : (∃ p, s.point = .await l p) ∨ ∃ rest, s.point = .yielding l rest)
    (hl : l ≠ .drain) : s.input = [] ∧ s.batch = [] ∧ s.timers = [] := by
  apply h.flushed
  cases l with
  | drain => exact absurd rfl hl
  | last i => obtain ⟨p, hp⟩ | ⟨rest, hp⟩ := hpt <;> simp [Gen.inLast, hp]

/-- A timer that can fire is set before the end of the input. -/
theorem Inv.not_inLast (h : Inv entries s) {t : Nat} (ht : t ∈ s.timers) : s.inLast = false := by
  rw [Bool.eq_false_iff]
  intro hl
  rw [(h.flushed hl).2.2] at ht
  cases ht

theorem step_inv {batchSize : Nat} {ev : Ev AppendResult} (h : Inv entries s) (hs : step batchSize s ev = some s') :
    Inv entries s' := by
  have ho := h.ordered
  obtain ⟨e, es, hpt, hin, rfl⟩ | ⟨hpt, hin, rfl⟩ | ⟨l, p, rs, hpt, hrs, rfl⟩ | ⟨l, rest, hpt, rfl⟩ | ⟨t, ht, rfl⟩ |
    ⟨i, e, r, hi, rfl⟩ := step_cases hs
  · -- an entry
    simp only [Gen.rest, Gen.waiting, hpt, List.append_nil] at ho
    apply next_inv
    · rw [push_yielded]
      exact ho.push hin batchSize
    · intro hl
      exact absurd rfl hl
  · -- the end of the input
    simp only [Gen.rest, Gen.waiting, hpt, List.append_nil] at ho
    obtain ⟨bs, hbs, hf, -⟩ := flush_pending s.clearTimer
    apply next_inv
    · simp only [Gen.ahead, List.drop_zero, hbs, flush_yielded, clearTimer_yielded, clearTimer_pending]
      exact ho.clearTimer.flush hf
    · intro _
      simp [hin, clearTimer_timers ho.timers]
  · -- the results of a batch
    simp only [Gen.rest, Gen.waiting, hpt, List.append_nil] at ho
    exact emit_inv (ho.read hrs) (h.flushed_of (.inl ⟨p, hpt⟩))
  · -- the next result
    simp only [Gen.rest, Gen.waiting, hpt] at ho
    exact emit_inv ho (h.flushed_of (.inr ⟨rest, hpt⟩))
  · -- a timer
    have hl : ({ s with timers := s.timers.erase t } : Gen Entry AppendResult).inLast = false := h.not_inLast ht
    have he : Ordered entries { s with timers := s.timers.erase t } (s.yielded ++ s.rest) s.waiting :=
      ⟨ho.passed, ho.results, ho.queue, fun u hu => ho.timers u (List.mem_of_mem_erase hu)⟩
    obtain ⟨bs, hw, hr, hf, -⟩ := flush_waiting hl
    constructor
    · rw [hw, hr, flush_yielded]
      exact he.flush hf
    · intro hin
      simp only [Gen.inLast, flush_point] at hin hl
      rw [hl] at hin
      cases hin
  · -- a call
    exact ⟨ho.complete hi r, h.flushed⟩

/-! ## How long a run is -/

/-- The events the batches will need: one for each, and one for each result. -/
def queued (ws : List (List Nat)) : Nat := ws.length + ws.flatten.length

theorem queued_append (ws bs : List (List Nat)) : queued (ws ++ bs) = queued ws + queued bs := by
  simp only [queued, List.length_append, List.flatten_append]
  omega

/-- The events that what has not reached the queue will need. An entry is taken, sets a
    timer that may fire, and then costs a call, a result and at most a batch. -/
def Gen.owed (s : Gen Entry AppendResult) : Nat :=
  5 * s.input.length + s.timers.length + 3 * s.batch.length + s.calls.countP (·.2.isNone)

/-- No run from here is longer. -/
def Gen.fuel (s : Gen Entry AppendResult) : Nat := s.owed + queued s.waiting + s.rest.length + s.point.owed

theorem clearTimer_owed (s : Gen Entry AppendResult) : s.clearTimer.owed ≤ s.owed := by
  unfold Gen.clearTimer
  split
  next => exact Nat.le_refl _
  next t ht =>
    have hle := List.length_filter_le (· != t) s.timers
    simp only [Gen.owed]
    omega

theorem flush_owed (s : Gen Entry AppendResult) {bs : List (List Nat)}
    (hf : bs.flatten = List.range' s.calls.length s.batch.length) (hl : bs.length ≤ s.batch.length) :
    s.flush.owed + queued bs ≤ s.owed := by
  simp only [Gen.owed, queued, flush_input, flush_timers, flush_batch, flush_calls, hf, List.countP_append,
    List.countP_map, List.length_nil, List.length_range']
  have hc : s.batch.countP ((fun c : Entry × Option AppendResult => c.2.isNone) ∘ fun e => (e, none)) ≤ s.batch.length :=
    List.countP_le_length
  omega

theorem push_owed (batchSize : Nat) {e : Entry} {es : List Entry} (hi : s.input = e :: es) :
    (Gen.push batchSize { s with input := es } e).owed + queued (Gen.push batchSize { s with input := es } e).pending <
      s.owed + queued s.pending := by
  have hr : (Gen.resetTimer { s with input := es, batch := s.batch ++ [e] }).owed < s.owed := by
    have hc := clearTimer_owed { s with input := es, batch := s.batch ++ [e] }
    simp only [Gen.owed, Gen.resetTimer, clearTimer_input, clearTimer_batch, clearTimer_calls, List.length_append,
      List.length_nil, hi, List.length_cons] at hc ⊢
    omega
  have hp : (Gen.resetTimer { s with input := es, batch := s.batch ++ [e] }).pending = s.pending := by
    simp [Gen.resetTimer]
  simp only [Gen.push]
  split
  next =>
    generalize Gen.resetTimer { s with input := es, batch := s.batch ++ [e] } = s1 at hr hp
    have hc : ({ s1.clearTimer with flushTimer := none } : Gen Entry AppendResult).owed ≤ s1.owed := clearTimer_owed s1
    obtain ⟨bs, hbs, hf, hl⟩ := flush_pending { s1.clearTimer with flushTimer := none }
    have ho := flush_owed _ hf hl
    rw [hbs, queued_append]
    simp only [clearTimer_pending, hp] at ho hc ⊢
    omega
  next =>
    rw [hp]
    omega

theorem next_fuel (s : Gen Entry AppendResult) (l : Loop) : (s.next l).fuel = s.owed + queued (s.ahead l) + l.owed := by
  obtain ⟨ps, pt, heq, hw, hr, -, ho⟩ := next_cases s l
  have hs : (s.next l).owed = s.owed := by rw [heq]; rfl
  simp only [Gen.fuel, hs, hw, hr, ho, List.length_nil, Nat.add_zero]

theorem emit_fuel (s : Gen Entry AppendResult) (l : Loop) (rs : List AppendResult) :
    (s.emit l rs).fuel = s.owed + queued (s.ahead l) + rs.length + l.owed := by
  cases rs with
  | nil => exact next_fuel s l
  | cons r rest =>
    show s.owed + queued (s.ahead l) + rest.length + (l.owed + 1) = _
    rw [List.length_cons]
    omega

theorem complete_owed {i : Nat} {e : Entry} (hi : s.calls[i]? = some (e, none)) (r : AppendResult) :
    ({ s with calls := s.calls.set i (e, some r) } : Gen Entry AppendResult).owed < s.owed := by
  obtain ⟨hlt, hget⟩ := List.getElem?_eq_some_iff.mp hi
  have hpos : 0 < s.calls.countP (·.2.isNone) :=
    List.countP_pos_iff.mpr ⟨s.calls[i], List.getElem_mem hlt, by rw [hget]; rfl⟩
  simp only [Gen.owed, List.countP_set hlt, hget, Option.isNone_none, Option.isNone_some, if_true, Bool.false_eq_true,
    if_false]
  omega

/-- Every event brings the end nearer. -/
theorem step_fuel {batchSize : Nat} {ev : Ev AppendResult} (h : Inv entries s) (hs : step batchSize s ev = some s') :
    s'.fuel < s.fuel := by
  obtain ⟨e, es, hpt, hin, rfl⟩ | ⟨hpt, hin, rfl⟩ | ⟨l, p, rs, hpt, hrs, rfl⟩ | ⟨l, rest, hpt, rfl⟩ | ⟨t, ht, rfl⟩ |
    ⟨i, e, r, hi, rfl⟩ := step_cases hs
  · have hfuel : s.fuel = s.owed + queued s.pending + 1 := by simp [Gen.fuel, Gen.waiting, Gen.rest, Point.owed, hpt]
    have hlt := push_owed batchSize hin
    rw [next_fuel, hfuel]
    simp only [Gen.ahead, Loop.owed]
    omega
  · have hfuel : s.fuel = s.owed + queued s.pending + 1 := by simp [Gen.fuel, Gen.waiting, Gen.rest, Point.owed, hpt]
    obtain ⟨bs, hbs, hf, hl⟩ := flush_pending s.clearTimer
    have ho := flush_owed _ hf hl
    have hc := clearTimer_owed s
    rw [next_fuel, hfuel]
    simp only [Gen.ahead, Loop.owed, List.drop_zero, hbs, queued_append, clearTimer_pending]
    omega
  · have hfuel : s.fuel = s.owed + queued (p :: s.ahead l) + l.owed := by
      simp [Gen.fuel, Gen.waiting, Gen.rest, Point.owed, hpt]
    have hlen : p.length = rs.length := by simpa using congrArg List.length hrs
    rw [emit_fuel, hfuel]
    simp only [queued, List.length_cons, List.flatten_cons, List.length_append]
    omega
  · have hfuel : s.fuel = s.owed + queued (s.ahead l) + rest.length + (l.owed + 1) := by
      simp [Gen.fuel, Gen.waiting, Gen.rest, Point.owed, hpt]
    rw [emit_fuel, hfuel]
    omega
  · have hlt : ({ s with timers := s.timers.erase t } : Gen Entry AppendResult).owed < s.owed := by
      have hpos := List.length_pos_of_mem ht
      simp only [Gen.owed, List.length_erase_of_mem ht]
      omega
    obtain ⟨bs, hw, hr, hf, hl⟩ := flush_waiting (s := { s with timers := s.timers.erase t }) (h.not_inLast ht)
    have ho := flush_owed _ hf hl
    have hfuel : s.fuel = s.owed + queued s.waiting + s.rest.length + s.point.owed := rfl
    rw [hfuel, Gen.fuel, hw, hr, flush_point, queued_append]
    show _ + (queued s.waiting + _) + s.rest.length + s.point.owed < _
    omega
  · have hlt := complete_owed hi r
    have hfuel : ({ s with calls := s.calls.set i (e, some r) } : Gen Entry AppendResult).fuel + s.owed =
        ({ s with calls := s.calls.set i (e, some r) } : Gen Entry AppendResult).owed + s.fuel := by
      simp only [Gen.fuel]
      show _ + queued s.waiting + s.rest.length + s.point.owed + _ = _
      omega
    omega

end Pieces

/-! ## Whole runs -/

section Runs

variable {entries : List Entry} {s : Gen Entry AppendResult} {batchSize : Nat}

theorem reach_inv (h : Reach (step batchSize) (fun _ _ => true) (.start entries) s) : Inv entries s :=
  h.inv (start_inv entries) fun _ _ _ hi _ hs => step_inv hi hs

/-- Everything is over when the generator returns. -/
theorem Inv.done (h : Inv entries s) (hd : s.point = .done) :
    s.calls.map Prod.fst = entries ∧ s.calls.map Prod.snd = s.yielded.map some := by
  obtain ⟨hin, hb, -⟩ := h.flushed (by simp [Gen.inLast, hd])
  have ho := h.ordered
  simp only [Gen.rest, Gen.waiting, hd, List.append_nil] at ho
  have hlen : s.yielded.length = s.calls.length := by simpa using congrArg List.length ho.queue
  constructor
  · simpa [hin, hb] using ho.passed
  · apply List.ext_getElem?
    intro i
    rw [List.getElem?_map, List.getElem?_map]
    cases hy : s.yielded[i]? with
    | none =>
      rw [List.getElem?_eq_none_iff, hlen, ← List.getElem?_eq_none_iff] at hy
      rw [hy]
      rfl
    | some r =>
      obtain ⟨e, he⟩ := ho.results i r hy
      rw [he]
      rfl

/-- Until the generator has returned something can happen: the calls that a batch waits
    for have been made, and each can resolve. -/
theorem Inv.progress (h : Inv entries s) (r : AppendResult) (hd : s.point ≠ .done) :
    ∃ ev s', step batchSize s ev = some s' := by
  cases hpt : s.point with
  | nextEntry =>
    cases hin : s.input with
    | nil => exact ⟨.finish, _, by simp only [step, hpt, hin]; rfl⟩
    | cons e es => exact ⟨.entry, _, by simp only [step, hpt, hin]; rfl⟩
  | await l p =>
    have ho := h.ordered
    simp only [Gen.rest, Gen.waiting, hpt, List.append_nil] at ho
    by_cases hall : ∃ i ∈ p, s.result i = none
    · obtain ⟨i, hi, hn⟩ := hall
      -- `p` is part of the queue, so that the call was made
      have hmem : i ∈ List.range s.calls.length := by
        rw [← ho.queue]
        exact List.mem_append_right _ (List.mem_flatten.mpr ⟨p, List.mem_cons_self, hi⟩)
      have hlt := List.mem_range.mp hmem
      have hc : s.calls[i]? = some ((s.calls[i]).1, none) := by
        simp only [Gen.result, List.getElem?_eq_getElem hlt, Option.bind_some] at hn
        rw [List.getElem?_eq_getElem hlt, ← hn]
      exact ⟨.complete i r, _, by simp only [step, hc]; rfl⟩
    · obtain ⟨rs, hrs⟩ := mapM_total fun i hi hn => hall ⟨i, hi, hn⟩
      exact ⟨.settled, _, by simp only [step, hpt, hrs]; rfl⟩
  | yielding l rest => exact ⟨.resume, _, by simp only [step, hpt]; rfl⟩
  | done => exact absurd hpt hd

/-- For every input, every batch size and every order of events: the calls made so far are
    for the first entries, each once and in order, and the i-th result yielded is that of
    the call for the i-th entry. When the generator has returned, the calls were for all
    the entries, and all their results were yielded. Until then it is not stuck, and it
    returns within five events an entry. -/
theorem append_stream_exactly_once (batchSize : Nat) (entries : List Entry) :
    (∀ s : Gen Entry AppendResult, Reach (step batchSize) (fun _ _ => true) (.start entries) s →
      s.calls.map Prod.fst <+: entries ∧
      (∀ (i : Nat) (r : AppendResult), s.yielded[i]? = some r →
        ∃ e, entries[i]? = some e ∧ s.calls[i]? = some (e, some r)) ∧
      (s.point = .done → s.calls.map Prod.fst = entries ∧ s.calls.map Prod.snd = s.yielded.map some) ∧
      ∀ _ : AppendResult, s.point ≠ .done → ∃ ev s', step batchSize s ev = some s') ∧
    ∀ (evs : List (Ev AppendResult)) (s : Gen Entry AppendResult),
      run (step batchSize) (fun _ _ => true) (.start entries) evs = some s → evs.length ≤ 5 * entries.length + 1 := by
  constructor
  · intro s hreach
    have h := reach_inv hreach
    have hpre : s.calls.map Prod.fst <+: entries := ⟨s.batch ++ s.input, by rw [← List.append_assoc, h.ordered.passed]⟩
    refine ⟨hpre, ?_, h.done, fun r => h.progress r⟩
    intro i r hi
    have hout : (s.yielded ++ s.rest)[i]? = some r := by
      rw [List.getElem?_append_left (List.getElem?_eq_some_iff.mp hi).1, hi]
    obtain ⟨e, he⟩ := h.ordered.results i r hout
    have hie : (s.calls.map Prod.fst)[i]? = some e := by
      rw [List.getElem?_map, he]
      rfl
    refine ⟨e, ?_, he⟩
    rw [← h.ordered.passed, List.append_assoc, List.getElem?_append_left (List.getElem?_eq_some_iff.mp hie).1, hie]
  · intro evs s hrun
    have hle := run_length_le (μ := Gen.fuel) (fun s ev s' hi hs => ⟨step_inv hi hs, step_fuel hi hs⟩) (start_inv entries)
      hrun
    have hfuel : (Gen.start entries : Gen Entry AppendResult).fuel = 5 * entries.length + 1 := rfl
    omega

end Runs

/-- Two timers fire, one of them while the batch before it is awaited; the second call
    resolves before the first, and the last batch is flushed by the end of the input. -/
theorem append_stream_exactly_once_timers : ∃ s : Gen Nat Nat,
    Reach (step 2) (fun _ _ => true) (.start [1, 2, 3]) s ∧ s.point = .done ∧ s.yielded = [10, 20, 30] ∧
    s.calls.map Prod.fst = [1, 2, 3] ∧ s.calls.map Prod.snd = s.yielded.map some := by
  have hrun : (run (step 2) (fun _ _ => true) (Gen.start [1, 2, 3])
      [Ev.entry, .fire 0, .entry, .fire 1, .complete 1 20, .complete 0 10, .settled, .resume, .settled, .resume, .entry,
        .finish, .complete 2 30, .settled, .resume]).map (fun s => (s.point, s.yielded)) =
      some (.done, [10, 20, 30]) := by decide
  obtain ⟨s, hs, hp⟩ := Option.map_eq_some_iff.mp hrun
  obtain ⟨hpt, hy⟩ := Prod.mk.inj hp
  have hreach := Reach.run .init hs
  exact ⟨s, hreach, hpt, hy, ((append_stream_exactly_once 2 [1, 2, 3]).1 s hreach).2.2.1 hpt⟩

end Settled.Sdk.AppendStream
