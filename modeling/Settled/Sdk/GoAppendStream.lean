/-
  Settled.Sdk.GoAppendStream — `AppendStream` of the Go SDK's client.

  A goroutine takes entries from a channel into `batch`; a full batch, and what is left when
  the channel is closed, is flushed: `Append` entry by entry, each result sent on `out`, a
  channel with room for `batchSize` results. The first error goes to `errc` and ends the
  goroutine; then `errc` and `out` are closed, in this order.

  The producer, the calls and the consumer of the two channels decide when each step is
  taken (`Ev`). In every run the calls are made one after the other for a prefix of the
  entries; the consumer receives the results of the successful ones in order, each once;
  and once `out` is closed and read empty either every entry has been appended, or the last
  call made is the one that failed, its error is in `errc`, and no entry after it was
  appended (`go_append_stream`). While the consumer receives, no party waits for ever.
-/

import Settled.Lib.Run

namespace Settled.Sdk.GoAppendStream

open Settled.Lib

variable {AppendEntry AppendResult Err : Type}

/-! ## The goroutine -/

/-- Where the goroutine is. `left` are the entries of the batch after the one `Append` is
    called for, `last` is the flush after the `range`. -/
inductive Point (AppendEntry AppendResult Err : Type) where
  | reading
  | calling (left : List AppendEntry) (last : Bool)
  | sending (r : AppendResult) (left : List AppendEntry) (last : Bool)
  | failing (err : Err)
  | closeErrc
  | closeOut
  | done
  deriving DecidableEq

structure Stream (AppendEntry AppendResult Err : Type) where
  /-- What the channel has still to give before it is closed. -/
  entries : List AppendEntry
  batch : List AppendEntry
  point : Point AppendEntry AppendResult Err
  out : List AppendResult
  errc : List Err
  calls : List (AppendEntry × Option (Except Err AppendResult))
  /-- What the consumer has received from `out` and from `errc`. -/
  results : List AppendResult
  errors : List Err

def Stream.start (entries : List AppendEntry) : Stream AppendEntry AppendResult Err := ⟨entries, [], .reading, [], [], [], [], []⟩

/-- `if batchSize <= 0 { batchSize = 100 }`. -/
def capacity (batchSize : Int) : Nat := if batchSize ≤ 0 then 100 else batchSize.toNat

/-- The loop of `flush`, from the entries it has still to append. -/
def flush (s : Stream AppendEntry AppendResult Err) (last : Bool) : List AppendEntry → Stream AppendEntry AppendResult Err
  | [] => { s with batch := [], point := if last then .closeErrc else .reading }
  | e :: left => { s with calls := s.calls ++ [(e, none)], point := .calling left last }

inductive Ev (AppendResult Err : Type) where
  /-- The channel gives an entry. -/
  | entry
  /-- The channel is closed. -/
  | finish
  /-- `Append` returns. -/
  | complete (r : Except Err AppendResult)
  | send
  | fail
  | close
  | receive
  | receiveErr

def step (batchSize : Int) (s : Stream AppendEntry AppendResult Err) :
    Ev AppendResult Err → Option (Stream AppendEntry AppendResult Err)
  | .entry =>
    match s.point, s.entries with
    | .reading, e :: entries =>
      let s := { s with entries := entries, batch := s.batch ++ [e] }
      some (if capacity batchSize ≤ s.batch.length then flush s false s.batch else s)
    | _, _ => none
  | .finish =>
    match s.point, s.entries with
    | .reading, [] => some (flush s true s.batch)
    | _, _ => none
  | .complete r =>
    match s.point, s.calls.getLast? with
    | .calling left last, some (e, _) =>
      let s := { s with calls := s.calls.dropLast ++ [(e, some r)] }
      match r with
      | .ok r => some { s with point := .sending r left last }
      | .error err => some { s with point := .failing err }
    | _, _ => none
  | .send =>
    match s.point with
    | .sending r left last => if s.out.length < capacity batchSize then some (flush { s with out := s.out ++ [r] } last left) else none
    | _ => none
  | .fail =>
    match s.point with
    | .failing err => if s.errc.length < 1 then some { s with errc := s.errc ++ [err], point := .closeErrc } else none
    | _ => none
  | .close =>
    match s.point with
    | .closeErrc => some { s with point := .closeOut }
    | .closeOut => some { s with point := .done }
    | _ => none
  | .receive =>
    match s.out with
    | r :: out => some { s with out := out, results := s.results ++ [r] }
    | [] => none
  | .receiveErr =>
    match s.errc with
    | err :: errc => some { s with errc := errc, errors := s.errors ++ [err] }
    | [] => none

/-! ## The invariant -/

def succeeded (c : AppendEntry × AppendResult) : AppendEntry × Option (Except Err AppendResult) := (c.1, some (.ok c.2))

/-- All calls but `tail` have succeeded; their results are received, in `out`, or `held` by
    the goroutine; and `left` are the entries taken and not yet appended. -/
def Tally (entries : List AppendEntry) (s : Stream AppendEntry AppendResult Err) (left : List AppendEntry)
    (tail : List (AppendEntry × Option (Except Err AppendResult))) (held : List AppendResult) : Prop :=
  ∃ ok : List (AppendEntry × AppendResult), s.calls = ok.map succeeded ++ tail ∧
    ok.map (·.2) = s.results ++ (s.out ++ held) ∧ s.calls.map (·.1) ++ (left ++ s.entries) = entries

/-- The error of the last call is in `errc`, or received. -/
def Failed (entries : List AppendEntry) (s : Stream AppendEntry AppendResult Err) : Prop :=
  ∃ e err left, Tally entries s left [(e, some (.error err))] [] ∧ s.errors ++ s.errc = [err]

def NoError (s : Stream AppendEntry AppendResult Err) : Prop := s.errors ++ s.errc = []

def AllAppended (entries : List AppendEntry) (s : Stream AppendEntry AppendResult Err) : Prop :=
  Tally entries s [] [] [] ∧ s.entries = [] ∧ NoError s

def Point.Ok (entries : List AppendEntry) (s : Stream AppendEntry AppendResult Err) : Point AppendEntry AppendResult Err → Prop
  | .reading => Tally entries s s.batch [] [] ∧ NoError s
  | .calling left last => (∃ e, Tally entries s left [(e, none)] []) ∧ NoError s ∧ (last = true → s.entries = [])
  | .sending r left last => Tally entries s left [] [r] ∧ NoError s ∧ (last = true → s.entries = [])
  | .failing err => (∃ e left, Tally entries s left [(e, some (.error err))] []) ∧ NoError s
  | .closeErrc | .closeOut | .done => AllAppended entries s ∨ Failed entries s

structure Inv (batchSize : Int) (entries : List AppendEntry) (s : Stream AppendEntry AppendResult Err) : Prop where
  room : s.out.length ≤ capacity batchSize
  point : s.point.Ok entries s

theorem start_inv (batchSize : Int) (entries : List AppendEntry) :
    Inv batchSize entries (Stream.start entries : Stream AppendEntry AppendResult Err) :=
  ⟨Nat.zero_le _, ⟨[], rfl, rfl, rfl⟩, rfl⟩

section

variable {batchSize : Int} {entries left : List AppendEntry} {s s' : Stream AppendEntry AppendResult Err}
  {tail : List (AppendEntry × Option (Except Err AppendResult))} {held : List AppendResult}

theorem flush_inv (hroom : s.out.length ≤ capacity batchSize) (h : Tally entries s left [] []) (he : NoError s) {last : Bool}
    (hlast : last = true → s.entries = []) : Inv batchSize entries (flush s last left) := by
  obtain ⟨ok, hcalls, hok, hpassed⟩ := h
  rw [List.append_nil] at hcalls
  cases left with
  | nil =>
    cases last with
    | false => exact ⟨hroom, ⟨ok, by rw [List.append_nil]; exact hcalls, hok, hpassed⟩, he⟩
    | true => exact ⟨hroom, Or.inl ⟨⟨ok, by rw [List.append_nil]; exact hcalls, hok, hpassed⟩, hlast rfl, he⟩⟩
  | cons e left =>
    refine ⟨hroom, ⟨e, ok, by rw [← hcalls]; rfl, hok, ?_⟩, he, hlast⟩
    show (s.calls ++ [(e, none)]).map Prod.fst ++ (left ++ s.entries) = entries
    rw [List.map_append, List.append_assoc]
    exact hpassed

/-- The consumer takes the first result of `out`. -/
theorem Tally.receive (h : Tally entries s left tail held) {r : AppendResult} {out : List AppendResult} (hout : s.out = r :: out) :
    Tally entries { s with out := out, results := s.results ++ [r] } left tail held := by
  obtain ⟨ok, hcalls, hok, hpassed⟩ := h
  refine ⟨ok, hcalls, ?_, hpassed⟩
  rw [hout] at hok
  rw [hok, List.append_assoc]
  rfl

theorem Inv.receive (h : Inv batchSize entries s) {r : AppendResult} {out : List AppendResult} (hout : s.out = r :: out) :
    Inv batchSize entries { s with out := out, results := s.results ++ [r] } := by
  have hroom := h.room
  have hpoint := h.point
  rw [hout, List.length_cons] at hroom
  refine ⟨Nat.le_of_succ_le hroom, ?_⟩
  show s.point.Ok entries _
  cases hp : s.point with
  | reading => rw [hp] at hpoint; exact ⟨hpoint.1.receive hout, hpoint.2⟩
  | calling left last =>
    rw [hp] at hpoint
    obtain ⟨⟨e, ht⟩, hrest⟩ := hpoint
    exact ⟨⟨e, ht.receive hout⟩, hrest⟩
  | sending r left last => rw [hp] at hpoint; exact ⟨hpoint.1.receive hout, hpoint.2⟩
  | failing err =>
    rw [hp] at hpoint
    obtain ⟨⟨e, left, ht⟩, hrest⟩ := hpoint
    exact ⟨⟨e, left, ht.receive hout⟩, hrest⟩
  | closeErrc | closeOut | done =>
    rw [hp] at hpoint
    rcases hpoint with ⟨ht, hrest⟩ | ⟨e, err, left, ht, herr⟩
    · exact Or.inl ⟨ht.receive hout, hrest⟩
    · exact Or.inr ⟨e, err, left, ht.receive hout, herr⟩

/-- The consumer takes the error. -/
theorem Inv.receiveErr (h : Inv batchSize entries s) {err : Err} {errc : List Err} (herrc : s.errc = err :: errc) :
    Inv batchSize entries { s with errc := errc, errors := s.errors ++ [err] } := by
  have hpoint := h.point
  have hmove : (s.errors ++ [err]) ++ errc = s.errors ++ s.errc := by rw [herrc, List.append_assoc]; rfl
  refine ⟨h.room, ?_⟩
  show s.point.Ok entries _
  have hsome : ¬ NoError s := by
    rw [NoError, herrc]
    exact fun h => by simp at h
  cases hp : s.point with
  | reading => rw [hp] at hpoint; exact absurd hpoint.2 hsome
  | calling left last => rw [hp] at hpoint; exact absurd hpoint.2.1 hsome
  | sending r left last => rw [hp] at hpoint; exact absurd hpoint.2.1 hsome
  | failing err => rw [hp] at hpoint; exact absurd hpoint.2 hsome
  | closeErrc | closeOut | done =>
    rw [hp] at hpoint
    rcases hpoint with ⟨-, -, hno⟩ | ⟨e, err', left, ht, herr⟩
    · exact absurd hno hsome
    · exact Or.inr ⟨e, err', left, ht, hmove.trans herr⟩

theorem step_inv {ev : Ev AppendResult Err} (h : Inv batchSize entries s) (hs : step batchSize s ev = some s') :
    Inv batchSize entries s' := by
  have hpoint := h.point
  cases ev with
  | entry =>
    simp only [step] at hs
    split at hs
    next e es hp he =>
      rw [hp] at hpoint
      obtain ⟨⟨ok, hcalls, hok, hpassed⟩, hno⟩ := hpoint
      have ht : Tally entries { s with entries := es, batch := s.batch ++ [e] } (s.batch ++ [e]) [] [] := by
        refine ⟨ok, hcalls, hok, ?_⟩
        rw [he] at hpassed
        show s.calls.map (·.1) ++ ((s.batch ++ [e]) ++ es) = entries
        rw [List.append_assoc s.batch]
        exact hpassed
      cases hs
      split
      · exact flush_inv (s := { s with entries := es, batch := s.batch ++ [e] }) h.room ht hno fun hl => by cases hl
      · exact ⟨h.room, by show Point.Ok _ _ s.point; rw [hp]; exact ⟨ht, hno⟩⟩
    · cases hs
  | finish =>
    simp only [step] at hs
    split at hs
    next hp he =>
      rw [hp] at hpoint
      cases hs
      exact flush_inv h.room hpoint.1 hpoint.2 fun _ => he
    · cases hs
  | complete r =>
    simp only [step] at hs
    split at hs
    next left last e _ hp hcall =>
      rw [hp] at hpoint
      obtain ⟨⟨e', ok, hcalls, hok, hpassed⟩, hno, hlast⟩ := hpoint
      rw [hcalls, List.getLast?_concat] at hcall
      cases hcall
      have hdrop : s.calls.dropLast = ok.map succeeded := by rw [hcalls, List.dropLast_concat]
      have hpassed' : ∀ r : Except Err AppendResult, (s.calls.dropLast ++ [(e, some r)]).map (·.1) ++ (left ++ s.entries) = entries := by
        intro r
        rw [hcalls] at hpassed
        rw [hdrop, List.map_append]
        rw [List.map_append] at hpassed
        exact hpassed
      cases r with
      | ok r =>
        cases hs
        refine ⟨h.room, ⟨ok ++ [(e, r)], ?_, ?_, hpassed' _⟩, hno, hlast⟩
        · show s.calls.dropLast ++ [(e, some (.ok r))] = _
          rw [hdrop, List.map_append, List.append_nil]
          rfl
        · rw [List.map_append, hok, List.append_nil, List.append_assoc]
          rfl
      | error err =>
        cases hs
        exact ⟨h.room, ⟨e, left, ok, by rw [← hdrop], hok, hpassed' _⟩, hno⟩
    · cases hs
  | send =>
    simp only [step] at hs
    split at hs
    next r left last hp =>
      rw [hp] at hpoint
      obtain ⟨⟨ok, hcalls, hok, hpassed⟩, hno, hlast⟩ := hpoint
      split at hs
      next hlt =>
        cases hs
        refine flush_inv (s := { s with out := s.out ++ [r] }) ?_ ⟨ok, hcalls, by rw [List.append_nil]; exact hok, hpassed⟩ hno hlast
        show (s.out ++ [r]).length ≤ _
        rw [List.length_append]
        exact hlt
      · cases hs
    · cases hs
  | fail =>
    simp only [step] at hs
    split at hs
    next err hp =>
      rw [hp] at hpoint
      obtain ⟨⟨e, left, ht⟩, hno⟩ := hpoint
      split at hs
      · cases hs
        refine ⟨h.room, Or.inr ⟨e, err, left, ht, ?_⟩⟩
        show s.errors ++ (s.errc ++ [err]) = [err]
        rw [← List.append_assoc, show s.errors ++ s.errc = [] from hno]
        rfl
      · cases hs
    · cases hs
  | close =>
    simp only [step] at hs
    split at hs
    next hp => rw [hp] at hpoint; cases hs; exact ⟨h.room, hpoint⟩
    next hp => rw [hp] at hpoint; cases hs; exact ⟨h.room, hpoint⟩
    · cases hs
  | receive =>
    simp only [step] at hs
    split at hs
    next r out hout => cases hs; exact h.receive hout
    · cases hs
  | receiveErr =>
    simp only [step] at hs
    split at hs
    next err errc herrc => cases hs; exact h.receiveErr herrc
    · cases hs

/-! ## Steps left -/

/-- What follows a flush: the channels are closed, or the next batch is read. -/
def afterFlush (last : Bool) : Nat := if last then 2 else 3

def Point.fuel (batch : List AppendEntry) : Point AppendEntry AppendResult Err → Nat
  | .reading => 3 * batch.length + 3
  | .calling left last => 3 * left.length + 3 + afterFlush last
  | .sending _ left last => 3 * left.length + 2 + afterFlush last
  | .failing _ => 4
  | .closeErrc => 2
  | .closeOut => 1
  | .done => 0

def Stream.fuel (s : Stream AppendEntry AppendResult Err) : Nat :=
  4 * s.entries.length + s.out.length + s.errc.length + s.point.fuel s.batch

theorem flush_fuel (s : Stream AppendEntry AppendResult Err) (last : Bool) (left : List AppendEntry) :
    (flush s last left).fuel = 4 * s.entries.length + s.out.length + s.errc.length + (3 * left.length + afterFlush last) := by
  cases left with
  | nil => cases last <;> rfl
  | cons e left =>
    simp only [flush, Stream.fuel, Point.fuel, List.length_cons]
    omega

theorem step_fuel {ev : Ev AppendResult Err} (hs : step batchSize s ev = some s') : s'.fuel < s.fuel := by
  cases ev with
  | entry =>
    simp only [step] at hs
    split at hs
    next e es hp he =>
      cases hs
      have hfuel : s.fuel = 4 * (es.length + 1) + s.out.length + s.errc.length + (3 * s.batch.length + 3) := by
        rw [Stream.fuel, hp, he]
        rfl
      split
      · rw [flush_fuel, hfuel]
        simp only [List.length_append, List.length_singleton, afterFlush, Bool.false_eq_true, if_false]
        omega
      · rw [hfuel]
        simp only [Stream.fuel, hp, Point.fuel, List.length_append, List.length_singleton]
        omega
    · cases hs
  | finish =>
    simp only [step] at hs
    split at hs
    next hp he =>
      cases hs
      rw [flush_fuel, Stream.fuel, hp]
      simp only [Point.fuel, afterFlush, if_true]
      omega
    · cases hs
  | complete r =>
    simp only [step] at hs
    split at hs
    next left last _ _ hp _ =>
      have hafter : 2 ≤ afterFlush last := by cases last <;> decide
      cases r with
      | ok r =>
        cases hs
        simp only [Stream.fuel, hp, Point.fuel]
        omega
      | error err =>
        cases hs
        simp only [Stream.fuel, hp, Point.fuel]
        omega
    · cases hs
  | send =>
    simp only [step] at hs
    split at hs
    next r left last hp =>
      split at hs
      · cases hs
        rw [flush_fuel, Stream.fuel, hp]
        simp only [Point.fuel, List.length_append, List.length_singleton]
        omega
      · cases hs
    · cases hs
  | fail =>
    simp only [step] at hs
    split at hs
    next err hp =>
      split at hs
      · cases hs
        simp only [Stream.fuel, hp, Point.fuel, List.length_append, List.length_singleton]
        omega
      · cases hs
    · cases hs
  | close =>
    simp only [step] at hs
    split at hs
    next hp => cases hs; simp only [Stream.fuel, hp, Point.fuel]; omega
    next hp => cases hs; simp only [Stream.fuel, hp, Point.fuel]; omega
    · cases hs
  | receive =>
    simp only [step] at hs
    split at hs
    next r out hout => cases hs; simp only [Stream.fuel, hout, List.length_cons]; omega
    · cases hs
  | receiveErr =>
    simp only [step] at hs
    split at hs
    next err errc herrc => cases hs; simp only [Stream.fuel, herrc, List.length_cons]; omega
    · cases hs

theorem capacity_pos (batchSize : Int) : 0 < capacity batchSize := by
  unfold capacity
  split <;> omega

/-- Until the goroutine has returned something can happen: if it waits for room in `out`,
    the consumer has a result to receive. -/
theorem Inv.progress (h : Inv batchSize entries s) (r : Except Err AppendResult) (hd : s.point ≠ .done) :
    ∃ ev s', step batchSize s ev = some s' := by
  have hpoint := h.point
  cases hp : s.point with
  | reading =>
    cases he : s.entries with
    | nil => exact ⟨.finish, _, by simp only [step, hp, he]; rfl⟩
    | cons e es => exact ⟨.entry, _, by simp only [step, hp, he]; rfl⟩
  | calling left last =>
    rw [hp] at hpoint
    obtain ⟨⟨e, ok, hcalls, -, -⟩, -, -⟩ := hpoint
    have hlast : s.calls.getLast? = some (e, none) := by rw [hcalls, List.getLast?_concat]
    cases r with
    | ok r => exact ⟨.complete (.ok r), _, by simp only [step, hp, hlast]; rfl⟩
    | error err => exact ⟨.complete (.error err), _, by simp only [step, hp, hlast]; rfl⟩
  | sending r left last =>
    by_cases hroom : s.out.length < capacity batchSize
    · exact ⟨.send, _, by simp only [step, hp, if_pos hroom]; rfl⟩
    · cases hout : s.out with
      | nil =>
        have := capacity_pos batchSize
        rw [hout, List.length_nil] at hroom
        omega
      | cons r out => exact ⟨.receive, _, by simp only [step, hout]; rfl⟩
  | failing err =>
    rw [hp] at hpoint
    have hempty : s.errc = [] := (List.append_eq_nil_iff.mp hpoint.2).2
    exact ⟨.fail, _, by simp only [step, hp, hempty, List.length_nil, Nat.zero_lt_one, if_true]; rfl⟩
  | closeErrc => exact ⟨.close, _, by simp only [step, hp]; rfl⟩
  | closeOut => exact ⟨.close, _, by simp only [step, hp]; rfl⟩
  | done => exact absurd hp hd

/-! ## Runs -/

theorem Inv.tally (h : Inv batchSize entries s) : ∃ left tail held, Tally entries s left tail held := by
  have hpoint := h.point
  cases hp : s.point with
  | reading => rw [hp] at hpoint; exact ⟨_, _, _, hpoint.1⟩
  | calling left last =>
    rw [hp] at hpoint
    obtain ⟨⟨e, ht⟩, -⟩ := hpoint
    exact ⟨_, _, _, ht⟩
  | sending r left last => rw [hp] at hpoint; exact ⟨_, _, _, hpoint.1⟩
  | failing err =>
    rw [hp] at hpoint
    obtain ⟨⟨e, left, ht⟩, -⟩ := hpoint
    exact ⟨_, _, _, ht⟩
  | closeErrc | closeOut | done =>
    rw [hp] at hpoint
    rcases hpoint with ⟨ht, -⟩ | ⟨e, err, left, ht, -⟩
    · exact ⟨_, _, _, ht⟩
    · exact ⟨_, _, _, ht⟩

/-- The i-th result received is that of the i-th call. -/
theorem Tally.result (h : Tally entries s left tail held) {i : Nat} {r : AppendResult} (hi : s.results[i]? = some r) :
    ∃ e, entries[i]? = some e ∧ s.calls[i]? = some (e, some (.ok r)) := by
  obtain ⟨ok, hcalls, hok, hpassed⟩ := h
  have hr : (ok.map (·.2))[i]? = some r := by
    rw [hok, List.getElem?_append_left (List.getElem?_eq_some_iff.mp hi).1]
    exact hi
  rw [List.getElem?_map, Option.map_eq_some_iff] at hr
  obtain ⟨⟨e, r⟩, hokr, rfl⟩ := hr
  have hcall : s.calls[i]? = some (e, some (.ok r)) := by
    have hsucc : (ok.map succeeded)[i]? = some (e, some (Except.ok r : Except Err AppendResult)) := by
      rw [List.getElem?_map, hokr]
      rfl
    rw [hcalls, List.getElem?_append_left (List.getElem?_eq_some_iff.mp hsucc).1]
    exact hsucc
  have he : (s.calls.map (·.1))[i]? = some e := by rw [List.getElem?_map, hcall]; rfl
  refine ⟨e, ?_, hcall⟩
  rw [← hpassed, List.getElem?_append_left (List.getElem?_eq_some_iff.mp he).1]
  exact he

/-- With `out` read empty and nothing held: what every call has returned. -/
theorem Tally.returned (h : Tally entries s left tail []) (hout : s.out = []) :
    s.calls.map (·.2) = s.results.map (fun r => some (.ok r)) ++ tail.map (·.2) := by
  obtain ⟨ok, hcalls, hok, -⟩ := h
  rw [hout, List.append_nil, List.append_nil] at hok
  rw [hcalls, List.map_append, ← hok, List.map_map, List.map_map]
  rfl

/-- For every batch size, all entries and every order of events: the calls made are for the
    first entries, in order, never more results in `out` than it has room for, and the i-th
    result received is that of the call for the i-th entry. When the channels are closed and
    `out` is read empty, every entry has been appended, its result received and no error
    given; or every call but the last has succeeded and its result is received, and the error
    of the last is the only one. Until then some party can go on, and a run has at most four
    events an entry and three more. -/
theorem go_append_stream (batchSize : Int) (entries : List AppendEntry) :
    (∀ s : Stream AppendEntry AppendResult Err, Reach (step batchSize) (fun _ _ => true) (.start entries) s →
      s.calls.map (·.1) <+: entries ∧ s.out.length ≤ capacity batchSize ∧
      (∀ (i : Nat) (r : AppendResult), s.results[i]? = some r →
        ∃ e, entries[i]? = some e ∧ s.calls[i]? = some (e, some (.ok r))) ∧
      (s.point = .done → s.out = [] →
        (s.errors ++ s.errc = [] ∧ s.calls.map (·.1) = entries ∧ s.calls.map (·.2) = s.results.map fun r => some (.ok r)) ∨
        ∃ err, s.errors ++ s.errc = [err] ∧
          s.calls.map (·.2) = (s.results.map fun r => some (.ok r)) ++ [some (.error err)]) ∧
      ∀ _ : Except Err AppendResult, s.point ≠ .done → ∃ ev s', step batchSize s ev = some s') ∧
    ∀ (evs : List (Ev AppendResult Err)) (s : Stream AppendEntry AppendResult Err),
      run (step batchSize) (fun _ _ => true) (.start entries) evs = some s → evs.length ≤ 4 * entries.length + 3 := by
  constructor
  · intro s hreach
    have h : Inv batchSize entries s := hreach.inv (start_inv batchSize entries) fun _ _ _ hi _ hs => step_inv hi hs
    obtain ⟨left, tail, held, ht⟩ := h.tally
    refine ⟨?_, h.room, fun i r hi => ht.result hi, fun hd hout => ?_, fun r => h.progress r⟩
    · obtain ⟨-, -, -, hpassed⟩ := ht
      exact ⟨left ++ s.entries, hpassed⟩
    · have hpoint := h.point
      rw [hd] at hpoint
      rcases hpoint with ⟨hall, hnil, hno⟩ | ⟨e, err, left, ht, herr⟩
      · have hreturned := hall.returned hout
        obtain ⟨-, -, -, hpassed⟩ := hall
        rw [hnil, List.append_nil, List.append_nil] at hpassed
        rw [List.map_nil, List.append_nil] at hreturned
        exact Or.inl ⟨hno, hpassed, hreturned⟩
      · exact Or.inr ⟨err, herr, ht.returned hout⟩
  · intro evs s hrun
    have hle := run_length_le (P := fun _ => True) (μ := Stream.fuel) (fun s ev s' _ hs => ⟨trivial, step_fuel hs⟩) trivial hrun
    have hfuel : (Stream.start entries : Stream AppendEntry AppendResult Err).fuel = 4 * entries.length + 3 := rfl
    omega

end

/-- Three entries in batches of two, of which the second fails: the third is never taken. -/
theorem go_append_stream_second_fails : ∃ s : Stream Nat Nat String,
    Reach (step 2) (fun _ _ => true) (.start [1, 2, 3]) s ∧ s.point = .done ∧ s.out = [] ∧ s.entries = [3] ∧
    s.errors = ["unavailable"] ∧ ∃ err, s.errors ++ s.errc = [err] ∧
      s.calls.map (·.2) = (s.results.map fun r => some (.ok r)) ++ [some (.error err)] := by
  have hrun : (run (step 2) (fun _ _ => true) (Stream.start [1, 2, 3])
      [Ev.entry, .entry, .complete (.ok 10), .send, .complete (.error "unavailable"), .fail, .close, .receive, .close,
        .receiveErr]).map (fun s => (s.point, s.out, s.entries, s.errors)) =
      some (.done, [], [3], ["unavailable"]) := by decide
  obtain ⟨s, hs, heq⟩ := Option.map_eq_some_iff.mp hrun
  obtain ⟨hpt, heq⟩ := Prod.mk.inj heq
  obtain ⟨hout, heq⟩ := Prod.mk.inj heq
  obtain ⟨hentries, herrors⟩ := Prod.mk.inj heq
  have hreach : Reach (step 2) (fun _ _ => true) (Stream.start [1, 2, 3] : Stream Nat Nat String) s := Reach.run .init hs
  refine ⟨s, hreach, hpt, hout, hentries, herrors, ?_⟩
  rcases ((go_append_stream 2 [1, 2, 3]).1 s hreach).2.2.2.1 hpt hout with ⟨hno, -⟩ | herr
  · rw [herrors] at hno
    cases hno
  · exact herr

end Settled.Sdk.GoAppendStream
