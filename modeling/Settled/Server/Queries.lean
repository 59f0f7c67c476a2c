/-
  Settled.Server.Queries — the calls that read the log (`service.rs`: `get`, `list_entries`,
  `get_by_key`, `get_latest`) beside appends, signing, rotations, crashes and restarts.

  The abstract log is a list of entries that only grows; each call has an answer over such
  a list (`Query.spec`). The server answers a call in steps: it is asked, it reads (a scan
  of RocksDB sees one moment; `get_latest` loads the counter first), it is answered. The
  machine stamps each call with how much had been answered when it was asked.

  `queries_linearizable`: in every run the answers are those of the abstract log, each at a
  length (`at_`) that the log had between the call and its answer: it has every entry
  acknowledged before the call was asked, and is not shorter than the length any call had
  that was answered before. Real-time order is kept, whatever runs in between; writes may
  fail and leave gaps in the numbers.

  The one number that is not of that moment is `total_available`: it is the counter, which
  runs ahead of the log. It is above the number of every entry acknowledged before the
  call.
-/

import Settled.Server.Freshness
import Settled.Server.Pagination

namespace Settled.Server

open Settled.Lib Settled.Core Settled.Storage

variable (sha256 : Bytes → Hash) (E : Ed25519)

/-! ## Calls on a store -/

inductive Query where
  | get (seq : Nat)
  | listEntries (req : ListEntriesRequest)
  | getByKey (req : GetByKeyRequest)
  | getLatest (n : Nat)

inductive Answer where
  | entry (result : Except Status LogEntry)
  | page (result : Except Status (List LogEntry × Nat))
  | latest (entries : List LogEntry) (totalAvailable : Nat)

/-- The log CF by its byte keys. -/
def logCf (s : Store) : LogCf := LogCf.of (s.log.entries.map (·.2))

/-- The loop of `LogStore::latest`, over the rows from the last one back. -/
def latestLoop (n : Nat) : List (Nat × LogEntry) → List LogEntry → List LogEntry
  | [], entries => entries
  | (_, e) :: rows, entries =>
    let entries := entries ++ [e]
    if n ≤ entries.length then entries else latestLoop n rows entries

/-- `LogStore::latest`. -/
def latestEntries (s : Store) (n : Nat) : List LogEntry := if n = 0 then [] else latestLoop n s.log.entries.reverse []

/-- How many entries `get_latest` asks for. -/
def latestCount (maxGetLatest n : Nat) : Nat := if n = 0 then 1 else min n maxGetLatest

def getEntry (s : Store) (seq : Nat) : Except Status LogEntry :=
  match s.getBySeq seq with
  | none => .error ⟨.notFound, s!"seq {seq} not found"⟩
  | some e => .ok e

/-- The read of a call; `total` is the counter as `get_latest` has loaded it. -/
def Query.read (maxGetLatest : Nat) (s : Store) (total : Nat) : Query → Answer
  | get seq => .entry (getEntry s seq)
  | listEntries req => .page (Server.listEntries (logCf s) req)
  | getByKey req => .page (Server.getByKey (logCf s) req)
  | getLatest n => .latest (latestEntries s (latestCount maxGetLatest n)) total

/-! ## Calls on a list -/

/-- The first `limit` entries of `es`, and the number to go on from. -/
def pageOf (stop limit : Nat) (es : List LogEntry) : List LogEntry × Nat := (es.take limit, nextCursor stop limit (es.take limit))

/-- The entries from `start` on, below `stop` if that is not 0, that are to be kept. -/
def between (keep : LogEntry → Bool) (start stop : Nat) (es : List LogEntry) : List LogEntry :=
  es.filter fun e => decide (start ≤ e.seq) && (keep e && below stop e)

def Query.spec (maxGetLatest : Nat) (es : List LogEntry) (total : Nat) : Query → Answer
  | get seq =>
    match es.find? (·.seq = seq) with
    | none => .entry (.error ⟨.notFound, s!"seq {seq} not found"⟩)
    | some e => .entry (.ok e)
  | listEntries req =>
    let limit := if req.limit = 0 then defaultList else min req.limit maxList
    let start := if 0 < req.cursor then req.cursor else req.fromSeq
    .page (.ok (pageOf req.toSeq limit (between (fun _ => true) start req.toSeq es)))
  | getByKey req =>
    let limit := if req.limit = 0 then defaultByKey else min req.limit maxByKey
    if req.key = [] then .page (.error ⟨.invalidArgument, "key must not be empty"⟩)
    else .page (.ok (pageOf 0 limit (between (fun e => e.key = req.key) req.cursor 0 es)))
  | getLatest n => .latest (es.reverse.take (latestCount maxGetLatest n)) total

/-- The numbers of a request are `u64`s. -/
def Query.inRange : Query → Bool
  | get seq => seq < 2 ^ 64
  | listEntries req => req.fromSeq < 2 ^ 64 && req.cursor < 2 ^ 64
  | getByKey req => req.cursor < 2 ^ 64
  | getLatest _ => true

/-! ## A read is the answer over the log's list -/

/-- Numbers ascend, below the end of `u64`. -/
def Ascending (es : List LogEntry) : Prop := es.Pairwise (fun e f => e.seq < f.seq) ∧ ∀ e ∈ es, e.seq < u64Max

theorem ascending_of_logged {s : Store} {es : List LogEntry} (h : Logged s es) : Ascending es := by
  refine ⟨?_, h.bound⟩
  have hs := s.log.sorted
  rw [h.log, List.pairwise_map] at hs
  exact hs

section

variable {es : List LogEntry}

theorem Ascending.tail {e : LogEntry} (h : Ascending (e :: es)) : Ascending es :=
  ⟨(List.pairwise_cons.mp h.1).2, fun f hf => h.2 f (List.mem_cons_of_mem _ hf)⟩

theorem Ascending.lt {e : LogEntry} (h : Ascending es) (he : e ∈ es) : e.seq < 2 ^ 64 := by
  have := h.2 e he
  unfold u64Max at this
  omega

theorem Ascending.rows_sorted (h : Ascending es) : (rowsOf es).Pairwise fun a b => a.1 < b.1 := by
  rw [rowsOf, List.pairwise_map]
  exact h.1.imp_of_mem fun he hf hlt => (seqKey_lt (h.lt he) (h.lt hf)).mpr hlt

theorem Ascending.logCf (h : Ascending es) : (LogCf.of es).entries = rowsOf es := by
  have heq : LogCf.of es = ⟨rowsOf es, h.rows_sorted⟩ := by
    apply OrdMap.ext_get?
    intro k v
    have hkeys : (es.map fun e => seqKey e.seq).Nodup := by
      have hne := (List.pairwise_map.mp h.rows_sorted).imp fun hlt => ne_of_lt hlt
      exact List.pairwise_map.mpr hne
    rw [LogCf.of, OrdMap.get?_foldl_put (fun e : LogEntry => seqKey e.seq) (fun e => e) hkeys,
      ← OrdMap.mem_entries (m := ⟨rowsOf es, h.rows_sorted⟩), mem_rowsOf]
    constructor
    · intro hx
      rcases hx with hx | ⟨-, hx⟩
      · exact hx
      · cases hx
    · exact Or.inl
  rw [heq]

/-- An iterator from `start` meets the entries from number `start` on. -/
theorem Ascending.dropWhile {start : Nat} (hs : start < 2 ^ 64) : ∀ {es : List LogEntry}, Ascending es →
    (rowsOf es).dropWhile (fun row => row.1 < seqKey start) = rowsOf (es.filter fun e => start ≤ e.seq) := by
  intro es
  induction es with
  | nil => intro _; rfl
  | cons e es ih =>
    intro h
    have he := h.lt List.mem_cons_self
    rw [rowsOf, List.map_cons, List.dropWhile_cons]
    by_cases hlt : e.seq < start
    · rw [if_pos (decide_eq_true ((seqKey_lt he hs).mpr hlt)), List.filter_cons_of_neg (by simp; omega)]
      exact ih h.tail
    · rw [if_neg (by rw [decide_eq_true_iff, seqKey_lt he hs]; exact hlt), List.filter_eq_self.mpr]
      · rfl
      · intro f hf
        rcases List.mem_cons.mp hf with rfl | hf
        · exact decide_eq_true (by omega)
        · have := (List.pairwise_cons.mp h.1).1 f hf
          exact decide_eq_true (by omega)

theorem Ascending.filter (h : Ascending es) (p : LogEntry → Bool) : Ascending (es.filter p) :=
  ⟨h.1.filter p, fun e he => h.2 e (List.mem_filter.mp he).1⟩

/-- The loop collects the entries to be kept below the bound, up to the limit. -/
theorem Ascending.scanLoop (keep : LogEntry → Bool) {stop limit : Nat} : ∀ {es : List LogEntry} (entries : List LogEntry),
    Ascending es → entries.length < limit →
    Server.scanLoop keep stop limit (rowsOf es) entries =
      .ok (entries ++ (pageOf stop (limit - entries.length) (es.filter fun e => keep e && below stop e)).1,
        (pageOf stop (limit - entries.length) (es.filter fun e => keep e && below stop e)).2) := by
  intro es
  induction es with
  | nil =>
    intro entries _ _
    simp [rowsOf, Server.scanLoop, pageOf, nextCursor]
  | cons e es ih =>
    intro entries h hlt
    rw [rowsOf, List.map_cons, Server.scanLoop, fromBeBytes_seqKey (h.lt List.mem_cons_self)]
    dsimp only
    by_cases hstop : stop ≠ 0 ∧ stop ≤ e.seq
    · -- the bound: this entry and all after it are past it
      have hnil : (e :: es).filter (fun e => keep e && below stop e) = [] := by
        apply List.filter_eq_nil_iff.mpr
        intro f hf
        have hle : e.seq ≤ f.seq := by
          rcases List.mem_cons.mp hf with rfl | hf
          · exact Nat.le_refl _
          · exact Nat.le_of_lt ((List.pairwise_cons.mp h.1).1 f hf)
        simp only [below, Bool.and_eq_true, decide_eq_true_eq, not_and]
        omega
      rw [if_pos hstop, hnil]
      simp [pageOf, nextCursor]
    · have hbelow : below stop e = true := by
        rw [below, decide_eq_true_iff]
        omega
      rw [if_neg hstop]
      cases hk : keep e with
      | false =>
        rw [List.filter_cons_of_neg (by rw [hk]; exact Bool.false_ne_true)]
        exact ih entries h.tail hlt
      | true =>
        rw [if_pos rfl, List.filter_cons_of_pos (by rw [hk, hbelow]; rfl)]
        have hlen : (entries ++ [e]).length = entries.length + 1 := by rw [List.length_append, List.length_singleton]
        by_cases hfull : limit ≤ (entries ++ [e]).length
        · rw [if_pos hfull, show limit - entries.length = 0 + 1 by omega]
          simp [pageOf, nextCursor]
        · rw [if_neg hfull]
          rw [hlen] at hfull
          have hloop := ih (entries ++ [e]) h.tail (by rw [hlen]; omega)
          rw [hlen] at hloop
          have hroom : limit - entries.length = (limit - (entries.length + 1)) + 1 := by omega
          rw [hroom]
          simp only [pageOf, List.take_succ_cons] at hloop ⊢
          rw [nextCursor_cons (by omega), List.append_cons entries e (List.take _ _)]
          exact hloop

/-- A page of a scan. -/
theorem Ascending.scan (h : Ascending es) (keep : LogEntry → Bool) {start stop limit : Nat} (hl : 0 < limit) (hs : start < 2 ^ 64) :
    Server.scan keep stop limit (LogCf.of es) start = .ok (pageOf stop limit (between keep start stop es)) := by
  have hfilter : (es.filter fun e => start ≤ e.seq).filter (fun e => keep e && below stop e) = between keep start stop es := by
    rw [between, List.filter_filter]
    simp only [Bool.and_comm]
  rw [Server.scan, if_neg (by omega), h.logCf, Ascending.dropWhile hs h, (h.filter _).scanLoop keep [] (by rw [List.length_nil]; omega),
    List.nil_append, List.length_nil, Nat.sub_zero, hfilter]

theorem latestLoop_eq (n : Nat) : ∀ (rows : List (Nat × LogEntry)) (entries : List LogEntry), entries.length < n →
    latestLoop n rows entries = entries ++ (rows.map (·.2)).take (n - entries.length) := by
  intro rows
  induction rows with
  | nil => intro entries _; simp [latestLoop]
  | cons r rows ih =>
    intro entries hlt
    obtain ⟨k, e⟩ := r
    have hlen : (entries ++ [e]).length = entries.length + 1 := by rw [List.length_append, List.length_singleton]
    rw [latestLoop]
    by_cases hfull : n ≤ (entries ++ [e]).length
    · rw [if_pos hfull, show n - entries.length = 0 + 1 by omega]
      simp
    · rw [if_neg hfull, ih _ (by omega), hlen, show n - entries.length = (n - (entries.length + 1)) + 1 by omega,
        List.map_cons, List.take_succ_cons, List.append_assoc, List.singleton_append]

theorem lookup_seq (seq : Nat) : ∀ es : List LogEntry,
    OrdMap.lookup seq (es.map fun e => (e.seq, e)) = es.find? (·.seq = seq) := by
  intro es
  induction es with
  | nil => rfl
  | cons e es ih =>
    rw [List.map_cons, OrdMap.lookup, List.find?_cons, ih]
    by_cases he : e.seq = seq
    · rw [if_pos he.symm, decide_eq_true he]
    · rw [if_neg (Ne.symm he), decide_eq_false he]

end

/-- Every call reads the answer over the log's list. -/
theorem Query.read_eq_spec {s : Store} {es : List LogEntry} (h : Logged s es) (maxGetLatest total : Nat) (q : Query)
    (hq : q.inRange = true) : q.read maxGetLatest s total = q.spec maxGetLatest es total := by
  have ha := ascending_of_logged h
  have hcf : logCf s = LogCf.of es := by
    rw [logCf, h.log, List.map_map]
    congr 1
    exact List.map_id es
  cases q with
  | get seq =>
    have hget : s.getBySeq seq = es.find? (·.seq = seq) := by
      rw [Store.getBySeq, OrdMap.get?, h.log, lookup_seq]
    simp only [read, spec, getEntry, hget]
    split <;> rfl
  | listEntries req =>
    simp only [inRange, Bool.and_eq_true, decide_eq_true_eq] at hq
    have hl : 0 < if req.limit = 0 then defaultList else min req.limit maxList := by
      unfold defaultList maxList
      split <;> omega
    have hs : (if 0 < req.cursor then req.cursor else req.fromSeq) < 2 ^ 64 := by
      split
      · exact hq.2
      · exact hq.1
    simp only [read, spec, Server.listEntries, LogCf.seqRangePaged, hcf]
    rw [ha.scan _ hl hs]
    rfl
  | getByKey req =>
    simp only [inRange, decide_eq_true_eq] at hq
    have hl : 0 < if req.limit = 0 then defaultByKey else min req.limit maxByKey := by
      unfold defaultByKey maxByKey
      split <;> omega
    simp only [read, spec, Server.getByKey, LogCf.entriesByKey, hcf]
    split
    · rfl
    · rw [ha.scan _ hl hq]
      rfl
  | getLatest n =>
    simp only [read, spec, latestEntries]
    split
    next h0 => rw [h0, List.take_zero]
    next h0 =>
      rw [latestLoop_eq _ _ [] (by rw [List.length_nil]; omega), List.nil_append, List.length_nil, Nat.sub_zero, h.log,
        ← List.map_reverse, List.map_map]
      congr 2
      exact List.map_id _

/-! ## The server with its readers -/

inductive QueryPhase where
  | asked
  /-- `get_latest` has loaded the counter. -/
  | counted (total : Nat)
  /-- Read, over a log of `at_` entries. -/
  | read (answer : Answer) (at_ : Nat)

/-- A call under way. `asked` is how many calls had been answered when it came, and `acked`
    how many appends. -/
structure QueryTask where
  query : Query
  asked : Nat
  acked : Nat
  phase : QueryPhase

structure Answered where
  query : Query
  asked : Nat
  acked : Nat
  at_ : Nat
  answer : Answer

structure Api where
  st : St
  queries : List QueryTask
  answers : List Answered

inductive ApiEv where
  | server (e : Ev)
  | ask (q : Query)
  | count (i : Nat)
  | read (i : Nat)
  | answer (i : Nat)

/-- What a call that is about to read has loaded of the counter. -/
def QueryTask.ready (t : QueryTask) : Option Nat :=
  match t.query, t.phase with
  | .getLatest _, .counted total => some total
  | .getLatest _, _ => none
  | _, .asked => some 0
  | _, _ => none

def stepApi (maxGetLatest : Nat) (m : Api) : ApiEv → Option Api
  | .server e => (step sha256 E m.st e).map fun s =>
      { m with st := s, queries := if s.proc.isSome then m.queries else [] }
  | .ask q =>
    if q.inRange then
      m.st.proc.map fun _ =>
        { m with queries := m.queries ++ [⟨q, m.answers.length, m.st.hist.replies.length, .asked⟩] }
    else none
  | .count i =>
    match m.st.proc, m.queries[i]? with
    | some p, some ⟨.getLatest n, asked, acked, .asked⟩ =>
      some { m with queries := m.queries.set i ⟨.getLatest n, asked, acked, .counted p.nextSeq⟩ }
    | _, _ => none
  | .read i =>
    match m.queries[i]? with
    | none => none
    | some t =>
      match t.ready with
      | none => none
      | some total =>
        let answer := t.query.read maxGetLatest m.st.store total
        some { m with queries := m.queries.set i { t with phase := .read answer m.st.store.log.entries.length } }
  | .answer i =>
    match m.queries[i]? with
    | some ⟨q, asked, acked, .read answer at_⟩ =>
      some { m with queries := m.queries.eraseIdx i, answers := m.answers ++ [⟨q, asked, acked, at_, answer⟩] }
    | _ => none

def Api.init : Api := ⟨.init, [], []⟩

/-! ## The invariant -/

/-- The numbers acknowledged in the first `n` answers to appends. -/
def ackedFirst (s : St) (n : Nat) : List Nat := St.acked { s with hist := { s.hist with replies := s.hist.replies.take n } }

theorem mem_acked_of_first {s : St} {n seq : Nat} (h : seq ∈ ackedFirst s n) : seq ∈ s.acked := by
  obtain ⟨r, hr, hseq⟩ := List.mem_flatMap.mp h
  exact List.mem_flatMap.mpr ⟨r, List.mem_of_mem_take hr, hseq⟩

/-- Answers to appends are only added. -/
theorem Step.replies {s s' : St} {e : Ev} (h : Step sha256 E s e s') : ∃ rs, s'.hist.replies = s.hist.replies ++ rs := by
  have same : s'.hist.replies = s.hist.replies → ∃ rs, s'.hist.replies = s.hist.replies ++ rs :=
    fun h => ⟨[], by rw [h, List.append_nil]⟩
  cases h with
  | append hp hs =>
    cases hs with
    | refused | emptyBatch | failed | replied => exact ⟨_, rfl⟩
    | locked | reserved | written | leaf | unlocked | sent => exact same rfl
  | sign hp hs => cases hs <;> exact same rfl
  | rotate hp hs => cases hs <;> exact same rfl
  | proof hp hs => cases hs <;> exact same rfl
  | watch hp hs => cases hs <;> exact same rfl
  | crash => exact same rfl
  | restart hp hr => exact same (by rw [(restart_restarted sha256 E hp hr).hist])

theorem ackedFirst_eq {s s' : St} {rs : List (AppendReq × Except Status (List AppendResponse))} {n : Nat}
    (h : s'.hist.replies = s.hist.replies ++ rs) (hn : n ≤ s.hist.replies.length) : ackedFirst s' n = ackedFirst s n := by
  unfold ackedFirst St.acked Machine.acked
  simp only [h, List.take_append_of_le_length hn]

/-- The counter is above every number of the log. -/
theorem ProcWal.seq_lt {es : List LogEntry} {p : Proc} (h : ProcWal sha256 es p) : ∀ e ∈ es, e.seq < p.nextSeq := by
  have hcrit := h.crit
  cases hmu : p.mu with
  | none =>
    rw [hmu] at hcrit
    exact hcrit.1
  | some c =>
    rw [hmu] at hcrit
    cases c with
    | locked => exact hcrit.1
    | written => exact hcrit.1
    | reserved =>
      intro e he
      have := hcrit.1 e he
      have := hcrit.2.1
      omega

/-- The answer is that of the log's first `n` entries: with everything acknowledged before
    the call, and at no less than any call answered before it. -/
structure Linearized (maxGetLatest : Nat) (s : St) (answers : List Answered) (es : List LogEntry) (q : Query)
    (asked acked n : Nat) (answer : Answer) : Prop where
  bound : n ≤ es.length
  after : ∀ i b, i < asked → answers[i]? = some b → b.at_ ≤ n
  sees : ∀ seq ∈ ackedFirst s acked, ∃ e ∈ es.take n, e.seq = seq
  spec : ∃ total, (∀ seq ∈ ackedFirst s acked, seq < total) ∧ answer = q.spec maxGetLatest (es.take n) total

def PhaseSound (maxGetLatest : Nat) (s : St) (answers : List Answered) (es : List LogEntry) (t : QueryTask) : Prop :=
  match t.phase with
  | .asked => True
  | .counted total => ∀ seq ∈ ackedFirst s t.acked, seq < total
  | .read answer at_ => Linearized maxGetLatest s answers es t.query t.asked t.acked at_ answer

structure TaskSound (maxGetLatest : Nat) (s : St) (answers : List Answered) (es : List LogEntry) (t : QueryTask) : Prop where
  inRange : t.query.inRange = true
  asked : t.asked ≤ answers.length
  acked : t.acked ≤ s.hist.replies.length
  phase : PhaseSound maxGetLatest s answers es t

def AnswersSound (maxGetLatest : Nat) (s : St) (answers : List Answered) (es : List LogEntry) : Prop :=
  ∀ (i : Nat) (a : Answered), answers[i]? = some a → a.asked ≤ i ∧ a.acked ≤ s.hist.replies.length ∧
    Linearized maxGetLatest s answers es a.query a.asked a.acked a.at_ a.answer

structure ApiInv (maxGetLatest : Nat) (m : Api) (es : List LogEntry) : Prop where
  log : LogIs sha256 m.st es
  tasks : ∀ t ∈ m.queries, TaskSound maxGetLatest m.st m.answers es t
  answers : AnswersSound maxGetLatest m.st m.answers es

theorem ApiInv.init (maxGetLatest : Nat) : ApiInv sha256 maxGetLatest .init [] where
  log := .init
  tasks t h := by cases h
  answers i a h := by cases h

section

variable {sha256 E} {maxGetLatest : Nat} {m m' : Api} {es : List LogEntry} {s s' : St} {answers : List Answered}

theorem Linearized.grow {q : Query} {asked acked n : Nat} {answer : Answer}
    (h : Linearized maxGetLatest s answers es q asked acked n answer) (hasked : asked ≤ answers.length)
    (hacked : acked ≤ s.hist.replies.length) {rs : List (AppendReq × Except Status (List AppendResponse))}
    (hrs : s'.hist.replies = s.hist.replies ++ rs) (as : List Answered) (fs : List LogEntry) :
    Linearized maxGetLatest s' (answers ++ as) (es ++ fs) q asked acked n answer := by
  have htake : (es ++ fs).take n = es.take n := List.take_append_of_le_length h.bound
  refine ⟨by rw [List.length_append]; exact Nat.le_add_right_of_le h.bound, fun i b hi hb => ?_, ?_, ?_⟩
  · rw [List.getElem?_append_left (by omega)] at hb
    exact h.after i b hi hb
  · rw [ackedFirst_eq hrs hacked, htake]
    exact h.sees
  · rw [ackedFirst_eq hrs hacked, htake]
    exact h.spec

theorem TaskSound.grow {t : QueryTask} (h : TaskSound maxGetLatest s answers es t)
    {rs : List (AppendReq × Except Status (List AppendResponse))} (hrs : s'.hist.replies = s.hist.replies ++ rs)
    (as : List Answered) (fs : List LogEntry) : TaskSound maxGetLatest s' (answers ++ as) (es ++ fs) t := by
  refine ⟨h.inRange, ?_, ?_, ?_⟩
  · rw [List.length_append]
    exact Nat.le_add_right_of_le h.asked
  · rw [hrs, List.length_append]
    exact Nat.le_add_right_of_le h.acked
  · have hphase := h.phase
    unfold PhaseSound at hphase ⊢
    cases hp : t.phase with
    | asked => trivial
    | counted total =>
      rw [hp] at hphase
      dsimp only at hphase ⊢
      rw [ackedFirst_eq hrs h.acked]
      exact hphase
    | read answer at_ =>
      rw [hp] at hphase
      exact hphase.grow h.asked h.acked hrs as fs

theorem AnswersSound.grow (h : AnswersSound maxGetLatest s answers es)
    {rs : List (AppendReq × Except Status (List AppendResponse))} (hrs : s'.hist.replies = s.hist.replies ++ rs)
    (as : List Answered) (fs : List LogEntry) {i : Nat} {a : Answered} (ha : answers[i]? = some a) :
    a.asked ≤ i ∧ a.acked ≤ s'.hist.replies.length ∧
      Linearized maxGetLatest s' (answers ++ as) (es ++ fs) a.query a.asked a.acked a.at_ a.answer := by
  obtain ⟨h1, h2, h3⟩ := h i a ha
  have hi := (List.getElem?_eq_some_iff.mp ha).1
  refine ⟨h1, ?_, h3.grow (by omega) h2 hrs as fs⟩
  rw [hrs, List.length_append]
  exact Nat.le_add_right_of_le h2

/-! ## Steps -/

/-- A step of the server. -/
theorem ApiInv.server (h : ApiInv sha256 maxGetLatest m es) {e : Ev} (hs : step sha256 E m.st e = some s') {queries : List QueryTask}
    (hq : ∀ t ∈ queries, t ∈ m.queries) :
    ∃ fs, ApiInv sha256 maxGetLatest { m with st := s', queries := queries } (es ++ fs) := by
  obtain ⟨fs, hlog⟩ := h.log.step hs
  obtain ⟨rs, hrs⟩ := (step_step sha256 E hs).replies
  refine ⟨fs, hlog, fun t ht => ?_, fun i a ha => ?_⟩
  · have := (h.tasks t (hq t ht)).grow hrs [] fs
    rwa [List.append_nil] at this
  · have := h.answers.grow hrs [] fs ha
    rwa [List.append_nil] at this

/-- A step of a call. -/
theorem ApiInv.set (h : ApiInv sha256 maxGetLatest m es) {i : Nat} {t : QueryTask}
    (ht : TaskSound maxGetLatest m.st m.answers es t) : ApiInv sha256 maxGetLatest { m with queries := m.queries.set i t } es := by
  refine ⟨h.log, fun u hu => ?_, h.answers⟩
  rcases List.mem_or_eq_of_mem_set hu with hu | rfl
  · exact h.tasks u hu
  · exact ht

/-- Every entry acknowledged has a number below the counter. -/
theorem ApiInv.counter (h : ApiInv sha256 maxGetLatest m es) {p : Proc} (hp : m.st.proc = some p) {n seq : Nat}
    (hseq : seq ∈ ackedFirst m.st n) : seq < p.nextSeq := by
  obtain ⟨e, he, rfl⟩ := h.log.acked sha256 (mem_acked_of_first hseq)
  exact (h.log.proc hp).seq_lt sha256 e he

/-- The counter as a call has loaded it, or any above what was acknowledged where the
    answer does not show it. -/
theorem TaskSound.total {t : QueryTask} (h : TaskSound maxGetLatest s answers es t) {total : Nat} (hready : t.ready = some total)
    (hlog : LogIs sha256 s es) : ∃ total', (∀ seq ∈ ackedFirst s t.acked, seq < total') ∧
      t.query.spec maxGetLatest es total = t.query.spec maxGetLatest es total' := by
  have hany : ∃ total', ∀ seq ∈ ackedFirst s t.acked, seq < total' := by
    refine ⟨u64Max, fun seq hseq => ?_⟩
    obtain ⟨e, he, rfl⟩ := hlog.acked sha256 (mem_acked_of_first hseq)
    exact hlog.logged.bound e he
  obtain ⟨total', hlt⟩ := hany
  obtain ⟨query, asked, acked, phase⟩ := t
  cases query with
  | get | listEntries | getByKey => exact ⟨total', hlt, rfl⟩
  | getLatest n =>
    cases phase with
    | counted c =>
      cases hready
      exact ⟨_, h.phase, rfl⟩
    | asked | read => cases hready

/-- A read is of the log as it is. -/
theorem ApiInv.read (h : ApiInv sha256 maxGetLatest m es) {t : QueryTask} (ht : t ∈ m.queries) {total : Nat}
    (hready : t.ready = some total) : TaskSound maxGetLatest m.st m.answers es
      { t with phase := .read (t.query.read maxGetLatest m.st.store total) m.st.store.log.entries.length } := by
  have hs := h.tasks t ht
  have hlen : m.st.store.log.entries.length = es.length := by rw [← h.log.entries, List.length_map]
  refine ⟨hs.inRange, hs.asked, hs.acked, ?_⟩
  show Linearized maxGetLatest m.st m.answers es t.query t.asked t.acked m.st.store.log.entries.length _
  rw [hlen, Query.read_eq_spec h.log.logged maxGetLatest total t.query hs.inRange]
  refine ⟨Nat.le_refl _, fun i b _ hb => (h.answers i b hb).2.2.bound, fun seq hseq => ?_, ?_⟩
  · rw [List.take_length]
    exact h.log.acked sha256 (mem_acked_of_first hseq)
  · rw [List.take_length]
    exact hs.total hready h.log

theorem stepApi_inv {e : ApiEv} (h : ApiInv sha256 maxGetLatest m es) (hs : stepApi sha256 E maxGetLatest m e = some m') :
    ∃ fs, ApiInv sha256 maxGetLatest m' (es ++ fs) := by
  have same : ApiInv sha256 maxGetLatest m' es → ∃ fs, ApiInv sha256 maxGetLatest m' (es ++ fs) :=
    fun h => ⟨[], by rw [List.append_nil]; exact h⟩
  cases e with
  | server e =>
    obtain ⟨s', hstep, rfl⟩ := Option.map_eq_some_iff.mp hs
    refine h.server hstep fun t ht => ?_
    split at ht
    · exact ht
    · cases ht
  | ask q =>
    simp only [stepApi] at hs
    split at hs
    next hq =>
      obtain ⟨p, -, rfl⟩ := Option.map_eq_some_iff.mp hs
      refine same ⟨h.log, fun t ht => ?_, h.answers⟩
      rcases List.mem_append.mp ht with ht | ht
      · exact h.tasks t ht
      · rw [List.mem_singleton.mp ht]
        exact ⟨hq, Nat.le_refl _, Nat.le_refl _, trivial⟩
    next => cases hs
  | count i =>
    simp only [stepApi] at hs
    split at hs
    next p n asked acked hp ht =>
      cases hs
      have hs := h.tasks _ (List.mem_of_getElem? ht)
      exact same (h.set ⟨hs.inRange, hs.asked, hs.acked, fun seq hseq => h.counter hp hseq⟩)
    next => cases hs
  | read i =>
    simp only [stepApi] at hs
    split at hs
    · cases hs
    next t ht =>
      split at hs
      · cases hs
      next total hready =>
        cases hs
        exact same (h.set (h.read (List.mem_of_getElem? ht) hready))
  | answer i =>
    simp only [stepApi] at hs
    split at hs
    next q asked acked answer at_ ht =>
      cases hs
      have hs := h.tasks _ (List.mem_of_getElem? ht)
      have hrs : m.st.hist.replies = m.st.hist.replies ++ [] := (List.append_nil _).symm
      refine same ⟨h.log, fun t ht => ?_, fun j a ha => ?_⟩
      · have := (h.tasks t (List.mem_of_mem_eraseIdx ht)).grow hrs [⟨q, asked, acked, at_, answer⟩] []
        rwa [List.append_nil] at this
      · by_cases hj : j < m.answers.length
        · have ha' : m.answers[j]? = some a := by rw [← ha]; exact (List.getElem?_append_left hj).symm
          have := h.answers.grow hrs [⟨q, asked, acked, at_, answer⟩] [] ha'
          rwa [List.append_nil] at this
        · have hlast : j = m.answers.length := by
            have := (List.getElem?_eq_some_iff.mp ha).1
            rw [List.length_append, List.length_singleton] at this
            omega
          subst hlast
          rw [List.getElem?_concat_length] at ha
          cases ha
          have hl : Linearized maxGetLatest m.st m.answers es q asked acked at_ answer := hs.phase
          have := hl.grow hs.asked hs.acked hrs [⟨q, asked, acked, at_, answer⟩] []
          rw [List.append_nil] at this
          exact ⟨hs.asked, hs.acked, this⟩
    next => cases hs

end

/-- Calls that read the log are linearizable with the appends: in every run of the server,
    with failed writes, crashes and restarts, the log is a list `es`, and each answer given so
    far is the answer over the first `at_` entries of `es`, where these have every entry
    acknowledged before the call was asked, and `at_` is not below that of any call answered
    before it was asked. -/
theorem queries_linearizable (maxGetLatest : Nat) {m : Api}
    (h : Reach (stepApi sha256 E maxGetLatest) (fun _ _ => true) .init m) :
    ∃ es : List LogEntry, m.st.store.log.entries = es.map (fun e => (e.seq, e)) ∧
      ∀ (j : Nat) (a : Answered), m.answers[j]? = some a → a.at_ ≤ es.length ∧
        (∃ total, (∀ seq ∈ ackedFirst m.st a.acked, seq < total) ∧ a.answer = a.query.spec maxGetLatest (es.take a.at_) total) ∧
        (∀ seq ∈ ackedFirst m.st a.acked, ∃ e ∈ es.take a.at_, e.seq = seq) ∧
        ∀ i b, i < a.asked → m.answers[i]? = some b → b.at_ ≤ a.at_ := by
  obtain ⟨es, hi⟩ : ∃ es, ApiInv sha256 maxGetLatest m es := by
    apply h.inv (P := fun m => ∃ es, ApiInv sha256 maxGetLatest m es) ⟨[], .init sha256 maxGetLatest⟩
    intro m e m' ⟨es, hi⟩ _ hs
    obtain ⟨fs, hi'⟩ := stepApi_inv hi hs
    exact ⟨es ++ fs, hi'⟩
  refine ⟨es, hi.log.logged.log, fun j a ha => ?_⟩
  obtain ⟨-, -, hl⟩ := hi.answers j a ha
  exact ⟨hl.bound, hl.spec, hl.sees, hl.after⟩

/-- `get_latest` is asked after one append was answered, and loads the counter while a second
    one is in its critical section; the second entry is written before the scan. -/
def latestRun : List ApiEv :=
  (Ev.restart .zero true :: appendEvs [1] [10] 5).map .server ++
    [.ask (.getLatest 5), .server (.append (.request (.append [2] [20]) true)), .server (.append (.reserve 6)), .count 0,
     .server (.append .write), .read 0, .answer 0]

theorem queries_linearizable_latest : ∃ (m : Api) (a : Answered) (es : List LogEntry),
    Reach (stepApi Sha256.sha256 plainKeys 1000) (fun _ _ => true) .init m ∧ m.answers[0]? = some a ∧ a.at_ = 2 ∧
      a.at_ ≤ es.length ∧ ∃ total, a.answer = a.query.spec 1000 (es.take a.at_) total := by
  have hrun : (run (stepApi Sha256.sha256 plainKeys 1000) (fun _ _ => true) .init latestRun).bind
      (fun m => m.answers[0]?.map (·.at_)) = some 2 := by decide +kernel
  obtain ⟨m, hm, he⟩ := Option.bind_eq_some_iff.mp hrun
  obtain ⟨a, ha, hat⟩ := Option.map_eq_some_iff.mp he
  have hr := Reach.init.run hm
  obtain ⟨es, -, hall⟩ := queries_linearizable Sha256.sha256 plainKeys 1000 hr
  obtain ⟨hle, ⟨total, -, hspec⟩, -, -⟩ := hall 0 a ha
  exact ⟨m, a, es, hr, ha, hat, hle, total, hspec⟩

end Settled.Server
