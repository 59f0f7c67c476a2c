/-
  Settled.Ui.Events — the explorer's live feed (`apps/ui/src/server/routes/events.ts`)
  beside settled-server: one Watch stream for all SSE clients, opened again five seconds
  after it ends or fails.

  A call that fails emits both `error` and `end`, and each schedules a reconnect;
  `reconnectTimer` holds the later timer only. The first of the two to fire clears the
  other, so that one new call is opened (`TimersOk`). This needs that a call that has
  failed emits nothing more once the timer has fired (`prompt`): an `end` that comes later
  opens a second call, and every entry is broadcast twice from then on
  (`late_end_doubles`).

  `feed_once`: in every run of the two servers, over lost connections, reconnects, crashes
  and restarts, no entry is broadcast twice, and an SSE client has got exactly what was
  broadcast since it came. The server sends an entry once to each stream, and a stream
  opened after it was sent never gets it (`Once`).
-/

import Mathlib.Data.List.Perm.Subperm
import Settled.Server.Handover
import Settled.Ui.Routes

namespace Settled.Ui.Events

open Settled.Lib Settled.Core Settled.Storage Settled.Server Settled.Ui.Routes

/-! ## The feed -/

/-- A `watch` call of the explorer: whether the request has reached settled-server, the
    stream it has there while connected, the messages on their way, and how many `error`
    and `end` events it has emitted. -/
structure Watch where
  asked : Bool
  stream : Option Nat
  inFlight : List LogEntry
  closings : Nat
  deriving DecidableEq

/-- An SSE response: what was written to it, and how many entries had been broadcast when
    it was opened. -/
structure SseClient where
  since : Nat
  got : List EntryJson

structure Hub where
  st : St
  watches : List Watch
  /-- The timers set and neither fired nor cleared, the first due first: all are set for
      the same delay. -/
  timers : List Nat
  reconnectTimer : Option Nat
  nextTimer : Nat
  sseClients : List SseClient
  /-- Every entry broadcast. -/
  broadcasts : List LogEntry

inductive HubEv where
  | server (e : Server.Ev)
  /-- The request of call `k` reaches settled-server. -/
  | opened (k : Nat)
  /-- The connection of call `k` breaks; `n` messages on their way still arrive. -/
  | broken (k n : Nat)
  | data (k : Nat)
  /-- `error` or `end`. -/
  | closing (k : Nat)
  | fire
  | connect
  | disconnect (i : Nat)

namespace Hub

def startWatch (m : Hub) : Hub :=
  { m with
    timers := match m.reconnectTimer with
      | some t => m.timers.erase t
      | none => m.timers
    reconnectTimer := none
    watches := m.watches ++ [⟨false, none, [], 0⟩] }

def scheduleReconnect (m : Hub) : Hub :=
  { m with timers := m.timers ++ [m.nextTimer], reconnectTimer := some m.nextTimer, nextTimer := m.nextTimer + 1 }

def broadcast (m : Hub) (e : LogEntry) : Hub :=
  { m with
    sseClients := m.sseClients.map fun c => { c with got := c.got ++ [serializeEntry e] }
    broadcasts := m.broadcasts ++ [e] }

def init : Hub := startWatch ⟨.init, [], [], none, 0, [], []⟩

end Hub

/-- The stream at `i` after the one at `j` has ended. -/
def afterClose (j i : Nat) : Option Nat := if i = j then none else some (if j < i then i - 1 else i)

/-- What a step of settled-server means for a call: its stream sends a message, ends, or
    has another index. -/
def Watch.follow (s : St) (e : Server.Ev) (w : Watch) : Watch :=
  match w.stream with
  | none => w
  | some i =>
    match e with
    | .crash => { w with stream := none }
    | .watch (.close j) => { w with stream := afterClose j i }
    | .watch (.next j) =>
      match s.proc.bind (·.streams[j]?) with
      | none => w
      | some st =>
        match st.next s.store with
        | some (some st') => if j = i then { w with inFlight := w.inFlight ++ st'.delivered.drop st.delivered.length } else w
        | _ => { w with stream := afterClose j i }
    | _ => w

def stepHub (sha256 : Bytes → Hash) (E : Ed25519) (m : Hub) : HubEv → Option Hub
  | .server e => (Server.step sha256 E m.st e).map fun s => { m with st := s, watches := m.watches.map (·.follow m.st e) }
  | .opened k =>
    match m.watches[k]?, m.st.proc with
    | some w, some p =>
      if w.asked then none
      else (Server.step sha256 E m.st (.watch (.subscribe 0))).map fun s =>
        { m with st := s, watches := m.watches.set k { w with asked := true, stream := some p.streams.length } }
    | _, _ => none
  | .broken k n => m.watches[k]?.map fun w =>
    { m with watches := m.watches.set k { w with asked := true, stream := none, inFlight := w.inFlight.take n } }
  | .data k =>
    match m.watches[k]? with
    | none => none
    | some w =>
      match w.inFlight with
      | [] => none
      | e :: inFlight => some ({ m with watches := m.watches.set k { w with inFlight := inFlight } }.broadcast e)
  | .closing k => m.watches[k]?.map fun w =>
    { m with watches := m.watches.set k { w with closings := w.closings + 1 } }.scheduleReconnect
  | .fire =>
    match m.timers with
    | [] => none
    | _ :: timers => some { m with timers := timers }.startWatch
  | .connect => some { m with sseClients := m.sseClients ++ [⟨m.broadcasts.length, []⟩] }
  | .disconnect i => some { m with sseClients := m.sseClients.eraseIdx i }

/-- A call may emit while it has emitted neither `error` nor `end`, and then until the next
    call is opened. -/
def mayEmit (m : Hub) (k : Nat) : Bool :=
  match m.watches[k]? with
  | some w => w.closings = 0 || k + 1 = m.watches.length
  | none => true

/-- A call emits `error` and `end` at most, and both before a timer set by the first fires. -/
def prompt (m : Hub) : HubEv → Bool
  | .data k => mayEmit m k
  | .closing k => mayEmit m k && (m.watches[k]?.all fun w => w.closings < 2)
  | _ => true

/-! ## One call at a time -/

/-- All calls but the last are closed, and the last has as many timers as closing events,
    `reconnectTimer` the later of them. -/
structure TimersOk (m : Hub) : Prop where
  watches : ∃ before, m.watches.map (·.closings) = before ++ [m.timers.length] ∧ ∀ c ∈ before, 0 < c
  two : m.timers.length ≤ 2
  later : m.reconnectTimer = m.timers.getLast?
  nodup : m.timers.Nodup
  old : ∀ t ∈ m.timers, t < m.nextTimer

theorem TimersOk.init : TimersOk .init where
  watches := ⟨[], rfl, fun c hc => by cases hc⟩
  two := Nat.zero_le _
  later := rfl
  nodup := .nil
  old _ h := by cases h

section

variable {m m' : Hub}

/-- Who may emit is the last call. -/
theorem TimersOk.last (h : TimersOk m) {k : Nat} {w : Watch} (hw : m.watches[k]? = some w) (hok : mayEmit m k = true) :
    k + 1 = m.watches.length ∧ w.closings = m.timers.length := by
  obtain ⟨before, hbefore, hclosed⟩ := h.watches
  have hlen : m.watches.length = before.length + 1 := by
    have := congrArg List.length hbefore
    rwa [List.length_map, List.length_append, List.length_singleton] at this
  have hc : (before ++ [m.timers.length])[k]? = some w.closings := by rw [← hbefore, List.getElem?_map, hw]; rfl
  have hlast : k = before.length := by
    by_contra hne
    have hlt : k < before.length := by
      have := (List.getElem?_eq_some_iff.mp hw).1
      omega
    rw [List.getElem?_append_left hlt] at hc
    have := hclosed _ (List.mem_of_getElem? hc)
    simp only [mayEmit, hw, Bool.or_eq_true, decide_eq_true_eq] at hok
    omega
  subst hlast
  rw [List.getElem?_concat_length] at hc
  exact ⟨hlen.symm, (Option.some.inj hc).symm⟩

theorem TimersOk.exists_last (h : TimersOk m) : ∃ w, m.watches.getLast? = some w := by
  obtain ⟨before, hbefore, -⟩ := h.watches
  refine Option.ne_none_iff_exists'.mp fun hnone => ?_
  rw [List.getLast?_eq_none_iff.mp hnone] at hbefore
  simp at hbefore

/-- A step that changes no timer and no number of closing events. -/
theorem TimersOk.keep (h : TimersOk m) (hw : m'.watches.map (·.closings) = m.watches.map (·.closings))
    (ht : m'.timers = m.timers) (hr : m'.reconnectTimer = m.reconnectTimer) (hn : m'.nextTimer = m.nextTimer) : TimersOk m' := by
  refine ⟨?_, ?_, ?_, ?_, ?_⟩
  · rw [hw, ht]; exact h.watches
  · rw [ht]; exact h.two
  · rw [hr, ht]; exact h.later
  · rw [ht]; exact h.nodup
  · rw [ht, hn]; exact h.old

theorem TimersOk.set (h : TimersOk m) {k : Nat} {w v : Watch} (hw : m.watches[k]? = some w) (hv : v.closings = w.closings)
    (hw' : m'.watches = m.watches.set k v) (ht : m'.timers = m.timers) (hr : m'.reconnectTimer = m.reconnectTimer)
    (hn : m'.nextTimer = m.nextTimer) : TimersOk m' :=
  h.keep (by rw [hw']; exact map_set_of_eq hw hv) ht hr hn

/-- The last call emits `error` or `end`. -/
theorem TimersOk.closing (h : TimersOk m) {k : Nat} {w : Watch} (hw : m.watches[k]? = some w) (hok : mayEmit m k = true)
    (hlt : w.closings < 2) :
    TimersOk { m with watches := m.watches.set k { w with closings := w.closings + 1 } }.scheduleReconnect := by
  obtain ⟨hk, hcount⟩ := h.last hw hok
  obtain ⟨before, hbefore, hclosed⟩ := h.watches
  have hlen : k = before.length := by
    have := congrArg List.length hbefore
    rw [List.length_map, List.length_append, List.length_singleton] at this
    omega
  have htimers : (m.timers ++ [m.nextTimer]).length = w.closings + 1 := by
    rw [List.length_append, hcount]
    rfl
  refine ⟨⟨before, ?_, hclosed⟩, ?_, List.getLast?_concat.symm, ?_, fun t ht => ?_⟩
  · show (m.watches.set k { w with closings := w.closings + 1 }).map (·.closings) = before ++ [(m.timers ++ [m.nextTimer]).length]
    rw [htimers, List.map_set, hbefore, hlen, List.set_append_right _ _ (Nat.le_refl _), Nat.sub_self, List.set_cons_zero]
  · show (m.timers ++ [m.nextTimer]).length ≤ 2
    rw [htimers]
    exact hlt
  · refine List.nodup_append.mpr ⟨h.nodup, List.nodup_singleton _, fun t ht u hu => ?_⟩
    rw [List.mem_singleton.mp hu]
    exact Nat.ne_of_lt (h.old t ht)
  · rcases List.mem_append.mp ht with ht | ht
    · exact Nat.lt_succ_of_lt (h.old t ht)
    · rw [List.mem_singleton.mp ht]
      exact Nat.lt_succ_self _

/-- The first timer fires: the other one, if there are two, is cleared. -/
theorem TimersOk.fire (h : TimersOk m) {t : Nat} {timers : List Nat} (ht : m.timers = t :: timers) :
    TimersOk { m with timers := timers }.startWatch := by
  have htwo := h.two
  have hlater := h.later
  rw [ht] at htwo hlater
  have hcleared : ({ m with timers := timers } : Hub).startWatch.timers = [] := by
    rw [Hub.startWatch, hlater]
    cases timers with
    | nil => rfl
    | cons u timers =>
      cases timers with
      | nil => exact List.erase_cons_head ..
      | cons _ _ =>
        simp only [List.length_cons] at htwo
        omega
  obtain ⟨before, hbefore, hclosed⟩ := h.watches
  refine ⟨⟨before ++ [m.timers.length], ?_, fun c hc => ?_⟩, ?_, ?_, ?_, ?_⟩
  · rw [hcleared]
    show (m.watches ++ [(⟨false, none, [], 0⟩ : Watch)]).map Watch.closings = _
    rw [List.map_append, hbefore]
    rfl
  · rcases List.mem_append.mp hc with hc | hc
    · exact hclosed c hc
    · rw [List.mem_singleton.mp hc, ht]
      exact Nat.succ_pos _
  all_goals rw [hcleared]
  · exact Nat.zero_le _
  · rfl
  · exact .nil
  · intro t ht
    cases ht

theorem follow_closings (s : St) (e : Server.Ev) (w : Watch) : (w.follow s e).closings = w.closings := by
  unfold Watch.follow
  split
  · rfl
  · split
    · rfl
    · rfl
    · split
      · rfl
      · split
        · split <;> rfl
        · rfl
    · rfl

/-- One call is open and no timer is set, or none is open and a timer is set. -/
theorem TimersOk.one_open (h : TimersOk m) :
    ((m.watches.filter (·.closings = 0)).length = 1 ∧ m.timers = []) ∨
    ((m.watches.filter (·.closings = 0)).length = 0 ∧ m.timers ≠ []) := by
  obtain ⟨before, hbefore, hclosed⟩ := h.watches
  have hnone : before.countP (· = 0) = 0 := by
    refine List.countP_eq_zero.mpr fun c hc => ?_
    have := hclosed c hc
    rw [decide_eq_true_iff]
    omega
  have hopen : (m.watches.filter (·.closings = 0)).length = [m.timers.length].countP (· = 0) := by
    have hall : (before ++ [m.timers.length]).countP (· = 0) = [m.timers.length].countP (· = 0) := by
      rw [List.countP_append, hnone, Nat.zero_add]
    rw [← hall, ← hbefore, List.countP_map, ← List.countP_eq_length_filter]
    rfl
  rw [hopen]
  cases m.timers with
  | nil => exact Or.inl ⟨rfl, rfl⟩
  | cons t timers => exact Or.inr ⟨rfl, List.cons_ne_nil _ _⟩

end

/-! ## Each entry once -/

def pendingOf (s : St) : List LogEntry :=
  match s.proc with
  | none => []
  | some p => p.unsent ++ critUnsent p.mu

/-- What settled-server holds for a call. -/
def Watch.receiver (s : St) (w : Watch) : List LogEntry :=
  match w.stream.bind fun i => s.proc.bind (·.streams[i]?) with
  | none => []
  | some st => st.queue

/-- What a call may still emit, and what may still come to it. -/
def Watch.toCome (s : St) (w : Watch) : List LogEntry := w.inFlight ++ (w.receiver s ++ pendingOf s)

/-- Stored entries, none of them twice. -/
structure Once (s : St) (es : List LogEntry) : Prop where
  nodup : (seqs es).Nodup
  mem : ∀ e ∈ es, e ∈ stored s.store

/-- A call that has a stream has a live one. -/
def Watch.Attached (s : St) (w : Watch) : Prop :=
  ∀ i, w.stream = some i → ∃ p st, s.proc = some p ∧ p.streams[i]? = some st ∧ st.phase = .live

/-- `fs` are committed between `s` and `s'`. -/
structure Commits (s s' : St) (fs : List LogEntry) : Prop where
  nodup : (seqs fs).Nodup
  above : ∀ e ∈ stored s.store, ∀ f ∈ fs, e.seq < f.seq
  log : stored s'.store = stored s.store ++ fs

theorem Once.sub {s : St} {es fs : List LogEntry} (h : Once s es) (hsub : List.Subperm fs es) : Once s fs := by
  obtain ⟨l, hperm, hl⟩ := hsub
  exact ⟨(hperm.map LogEntry.seq).nodup_iff.mp (h.nodup.sublist (hl.map _)),
    fun e he => h.mem e (hl.subset (hperm.symm.subset he))⟩

theorem Once.commits {s s' : St} {es fs : List LogEntry} (h : Once s es) (hc : Commits s s' fs) : Once s' (es ++ fs) := by
  refine ⟨?_, fun e he => ?_⟩
  · rw [seqs_append]
    refine List.nodup_append.mpr ⟨h.nodup, hc.nodup, fun a ha b hb => ?_⟩
    obtain ⟨e, he, rfl⟩ := mem_seqs.mp ha
    obtain ⟨f, hf, rfl⟩ := mem_seqs.mp hb
    exact Nat.ne_of_lt (hc.above e (h.mem e he) f hf)
  · rw [hc.log]
    exact List.mem_append.mpr ((List.mem_append.mp he).imp_left (h.mem e))

theorem Commits.same {s s' : St} (h : stored s'.store = stored s.store) : Commits s s' [] :=
  ⟨.nil, fun _ _ _ hf => (by cases hf), by rw [h, List.append_nil]⟩

section

variable {s s' : St} {p p' : Proc} {w : Watch}

theorem receiver_some {i : Nat} {st : Stream} (hw : w.stream = some i) (hp : s.proc = some p) (hst : p.streams[i]? = some st) :
    w.receiver s = st.queue := by
  rw [Watch.receiver, hw, Option.bind_some, hp, Option.bind_some, hst]

theorem receiver_none (hw : w.stream = none) : w.receiver s = [] := by
  rw [Watch.receiver, hw]
  rfl

theorem attached_none (hw : w.stream = none) : w.Attached s := fun i hi => by
  rw [hw] at hi
  cases hi

theorem pending_some (hp : s.proc = some p) : pendingOf s = p.unsent ++ critUnsent p.mu := by rw [pendingOf, hp]

theorem push_queue (st : Stream) (e : LogEntry) : (st.push e).queue.Sublist (st.queue ++ [e]) ∧ (st.push e).phase = st.phase := by
  unfold Stream.push
  extract_lets queue
  split
  · exact ⟨List.drop_sublist _ _, rfl⟩
  · exact ⟨List.Sublist.refl _, rfl⟩

/-- A step of the feed that ends, moves and opens no stream commits entries or broadcasts one. -/
theorem fed_cases {ev : FeedEv} (hf : FeedOk (feedOf s p)) (hs : FeedStep s.store (feedOf s p) ev (feedOf s' p'))
    (hlen : p'.streams.length = p.streams.length) (hnext : ∀ i, ev ≠ .next i) :
    (p'.streams = p.streams ∧ ∃ fs, p'.unsent ++ critUnsent p'.mu = (p.unsent ++ critUnsent p.mu) ++ fs ∧ Commits s s' fs) ∨
    (stored s'.store = stored s.store ∧ ∃ before after e, p.unsent ++ critUnsent p.mu = before ++ e :: after ∧
      p'.unsent ++ critUnsent p'.mu = before ++ after ∧ p'.streams = p.streams.map (·.push e)) := by
  generalize hF : feedOf s' p' = F' at hs
  have hlog : stored s'.store = F'.log := congrArg Feed.log hF
  have hpend : p'.unsent ++ critUnsent p'.mu = F'.pending := congrArg Feed.pending hF
  have hstreams : p'.streams = F'.streams := congrArg Feed.streams hF
  cases hs with
  | idle h1 h2 h3 _ =>
    refine Or.inl ⟨hstreams.trans h3, [], ?_, .same (hlog.trans h1)⟩
    rw [List.append_nil]
    exact hpend.trans h2
  | @commit fs hfs =>
    refine Or.inl ⟨hstreams, fs, hpend, ?_, fun e he f hf' => ?_, hlog⟩
    · rw [hfs]
      exact List.nodup_range'
    · exact Nat.lt_of_lt_of_le (hf.below e he) (mem_range_of_seqs hfs hf').1
  | @send before after e h => exact Or.inr ⟨hlog, before, after, e, h, hpend, hstreams⟩
  | subscribe =>
    rw [hstreams, List.length_append] at hlen
    exact absurd hlen (Nat.succ_ne_self _)
  | next => exact absurd rfl (hnext _)
  | @close i =>
    have hkept : p.streams.eraseIdx i = p.streams := by
      rw [hstreams] at hlen
      by_cases hi : i < p.streams.length
      · rw [show (feedOf s p).streams = p.streams from rfl, List.length_eraseIdx_of_lt hi] at hlen
        omega
      · exact List.eraseIdx_of_length_le (Nat.le_of_not_lt hi)
    refine Or.inl ⟨hstreams.trans hkept, [], ?_, .same hlog⟩
    rw [List.append_nil]
    exact hpend

/-- What a step of settled-server means for a call that goes on as it was. -/
def Keeps (s s' : St) (w w' : Watch) : Prop :=
  w'.Attached s' ∧ ∃ fs, Commits s s' fs ∧ List.Subperm (w'.toCome s') (w.toCome s ++ fs)

/-- Handlers, signing, rotations and proofs. -/
theorem fed_keeps (hw : w.Attached s) (hp : s.proc = some p) (hp' : s'.proc = some p') {ev : FeedEv}
    (hf : FeedOk (feedOf s p)) (hs : FeedStep s.store (feedOf s p) ev (feedOf s' p'))
    (hlen : p'.streams.length = p.streams.length) (hnext : ∀ i, ev ≠ .next i) : Keeps s s' w w := by
  rcases fed_cases hf hs hlen hnext with ⟨hst, fs, hpend, hc⟩ | ⟨hlog, before, after, e, hpend, hpend', hst⟩
  · refine ⟨fun i hi => ?_, fs, hc, ?_⟩
    · obtain ⟨q, st, hq, hi', hl⟩ := hw i hi
      rw [hp] at hq
      cases hq
      exact ⟨p', st, hp', by rw [hst]; exact hi', hl⟩
    · have hrec : w.receiver s' = w.receiver s := by
        rw [Watch.receiver, Watch.receiver, hp, hp']
        simp only [Option.bind_some, hst]
      rw [Watch.toCome, Watch.toCome, hrec, pending_some hp', pending_some hp, hpend]
      simp only [List.append_assoc]
      exact List.Subperm.refl _
  · refine ⟨fun i hi => ?_, [], .same hlog, ?_⟩
    · obtain ⟨q, st, hq, hi', hl⟩ := hw i hi
      rw [hp] at hq
      cases hq
      exact ⟨p', st.push e, hp', by rw [hst, List.getElem?_map, hi']; rfl, (push_queue st e).2.trans hl⟩
    · have hrec : (w.receiver s').Sublist (w.receiver s ++ [e]) := by
        cases hi : w.stream with
        | none => rw [receiver_none hi]; exact List.nil_sublist _
        | some i =>
          obtain ⟨q, st, hq, hi', -⟩ := hw i hi
          rw [hp] at hq
          cases hq
          rw [receiver_some hi hp hi', receiver_some hi hp' (by rw [hst, List.getElem?_map, hi']; rfl)]
          exact (push_queue st e).1
      rw [Watch.toCome, Watch.toCome, pending_some hp', pending_some hp, hpend, hpend', List.append_nil]
      -- the entry moves from what is pending to the receiver, or is gone
      refine List.Subperm.append (List.Subperm.refl _) ?_
      refine ((hrec.append_right _).subperm).trans (List.Perm.subperm ?_)
      rw [List.append_assoc]
      have hmove : (before ++ e :: after).Perm (e :: (before ++ after)) := List.perm_middle
      exact hmove.symm.append_left _

theorem getElem?_afterClose {streams : List Stream} {i j k : Nat} (h : afterClose j i = some k) :
    (streams.eraseIdx j)[k]? = streams[i]? := by
  unfold afterClose at h
  split at h
  · cases h
  next hne =>
    rw [List.getElem?_eraseIdx]
    split at h
    next hlt =>
      cases h
      rw [if_neg (by omega), Nat.sub_add_cancel (Nat.one_le_of_lt hlt)]
    next hle =>
      cases h
      rw [if_pos (by omega)]

/-- A stream ends, that of the call or another. -/
theorem erase_keeps (hw : w.Attached s) (hp : s.proc = some p) {i : Nat} (hi : w.stream = some i) (j : Nat) :
    Keeps s (s.withProc { p with streams := p.streams.eraseIdx j }) w { w with stream := afterClose j i } := by
  obtain ⟨q, st, hq, hst, hl⟩ := hw i hi
  rw [hp] at hq
  cases hq
  have hp' : (s.withProc { p with streams := p.streams.eraseIdx j }).proc = some { p with streams := p.streams.eraseIdx j } := rfl
  refine ⟨fun k hk => ?_, [], .same rfl, ?_⟩
  · exact ⟨_, st, hp', (getElem?_afterClose hk).trans hst, hl⟩
  · rw [List.append_nil, Watch.toCome, Watch.toCome, pending_some hp', pending_some hp]
    refine List.Sublist.subperm (List.Sublist.append_left ?_ _)
    refine List.Sublist.append_right ?_ _
    cases hk : afterClose j i with
    | none => rw [receiver_none rfl]; exact List.nil_sublist _
    | some k =>
      rw [receiver_some hi hp hst, receiver_some rfl hp' ((getElem?_afterClose hk).trans hst)]

/-- The stream of a call, or another one, takes its next entry. -/
theorem moved_keeps (hw : w.Attached s) (hp : s.proc = some p) {i j : Nat} (hi : w.stream = some i) {st st' : Stream}
    (hst : p.streams[j]? = some st) (hn : st.next s.store = some (some st')) :
    Keeps s (s.withProc { p with streams := p.streams.set j st' }) w
      (if j = i then { w with inFlight := w.inFlight ++ st'.delivered.drop st.delivered.length } else w) := by
  obtain ⟨q, st0, hq, hst0, hl⟩ := hw i hi
  rw [hp] at hq
  cases hq
  have hp' : (s.withProc { p with streams := p.streams.set j st' }).proc = some { p with streams := p.streams.set j st' } := rfl
  have hpend : pendingOf (s.withProc { p with streams := p.streams.set j st' }) = pendingOf s := by
    rw [pending_some hp', pending_some hp]
    rfl
  by_cases hji : j = i
  · subst hji
    rw [hst] at hst0
    cases hst0
    rw [if_pos rfl]
    have hset : (p.streams.set j st')[j]? = some st' := List.getElem?_set_self (List.getElem?_eq_some_iff.mp hst).1
    have hmoved : st'.phase = .live ∧ (st'.delivered.drop st.delivered.length ++ st'.queue).Sublist st.queue := by
      cases next_step hn with
      | read hph | turned hph | wentLive hph | replayed hph => rw [hph] at hl; cases hl
      | skipped _ _ hq =>
        refine ⟨hl, ?_⟩
        rw [List.drop_length, List.nil_append, hq]
        exact List.sublist_cons_self _ _
      | received _ _ hq =>
        refine ⟨hl, ?_⟩
        rw [hq, Stream.deliver, List.drop_left]
        exact List.Sublist.refl _
    refine ⟨fun k hk => ?_, [], .same rfl, ?_⟩
    · have hk : w.stream = some k := hk
      rw [hi] at hk
      cases hk
      exact ⟨_, st', hp', hset, hmoved.1⟩
    · have hrec := receiver_some (w := { w with inFlight := w.inFlight ++ st'.delivered.drop st.delivered.length }) hi hp' hset
      rw [List.append_nil, Watch.toCome, Watch.toCome, hpend, hrec, receiver_some hi hp hst, List.append_assoc]
      refine List.Sublist.subperm (List.Sublist.append_left ?_ _)
      rw [← List.append_assoc]
      exact hmoved.2.append_right _
  · rw [if_neg hji]
    have hset : (p.streams.set j st')[i]? = some st0 := (List.getElem?_set_ne hji).trans hst0
    refine ⟨fun k hk => ?_, [], .same rfl, ?_⟩
    · rw [hi] at hk
      cases hk
      exact ⟨_, st0, hp', hset, hl⟩
    · rw [List.append_nil, Watch.toCome, Watch.toCome, hpend, receiver_some hi hp' hset, receiver_some hi hp hst0]

theorem follow_unattached (hw : w.stream = none) (e : Server.Ev) : w.follow s e = w := by
  rw [Watch.follow, hw]

/-- A Watch stream opens, goes on or ends. -/
theorem watch_keeps {e : WatchEv} (hw : w.Attached s) (hp : s.proc = some p) (hs : stepWatch s p e = some s') :
    Keeps s s' w (w.follow s (.watch e)) := by
  cases hi : w.stream with
  | none =>
    rw [follow_unattached hi]
    obtain ⟨hstore, p', hp', hmu, hwriters⟩ : s'.store = s.store ∧ ∃ p', s'.proc = some p' ∧ p'.mu = p.mu ∧ p'.writers = p.writers := by
      cases stepWatch_step hs <;> exact ⟨rfl, _, rfl, rfl, rfl⟩
    refine ⟨attached_none hi, [], .same (by rw [hstore]), ?_⟩
    rw [List.append_nil, Watch.toCome, Watch.toCome, receiver_none hi, receiver_none hi, pending_some hp', pending_some hp,
      Proc.unsent, Proc.unsent, hmu, hwriters]
  | some i =>
    cases e with
    | subscribe fromSeq =>
      cases hs
      have hsame : w.follow s (.watch (.subscribe fromSeq)) = w := by rw [Watch.follow, hi]
      obtain ⟨q, st, hq, hst, hl⟩ := hw i hi
      rw [hp] at hq
      cases hq
      have hst' : (p.streams ++ [.subscribe fromSeq])[i]? = some st := by
        rw [List.getElem?_append_left (List.getElem?_eq_some_iff.mp hst).1]
        exact hst
      rw [hsame]
      refine ⟨fun k hk => ?_, [], .same rfl, ?_⟩
      · rw [hi] at hk
        cases hk
        exact ⟨_, st, rfl, hst', hl⟩
      · rw [List.append_nil, Watch.toCome, Watch.toCome, receiver_some hi hp hst, receiver_some hi rfl hst', pending_some hp]
        exact List.Subperm.refl _
    | close j =>
      have hfollow : w.follow s (.watch (.close j)) = { w with stream := afterClose j i } := by rw [Watch.follow, hi]
      simp only [stepWatch] at hs
      split at hs
      · cases hs
        rw [hfollow]
        exact erase_keeps hw hp hi j
      · cases hs
    | next j =>
      simp only [stepWatch] at hs
      split at hs
      · cases hs
      next st hst =>
        have hbind : s.proc.bind (·.streams[j]?) = some st := by rw [hp]; exact hst
        split at hs
        · cases hs
        next hn =>
          cases hs
          have hfollow : w.follow s (.watch (.next j)) = { w with stream := afterClose j i } := by
            simp only [Watch.follow, hi, hbind, hn]
          rw [hfollow]
          exact erase_keeps hw hp hi j
        next st' hn =>
          cases hs
          have hfollow : w.follow s (.watch (.next j)) =
              if j = i then { w with inFlight := w.inFlight ++ st'.delivered.drop st.delivered.length } else w := by
            simp only [Watch.follow, hi, hbind, hn]
          rw [hfollow]
          exact moved_keeps hw hp hi hst hn

/-- A step of settled-server. -/
theorem follow_keeps {sha256 : Bytes → Hash} {E : Ed25519} {e : Server.Ev} (hi : FeedInv s) (hs : Server.step sha256 E s e = some s')
    (hw : w.Attached s) : Keeps s s' w (w.follow s e) := by
  have fed : ∀ {p p' : Proc}, s.proc = some p → s'.proc = some p' → (∀ i, e ≠ .watch (.next i)) → Fed s p e s' p' →
      p'.streams.length = p.streams.length → Keeps s s' w w := by
    intro p p' hp hp' he ⟨ev, hof, hfed⟩ hlen
    refine fed_keeps hw hp hp' (hi.feed p hp) hfed hlen fun i hev => ?_
    subst hev
    exact he i hof
  have alike : (∀ e', e ≠ .watch e') → e ≠ .crash → w.follow s e = w := by
    intro h1 h2
    unfold Watch.follow
    split
    · rfl
    · split
      · exact absurd rfl h2
      · exact absurd rfl (h1 _)
      · exact absurd rfl (h1 _)
      · rfl
  cases e with
  | append e =>
    obtain ⟨p, hp, hs⟩ := Option.bind_eq_some_iff.mp hs
    have hs := stepAppend_step sha256 hs
    rw [alike (fun _ h => by cases h) (fun h => by cases h)]
    obtain ⟨-, p', hp', -, hfed⟩ := hs.fed sha256 hi hp
    refine fed hp hp' (fun i h => by cases h) hfed ?_
    cases hs with
    | refused | emptyBatch =>
      have hp' : s.proc = some p' := hp'
      rw [hp] at hp'
      cases hp'
      rfl
    | sent => cases hp'; exact List.length_map _
    | locked | reserved | written | failed | leaf | unlocked | replied => cases hp'; rfl
  | sign e =>
    obtain ⟨p, hp, hs⟩ := Option.bind_eq_some_iff.mp hs
    have hs := stepSign_step sha256 E hs
    rw [alike (fun _ h => by cases h) (fun h => by cases h)]
    obtain ⟨-, p', hp', -, -, hfed⟩ := hs.fed sha256 E
    refine fed hp hp' (fun i h => by cases h) hfed ?_
    cases hs <;> cases hp' <;> rfl
  | rotate e =>
    obtain ⟨p, hp, hs⟩ := Option.bind_eq_some_iff.mp hs
    have hs := stepRotate_step E hs
    rw [alike (fun _ h => by cases h) (fun h => by cases h)]
    obtain ⟨-, p', hp', -, -, hfed⟩ := hs.fed E
    refine fed hp hp' (fun i h => by cases h) hfed ?_
    cases hs <;> cases hp' <;> rfl
  | proof e =>
    obtain ⟨p, hp, hs⟩ := Option.bind_eq_some_iff.mp hs
    have hs := stepProof_step sha256 hs
    rw [alike (fun _ h => by cases h) (fun h => by cases h)]
    obtain ⟨-, p', hp', -, -, hfed⟩ := hs.fed sha256 hp
    refine fed hp hp' (fun i h => by cases h) hfed ?_
    cases hs with
    | refused =>
      have hp' : s.proc = some p' := hp'
      rw [hp] at hp'
      cases hp'
      rfl
    | sized | unproved | proved | headRead | answered => cases hp'; rfl
  | watch e =>
    obtain ⟨p, hp, hs⟩ := Option.bind_eq_some_iff.mp hs
    exact watch_keeps hw hp hs
  | crash =>
    obtain ⟨p, hp, rfl⟩ := Option.map_eq_some_iff.mp hs
    have hnone : (w.follow s .crash).stream = none ∧ (w.follow s .crash).inFlight = w.inFlight := by
      unfold Watch.follow
      split
      next h => exact ⟨h, rfl⟩
      next => exact ⟨rfl, rfl⟩
    refine ⟨attached_none hnone.1, [], .same rfl, ?_⟩
    rw [List.append_nil, Watch.toCome, Watch.toCome, receiver_none hnone.1, hnone.2]
    exact (List.Sublist.append_left (List.nil_sublist _) _).subperm
  | restart newKey seeded =>
    simp only [Server.step] at hs
    split at hs
    · cases hs
    next hp =>
      have hr := restart_restarted sha256 E hp hs
      have hnone : w.stream = none := by
        cases hi : w.stream with
        | none => rfl
        | some i =>
          obtain ⟨p, -, hp', -⟩ := hw i hi
          rw [hp] at hp'
          cases hp'
      have hpend : pendingOf s' = [] := by
        cases hp' : s'.proc with
        | none => rw [pendingOf, hp']
        | some p' =>
          obtain ⟨-, -, hmu, hwriters, -⟩ := hr.proc p' hp'
          rw [pending_some hp', Proc.unsent, hmu, hwriters]
          rfl
      rw [follow_unattached hnone]
      refine ⟨attached_none hnone, [], .same (by rw [stored, hr.log, stored]), ?_⟩
      rw [List.append_nil, Watch.toCome, Watch.toCome, receiver_none hnone, hpend]
      exact (List.Sublist.append_left (List.nil_sublist _) _).subperm

end

/-! ## Runs -/

/-- A client has got what was broadcast since it came. -/
def SseClient.Current (broadcasts : List LogEntry) (c : SseClient) : Prop :=
  c.since ≤ broadcasts.length ∧ c.got = (broadcasts.drop c.since).map serializeEntry

theorem SseClient.Current.connect (broadcasts : List LogEntry) : SseClient.Current broadcasts ⟨broadcasts.length, []⟩ := by
  refine ⟨Nat.le_refl _, ?_⟩
  rw [List.drop_length]
  rfl

theorem SseClient.Current.broadcast {broadcasts : List LogEntry} {c : SseClient} (h : c.Current broadcasts) (e : LogEntry) :
    SseClient.Current (broadcasts ++ [e]) { c with got := c.got ++ [serializeEntry e] } := by
  obtain ⟨hle, hgot⟩ := h
  refine ⟨by rw [List.length_append]; exact Nat.le_add_right_of_le hle, ?_⟩
  show c.got ++ [serializeEntry e] = ((broadcasts ++ [e]).drop c.since).map serializeEntry
  rw [List.drop_append_of_le_length hle, List.map_append, hgot]
  rfl

structure HubInv (m : Hub) : Prop where
  feed : FeedInv m.st
  timers : TimersOk m
  attached : ∀ w ∈ m.watches, w.Attached m.st
  /-- What was broadcast and what may still come through the last call. -/
  once : ∀ w, m.watches.getLast? = some w → Once m.st (m.broadcasts ++ w.toCome m.st)
  clients : ∀ c ∈ m.sseClients, c.Current m.broadcasts

theorem HubInv.init : HubInv .init where
  feed := .init
  timers := .init
  attached w hw := by
    rw [List.mem_singleton.mp hw]
    exact attached_none rfl
  once w hw := by
    cases hw
    exact ⟨.nil, fun e he => by cases he⟩
  clients _ h := by cases h

section

variable {m m' : Hub}

theorem getLast?_set {ws : List Watch} {k : Nat} {w v x : Watch} (hw : ws[k]? = some w) (hx : (ws.set k v).getLast? = some x) :
    (x = v ∧ ws.getLast? = some w) ∨ ws.getLast? = some x := by
  rw [List.getLast?_eq_getElem?, List.length_set, List.getElem?_set] at hx
  rw [List.getLast?_eq_getElem?]
  split at hx
  next hk =>
    subst hk
    split at hx
    · cases hx
      exact Or.inl ⟨rfl, hw⟩
    · cases hx
  next => exact Or.inr hx

/-- One call changes, and may emit no more than before. -/
theorem HubInv.set (h : HubInv m) {k : Nat} {w v : Watch} (hw : m.watches[k]? = some w) (hv : v.Attached m.st)
    (hsub : List.Subperm (v.toCome m.st) (w.toCome m.st)) :
    (∀ x ∈ m.watches.set k v, x.Attached m.st) ∧
    ∀ x, (m.watches.set k v).getLast? = some x → Once m.st (m.broadcasts ++ x.toCome m.st) := by
  refine ⟨fun x hx => ?_, fun x hx => ?_⟩
  · rcases List.mem_or_eq_of_mem_set hx with hx | rfl
    · exact h.attached x hx
    · exact hv
  · rcases getLast?_set hw hx with ⟨rfl, hlast⟩ | hlast
    · exact (h.once w hlast).sub ((List.Subperm.refl _).append hsub)
    · exact h.once x hlast

theorem HubInv.server {sha256 : Bytes → Hash} {E : Ed25519} {e : Server.Ev} {s : St} (h : HubInv m)
    (hs : Server.step sha256 E m.st e = some s) : HubInv { m with st := s, watches := m.watches.map (·.follow m.st e) } where
  feed := ((step_step sha256 E hs).fed sha256 E h.feed).1
  timers := by
    refine h.timers.keep ?_ rfl rfl rfl
    rw [List.map_map]
    exact List.map_congr_left fun w _ => follow_closings m.st e w
  attached v hv := by
    obtain ⟨w, hw, rfl⟩ := List.mem_map.mp hv
    exact (follow_keeps h.feed hs (h.attached w hw)).1
  once v hv := by
    rw [List.getLast?_map] at hv
    obtain ⟨w, hw, rfl⟩ := Option.map_eq_some_iff.mp hv
    obtain ⟨-, fs, hc, hsub⟩ := follow_keeps h.feed hs (h.attached w (List.mem_of_getLast? hw))
    refine ((h.once w hw).commits hc).sub ?_
    rw [List.append_assoc]
    exact (List.Subperm.refl _).append hsub
  clients := h.clients

theorem follow_subscribe (s : St) (fromSeq : Nat) (w : Watch) : w.follow s (.watch (.subscribe fromSeq)) = w := by
  unfold Watch.follow
  split <;> rfl

theorem HubInv.opened {sha256 : Bytes → Hash} {E : Ed25519} {k : Nat} {w : Watch} {p : Proc} {s : St} (h : HubInv m)
    (hw : m.watches[k]? = some w) (hp : m.st.proc = some p) (hs : Server.step sha256 E m.st (.watch (.subscribe 0)) = some s) :
    HubInv { m with st := s, watches := m.watches.set k { w with asked := true, stream := some p.streams.length } } := by
  have hserver := h.server hs
  have hsame : m.watches.map (·.follow m.st (.watch (.subscribe 0))) = m.watches := by
    rw [List.map_congr_left fun w _ => follow_subscribe m.st 0 w]
    exact List.map_id _
  rw [hsame] at hserver
  have hnew : s.proc = some { p with streams := p.streams ++ [.subscribe 0] } := by
    simp only [Server.step, hp, Option.bind_some, stepWatch, Option.some.injEq] at hs
    rw [← hs]
  have hst : (p.streams ++ [Stream.subscribe 0])[p.streams.length]? = some (.subscribe 0) := List.getElem?_concat_length
  obtain ⟨hatt, honce⟩ := hserver.set (v := { w with asked := true, stream := some p.streams.length }) hw
    (fun i hi => by cases hi; exact ⟨_, _, hnew, hst, rfl⟩) (by
      rw [Watch.toCome, Watch.toCome, receiver_some rfl hnew hst]
      exact (List.Sublist.append_left (List.sublist_append_right _ _) _).subperm)
  exact ⟨hserver.feed, hserver.timers.set (v := { w with asked := true, stream := some p.streams.length }) hw rfl rfl rfl rfl rfl,
    hatt, honce, h.clients⟩

theorem HubInv.broken {k : Nat} {w : Watch} (n : Nat) (h : HubInv m) (hw : m.watches[k]? = some w) :
    HubInv { m with watches := m.watches.set k { w with asked := true, stream := none, inFlight := w.inFlight.take n } } := by
  obtain ⟨hatt, honce⟩ := h.set (v := { w with asked := true, stream := none, inFlight := w.inFlight.take n }) hw
    (attached_none rfl) (by
      rw [Watch.toCome, Watch.toCome, receiver_none rfl]
      exact ((List.take_sublist _ _).append (List.sublist_append_right _ _)).subperm)
  exact ⟨h.feed, h.timers.set (v := { w with asked := true, stream := none, inFlight := w.inFlight.take n }) hw rfl rfl rfl rfl rfl,
    hatt, honce, h.clients⟩

theorem HubInv.closing {k : Nat} {w : Watch} (h : HubInv m) (hw : m.watches[k]? = some w) (hok : mayEmit m k = true)
    (hlt : w.closings < 2) : HubInv { m with watches := m.watches.set k { w with closings := w.closings + 1 } }.scheduleReconnect := by
  obtain ⟨hatt, honce⟩ := h.set (v := { w with closings := w.closings + 1 }) hw (h.attached w (List.mem_of_getElem? hw))
    (List.Subperm.refl _)
  exact ⟨h.feed, h.timers.closing hw hok hlt, hatt, honce, h.clients⟩

/-- The last call emits a message, and no other may. -/
theorem HubInv.data {k : Nat} {w : Watch} {e : LogEntry} {inFlight : List LogEntry} (h : HubInv m) (hw : m.watches[k]? = some w)
    (hok : mayEmit m k = true) (hin : w.inFlight = e :: inFlight) :
    HubInv ({ m with watches := m.watches.set k { w with inFlight := inFlight } }.broadcast e) := by
  have hk := (h.timers.last hw hok).1
  have hlast : m.watches.getLast? = some w := by
    rw [List.getLast?_eq_getElem?, ← hk]
    exact hw
  refine ⟨h.feed, h.timers.set (v := { w with inFlight := inFlight }) hw rfl rfl rfl rfl rfl, fun v hv => ?_, fun v hv => ?_,
    fun c hc => ?_⟩
  · rcases List.mem_or_eq_of_mem_set hv with hv | rfl
    · exact h.attached v hv
    · exact h.attached w (List.mem_of_getElem? hw)
  · have hv : (m.watches.set k { w with inFlight := inFlight }).getLast? = some v := hv
    have hset : (m.watches.set k { w with inFlight := inFlight }).getLast? = some { w with inFlight := inFlight } := by
      rw [List.getLast?_eq_getElem?, List.length_set, ← hk]
      exact List.getElem?_set_self (List.getElem?_eq_some_iff.mp hw).1
    rw [hset] at hv
    cases hv
    have honce := h.once w hlast
    rw [Watch.toCome, hin] at honce
    show Once m.st ((m.broadcasts ++ [e]) ++ (inFlight ++ (w.receiver m.st ++ pendingOf m.st)))
    rw [List.append_assoc]
    exact honce
  · obtain ⟨c', hc', rfl⟩ := List.mem_map.mp hc
    exact (h.clients c' hc').broadcast e

theorem HubInv.fire {t : Nat} {timers : List Nat} (h : HubInv m) (ht : m.timers = t :: timers) :
    HubInv { m with timers := timers }.startWatch := by
  refine ⟨h.feed, h.timers.fire ht, fun v hv => ?_, fun v hv => ?_, h.clients⟩
  · rcases List.mem_append.mp hv with hv | hv
    · exact h.attached v hv
    · rw [List.mem_singleton.mp hv]
      exact attached_none rfl
  · have hv : (m.watches ++ [(⟨false, none, [], 0⟩ : Watch)]).getLast? = some v := hv
    rw [List.getLast?_concat] at hv
    cases hv
    -- the call before has had what the new one may get
    obtain ⟨w, hw⟩ := h.timers.exists_last
    refine (h.once w hw).sub ((List.Subperm.refl _).append (List.Sublist.subperm ?_))
    exact (List.sublist_append_right _ _).trans (List.sublist_append_right _ _)

theorem step_hubInv {sha256 : Bytes → Hash} {E : Ed25519} {ev : HubEv} (h : HubInv m) (hok : prompt m ev = true)
    (hs : stepHub sha256 E m ev = some m') : HubInv m' := by
  cases ev with
  | server e =>
    obtain ⟨s, hstep, rfl⟩ := Option.map_eq_some_iff.mp hs
    exact h.server hstep
  | opened k =>
    simp only [stepHub] at hs
    split at hs
    next w p hw hp =>
      split at hs
      · cases hs
      · obtain ⟨s, hstep, rfl⟩ := Option.map_eq_some_iff.mp hs
        exact h.opened hw hp hstep
    · cases hs
  | broken k n =>
    obtain ⟨w, hw, rfl⟩ := Option.map_eq_some_iff.mp hs
    exact h.broken n hw
  | data k =>
    simp only [stepHub] at hs
    split at hs
    · cases hs
    next w hw =>
      split at hs
      · cases hs
      next e inFlight hin =>
        cases hs
        exact h.data hw hok hin
  | closing k =>
    obtain ⟨w, hw, rfl⟩ := Option.map_eq_some_iff.mp hs
    simp only [prompt, hw, Bool.and_eq_true, Option.all_some, decide_eq_true_eq] at hok
    exact h.closing hw hok.1 hok.2
  | fire =>
    simp only [stepHub] at hs
    split at hs
    · cases hs
    next t timers ht =>
      cases hs
      exact h.fire ht
  | connect =>
    cases hs
    refine ⟨h.feed, h.timers.keep rfl rfl rfl rfl, h.attached, h.once, fun c hc => ?_⟩
    rcases List.mem_append.mp hc with hc | hc
    · exact h.clients c hc
    · rw [List.mem_singleton.mp hc]
      exact .connect m.broadcasts
  | disconnect i =>
    cases hs
    exact ⟨h.feed, h.timers.keep rfl rfl rfl rfl, h.attached, h.once, fun c hc => h.clients c (List.mem_of_mem_eraseIdx hc)⟩

end

/-- In every run of the explorer beside settled-server in which a call that fails emits its
    `error` and `end` before its reconnect timer fires: no entry is broadcast twice, every
    entry broadcast is the log's entry of its number, an SSE client has got exactly what was
    broadcast since it came, and there is always one open call and no timer, or no open call
    and a timer that will open one. -/
theorem feed_once (sha256 : Bytes → Hash) (E : Ed25519) {m : Hub} (h : Reach (stepHub sha256 E) prompt .init m) :
    (m.broadcasts.map (·.seq)).Nodup ∧ (∀ e ∈ m.broadcasts, m.st.store.getBySeq e.seq = some e) ∧
    (∀ c ∈ m.sseClients, c.since ≤ m.broadcasts.length ∧ c.got = (m.broadcasts.drop c.since).map serializeEntry) ∧
    (((m.watches.filter (·.closings = 0)).length = 1 ∧ m.timers = []) ∨
      ((m.watches.filter (·.closings = 0)).length = 0 ∧ m.timers ≠ [])) := by
  have hi : HubInv m := h.inv .init fun _ _ _ hm hok hs => step_hubInv hm hok hs
  obtain ⟨w, hw⟩ := hi.timers.exists_last
  have honce := (hi.once w hw).sub (List.sublist_append_left _ _).subperm
  exact ⟨honce.nodup, fun e he => hi.feed.logged.getBySeq (honce.mem e he), hi.clients, hi.timers.one_open⟩

/-- Entry 0 goes to a client; a second client comes; the connection breaks, the call fails and
    ends, and the first timer fires; entry 1 comes through the next call. -/
def reconnectRun : List HubEv := [
    [.server (.restart .zero true), .opened 0, .connect],
    (appendEvs [1] [10] 5).map .server,
    [.server (.watch (.next 0)), .data 0, .connect, .broken 0 0, .closing 0, .closing 0, .fire, .opened 1],
    (appendEvs [2] [20] 6).map .server,
    [.server (.watch (.next 1)), .data 1]].flatten

theorem feed_once_reconnect : ∃ m, Reach (stepHub Sha256.sha256 plainKeys) prompt .init m ∧ m.watches.length = 2 ∧
    m.broadcasts.map (·.seq) = [0, 1] ∧ m.sseClients.map (fun c => (c.since, c.got.map (·.seq))) = [(0, [0, 1]), (1, [1])] ∧
    (m.broadcasts.map (·.seq)).Nodup := by
  have hrun : ((run (stepHub Sha256.sha256 plainKeys) prompt .init reconnectRun).map fun m =>
      (m.watches.length, m.broadcasts.map (·.seq), m.sseClients.map fun c => (c.since, c.got.map (·.seq)))) =
        some (2, [0, 1], [(0, [0, 1]), (1, [1])]) := by decide +kernel
  obtain ⟨m, hm, heq⟩ := Option.map_eq_some_iff.mp hrun
  obtain ⟨hlen, heq⟩ := Prod.mk.inj heq
  obtain ⟨hseqs, hclients⟩ := Prod.mk.inj heq
  have hreach := Reach.init.run hm
  obtain ⟨hnodup, -⟩ := feed_once Sha256.sha256 plainKeys hreach
  exact ⟨m, hreach, hlen, hseqs, hclients, hnodup⟩

/-- The call fails, the timer fires, and only then the call ends: its second timer opens a
    third call beside the second, and both bring entry 0. -/
def lateEndRun : List HubEv := [
    [.server (.restart .zero true), .closing 0, .fire, .closing 0, .fire, .opened 1, .opened 2],
    (appendEvs [1] [10] 5).map .server,
    [.server (.watch (.next 0)), .server (.watch (.next 1)), .data 1, .data 2]].flatten

theorem late_end_doubles : ∃ m, Reach (stepHub Sha256.sha256 plainKeys) (fun _ _ => true) .init m ∧
    m.broadcasts.map (·.seq) = [0, 0] := by
  have hrun : ((run (stepHub Sha256.sha256 plainKeys) (fun _ _ => true) .init lateEndRun).map
      fun m => m.broadcasts.map (·.seq)) = some [0, 0] := by decide +kernel
  obtain ⟨m, hm, heq⟩ := Option.map_eq_some_iff.mp hrun
  exact ⟨m, Reach.init.run hm, heq⟩

end Settled.Ui.Events
