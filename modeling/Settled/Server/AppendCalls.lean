/-
  Settled.Server.AppendCalls — whole append calls, one after another under `append_mu`,
  with RocksDB writes that may fail (`LogStore::append`, `LogStore::append_batch` and the
  handlers around them).

  A call takes its numbers before it writes and extends the tree after. A failed write
  returns between the two: the numbers are gone, nothing is in the log and nothing in the
  tree, and no later call makes up for it. So the log stays intact, with its numbers, the
  tree's leaf indices and the counter in agreement, exactly as long as no write has
  failed (`appends_intact_iff`); then proofs from the log verify under every root the
  tree had, and the tree CF can be rebuilt.

  `AppendCall.exec` is a call at one go; the machine's steps for it lead to the same log,
  counter and tree (`exec_run`, `execAll_reach`).
-/

import Settled.Server.Invariant
import Settled.Storage.TreeStore

namespace Settled.Server

open Settled.Lib Settled.Core Settled.Storage

variable (sha256 : Bytes → Hash)

/-! ## Calls -/

/-- `DbInner`: what is on disk, and `next_seq`. -/
structure Db where
  store : Store
  nextSeq : Nat

def Db.count (d : Db) : Nat := d.nextSeq

/-- Numbers first, then the write, which succeeds if `written`. -/
def Db.put (d : Db) (written : Bool) (timestampNs : Int) (entries : List (Bytes × Bytes)) : Db × Option (List LogEntry) :=
  let results := entriesOf sha256 d.nextSeq timestampNs entries
  let d := { d with nextSeq := d.nextSeq + entries.length }
  if written then ({ d with store := d.store.writeBatch results }, some results) else (d, none)

/-- `LogStore::append`. -/
def Db.append (d : Db) (written : Bool) (timestampNs : Int) (key data : Bytes) : Db × Option (List LogEntry) :=
  d.put sha256 written timestampNs [(key, data)]

/-- `LogStore::append_batch`. -/
def Db.appendBatch (d : Db) (written : Bool) (timestampNs : Int) (entries : List (Bytes × Bytes)) :
    Db × Option (List LogEntry) :=
  if entries = [] then (d, some []) else d.put sha256 written timestampNs entries

/-- The log and the in-memory tree; `placed` is the history of the leaf indices that
    `MerkleTree::append` gave the entries. -/
structure LogState where
  db : Db
  merkle : MerkleTree Hash
  placed : List (LogEntry × Nat)

def LogState.empty : LogState := ⟨⟨.empty, 0⟩, .new, []⟩

def LogState.place (s : LogState) : List LogEntry → Option LogState
  | [] => some s
  | e :: es =>
    match s.merkle.append (.sha sha256) e.leafHash with
    | none => none
    | some (i, merkle) => LogState.place { s with merkle := merkle, placed := s.placed ++ [(e, i)] } es

/-- A request, what the rate limiter and the clock say, and whether its write succeeds. -/
structure AppendCall where
  req : AppendReq
  tokens : Bool
  timestampNs : Int
  written : Bool
  deriving DecidableEq

/-- The call comes to its write, and that fails. -/
def AppendCall.fails (c : AppendCall) : Bool :=
  match c.req.check c.tokens with
  | .ok true => !c.written
  | _ => false

def AppendCall.put (d : Db) (c : AppendCall) : Db × Option (List LogEntry) :=
  match c.req with
  | .append key data => d.append sha256 c.written c.timestampNs key data
  | .batchAppend entries => d.appendBatch sha256 c.written c.timestampNs entries

/-- One call; `none` would be a panic in `MerkleTree::append`. -/
def AppendCall.exec (s : LogState) (c : AppendCall) : Option LogState :=
  match c.req.check c.tokens with
  | .ok true =>
    match c.put sha256 s.db with
    | (db, none) => some { s with db := db }
    | (db, some results) => LogState.place sha256 { s with db := db } results
  | _ => some s

def execAll (s : LogState) : List AppendCall → Option LogState
  | [] => some s
  | c :: cs =>
    match c.exec sha256 s with
    | none => none
    | some s => execAll s cs

/-! ## Intact logs -/

/-- The log's keys are `0, ..., count() - 1`; each entry's number is its leaf index; the
    tree has `count()` leaves. -/
structure Intact (s : LogState) : Prop where
  keys : s.db.store.log.entries.map (·.1) = List.range s.db.count
  leaves : ∀ i e, s.db.store.getBySeq i = some e → e.seq = i ∧ (e, i) ∈ s.placed
  placed : ∀ e i, (e, i) ∈ s.placed → e.seq = i
  size : s.merkle.size = s.db.count

/-- A proof from the log of `s` of any entry of `head`'s tree verifies under `head`'s
    root. -/
def ProvesUnder (head s : LogState) : Prop :=
  ∀ i, i < head.merkle.size → ∃ e root proof, s.db.store.getBySeq i = some e ∧
    head.merkle.root (.sha sha256) = some root ∧
    inclusionProof (.sha sha256) (hashes (s.db.store.seqRange 0 head.merkle.size)) i = .ok proof ∧
    (verifyInclusion (.sha sha256) (leafHash sha256 e.data) i head.merkle.size proof root).val = true

/-- After every one of the calls the log is intact, its proofs verify under every root
    the tree has had, and a rebuild of the tree CF does not panic. -/
def StaysIntact (calls : List AppendCall) : Prop :=
  ∀ n, ∃ s, execAll sha256 .empty (calls.take n) = some s ∧ Intact s ∧
    (∀ m head, m ≤ n → execAll sha256 .empty (calls.take m) = some head → ProvesUnder sha256 head s) ∧
    ∃ tree, rebuildFromLog sha256 s.db.store = some tree

/-! ## Calls that write -/

theorem check_true {req : AppendReq} {tokens : Bool} (h : req.check tokens = .ok true) : req.entries ≠ [] := by
  cases req with
  | append key data => exact List.cons_ne_nil _ _
  | batchAppend entries =>
    intro h0
    simp only [AppendReq.entries] at h0
    rw [h0] at h
    cases h

theorem put_eq {c : AppendCall} (h : c.req.check c.tokens = .ok true) (d : Db) :
    c.put sha256 d = d.put sha256 c.written c.timestampNs c.req.entries := by
  have hne := check_true h
  obtain ⟨req, tokens, ts, written⟩ := c
  cases req with
  | append key data => rfl
  | batchAppend entries => exact if_neg hne

/-- What holds while no write has failed: the entries `es` are in the log, in the tree
    and under their own leaf indices. -/
structure LogInv (s : LogState) (es : List LogEntry) : Prop where
  holds : Holds sha256 s.db.store es
  count : s.db.nextSeq = es.length
  tree : s.merkle.Rep (.sha sha256) (hashes es)
  placed : s.placed = es.zipIdx

theorem LogInv.empty : LogInv sha256 .empty [] := ⟨.empty sha256, rfl, .new _, rfl⟩

theorem place_spec : ∀ (fs : List LogEntry) {s : LogState} {es : List LogEntry}, s.merkle.Rep (.sha sha256) (hashes es) →
    s.placed = es.zipIdx → ∃ s', LogState.place sha256 s fs = some s' ∧ s'.db = s.db ∧
      s'.merkle.Rep (.sha sha256) (hashes (es ++ fs)) ∧ s'.placed = (es ++ fs).zipIdx := by
  intro fs
  induction fs with
  | nil => intro s es h hp; exact ⟨s, rfl, rfl, by rw [List.append_nil]; exact h, by rw [List.append_nil]; exact hp⟩
  | cons f fs ih =>
    intro s es h hp
    obtain ⟨t, ht, hrep⟩ := h.append f.leafHash
    rw [length_hashes] at ht
    have hrep' : t.Rep (.sha sha256) (hashes (es ++ [f])) := by rw [hashes_append]; exact hrep
    have hplaced : s.placed ++ [(f, es.length)] = (es ++ [f]).zipIdx := by
      rw [List.zipIdx_append, hp, Nat.zero_add]
      rfl
    obtain ⟨s', hs', hdb, hrep'', hp'⟩ := ih (s := { s with merkle := t, placed := s.placed ++ [(f, es.length)] }) hrep' hplaced
    rw [List.append_assoc, List.singleton_append] at hrep'' hp'
    exact ⟨s', by rw [LogState.place, ht]; exact hs', hdb, hrep'', hp'⟩

theorem exec_inv {s : LogState} {es : List LogEntry} (h : LogInv sha256 s es) {c : AppendCall} (hc : c.fails = false) :
    ∃ s' fs, c.exec sha256 s = some s' ∧ LogInv sha256 s' (es ++ fs) := by
  unfold AppendCall.exec
  split
  next hcheck =>
    have hw : c.written = true := by simpa [AppendCall.fails, hcheck] using hc
    rw [put_eq sha256 hcheck, Db.put, if_pos hw, h.count]
    obtain ⟨s', hs', hdb, hrep, hp⟩ := place_spec sha256 (entriesOf sha256 es.length c.timestampNs c.req.entries)
      (s := { s with db := ⟨s.db.store.writeBatch (entriesOf sha256 es.length c.timestampNs c.req.entries),
                            es.length + c.req.entries.length⟩ }) h.tree h.placed
    refine ⟨s', entriesOf sha256 es.length c.timestampNs c.req.entries, hs', ?_, ?_, hrep, hp⟩
    · rw [hdb]
      exact h.holds.writeBatch sha256 (numbered_entriesOf sha256 _ _ _)
    · rw [hdb, List.length_append, length_entriesOf]
  next => exact ⟨s, [], rfl, by rw [List.append_nil]; exact h⟩

theorem execAll_inv : ∀ (calls : List AppendCall) {s : LogState} {es : List LogEntry}, LogInv sha256 s es →
    (∀ c ∈ calls, c.fails = false) → ∃ s' fs, execAll sha256 s calls = some s' ∧ LogInv sha256 s' (es ++ fs) := by
  intro calls
  induction calls with
  | nil => intro s es h _; exact ⟨s, [], rfl, by rw [List.append_nil]; exact h⟩
  | cons c calls ih =>
    intro s es h hc
    obtain ⟨s1, fs, hs1, h1⟩ := exec_inv sha256 h (hc c List.mem_cons_self)
    obtain ⟨s2, gs, hs2, h2⟩ := ih h1 fun d hd => hc d (List.mem_cons_of_mem c hd)
    rw [List.append_assoc] at h2
    exact ⟨s2, fs ++ gs, by rw [execAll, hs1]; exact hs2, h2⟩

/-! ## Intact exactly without failures -/

theorem LogInv.intact {s : LogState} {es : List LogEntry} (h : LogInv sha256 s es) : Intact s where
  keys := by rw [Db.count, h.count]; exact Holds.keys sha256 h.holds
  leaves i e he := by
    rw [h.holds.getBySeq] at he
    have hnum := (h.holds.numbered i e he).1
    exact ⟨by omega, by rw [h.placed]; exact List.mk_mem_zipIdx_iff_getElem?.mpr he⟩
  placed e i hm := by
    rw [h.placed] at hm
    have hnum := (h.holds.numbered i e (List.mk_mem_zipIdx_iff_getElem?.mp hm)).1
    omega
  size := by rw [Db.count, h.count, h.tree.size, length_hashes]

theorem LogInv.provesUnder {head s : LogState} {es fs : List LogEntry} (hh : LogInv sha256 head es)
    (h : LogInv sha256 s (es ++ fs)) : ProvesUnder sha256 head s := by
  intro i hi
  rw [hh.tree.size, length_hashes] at hi ⊢
  have hle : es.length ≤ (es ++ fs).length := by rw [List.length_append]; exact Nat.le_add_right _ _
  obtain ⟨e, proof, root, he, hroot, hproof, hv⟩ := rootAt_proof sha256 h.holds.numbered hi hle
  rw [rootAt_append sha256 (Nat.le_refl _), rootAt_length] at hroot
  exact ⟨e, root, proof, by rw [h.holds.getBySeq]; exact he, by rw [hh.tree.root]; exact hroot,
    by rw [h.holds.seqRange]; exact hproof, hv⟩

/-- A failed write leaves the counter ahead of the tree. -/
theorem not_intact_of_fails {s s' : LogState} {es : List LogEntry} (h : LogInv sha256 s es) {c : AppendCall}
    (hc : c.fails = true) (hs : c.exec sha256 s = some s') : ¬ Intact s' := by
  unfold AppendCall.fails at hc
  split at hc
  next hcheck =>
    have hw : ¬ c.written = true := by simpa using hc
    rw [AppendCall.exec, hcheck] at hs
    simp only [put_eq sha256 hcheck, Db.put, if_neg hw] at hs
    cases hs
    intro hi
    have hsize : s.merkle.size = s.db.nextSeq + c.req.entries.length := hi.size
    have hpos : 0 < c.req.entries.length := List.length_pos_iff.mpr (check_true hcheck)
    rw [h.tree.size, length_hashes, h.count] at hsize
    omega
  next => cases hc

theorem not_fails_of_intact : ∀ (calls : List AppendCall) {s : LogState} {es : List LogEntry}, LogInv sha256 s es →
    (∀ n, ∃ s', execAll sha256 s (calls.take n) = some s' ∧ Intact s') → ∀ c ∈ calls, c.fails = false := by
  intro calls
  induction calls with
  | nil => intro s es _ _ c hc; cases hc
  | cons d calls ih =>
    intro s es h hall
    have hd : d.fails = false := by
      obtain ⟨s', hs', hi⟩ := hall 1
      cases hex : d.exec sha256 s with
      | none => simp [execAll, hex] at hs'
      | some s1 =>
        have heq : s1 = s' := by simpa [execAll, hex] using hs'
        rw [← Bool.not_eq_true]
        intro hf
        exact not_intact_of_fails sha256 h hf hex (by rw [heq]; exact hi)
    obtain ⟨s1, fs, hs1, h1⟩ := exec_inv sha256 h hd
    have hrest : ∀ n, ∃ s', execAll sha256 s1 (calls.take n) = some s' ∧ Intact s' := by
      intro n
      obtain ⟨s', hs', hi⟩ := hall (n + 1)
      rw [List.take_succ_cons, execAll, hs1] at hs'
      exact ⟨s', hs', hi⟩
    intro c hc
    rcases List.mem_cons.mp hc with rfl | hc
    · exact hd
    · exact ih h1 hrest c hc

theorem execAll_append (calls calls' : List AppendCall) : ∀ s : LogState, execAll sha256 s (calls ++ calls') =
    (execAll sha256 s calls).bind fun s => execAll sha256 s calls' := by
  induction calls with
  | nil => intro s; rfl
  | cons c calls ih =>
    intro s
    rw [List.cons_append, execAll, execAll]
    cases c.exec sha256 s with
    | none => rfl
    | some s1 => exact ih s1

/-- For every sequence of append and batch-append calls from an empty log: after every
    call the log's keys are `0, ..., count() - 1`, each entry's number is its leaf index,
    the tree has `count()` leaves, proofs from the log verify under every root the tree
    has had, and a rebuild of the tree CF does not panic, if and only if no call's write
    fails. -/
theorem appends_intact_iff (calls : List AppendCall) : StaysIntact sha256 calls ↔ ∀ c ∈ calls, c.fails = false := by
  constructor
  · intro h
    refine not_fails_of_intact sha256 calls (.empty sha256) fun n => ?_
    obtain ⟨s, hs, hi, -⟩ := h n
    exact ⟨s, hs, hi⟩
  · intro hc n
    have hcalls : ∀ n, ∀ c ∈ calls.take n, c.fails = false := fun n c hm => hc c (List.mem_of_mem_take hm)
    obtain ⟨s, es, hs, h⟩ := execAll_inv sha256 (calls.take n) (.empty sha256) (hcalls n)
    refine ⟨s, hs, h.intact sha256, fun m head hm hhead => ?_, h.holds.rebuildFromLog⟩
    -- the calls up to `n` continue those up to `m`
    obtain ⟨head', es', hhead', h'⟩ := execAll_inv sha256 (calls.take m) (.empty sha256) (hcalls m)
    rw [hhead, Option.some.injEq] at hhead'
    rw [← hhead'] at h'
    have hsplit : calls.take n = calls.take m ++ (calls.take n).drop m := by
      have hcut := List.take_append_drop m (calls.take n)
      rw [List.take_take, Nat.min_eq_left hm] at hcut
      exact hcut.symm
    have hlater : ∀ c ∈ (calls.take n).drop m, c.fails = false := fun c hm => hcalls n c (List.mem_of_mem_drop hm)
    obtain ⟨s', fs, hs', h''⟩ := execAll_inv sha256 ((calls.take n).drop m) h' hlater
    rw [hsplit, execAll_append, hhead, Option.bind_some, hs', Option.some.injEq] at hs
    rw [hs] at h''
    exact h'.provesUnder sha256 h''

/-- What of a state can be compared: `placed` by numbers, and whether a rebuild panics. -/
structure LogReport where
  count : Nat
  keys : List Nat
  size : Nat
  placed : List (Nat × Nat)
  panics : Bool
  deriving DecidableEq

def LogState.report (s : LogState) : LogReport :=
  ⟨s.db.count, s.db.store.log.entries.map (·.1), s.merkle.size, s.placed.map fun x => (x.1.seq, x.2),
    (rebuildFromLog sha256 s.db.store).isNone⟩

/-- A failed append, then one that succeeds: one entry, number 1 at leaf index 0, in a
    log that counts two. Its tree CF cannot be rebuilt. -/
theorem failed_append_leaves_gap : ∃ s e, execAll Sha256.sha256 .empty
      [⟨.append [1] [10], true, 5, false⟩, ⟨.append [2] [20], true, 6, true⟩] = some s ∧
    s.db.count = 2 ∧ s.db.store.log.entries.map (·.1) = [1] ∧ s.merkle.size = 1 ∧ s.placed = [(e, 0)] ∧ e.seq = 1 ∧
    ¬ Intact s ∧ rebuildFromLog Sha256.sha256 s.db.store = none := by
  have hrun : (execAll Sha256.sha256 .empty
      [⟨.append [1] [10], true, 5, false⟩, ⟨.append [2] [20], true, 6, true⟩]).map (LogState.report Sha256.sha256) =
        some ⟨2, [1], 1, [(1, 0)], true⟩ := by decide +kernel
  obtain ⟨s, hs, hr⟩ := Option.map_eq_some_iff.mp hrun
  simp only [LogState.report, LogReport.mk.injEq] at hr
  obtain ⟨hcount, hkeys, hsize, hplaced, hrebuild⟩ := hr
  obtain ⟨⟨e, i⟩, hp, he⟩ := List.map_eq_singleton_iff.mp hplaced
  obtain ⟨he, hi⟩ := Prod.mk.inj he
  have hi : i = 0 := hi
  rw [hi] at hp
  refine ⟨s, e, hs, hcount, hkeys, hsize, hp, he, fun hint => ?_, Option.isNone_iff_eq_none.mp hrebuild⟩
  have := hint.size
  omega

/-! ## Calls in the machine -/

/-- The steps of one call; `message` is the error of a failed write. -/
def AppendCall.evs (message : String) (c : AppendCall) : List Ev :=
  .append (.request c.req c.tokens) ::
    match c.req.check c.tokens with
    | .ok true => .append (.reserve c.timestampNs) ::
      if c.written then .append .write :: (List.replicate c.req.entries.length (.append .merkle) ++ [.append .unlock])
      else [.append (.writeFails message)]
    | _ => []

/-- The machine, with `append_mu` free, has the log, the index, the counter and the tree
    of `ls`. -/
structure Agrees (s : St) (p : Proc) (ls : LogState) : Prop where
  proc : s.proc = some p
  mu : p.mu = none
  log : s.store.log = ls.db.store.log ∧ s.store.index = ls.db.store.index
  nextSeq : p.nextSeq = ls.db.nextSeq
  merkle : p.merkle = ls.merkle

variable (E : Ed25519)

theorem place_run {req : AppendReq} {results : List LogEntry} : ∀ (fs : List LogEntry) {s : St} {p : Proc}
    {ls ls' : LogState}, s.proc = some p → p.mu = some (.written req results (hashes fs)) →
    LogState.place sha256 ls fs = some ls' → p.merkle = ls.merkle →
    run (step sha256 E) (fun _ _ => true) s (List.replicate fs.length (.append .merkle)) =
      some (s.withProc { p with merkle := ls'.merkle, mu := some (.written req results []) }) := by
  intro fs
  induction fs with
  | nil =>
    intro s p ls ls' hp hmu h hm
    cases h
    obtain ⟨store, keyFile, proc, hist⟩ := s
    cases hp
    rw [← hm, ← show p.mu = some (.written req results []) from hmu]
    rfl
  | cons f fs ih =>
    intro s p ls ls' hp hmu h hm
    unfold LogState.place at h
    split at h
    next => cases h
    next i merkle happ =>
      have hstep : step sha256 E s (.append .merkle) =
          some (s.withProc { p with merkle := merkle, mu := some (.written req results (hashes fs)) }) := by
        simp only [step, hp, Option.bind_some, stepAppend, hmu, hashes, List.map_cons, hm, happ]
        rfl
      rw [List.length_cons, List.replicate_succ, run_cons rfl hstep]
      exact ih (p := { p with merkle := merkle, mu := some (.written req results (hashes fs)) }) rfl rfl h rfl

theorem writeBatch_congr (fs : List LogEntry) : ∀ {s s' : Store}, s.log = s'.log ∧ s.index = s'.index →
    (s.writeBatch fs).log = (s'.writeBatch fs).log ∧ (s.writeBatch fs).index = (s'.writeBatch fs).index := by
  induction fs with
  | nil => intro s s' h; exact h
  | cons f fs ih =>
    intro s s' h
    have hput : (s.putEntry f).log = (s'.putEntry f).log ∧ (s.putEntry f).index = (s'.putEntry f).index := by
      rw [Store.putEntry, Store.putEntry, h.1, h.2]
      exact ⟨rfl, rfl⟩
    exact ih hput

theorem place_db : ∀ (fs : List LogEntry) {ls ls' : LogState}, LogState.place sha256 ls fs = some ls' → ls'.db = ls.db := by
  intro fs
  induction fs with
  | nil => intro ls ls' h; cases h; rfl
  | cons f fs ih =>
    intro ls ls' h
    unfold LogState.place at h
    split at h
    next => cases h
    next =>
      have hdb := ih h
      exact hdb

/-- A request that does not come to its write only gets its answer. -/
theorem refused_run {s : St} {p : Proc} (hp : s.proc = some p) {req : AppendReq} {tokens : Bool}
    (hcheck : req.check tokens ≠ .ok true) :
    ∃ result, step sha256 E s (.append (.request req tokens)) = some (s.reply req result) := by
  cases hc : req.check tokens with
  | error err =>
    refine ⟨.error err, ?_⟩
    simp only [step, hp, Option.bind_some, stepAppend, hc]
    rw [← hp]
    rfl
  | ok go =>
    cases go with
    | true => exact absurd hc hcheck
    | false =>
      refine ⟨.ok [], ?_⟩
      simp only [step, hp, Option.bind_some, stepAppend, hc]
      rw [← hp]
      rfl

/-- The process after it has locked and reserved. -/
def Proc.reserve (p : Proc) (c : AppendCall) : Proc :=
  { p with nextSeq := p.nextSeq + c.req.entries.length, mu := some (.reserved c.req p.nextSeq c.timestampNs) }

theorem reserve_run {s : St} {p : Proc} (hp : s.proc = some p) (hmu : p.mu = none) {c : AppendCall}
    (hcheck : c.req.check c.tokens = .ok true) (hfit : p.nextSeq + c.req.entries.length ≤ u64Max) (es : List Ev) :
    run (step sha256 E) (fun _ _ => true) s (.append (.request c.req c.tokens) :: .append (.reserve c.timestampNs) :: es) =
      run (step sha256 E) (fun _ _ => true) (s.withProc (p.reserve c)) es := by
  let p1 : Proc := { p with mu := some (.locked c.req) }
  have hlock : step sha256 E s (.append (.request c.req c.tokens)) = some (s.withProc p1) := by
    simp only [step, hp, Option.bind_some, stepAppend, hcheck, hmu]
    rfl
  have hreserve : step sha256 E (s.withProc p1) (.append (.reserve c.timestampNs)) = some (s.withProc (p.reserve c)) := by
    simp only [step, St.withProc, Option.bind_some, stepAppend, p1, hfit, if_true]
    rfl
  rw [run_cons rfl hlock, run_cons rfl hreserve]

/-- Write, append the leaves, unlock. -/
theorem write_run {s : St} {p : Proc} {ls ls' : LogState} {c : AppendCall}
    (hplace : LogState.place sha256 ls (entriesOf sha256 p.nextSeq c.timestampNs c.req.entries) = some ls')
    (hm : p.merkle = ls.merkle) :
    ∃ s' p', run (step sha256 E) (fun _ _ => true) (s.withProc (p.reserve c))
        (.append .write :: (List.replicate c.req.entries.length (.append .merkle) ++ [.append .unlock])) = some s' ∧
      s'.proc = some p' ∧ p'.mu = none ∧
      s'.store = s.store.writeBatch (entriesOf sha256 p.nextSeq c.timestampNs c.req.entries) ∧
      p'.nextSeq = p.nextSeq + c.req.entries.length ∧ p'.merkle = ls'.merkle := by
  generalize hres : entriesOf sha256 p.nextSeq c.timestampNs c.req.entries = results at hplace ⊢
  let p3 : Proc := { p.reserve c with mu := some (.written c.req results (hashes results)) }
  let s3 : St := { s with store := s.store.writeBatch results, proc := some p3 }
  have hwrite : step sha256 E (s.withProc (p.reserve c)) (.append .write) = some s3 := by
    subst hres
    rfl
  have hlen : c.req.entries.length = results.length := by rw [← hres, length_entriesOf]
  have hleaves := place_run sha256 E results (s := s3) (p := p3) rfl rfl hplace hm
  let p4 : Proc := { p3 with merkle := ls'.merkle, mu := none, writers := p.writers ++ [⟨c.req, results, results⟩] }
  refine ⟨s3.withProc p4, p4, ?_, rfl, rfl, rfl, rfl, rfl⟩
  rw [run_cons rfl hwrite, hlen, run_append hleaves]
  rfl

/-- One call, step by step, does what `exec` does. -/
theorem exec_run {s : St} {p : Proc} {ls ls' : LogState} (h : Agrees s p ls) (message : String) {c : AppendCall}
    (hfit : ls.db.nextSeq + c.req.entries.length ≤ u64Max) (hex : c.exec sha256 ls = some ls') :
    ∃ s' p', run (step sha256 E) (fun _ _ => true) s (c.evs message) = some s' ∧ Agrees s' p' ls' := by
  obtain ⟨hp, hmu, hlog, hn, hm⟩ := h
  rw [← hn] at hfit
  unfold AppendCall.exec at hex
  unfold AppendCall.evs
  split at hex
  next hcheck =>
    rw [reserve_run sha256 E hp hmu hcheck hfit]
    rw [put_eq sha256 hcheck, Db.put, ← hn] at hex
    cases hw : c.written with
    | false =>
      rw [if_neg (by rw [hw]; exact Bool.false_ne_true)] at hex
      cases hex
      exact ⟨(s.withProc { p.reserve c with mu := none }).reply c.req (.error ⟨.internal, message⟩),
        { p.reserve c with mu := none }, rfl, rfl, rfl, hlog, rfl, hm⟩
    | true =>
      rw [if_pos hw] at hex
      have hplace : LogState.place sha256 { ls with db := ⟨ls.db.store.writeBatch
        (entriesOf sha256 p.nextSeq c.timestampNs c.req.entries), p.nextSeq + c.req.entries.length⟩ }
        (entriesOf sha256 p.nextSeq c.timestampNs c.req.entries) = some ls' := hex
      have hdb := place_db sha256 _ hplace
      obtain ⟨s', p', hrun, hp', hmu', hstore', hn', hm'⟩ := write_run sha256 E (s := s) hplace hm
      refine ⟨s', p', hrun, hp', hmu', ?_, ?_, hm'⟩
      · rw [hstore', hdb]
        exact writeBatch_congr _ hlog
      · rw [hn', hdb]
  next hcheck =>
    cases hex
    obtain ⟨result, hstep⟩ := refused_run sha256 E hp hcheck
    refine ⟨s.reply c.req result, p, ?_, hp, hmu, hlog, hn, hm⟩
    rw [run_cons rfl hstep]
    rfl

theorem exec_nextSeq {ls ls' : LogState} {c : AppendCall} (hex : c.exec sha256 ls = some ls') :
    ls'.db.nextSeq ≤ ls.db.nextSeq + c.req.entries.length := by
  unfold AppendCall.exec at hex
  split at hex
  next hcheck =>
    rw [put_eq sha256 hcheck, Db.put] at hex
    by_cases hw : c.written = true
    · rw [if_pos hw] at hex
      rw [place_db sha256 _ hex]
    · rw [if_neg hw] at hex
      cases hex
      exact Nat.le_refl _
  next =>
    cases hex
    exact Nat.le_add_right _ _

/-- The calls, one after another, step by step. -/
theorem execAll_run (message : String) : ∀ (calls : List AppendCall) {s : St} {p : Proc} {ls ls' : LogState}, Agrees s p ls →
    ls.db.nextSeq + (calls.map fun c => c.req.entries.length).sum ≤ u64Max → execAll sha256 ls calls = some ls' →
    ∃ s' p', run (step sha256 E) (fun _ _ => true) s (calls.flatMap (·.evs message)) = some s' ∧ Agrees s' p' ls' := by
  intro calls
  induction calls with
  | nil => intro s p ls ls' h _ hex; cases hex; exact ⟨s, p, rfl, h⟩
  | cons c calls ih =>
    intro s p ls ls' h hfit hex
    rw [List.map_cons, List.sum_cons] at hfit
    unfold execAll at hex
    split at hex
    next => cases hex
    next ls1 hex1 =>
      obtain ⟨s1, p1, hrun1, h1⟩ := exec_run sha256 E h message (by omega) hex1
      have hn := exec_nextSeq sha256 hex1
      obtain ⟨s2, p2, hrun2, h2⟩ := ih h1 (by omega) hex
      exact ⟨s2, p2, by rw [List.flatMap_cons, run_append hrun1]; exact hrun2, h2⟩

/-- A server started on an empty disk comes, call by call, to what `execAll` says. -/
theorem execAll_reach (newKey : Hash) (message : String) {calls : List AppendCall} {ls : LogState}
    (hfit : (calls.map fun c => c.req.entries.length).sum ≤ u64Max) (hex : execAll sha256 .empty calls = some ls) :
    ∃ s p, run (step sha256 E) (fun _ _ => true) .init (.restart newKey true :: calls.flatMap (·.evs message)) = some s ∧
      Agrees s p ls := by
  obtain ⟨s0, p0, hs0, h0⟩ : ∃ s p, step sha256 E .init (.restart newKey true) = some s ∧ Agrees s p .empty :=
    ⟨_, ⟨0, .new, none, [], [], ⟨newKey, 1⟩, [], [], []⟩, rfl, rfl, rfl, ⟨rfl, rfl⟩, rfl, rfl⟩
  have hfit0 : LogState.empty.db.nextSeq + (calls.map fun c => c.req.entries.length).sum ≤ u64Max := by
    show 0 + _ ≤ _
    rw [Nat.zero_add]
    exact hfit
  obtain ⟨s, p, hrun, h⟩ := execAll_run sha256 E message calls h0 hfit0 hex
  exact ⟨s, p, by rw [run_cons rfl hs0]; exact hrun, h⟩

end Settled.Server
