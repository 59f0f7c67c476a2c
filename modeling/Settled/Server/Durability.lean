/-
  Settled.Server.Durability — machine crashes.

  All column families share one write-ahead log, and no write of the server is followed
  by a sync (`db.write`, `put_cf` with default options), so a crash of the machine may
  lose any number of its last writes; after it the store is the replay of the rest. The
  machine here is the server with the log of its writes (`issued`) beside it, the heads
  it has handed out, and such crashes.

  A crash can lose an entry that was acknowledged, and a head that was handed out with
  the entries under it; the next append then takes its number, and the next head its
  size with another root (`equivocation`).

  - Every prefix of the write-ahead log is the log of a server of its own: entries in
    order, and each head the root of entries written before it (`Wal`).
  - `no_equivocation`: if a crash keeps the entries acknowledged so far, and as many as
    the largest head handed out has, all heads of one size ever handed out have one root,
    and every acknowledged entry is stored. Writes that fail may leave gaps in the
    numbers; they do not matter here.
-/

import Settled.Server.ProofRequests

namespace Settled.Server

open Settled.Lib Settled.Core Settled.Storage

variable (sha256 : Bytes → Hash) (E : Ed25519)

/-! ## The write-ahead log -/

inductive Write where
  | batch (entries : List LogEntry)
  | head (sth : SignedTreeHead)
  | key (r : KeyRecord)
  deriving DecidableEq

def Write.apply (s : Store) : Write → Store
  | batch entries => s.writeBatch entries
  | head sth => s.writeHead sth
  | key r => s.putKey r

/-- Recovery: the writes that are left, in order. -/
def replay (wal : List Write) : Store := wal.foldl Write.apply .empty

theorem replay_append (wal : List Write) (w : Write) : replay (wal ++ [w]) = w.apply (replay wal) := by
  rw [replay, List.foldl_append, List.foldl_cons, List.foldl_nil]
  rfl

/-- The entries a write adds to the log. -/
def Write.entries : Write → List LogEntry
  | batch entries => entries
  | head _ => []
  | key _ => []

def logOf (wal : List Write) : List LogEntry := wal.flatMap Write.entries

theorem logOf_append (wal : List Write) (w : Write) : logOf (wal ++ [w]) = logOf wal ++ w.entries := by
  simp [logOf]

/-- The write of this step, if it makes one. -/
def issued (s : St) : Ev → Option Write
  | .append .write =>
    match s.proc with
    | none => none
    | some p =>
      match p.mu with
      | some (.reserved req first timestampNs) => some (.batch (entriesOf sha256 first timestampNs req.entries))
      | _ => none
  | .sign (.next i _) =>
    match s.proc with
    | none => none
    | some p =>
      match p.signs[i]? with
      | some (.assembled d publicKey keyVersion) => some (.head (d.head publicKey keyVersion))
      | _ => none
  | .rotate (.next i _) =>
    match s.proc with
    | none => none
    | some p =>
      match p.rotations[i]? with
      | some (.swapped activatedAt version key) => some (.key ⟨version, E.publicKey key, activatedAt⟩)
      | _ => none
  | .restart newKey true =>
    match s.store.latestKey with
    | none => some (.key ⟨1, E.publicKey (s.keyFile.getD newKey), 0⟩)
    | some _ => none
  | _ => none

/-! ## Machine crashes -/

/-- `get_sth` (`service.rs`). -/
def getSth (s : Store) (treeSize : Nat) : Except Status SignedTreeHead :=
  if treeSize = 0 then
    match s.latestHead with
    | none => .error ⟨.notFound, "no STH available yet"⟩
    | some sth => .ok sth
  else
    match s.headAtSize treeSize with
    | none => .error ⟨.notFound, s!"no STH at tree_size {treeSize}"⟩
    | some sth => .ok sth

/-- A server on a machine: `shown` is what `get_sth` has answered. -/
structure Machine where
  st : St
  wal : List Write
  shown : List SignedTreeHead

inductive MachineEv where
  | server (e : Ev)
  | getSth (treeSize : Nat)
  /-- The machine stops; the first `kept` writes are left. -/
  | machineCrash (kept : Nat)
  deriving DecidableEq

def stepMachine (m : Machine) : MachineEv → Option Machine
  | .server e =>
    (step sha256 E m.st e).map fun st => { m with st := st, wal := m.wal ++ (issued sha256 E m.st e).toList }
  | .getSth treeSize =>
    match m.st.proc, getSth m.st.store treeSize with
    | none, _ => none
    | some _, .error _ => some m
    | some _, .ok sth => some { m with shown := m.shown ++ [sth] }
  | .machineCrash kept =>
    some { m with st := { m.st with store := replay (m.wal.take kept), proc := none }, wal := m.wal.take kept }

def Machine.init : Machine := ⟨.init, [], []⟩

/-- The heads in an answer to a proof request. -/
def ProofReply.heads (r : ProofReply) : List SignedTreeHead :=
  match r.result with
  | .error _ => []
  | .ok (.inclusion _ _ _ sth) => [sth]
  | .ok (.consistency _ _ _ oldSth newSth) => [oldSth, newSth]

/-- Every head ever returned to a client. -/
def Machine.returned (m : Machine) : List SignedTreeHead := m.shown ++ m.st.hist.proofs.flatMap ProofReply.heads

/-- The numbers acknowledged so far. -/
def Machine.acked (m : Machine) : List Nat :=
  m.st.hist.replies.flatMap fun r =>
    match r.2 with
    | .error _ => []
    | .ok resps => resps.map (·.seq)

/-- A machine crash leaves every acknowledged entry, and as many entries as every head
    returned has. -/
def crashKeeps (m : Machine) : MachineEv → Bool
  | .machineCrash kept =>
    (m.acked.all fun seq => (logOf (m.wal.take kept)).any fun e => e.seq = seq) &&
      m.returned.all fun sth => sth.treeSize ≤ (logOf (m.wal.take kept)).length
  | _ => true

/-! ## Prefixes of the write-ahead log -/

/-- The writes of a server whose log is `es`, one after the other. -/
inductive Wal : List Write → List LogEntry → Prop
  | nil : Wal [] []
  | batch {wal : List Write} {es fs : List LogEntry} {first : Nat} : Wal wal es → (∀ e ∈ es, e.seq < first) →
      Numbered sha256 first fs → first + fs.length ≤ u64Max → Wal (wal ++ [.batch fs]) (es ++ fs)
  | head {wal : List Write} {es : List LogEntry} {sth : SignedTreeHead} : Wal wal es → HeadOk sha256 es sth.treeSize sth →
      Wal (wal ++ [.head sth]) es
  | key {wal : List Write} {es : List LogEntry} {r : KeyRecord} : Wal wal es → Wal (wal ++ [.key r]) es

section

variable {sha256} {wal : List Write} {es : List LogEntry}

theorem Wal.logOf (h : Wal sha256 wal es) : logOf wal = es := by
  induction h with
  | nil => rfl
  | batch _ _ _ _ ih => rw [logOf_append, ih]; rfl
  | head _ _ ih => rw [logOf_append, ih]; exact List.append_nil _
  | key _ ih => rw [logOf_append, ih]; exact List.append_nil _

theorem Wal.logged (h : Wal sha256 wal es) : Logged (replay wal) es := by
  induction h with
  | nil => exact .empty
  | batch _ habove hnum hbound ih => rw [replay_append]; exact ih.writeBatch sha256 habove hnum hbound
  | head _ _ ih => rw [replay_append]; exact ⟨ih.log, ih.bound⟩
  | key _ ih => rw [replay_append]; exact ⟨ih.log, ih.bound⟩

theorem Wal.heads (h : Wal sha256 wal es) : ∀ t sth, (replay wal).heads.get? t = some sth → HeadOk sha256 es t sth := by
  induction h with
  | nil => intro t sth hsth; cases hsth
  | @batch wal es fs first _ _ _ _ ih =>
    intro t sth hsth
    rw [replay_append] at hsth
    have hframe : (Write.apply (replay wal) (.batch fs)).heads = (replay wal).heads := (writeBatch_frame fs _).1
    rw [hframe] at hsth
    exact (ih t sth hsth).append sha256
  | @head wal es sth' _ hok ih =>
    intro t sth hsth
    rw [replay_append] at hsth
    have hput : ((replay wal).heads.put sth'.treeSize sth').get? t = some sth := hsth
    rw [OrdMap.get?_put] at hput
    split at hput
    next heq => cases hput; rw [heq]; exact hok
    next => exact ih t sth hput
  | key _ ih =>
    intro t sth hsth
    rw [replay_append] at hsth
    exact ih t sth hsth

theorem take_concat {α : Type} (l : List α) (x : α) (n : Nat) : (l ++ [x]).take n = l.take n ∨ (l ++ [x]).take n = l ++ [x] := by
  by_cases h : n ≤ l.length
  · exact Or.inl (List.take_append_of_le_length h)
  · exact Or.inr (List.take_of_length_le (by rw [List.length_append, List.length_singleton]; omega))

/-- What is left of a log is the log of a server, of fewer entries. -/
theorem Wal.take (h : Wal sha256 wal es) (kept : Nat) : ∃ es' rest, Wal sha256 (wal.take kept) es' ∧ es = es' ++ rest := by
  have all : ∀ {wal es}, Wal sha256 wal es → ∃ es' rest, Wal sha256 wal es' ∧ es = es' ++ rest :=
    fun h => ⟨_, [], h, (List.append_nil _).symm⟩
  induction h with
  | nil => rw [List.take_nil]; exact all .nil
  | @batch wal es fs first hwal habove hnum hbound ih =>
    rcases take_concat wal (.batch fs) kept with htake | htake <;> rw [htake]
    · obtain ⟨es', rest, hes', rfl⟩ := ih
      exact ⟨es', rest ++ fs, hes', List.append_assoc _ _ _⟩
    · exact all (hwal.batch habove hnum hbound)
  | @head wal es sth hwal hok ih =>
    rcases take_concat wal (.head sth) kept with htake | htake <;> rw [htake]
    · exact ih
    · exact all (hwal.head hok)
  | @key wal es r hwal ih =>
    rcases take_concat wal (.key r) kept with htake | htake <;> rw [htake]
    · exact ih
    · exact all hwal.key

end

/-! ## The invariant -/

/-- `fs` are the entries of one request, and `es` has them. -/
def Written (es : List LogEntry) (req : AppendReq) (fs : List LogEntry) : Prop :=
  (∃ first ts, fs = entriesOf sha256 first ts req.entries) ∧ ∀ e ∈ fs, e ∈ es

/-- The counter and the tree, by where the critical section is; numbers may be missing. -/
def CritWal (es : List LogEntry) (nextSeq : Nat) (merkle : MerkleTree Hash) : Option Crit → Prop
  | none => (∀ e ∈ es, e.seq < nextSeq) ∧ merkle.Rep (.sha sha256) (hashes es)
  | some (.locked _) => (∀ e ∈ es, e.seq < nextSeq) ∧ merkle.Rep (.sha sha256) (hashes es)
  | some (.reserved req first _) =>
    (∀ e ∈ es, e.seq < first) ∧ nextSeq = first + req.entries.length ∧ nextSeq ≤ u64Max ∧ merkle.Rep (.sha sha256) (hashes es)
  | some (.written req results left) =>
    (∀ e ∈ es, e.seq < nextSeq) ∧ Written sha256 es req results ∧
      ∃ L, hashes es = L ++ left ∧ merkle.Rep (.sha sha256) L

/-- The head a proof request has read so far. -/
def ProofTask.heads (t : ProofTask) : List SignedTreeHead :=
  match t.phase with
  | .oldHead _ oldSth => [oldSth]
  | _ => []

structure ProcWal (es : List LogEntry) (p : Proc) : Prop where
  crit : CritWal sha256 es p.nextSeq p.merkle p.mu
  writers : ∀ w ∈ p.writers, Written sha256 es w.req w.results
  signs : ∀ t ∈ p.signs, SnapOk sha256 es t.snap
  proofs : ∀ t ∈ p.proofs, ∀ sth ∈ t.heads, HeadOk sha256 es sth.treeSize sth

structure Durable (m : Machine) (es : List LogEntry) : Prop where
  wal : Wal sha256 m.wal es
  store : m.st.store = replay m.wal
  replies : ∀ req resps, (req, Except.ok resps) ∈ m.st.hist.replies →
    ∃ fs, Written sha256 es req fs ∧ resps = fs.map AppendResponse.of
  shown : ∀ sth ∈ m.shown, HeadOk sha256 es sth.treeSize sth
  proofs : ∀ r ∈ m.st.hist.proofs, ∀ sth ∈ r.heads, HeadOk sha256 es sth.treeSize sth
  proc : ∀ p, m.st.proc = some p → ProcWal sha256 es p

theorem Durable.init : Durable sha256 .init [] where
  wal := .nil
  store := rfl
  replies req resps h := by cases h
  shown sth h := by cases h
  proofs r h := by cases h
  proc p h := by cases h

section

variable {sha256} {es : List LogEntry}

theorem Written.append {req : AppendReq} {fs : List LogEntry} (h : Written sha256 es req fs) (gs : List LogEntry) :
    Written sha256 (es ++ gs) req fs := ⟨h.1, fun e he => List.mem_append_left _ (h.2 e he)⟩

theorem Durable.heads {m : Machine} (h : Durable sha256 m es) {t : Nat} {sth : SignedTreeHead}
    (hsth : m.st.store.headAtSize t = some sth) : HeadOk sha256 es t sth := by
  rw [h.store] at hsth
  exact h.wal.heads t sth hsth

/-- A step that writes nothing. -/
theorem Durable.keep {m : Machine} (h : Durable sha256 m es) {s' : St} (hstore : s'.store = m.st.store)
    (hreplies : ∀ req resps, (req, Except.ok resps) ∈ s'.hist.replies → (req, Except.ok resps) ∈ m.st.hist.replies ∨
      ∃ fs, Written sha256 es req fs ∧ resps = fs.map AppendResponse.of)
    (hproofs : ∀ r ∈ s'.hist.proofs, r ∈ m.st.hist.proofs ∨ ∀ sth ∈ r.heads, HeadOk sha256 es sth.treeSize sth)
    (hproc : ∀ p', s'.proc = some p' → ProcWal sha256 es p') : Durable sha256 ⟨s', m.wal, m.shown⟩ es where
  wal := h.wal
  store := hstore.trans h.store
  replies req resps hr := (hreplies req resps hr).elim (h.replies req resps) id
  shown := h.shown
  proofs r hr := (hproofs r hr).elim (h.proofs r) id
  proc := hproc

theorem Durable.unwritten {s' : St} {wal : List Write} {shown : List SignedTreeHead} {w : Option Write} (hnone : w = none)
    (h : Durable sha256 ⟨s', wal, shown⟩ es) : Durable sha256 ⟨s', wal ++ w.toList, shown⟩ es := by
  rw [hnone, Option.toList_none, List.append_nil]
  exact h

/-- A batch is written. -/
theorem Durable.batch {m : Machine} (h : Durable sha256 m es) {first : Nat} {fs : List LogEntry}
    (habove : ∀ e ∈ es, e.seq < first) (hnum : Numbered sha256 first fs) (hle : first + fs.length ≤ u64Max) {s' : St}
    (hstore : s'.store = m.st.store.writeBatch fs) (hhist : s'.hist = m.st.hist)
    (hproc : ∀ p', s'.proc = some p' → ProcWal sha256 (es ++ fs) p') :
    Durable sha256 ⟨s', m.wal ++ [.batch fs], m.shown⟩ (es ++ fs) where
  wal := h.wal.batch habove hnum hle
  store := by
    show s'.store = replay (m.wal ++ [_])
    rw [replay_append, ← h.store, hstore]
    rfl
  replies req resps hr := by
    rw [hhist] at hr
    obtain ⟨gs, hgs, heq⟩ := h.replies req resps hr
    exact ⟨gs, hgs.append _, heq⟩
  shown sth hsth := (h.shown sth hsth).append sha256
  proofs r hr sth hsth := by
    rw [hhist] at hr
    exact (h.proofs r hr sth hsth).append sha256
  proc := hproc

/-- A batch that starts above the log ends below the next number. -/
theorem seq_lt_append {first : Nat} {fs : List LogEntry} (habove : ∀ e ∈ es, e.seq < first)
    (hnum : Numbered sha256 first fs) : ∀ e ∈ es ++ fs, e.seq < first + fs.length := by
  intro e he
  rcases List.mem_append.mp he with he | he
  · have := habove e he
    omega
  · obtain ⟨i, hi, rfl⟩ := List.getElem_of_mem he
    have := (hnum i _ (List.getElem?_eq_getElem hi)).1
    omega

/-- A step of the process alone. -/
theorem Durable.withProc {m : Machine} (h : Durable sha256 m es) {p' : Proc} (hp' : ProcWal sha256 es p') :
    Durable sha256 ⟨m.st.withProc p', m.wal, m.shown⟩ es :=
  h.keep rfl (fun _ _ => Or.inl) (fun _ => Or.inl) fun q hq => by cases hq; exact hp'

end

/-! ## Steps -/

theorem AppendStep.durable {m : Machine} {es : List LogEntry} {s' : St} {p : Proc} (h : Durable sha256 m es)
    (hp : m.st.proc = some p) {e : AppendEv} (hs : AppendStep sha256 m.st p e s') :
    ∃ fs, Durable sha256 ⟨s', m.wal ++ (issued sha256 E m.st (.append e)).toList, m.shown⟩ (es ++ fs) := by
  obtain ⟨hcrit, hwriters, hsigns, hproofs⟩ := h.proc p hp
  have same : Durable sha256 ⟨s', m.wal, m.shown⟩ es → ∃ fs, Durable sha256 ⟨s', m.wal ++ [], m.shown⟩ (es ++ fs) :=
    fun h => ⟨[], by rw [List.append_nil, List.append_nil]; exact h⟩
  cases hs with
  | refused ha =>
    refine same (h.keep rfl (fun req' resps hr => ?_) (fun _ => Or.inl) h.proc)
    rcases mem_replies_append hr with hr | ⟨-, hr'⟩
    · exact Or.inl hr
    · cases hr'
  | emptyBatch ha =>
    refine same (h.keep rfl (fun req' resps hr => ?_) (fun _ => Or.inl) h.proc)
    rcases mem_replies_append hr with hr | ⟨rfl, hr'⟩
    · exact Or.inl hr
    · cases hr'
      exact Or.inr ⟨[], ⟨⟨0, 0, by rw [check_false ha]; rfl⟩, fun e he => absurd he List.not_mem_nil⟩, rfl⟩
  | locked ha hmu =>
    rw [hmu] at hcrit
    exact same (h.withProc ⟨hcrit, hwriters, hsigns, hproofs⟩)
  | reserved hmu hle =>
    rw [hmu] at hcrit
    exact same (h.withProc ⟨⟨hcrit.1, rfl, hle, hcrit.2⟩, hwriters, hsigns, hproofs⟩)
  | @written req first ts results hmu hres =>
    rw [hmu] at hcrit
    obtain ⟨habove, hn, hle, hrep⟩ := hcrit
    subst hres
    have hlen := length_entriesOf sha256 req.entries first ts
    have hnum := numbered_entriesOf sha256 req.entries first ts
    have hissued : issued sha256 E m.st (.append .write) = some (.batch (entriesOf sha256 first ts req.entries)) := by
      simp only [issued, hp, hmu]
    rw [hissued]
    refine ⟨entriesOf sha256 first ts req.entries,
      h.batch habove hnum (by rw [hlen, ← hn]; exact hle) rfl rfl fun q hq => ?_⟩
    cases hq
    have hbelow : ∀ e ∈ es ++ entriesOf sha256 first ts req.entries, e.seq < p.nextSeq := by
      rw [hn, ← hlen]
      exact seq_lt_append habove hnum
    exact ⟨⟨hbelow, ⟨⟨first, ts, rfl⟩, fun e he => List.mem_append_right _ he⟩, hashes es, hashes_append _ _, hrep⟩,
      fun w hw => (hwriters w hw).append _, fun t ht => (hsigns t ht).append sha256,
      fun t ht sth hsth => (hproofs t ht sth hsth).append sha256⟩
  | failed hmu =>
    rw [hmu] at hcrit
    obtain ⟨habove, hn, -, hrep⟩ := hcrit
    have hcrit' : CritWal sha256 es p.nextSeq p.merkle none := by
      refine ⟨fun e he => ?_, hrep⟩
      have := habove e he
      omega
    refine same (h.keep rfl (fun req' resps hr => ?_) (fun _ => Or.inl) fun q hq => ?_)
    · rcases mem_replies_append hr with hr | ⟨-, hr'⟩
      · exact Or.inl hr
      · cases hr'
    · cases hq
      exact ⟨hcrit', hwriters, hsigns, hproofs⟩
  | @leaf req results lh left i merkle hmu happ =>
    rw [hmu] at hcrit
    obtain ⟨hn, hst, L, hL, hrep⟩ := hcrit
    obtain ⟨t, ht, hrep'⟩ := hrep.append lh
    rw [happ] at ht
    cases ht
    refine same (h.withProc ⟨⟨hn, hst, L ++ [lh], ?_, hrep'⟩, hwriters, hsigns, hproofs⟩)
    rw [hL, List.append_assoc, List.singleton_append]
  | unlocked hmu =>
    rw [hmu] at hcrit
    obtain ⟨hn, hst, L, hL, hrep⟩ := hcrit
    rw [List.append_nil] at hL
    refine same (h.withProc ⟨⟨hn, by rw [hL]; exact hrep⟩, fun w hw => ?_, hsigns, hproofs⟩)
    rcases List.mem_append.mp hw with hw | hw
    · exact hwriters w hw
    · rw [List.mem_singleton.mp hw]
      exact hst
  | sent hw =>
    have hst := hwriters _ (List.mem_of_getElem? hw)
    refine same (h.withProc ⟨hcrit, fun w hw' => ?_, hsigns, hproofs⟩)
    rcases List.mem_or_eq_of_mem_set hw' with hw' | rfl
    · exact hwriters w hw'
    · exact hst
  | @replied i req results hw =>
    have hst := hwriters _ (List.mem_of_getElem? hw)
    refine same (h.keep rfl (fun req' resps hr => ?_) (fun _ => Or.inl) fun q hq => ?_)
    · rcases mem_replies_append hr with hr | ⟨rfl, hr'⟩
      · exact Or.inl hr
      · cases hr'
        exact Or.inr ⟨results, hst, rfl⟩
    · cases hq
      exact ⟨hcrit, fun w hw' => hwriters w (List.mem_of_mem_eraseIdx hw'), hsigns, hproofs⟩

/-- With the lock free, what the tree says is the root of the log. -/
theorem snapOk_now {es : List LogEntry} {p : Proc} (h : ProcWal sha256 es p) (hmu : p.mu = none) :
    SnapOk sha256 es (p.merkle.size, p.merkle.root (.sha sha256)) := by
  have hcrit := h.crit
  rw [hmu] at hcrit
  have hsize : p.merkle.size = es.length := by rw [hcrit.2.size, length_hashes]
  refine ⟨Nat.le_of_eq hsize, ?_⟩
  show rootAt sha256 es p.merkle.size = p.merkle.root (.sha sha256)
  rw [hsize, rootAt_length, hcrit.2.root]

/-- Only an assembled head is written. -/
theorem issued_sign_none {s : St} {p : Proc} (hp : s.proc = some p) {i : Nat} {now : Int}
    (h : ∀ d publicKey keyVersion, p.signs[i]? ≠ some (.assembled d publicKey keyVersion)) :
    issued sha256 E s (.sign (.next i now)) = none := by
  simp only [issued, hp]

theorem stepSign_durable {m : Machine} {es : List LogEntry} {s' : St} {p : Proc} (h : Durable sha256 m es)
    (hp : m.st.proc = some p) {e : SignEv} (hs : stepSign sha256 E m.st p e = some s') :
    Durable sha256 ⟨s', m.wal ++ (issued sha256 E m.st (.sign e)).toList, m.shown⟩ es := by
  obtain ⟨hcrit, hwriters, hsigns, hproofs⟩ := h.proc p hp
  have herase : ∀ i, ProcWal sha256 es { p with signs := p.signs.eraseIdx i } :=
    fun i => ⟨hcrit, hwriters, fun t ht => hsigns t (List.mem_of_mem_eraseIdx ht), hproofs⟩
  by_cases hasm : ∃ i now d publicKey keyVersion, e = .next i now ∧ p.signs[i]? = some (.assembled d publicKey keyVersion)
  · obtain ⟨i, now, d, publicKey, keyVersion, rfl, ht⟩ := hasm
    have hissued : issued sha256 E m.st (.sign (.next i now)) = some (.head (d.head publicKey keyVersion)) := by
      simp only [issued, hp, ht]
    simp only [stepSign, ht] at hs
    cases hs
    obtain ⟨h1, h2⟩ := hsigns _ (List.mem_of_getElem? ht)
    rw [hissued]
    refine ⟨h.wal.head ⟨rfl, h1, h2⟩, ?_, h.replies, h.shown, h.proofs, fun q hq => by cases hq; exact herase i⟩
    show m.st.store.writeHead _ = replay (m.wal ++ [_])
    rw [replay_append, ← h.store]
    rfl
  · have hnone : issued sha256 E m.st (.sign e) = none := by
      cases e with
      | snapshot | writeFails => rfl
      | next i now =>
        exact issued_sign_none sha256 E hp fun d publicKey keyVersion ht => hasm ⟨i, now, d, publicKey, keyVersion, rfl, ht⟩
    refine Durable.unwritten hnone ?_
    cases stepSign_step sha256 E hs with
    | snapped hmu =>
      refine h.withProc ⟨hcrit, hwriters, fun t ht => ?_, hproofs⟩
      rcases List.mem_append.mp ht with ht | ht
      · exact hsigns t ht
      · rw [List.mem_singleton.mp ht]
        exact snapOk_now sha256 (h.proc p hp) hmu
    | wrote ht => exact absurd ⟨_, _, _, _, _, rfl, ht⟩ hasm
    | skipped | failed => exact h.withProc (herase _)
    | @moved i now t t' ht hn =>
      refine h.withProc ⟨hcrit, hwriters, fun u hu => ?_, hproofs⟩
      rcases List.mem_or_eq_of_mem_set hu with hu | rfl
      · exact hsigns u hu
      · rw [SignTask.next_snap E hn]
        exact hsigns t (List.mem_of_getElem? ht)

theorem RotateStep.durable {m : Machine} {es : List LogEntry} {s' : St} {p : Proc} (h : Durable sha256 m es)
    (hp : m.st.proc = some p) {e : RotateEv} (hs : RotateStep E m.st p e s') :
    Durable sha256 ⟨s', m.wal ++ (issued sha256 E m.st (.rotate e)).toList, m.shown⟩ es := by
  obtain ⟨hcrit, hwriters, hsigns, hproofs⟩ := h.proc p hp
  cases hs with
  | sized | failed => exact .unwritten rfl (h.withProc ⟨hcrit, hwriters, hsigns, hproofs⟩)
  | numbered ht | swapped ht =>
    exact .unwritten (by simp only [issued, hp, ht]) (h.withProc ⟨hcrit, hwriters, hsigns, hproofs⟩)
  | filed ht =>
    refine .unwritten (by simp only [issued, hp, ht]) (h.keep rfl (fun _ _ => Or.inl) (fun _ => Or.inl) fun q hq => ?_)
    cases hq
    exact ⟨hcrit, hwriters, hsigns, hproofs⟩
  | @recorded i at_ version key newKey ht =>
    have hissued : issued sha256 E m.st (.rotate (.next i newKey)) = some (.key ⟨version, E.publicKey key, at_⟩) := by
      simp only [issued, hp, ht]
    rw [hissued]
    refine ⟨h.wal.key, ?_, h.replies, h.shown, h.proofs, fun q hq => ?_⟩
    · show m.st.store.putKey _ = replay (m.wal ++ [_])
      rw [replay_append, ← h.store]
      rfl
    · cases hq
      exact ⟨hcrit, hwriters, hsigns, hproofs⟩

/-- A head read keeps to the heads of the store. -/
theorem HeadRead.heads {s : Store} {es : List LogEntry} (hstore : ∀ t sth, s.headAtSize t = some sth → HeadOk sha256 es t sth)
    {t : ProofTask} {r : ProofTask ⊕ Except Status ProofResponse} (h : HeadRead s t r)
    (ht : ∀ sth ∈ t.heads, HeadOk sha256 es sth.treeSize sth) :
    (∀ t', r = .inl t' → ∀ sth ∈ t'.heads, HeadOk sha256 es sth.treeSize sth) ∧
    ∀ result, r = .inr result → ∀ sth ∈ ProofReply.heads ⟨t.req, t.known, result⟩, HeadOk sha256 es sth.treeSize sth := by
  have hread : ∀ n sth, s.headAtSize n = some sth → HeadOk sha256 es sth.treeSize sth := by
    intro n sth hsth
    have hok := hstore n sth hsth
    rw [hok.1]
    exact hok
  cases h with
  | missing =>
    refine ⟨fun t' ht' => (by cases ht'), fun result hres sth hsth => ?_⟩
    cases hres
    cases hsth
  | inclusion hh =>
    refine ⟨fun t' ht' => (by cases ht'), fun result hres sth hsth => ?_⟩
    cases hres
    rw [List.mem_singleton.mp hsth]
    exact hread _ _ hh
  | oldHead hh =>
    refine ⟨fun t' ht' sth hsth => ?_, fun result hres => by cases hres⟩
    cases ht'
    rw [List.mem_singleton.mp hsth]
    exact hread _ _ hh
  | consistency hh =>
    refine ⟨fun t' ht' => (by cases ht'), fun result hres sth hsth => ?_⟩
    cases hres
    rcases List.mem_cons.mp hsth with hsth | hsth
    · exact ht sth (by rw [hsth]; exact List.mem_singleton_self _)
    · rw [List.mem_singleton.mp hsth]
      exact hread _ _ hh

theorem ProofStep.durable {m : Machine} {es : List LogEntry} {s' : St} {p : Proc} (h : Durable sha256 m es)
    (hp : m.st.proc = some p) {e : ProofEv} (hs : ProofStep sha256 m.st p e s') : Durable sha256 ⟨s', m.wal, m.shown⟩ es := by
  obtain ⟨hcrit, hwriters, hsigns, hproofs⟩ := h.proc p hp
  have hstore : ∀ t sth, m.st.store.headAtSize t = some sth → HeadOk sha256 es t sth := fun t sth => h.heads
  have herase : ∀ i, ProcWal sha256 es { p with proofs := p.proofs.eraseIdx i } :=
    fun i => ⟨hcrit, hwriters, hsigns, fun t ht => hproofs t (List.mem_of_mem_eraseIdx ht)⟩
  cases hs with
  | refused =>
    refine h.keep rfl (fun _ _ => Or.inl) (fun r hr => ?_) h.proc
    rcases List.mem_append.mp hr with hr | hr
    · exact Or.inl hr
    · rw [List.mem_singleton.mp hr]
      exact Or.inr fun sth hsth => by cases hsth
  | sized =>
    refine h.withProc ⟨hcrit, hwriters, hsigns, fun t ht => ?_⟩
    rcases List.mem_append.mp ht with ht | ht
    · exact hproofs t ht
    · rw [List.mem_singleton.mp ht]
      exact fun sth hsth => by cases hsth
  | unproved =>
    refine h.keep rfl (fun _ _ => Or.inl) (fun r hr => ?_) fun q hq => by cases hq; exact herase _
    rcases List.mem_append.mp hr with hr | hr
    · exact Or.inl hr
    · rw [List.mem_singleton.mp hr]
      exact Or.inr fun sth hsth => by cases hsth
  | proved =>
    refine h.withProc ⟨hcrit, hwriters, hsigns, fun t ht => ?_⟩
    rcases List.mem_or_eq_of_mem_set ht with ht | rfl
    · exact hproofs t ht
    · exact fun sth hsth => by cases hsth
  | headRead ht hread =>
    have hheads := (readHead_headRead hread).heads sha256 hstore (hproofs _ (List.mem_of_getElem? ht))
    refine h.withProc ⟨hcrit, hwriters, hsigns, fun t ht => ?_⟩
    rcases List.mem_or_eq_of_mem_set ht with ht | rfl
    · exact hproofs t ht
    · exact hheads.1 _ rfl
  | answered ht hread =>
    have hheads := (readHead_headRead hread).heads sha256 hstore (hproofs _ (List.mem_of_getElem? ht))
    refine h.keep rfl (fun _ _ => Or.inl) (fun r hr => ?_) fun q hq => by cases hq; exact herase _
    rcases List.mem_append.mp hr with hr | hr
    · exact Or.inl hr
    · rw [List.mem_singleton.mp hr]
      exact Or.inr (hheads.2 _ rfl)

theorem WatchStep.durable {m : Machine} {es : List LogEntry} {s' : St} {p : Proc} (h : Durable sha256 m es)
    (hp : m.st.proc = some p) {e : WatchEv} (hs : WatchStep m.st p e s') : Durable sha256 ⟨s', m.wal, m.shown⟩ es := by
  obtain ⟨hcrit, hwriters, hsigns, hproofs⟩ := h.proc p hp
  cases hs <;> exact h.withProc ⟨hcrit, hwriters, hsigns, hproofs⟩

theorem restart_durable {m : Machine} {es : List LogEntry} {s' : St} (h : Durable sha256 m es) (hp : m.st.proc = none)
    {newKey : Hash} {seeded : Bool} (hr : restart sha256 E m.st newKey seeded = some s') :
    Durable sha256 ⟨s', m.wal ++ (issued sha256 E m.st (.restart newKey seeded)).toList, m.shown⟩ es := by
  have hres := restart_restarted sha256 E hp hr
  have hlogged := h.wal.logged
  rw [← h.store] at hlogged
  have hwal : Wal sha256 (m.wal ++ (issued sha256 E m.st (.restart newKey seeded)).toList) es ∧
      s'.store = replay (m.wal ++ (issued sha256 E m.st (.restart newKey seeded)).toList) := by
    unfold restart at hr
    split at hr
    · cases hr
    · cases seeded with
      | false =>
        cases hr
        simp only [issued, Option.toList_none, List.append_nil]
        exact ⟨h.wal, h.store⟩
      | true =>
        simp only [if_true] at hr
        cases hk : m.st.store.latestKey with
        | some r =>
          simp only [hk] at hr
          cases hr
          simp only [issued, hk, Option.toList_none, List.append_nil]
          exact ⟨h.wal, h.store⟩
        | none =>
          simp only [hk] at hr
          cases hr
          simp only [issued, hk, Option.toList_some, replay_append, ← h.store]
          exact ⟨h.wal.key, rfl⟩
  refine ⟨hwal.1, hwal.2, by rw [hres.hist]; exact h.replies, h.shown, by rw [hres.hist]; exact h.proofs, fun p hp' => ?_⟩
  obtain ⟨hn, hm, hmu, hw, -, hs, -, hpf⟩ := hres.proc p hp'
  -- the tree is rebuilt from all of the log
  rw [hlogged.seqRange] at hm
  obtain ⟨t, ht, hrep⟩ := (MerkleTree.Rep.new (.sha sha256)).appendAll (hashes es)
  rw [hm] at ht
  cases ht
  rw [List.nil_append] at hrep
  refine ⟨?_, fun w hw' => ?_, fun t ht => ?_, fun t ht => ?_⟩
  · rw [hmu, hn]
    exact ⟨hlogged.nextSeq.1, hrep⟩
  · rw [hw] at hw'
    cases hw'
  · rw [hs] at ht
    cases ht
  · rw [hpf] at ht
    cases ht

theorem step_durable {m : Machine} {es : List LogEntry} {s' : St} {e : Ev} (h : Durable sha256 m es)
    (hs : step sha256 E m.st e = some s') :
    ∃ fs, Durable sha256 ⟨s', m.wal ++ (issued sha256 E m.st e).toList, m.shown⟩ (es ++ fs) := by
  have same : Durable sha256 ⟨s', m.wal ++ (issued sha256 E m.st e).toList, m.shown⟩ es →
      ∃ fs, Durable sha256 ⟨s', m.wal ++ (issued sha256 E m.st e).toList, m.shown⟩ (es ++ fs) :=
    fun h => ⟨[], by rw [List.append_nil]; exact h⟩
  cases step_step sha256 E hs with
  | append hp hs => exact hs.durable sha256 E h hp
  | @sign p e _ hp _ =>
    have hs : stepSign sha256 E m.st p e = some s' := by simpa only [step, hp, Option.bind_some] using hs
    exact same (stepSign_durable sha256 E h hp hs)
  | rotate hp hs => exact same (hs.durable sha256 E h hp)
  | proof hp hs => exact same (.unwritten rfl (hs.durable sha256 h hp))
  | watch hp hs => exact same (.unwritten rfl (hs.durable sha256 h hp))
  | crash => exact same (.unwritten rfl (h.keep rfl (fun _ _ => Or.inl) (fun _ => Or.inl) fun q hq => by cases hq))
  | restart hp hr => exact same (restart_durable sha256 E h hp hr)

/-! ## Crashes of the machine -/

section

variable {sha256}

theorem HeadOk.of_append {es rest : List LogEntry} {t : Nat} {sth : SignedTreeHead} (h : HeadOk sha256 (es ++ rest) t sth)
    (ht : t ≤ es.length) : HeadOk sha256 es t sth :=
  ⟨h.1, ht, by rw [← rootAt_append sha256 ht]; exact h.2.2⟩

/-- Entries of a request whose numbers are all left are left themselves. -/
theorem Written.of_append {es rest : List LogEntry} {store : Store} (hlogged : Logged store (es ++ rest)) {req : AppendReq}
    {fs : List LogEntry} (h : Written sha256 (es ++ rest) req fs) (hkept : ∀ e ∈ fs, ∃ e' ∈ es, e'.seq = e.seq) :
    Written sha256 es req fs := by
  refine ⟨h.1, fun e he => ?_⟩
  obtain ⟨e', he', hseq⟩ := hkept e he
  rw [← hlogged.eq_of_seq (List.mem_append_left _ he') (h.2 e he) hseq]
  exact he'

theorem mem_acked {m : Machine} {req : AppendReq} {resps : List AppendResponse} (h : (req, Except.ok resps) ∈ m.st.hist.replies)
    {r : AppendResponse} (hr : r ∈ resps) : r.seq ∈ m.acked :=
  List.mem_flatMap.mpr ⟨_, h, List.mem_map_of_mem hr⟩

/-- What is left after a crash is a server of its own, if it has what was acknowledged and
    returned. -/
theorem Durable.machineCrash {m : Machine} {es : List LogEntry} (h : Durable sha256 m es) {kept : Nat}
    (hok : crashKeeps m (.machineCrash kept) = true) :
    ∃ es', Durable sha256 ⟨{ m.st with store := replay (m.wal.take kept), proc := none }, m.wal.take kept, m.shown⟩ es' := by
  obtain ⟨es', rest, hwal, rfl⟩ := h.wal.take kept
  have hlogged := h.wal.logged
  simp only [crashKeeps, hwal.logOf, Bool.and_eq_true, List.all_eq_true, List.any_eq_true, decide_eq_true_eq] at hok
  obtain ⟨hacked, hsizes⟩ := hok
  refine ⟨es', hwal, rfl, fun req resps hr => ?_, fun sth hsth => ?_, fun r hr sth hsth => ?_, fun p hp => by cases hp⟩
  · obtain ⟨fs, hfs, rfl⟩ := h.replies req resps hr
    exact ⟨fs, hfs.of_append hlogged fun e he => hacked _ (mem_acked hr (List.mem_map_of_mem he)), rfl⟩
  · exact (h.shown sth hsth).of_append (hsizes sth (List.mem_append_left _ hsth))
  · exact (h.proofs r hr sth hsth).of_append (hsizes sth (List.mem_append_right _ (List.mem_flatMap.mpr ⟨r, hr, hsth⟩)))

theorem getSth_heads {s : Store} {treeSize : Nat} {sth : SignedTreeHead} (h : getSth s treeSize = .ok sth) :
    ∃ t, s.headAtSize t = some sth := by
  unfold getSth at h
  split at h
  · split at h
    · cases h
    next hlast =>
      cases h
      obtain ⟨⟨t, sth⟩, hl, rfl⟩ := Option.map_eq_some_iff.mp hlast
      exact ⟨t, (OrdMap.get?_last? hl).1⟩
  · split at h
    · cases h
    next hget => cases h; exact ⟨_, hget⟩

end

theorem stepMachine_durable {m m' : Machine} {es : List LogEntry} {e : MachineEv} (h : Durable sha256 m es)
    (hok : crashKeeps m e = true) (hs : stepMachine sha256 E m e = some m') : ∃ es', Durable sha256 m' es' := by
  cases e with
  | server e =>
    obtain ⟨s', hstep, rfl⟩ := Option.map_eq_some_iff.mp hs
    obtain ⟨fs, h'⟩ := step_durable sha256 E h hstep
    exact ⟨es ++ fs, h'⟩
  | getSth treeSize =>
    simp only [stepMachine] at hs
    split at hs
    · cases hs
    · cases hs
      exact ⟨es, h⟩
    next sth hget =>
      cases hs
      obtain ⟨t, ht⟩ := getSth_heads hget
      have hok := h.heads ht
      refine ⟨es, h.wal, h.store, h.replies, fun x hx => ?_, h.proofs, h.proc⟩
      rcases List.mem_append.mp hx with hx | hx
      · exact h.shown x hx
      · rw [List.mem_singleton.mp hx, hok.1]
        exact hok
  | machineCrash kept =>
    cases hs
    exact h.machineCrash hok

/-- In every run of the server with failed writes, process exits, machine crashes and
    restarts, in which a machine crash leaves every entry acknowledged before it and as
    many entries as every head returned before it has: two heads ever returned with one
    size have one root, and every entry whose append was acknowledged is stored under its
    number as answered. -/
theorem no_equivocation {m : Machine} (h : Reach (stepMachine sha256 E) crashKeeps .init m) :
    (∀ sth ∈ m.returned, ∀ sth' ∈ m.returned, sth.treeSize = sth'.treeSize → sth.rootHash = sth'.rootHash) ∧
    ∀ req resps, (req, Except.ok resps) ∈ m.st.hist.replies → ∀ (i : Nat) (r : AppendResponse), resps[i]? = some r →
      ∃ e, m.st.store.getBySeq r.seq = some e ∧ req.entries[i]? = some (e.key, e.data) ∧ e.seq = r.seq ∧
        e.leafHash = r.leafHash ∧ e.timestampNs = r.timestampNs := by
  obtain ⟨es, hd⟩ : ∃ es, Durable sha256 m es := by
    apply h.inv (P := fun m => ∃ es, Durable sha256 m es) ⟨[], .init sha256⟩
    intro m e m' ⟨es, hd⟩ hok hs
    exact stepMachine_durable sha256 E hd hok hs
  have hheads : ∀ sth ∈ m.returned, HeadOk sha256 es sth.treeSize sth := by
    intro sth hsth
    rcases List.mem_append.mp hsth with hsth | hsth
    · exact hd.shown sth hsth
    · obtain ⟨r, hr, hsth⟩ := List.mem_flatMap.mp hsth
      exact hd.proofs r hr sth hsth
  refine ⟨fun sth hsth sth' hsth' ht => ?_, fun req resps hr i r hri => ?_⟩
  · have h1 := (hheads sth hsth).2.2
    have h2 := (hheads sth' hsth').2.2
    rw [ht, h2] at h1
    exact (Option.some.inj h1).symm
  · obtain ⟨fs, ⟨⟨first, ts, rfl⟩, hmem⟩, rfl⟩ := hd.replies req resps hr
    rw [List.getElem?_map, Option.map_eq_some_iff] at hri
    obtain ⟨e, he, rfl⟩ := hri
    have hlogged := hd.wal.logged
    rw [← hd.store] at hlogged
    refine ⟨e, hlogged.getBySeq (hmem e (List.mem_of_getElem? he)), ?_, rfl, rfl, rfl⟩
    rw [getElem?_entriesOf, Option.map_eq_some_iff] at he
    obtain ⟨kd, hkd, rfl⟩ := he
    exact hkd

def serve (evs : List Ev) : List MachineEv := evs.map .server

/-- One entry, acknowledged, signed and shown; another, written and not acknowledged. -/
def beforeCrash : List MachineEv :=
  serve ([.restart .zero true] ++ appendEvs [1] [10] 5 ++ signEvs 6) ++ [.getSth 0] ++
    serve [.append (.request (.append [2] [20]) true), .append (.reserve 7), .append .write]

/-- A crash that loses the second entry and the head; after the restart the first size is
    signed and shown again. -/
theorem no_equivocation_lost_tail : ∃ m sth sth', Reach (stepMachine Sha256.sha256 plainKeys) crashKeeps .init m ∧
    m.shown = [sth, sth'] ∧ sth.treeSize = 1 ∧ sth'.treeSize = 1 ∧ sth.timestampNs = 6 ∧ sth'.timestampNs = 8 ∧
    sth.rootHash = sth'.rootHash := by
  have hrun : ((run (stepMachine Sha256.sha256 plainKeys) crashKeeps .init (beforeCrash ++
      [MachineEv.machineCrash 2] ++ serve ([Ev.restart .zero true] ++ signEvs 8) ++ [MachineEv.getSth 1])).map fun m =>
        m.shown.map fun sth => (sth.treeSize, sth.timestampNs)) = some [(1, 6), (1, 8)] := by
    decide +kernel
  obtain ⟨m, hm, hshown⟩ := Option.map_eq_some_iff.mp hrun
  obtain ⟨sth, l, hl, hsth, hrest⟩ := List.map_eq_cons_iff.mp hshown
  obtain ⟨sth', l, rfl, hsth', hnil⟩ := List.map_eq_cons_iff.mp hrest
  obtain rfl := List.map_eq_nil_iff.mp hnil
  obtain ⟨h1, h2⟩ := Prod.mk.inj hsth
  obtain ⟨h3, h4⟩ := Prod.mk.inj hsth'
  have h := Reach.init.run hm
  have hret : ∀ x ∈ [sth, sth'], x ∈ m.returned := fun x hx => List.mem_append_left _ (by rw [hl]; exact hx)
  have hroot := (no_equivocation Sha256.sha256 plainKeys h).1 sth (hret sth (by simp)) sth' (hret sth' (by simp))
    (h1.trans h3.symm)
  exact ⟨m, sth, sth', h, hl, h1, h3, h2, h4, hroot⟩

/-- The crash loses the entry, the head and all: another entry takes the number that was
    acknowledged, and another head the size that was shown, with another root. -/
theorem equivocation : ∃ m sth sth' e, Reach (stepMachine Sha256.sha256 plainKeys) (fun _ _ => true) .init m ∧
    m.shown = [sth, sth'] ∧ sth.treeSize = sth'.treeSize ∧ sth.rootHash ≠ sth'.rootHash ∧
    m.st.hist.replies.map (·.1) = [.append [1] [10], .append [3] [30]] ∧ m.acked = [0, 0] ∧
    m.st.store.getBySeq 0 = some e ∧ e.data = [30] := by
  have hrun : ((run (stepMachine Sha256.sha256 plainKeys) (fun _ _ => true) .init (beforeCrash ++ [MachineEv.machineCrash 1] ++
      serve ([Ev.restart .zero true] ++ appendEvs [3] [30] 8 ++ signEvs 9) ++ [MachineEv.getSth 0])).bind fun m =>
        (m.st.store.getBySeq 0).map fun e => (m.shown.map (·.treeSize), decide (m.shown.map (·.rootHash)).Nodup,
          m.st.hist.replies.map (·.1), m.acked, e.data)) =
        some ([1, 1], true, [.append [1] [10], .append [3] [30]], [0, 0], [30]) := by
    decide +kernel
  obtain ⟨m, hm, hrun⟩ := Option.bind_eq_some_iff.mp hrun
  obtain ⟨e, he, hrun⟩ := Option.map_eq_some_iff.mp hrun
  obtain ⟨hsizes, hroots, hreqs, hacked, hdata⟩ : _ ∧ _ ∧ _ ∧ _ ∧ _ := by simpa only [Prod.mk.injEq] using hrun
  obtain ⟨sth, l, hl, h1, hrest⟩ := List.map_eq_cons_iff.mp hsizes
  obtain ⟨sth', l, rfl, h2, hnil⟩ := List.map_eq_cons_iff.mp hrest
  obtain rfl := List.map_eq_nil_iff.mp hnil
  have hroots := of_decide_eq_true hroots
  rw [hl] at hroots
  exact ⟨m, sth, sth', e, Reach.init.run hm, hl, h1.trans h2.symm, by simpa using hroots, hreqs, hacked, he, hdata⟩

end Settled.Server
