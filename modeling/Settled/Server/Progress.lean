/-
  Settled.Server.Progress — what is under way gets done (`service.rs`, `sth_task.rs`,
  `admin.rs`; the drain of `main.rs`).

  Tasks are the handler in the critical section, the handlers past it, signing cycles,
  rotations and proof requests. A working event is a step of one of them; requests, new
  cycles and rotations, streams, crashes and restarts are not. Writes may fail, in any
  order of the tasks' steps.

  `calls_answered`, from every reachable state whose counter has room for the call that
  holds `append_mu`:
  - every schedule of working events ends: each takes from what is left to do (`workLeft`);
  - no schedule gets stuck before the end: while a task is left, one can take a step, so
    the lock is always given back and no task waits for another;
  - nothing is lost and nothing is answered twice: the requests answered and those under
    way are the same throughout, up to their order, and so are proof requests. At the end
    none is under way, so each has had exactly one answer.
  So a server that takes no more requests comes to rest, as the drain before a shutdown
  waits for, whatever state it was in.
-/

import Settled.Lib.Tasks
import Settled.Server.Freshness

namespace Settled.Server

open Settled.Lib Settled.Core Settled.Storage

variable (sha256 : Bytes → Hash) (E : Ed25519)

/-! ## Work -/

/-- A step of a task that is under way. -/
def Ev.works : Ev → Bool
  | .append (.request _ _) | .sign .snapshot | .rotate .start | .proof (.request _) => false
  | .append _ | .sign _ | .rotate _ | .proof _ => true
  | .watch _ | .crash | .restart _ _ => false

/-- How many steps a task can still take, at most. -/
def Crit.left : Crit → Nat
  | locked req => 2 * req.entries.length + 4
  | reserved req _ _ => 2 * req.entries.length + 3
  | written _ results left => left.length + results.length + 2

def Writer.left (w : Writer) : Nat := w.unsent.length + 1

def SignTask.left : SignTask → Nat
  | snapped _ _ => 6
  | checked _ _ => 5
  | stamped _ _ _ => 4
  | signed _ => 3
  | keyed _ _ => 2
  | assembled _ _ _ => 1

def RotateTask.left : RotateTask → Nat
  | sized _ => 4
  | numbered _ _ => 3
  | filed _ _ _ => 2
  | swapped _ _ _ => 1

def ProofTask.left (t : ProofTask) : Nat :=
  match t.phase with
  | .sized => 3
  | .proved _ => 2
  | .oldHead _ _ => 1

def critLeft (mu : Option Crit) : Nat :=
  match mu with
  | none => 0
  | some c => c.left

def Proc.workLeft (p : Proc) : Nat :=
  critLeft p.mu + sumOf Writer.left p.writers + sumOf SignTask.left p.signs + sumOf RotateTask.left p.rotations +
    sumOf ProofTask.left p.proofs

def St.workLeft (s : St) : Nat :=
  match s.proc with
  | none => 0
  | some p => p.workLeft

/-- No task is left. -/
def Proc.AtRest (p : Proc) : Prop := p.mu = none ∧ p.writers = [] ∧ p.signs = [] ∧ p.rotations = [] ∧ p.proofs = []

/-! ## Requests under way -/

def Crit.req : Crit → AppendReq
  | locked req | reserved req _ _ | written req _ _ => req

def Proc.appends (p : Proc) : List AppendReq := (p.mu.map Crit.req).toList ++ p.writers.map (·.req)

/-- The appends that have been answered, and those under way. -/
def St.appends (s : St) : List AppendReq :=
  s.hist.replies.map (·.1) ++
    match s.proc with
    | none => []
    | some p => p.appends

def St.proofReqs (s : St) : List ProofReq :=
  s.hist.proofs.map (·.req) ++
    match s.proc with
    | none => []
    | some p => p.proofs.map (·.req)

section

variable {sha256 E} {s s' : St} {p : Proc}

theorem workLeft_of_proc (hp : s.proc = some p) : s.workLeft = p.workLeft := by rw [St.workLeft, hp]

theorem appends_of_proc (hp : s.proc = some p) : s.appends = s.hist.replies.map (·.1) ++ p.appends := by
  rw [St.appends, hp]

theorem proofReqs_of_proc (hp : s.proc = some p) : s.proofReqs = s.hist.proofs.map (·.req) ++ p.proofs.map (·.req) := by
  rw [St.proofReqs, hp]

theorem SignTask.left_pos (t : SignTask) : 0 < t.left := by cases t <;> exact Nat.succ_pos _

theorem RotateTask.left_pos (t : RotateTask) : 0 < t.left := by cases t <;> exact Nat.succ_pos _

theorem ProofTask.left_pos (t : ProofTask) : 0 < t.left := by
  unfold ProofTask.left
  split <;> exact Nat.succ_pos _

theorem SignTask.next_left {store : Store} {signer : Signer} {now : Int} {t t' : SignTask}
    (h : t.next E store signer now = some t') : t'.left < t.left := by
  cases t with
  | snapped size root =>
    obtain ⟨-, r, -, rfl⟩ := SignTask.next_snapped E h
    exact Nat.lt_succ_self 5
  | checked | stamped | signed | keyed => cases h; exact Nat.lt_succ_self _
  | assembled => cases h

theorem ProofTask.readHead_left {store : Store} {t t' : ProofTask} (h : t.readHead store = some (.inl t')) :
    t'.left < t.left ∧ t'.req = t.req := by
  cases readHead_headRead h with
  | oldHead => exact ⟨Nat.lt_succ_self 1, rfl⟩

/-! ## Every step takes from what is left -/

theorem sumOf_set_lt {α : Type} {f : α → Nat} {l : List α} {i : Nat} {a b : α} (h : l[i]? = some a) (hlt : f b < f a) :
    sumOf f (l.set i b) < sumOf f l := by
  have := sumOf_set f h b
  omega

theorem sumOf_eraseIdx_lt {α : Type} {f : α → Nat} {l : List α} {i : Nat} {a : α} (h : l[i]? = some a) (hpos : 0 < f a) :
    sumOf f (l.eraseIdx i) < sumOf f l := by
  have := sumOf_eraseIdx f h
  omega

theorem stepAppend_workLeft {e : AppendEv} (he : Ev.works (.append e) = true) (hp : s.proc = some p)
    (hs : AppendStep sha256 s p e s') : s'.workLeft < s.workLeft := by
  rw [workLeft_of_proc hp]
  cases hs with
  | refused | emptyBatch | locked => cases he
  | @reserved req ts hmu _ =>
    rw [workLeft_of_proc rfl, Proc.workLeft, Proc.workLeft, hmu]
    simp only [critLeft, Crit.left]
    omega
  | @written req first ts results hmu hres =>
    have hlen : results.length = req.entries.length := by rw [hres, length_entriesOf]
    rw [workLeft_of_proc rfl, Proc.workLeft, Proc.workLeft, hmu]
    simp only [critLeft, Crit.left, length_hashes, hlen]
    omega
  | @failed req first ts message hmu =>
    rw [workLeft_of_proc rfl, Proc.workLeft, Proc.workLeft, hmu]
    simp only [critLeft, Crit.left]
    omega
  | @leaf req results lh left i merkle hmu _ =>
    rw [workLeft_of_proc rfl, Proc.workLeft, Proc.workLeft, hmu]
    simp only [critLeft, Crit.left, List.length_cons]
    omega
  | @unlocked req results hmu =>
    rw [workLeft_of_proc rfl, Proc.workLeft, Proc.workLeft, hmu]
    simp only [critLeft, Crit.left, sumOf_append, sumOf_cons, sumOf_nil, Writer.left, List.length_nil]
    omega
  | @sent i req results unsent ev hw =>
    have hlt : Writer.left ⟨req, results, unsent⟩ < Writer.left ⟨req, results, ev :: unsent⟩ := by
      simp only [Writer.left, List.length_cons]
      omega
    have := sumOf_set_lt hw hlt
    rw [workLeft_of_proc rfl, Proc.workLeft, Proc.workLeft]
    dsimp only
    omega
  | @replied i req results hw =>
    have := sumOf_eraseIdx_lt (f := Writer.left) hw (Nat.succ_pos _)
    rw [workLeft_of_proc rfl, Proc.workLeft, Proc.workLeft]
    dsimp only
    omega

/-- A step of a cycle: one fewer, or one step on. -/
theorem stepSign_moves {e : SignEv} (he : Ev.works (.sign e) = true) (hs : stepSign sha256 E s p e = some s') :
    ∃ signs, s'.proc = some { p with signs := signs } ∧ sumOf SignTask.left signs < sumOf SignTask.left p.signs ∧
      s'.hist.replies = s.hist.replies ∧ s'.hist.proofs = s.hist.proofs := by
  cases e with
  | snapshot => cases he
  | next i now =>
    simp only [stepSign] at hs
    split at hs
    · cases hs
    next d pub ver ht => cases hs; exact ⟨_, rfl, sumOf_eraseIdx_lt ht (SignTask.left_pos _), rfl, rfl⟩
    next t _ ht =>
      split at hs
      · cases hs; exact ⟨_, rfl, sumOf_eraseIdx_lt ht (SignTask.left_pos _), rfl, rfl⟩
      next t' ht' => cases hs; exact ⟨_, rfl, sumOf_set_lt ht (SignTask.next_left ht'), rfl, rfl⟩
  | writeFails i =>
    simp only [stepSign] at hs
    split at hs
    next d pub ver ht => cases hs; exact ⟨_, rfl, sumOf_eraseIdx_lt ht (SignTask.left_pos _), rfl, rfl⟩
    · cases hs

theorem stepRotate_moves {e : RotateEv} (he : Ev.works (.rotate e) = true) (hs : stepRotate E s p e = some s') :
    ∃ signer rotations, s'.proc = some { p with signer := signer, rotations := rotations } ∧
      sumOf RotateTask.left rotations < sumOf RotateTask.left p.rotations ∧
      s'.hist.replies = s.hist.replies ∧ s'.hist.proofs = s.hist.proofs := by
  cases e with
  | start => cases he
  | next i newKey =>
    simp only [stepRotate] at hs
    split at hs
    · cases hs
    next ht => cases hs; exact ⟨_, _, rfl, sumOf_set_lt ht (Nat.lt_succ_self 3), rfl, rfl⟩
    next ht => cases hs; exact ⟨_, _, rfl, sumOf_set_lt ht (Nat.lt_succ_self 2), rfl, rfl⟩
    next ht => cases hs; exact ⟨_, _, rfl, sumOf_set_lt ht (Nat.lt_succ_self 1), rfl, rfl⟩
    next ht => cases hs; exact ⟨_, _, rfl, sumOf_eraseIdx_lt ht (RotateTask.left_pos _), rfl, rfl⟩
  | fails i =>
    simp only [stepRotate] at hs
    split at hs
    next ht => cases hs; exact ⟨_, _, rfl, sumOf_eraseIdx_lt ht (RotateTask.left_pos _), rfl, rfl⟩
    next ht => cases hs; exact ⟨_, _, rfl, sumOf_eraseIdx_lt ht (RotateTask.left_pos _), rfl, rfl⟩
    · cases hs

theorem stepProof_workLeft {e : ProofEv} (he : Ev.works (.proof e) = true) (hp : s.proc = some p)
    (hs : ProofStep sha256 s p e s') : s'.workLeft < s.workLeft := by
  rw [workLeft_of_proc hp]
  have hset : ∀ {i : Nat} {t t' : ProofTask}, p.proofs[i]? = some t → t'.left < t.left →
      Proc.workLeft { p with proofs := p.proofs.set i t' } < p.workLeft := by
    intro i t t' ht hlt
    have := sumOf_set_lt ht hlt
    rw [Proc.workLeft, Proc.workLeft]
    dsimp only
    omega
  have herase : ∀ {i : Nat} {t : ProofTask}, p.proofs[i]? = some t →
      Proc.workLeft { p with proofs := p.proofs.eraseIdx i } < p.workLeft := by
    intro i t ht
    have := sumOf_eraseIdx_lt ht t.left_pos
    rw [Proc.workLeft, Proc.workLeft]
    dsimp only
    omega
  cases hs with
  | refused | sized => cases he
  | unproved ht _ => exact herase ht
  | proved ht _ => exact hset ht (Nat.lt_succ_self 2)
  | headRead ht hr => exact hset ht (ProofTask.readHead_left hr).1
  | answered ht _ => exact herase ht

theorem step_workLeft {e : Ev} (he : e.works = true) (hs : step sha256 E s e = some s') : s'.workLeft < s.workLeft := by
  cases e with
  | append e =>
    obtain ⟨p, hp, hs⟩ := Option.bind_eq_some_iff.mp hs
    exact stepAppend_workLeft he hp (stepAppend_step sha256 hs)
  | sign e =>
    obtain ⟨p, hp, hs⟩ := Option.bind_eq_some_iff.mp hs
    obtain ⟨signs, hp', hlt, -⟩ := stepSign_moves he hs
    rw [workLeft_of_proc hp, workLeft_of_proc hp', Proc.workLeft, Proc.workLeft]
    dsimp only
    omega
  | rotate e =>
    obtain ⟨p, hp, hs⟩ := Option.bind_eq_some_iff.mp hs
    obtain ⟨signer, rotations, hp', hlt, -⟩ := stepRotate_moves he hs
    rw [workLeft_of_proc hp, workLeft_of_proc hp', Proc.workLeft, Proc.workLeft]
    dsimp only
    omega
  | proof e =>
    obtain ⟨p, hp, hs⟩ := Option.bind_eq_some_iff.mp hs
    exact stepProof_workLeft he hp (stepProof_step sha256 hs)
  | watch | crash | restart => cases he

/-! ## Every request is answered once -/

theorem stepAppend_appends {e : AppendEv} (he : Ev.works (.append e) = true) (hp : s.proc = some p)
    (hs : AppendStep sha256 s p e s') : s'.appends.Perm s.appends := by
  rw [appends_of_proc hp]
  cases hs with
  | refused | emptyBatch | locked => cases he
  | reserved hmu _ | written hmu _ | leaf hmu _ =>
    rw [appends_of_proc rfl, Proc.appends, Proc.appends, hmu]
    exact .refl _
  | @failed req first ts message hmu =>
    rw [appends_of_proc (s := (s.withProc _).reply _ _) rfl, Proc.appends, Proc.appends, hmu]
    simp [St.reply, St.withProc, Crit.req]
  | @unlocked req results hmu =>
    rw [appends_of_proc rfl, Proc.appends, Proc.appends, hmu]
    refine List.Perm.append_left _ ?_
    simp only [Option.map_none, Option.toList_none, Option.map_some, Option.toList_some, List.nil_append, List.map_append,
      List.map_cons, List.map_nil, Crit.req]
    exact List.perm_append_comm
  | @sent i req results unsent ev hw =>
    rw [appends_of_proc rfl, Proc.appends, Proc.appends]
    dsimp only
    rw [map_set_of_eq (f := (·.req)) (b := ⟨req, results, unsent⟩) hw rfl]
    exact .refl _
  | @replied i req results hw =>
    rw [appends_of_proc (s := (s.withProc _).reply _ _) rfl, Proc.appends, Proc.appends]
    simp only [St.reply, St.withProc, List.map_append, List.map_cons, List.map_nil, List.append_assoc, List.singleton_append]
    refine List.Perm.append_left _ ?_
    exact List.perm_middle.symm.trans (List.Perm.append_left _ (map_perm_eraseIdx (f := (·.req)) hw))

theorem stepProof_proofReqs {e : ProofEv} (he : Ev.works (.proof e) = true) (hp : s.proc = some p)
    (hs : ProofStep sha256 s p e s') : s'.proofReqs.Perm s.proofReqs := by
  rw [proofReqs_of_proc hp]
  cases hs with
  | refused | sized => cases he
  | @unproved i size req known err ht _ =>
    rw [proofReqs_of_proc (s := (s.withProc _).proofReply _) rfl]
    simp only [St.proofReply, St.withProc, List.map_append, List.map_cons, List.map_nil, List.append_assoc, List.singleton_append]
    exact List.Perm.append_left _ (map_perm_eraseIdx (f := (·.req)) ht)
  | @proved i size req known proof ht _ =>
    rw [proofReqs_of_proc rfl]
    dsimp only
    rw [map_set_of_eq (f := (·.req)) (b := ⟨req, size, .proved proof, known⟩) ht rfl]
    exact .refl _
  | headRead ht hr =>
    rw [proofReqs_of_proc rfl]
    dsimp only
    rw [map_set_of_eq ht (ProofTask.readHead_left hr).2]
    exact .refl _
  | @answered i t result ht _ =>
    rw [proofReqs_of_proc (s := (s.withProc _).proofReply _) rfl]
    simp only [St.proofReply, St.withProc, List.map_append, List.map_cons, List.map_nil, List.append_assoc, List.singleton_append]
    exact List.Perm.append_left _ (map_perm_eraseIdx (f := (·.req)) ht)

/-- A working step of one kind of request leaves those of the other kind alone. -/
theorem step_requests {e : Ev} (he : e.works = true) (hs : step sha256 E s e = some s') :
    s'.appends.Perm s.appends ∧ s'.proofReqs.Perm s.proofReqs := by
  cases e with
  | append e =>
    obtain ⟨p, hp, hs⟩ := Option.bind_eq_some_iff.mp hs
    have hstep := stepAppend_step sha256 hs
    refine ⟨stepAppend_appends he hp hstep, ?_⟩
    cases hstep with
    | refused | emptyBatch | locked => cases he
    | reserved | written | failed | leaf | unlocked | sent | replied =>
      exact .of_eq (proofReqs_of_proc hp).symm
  | sign e =>
    obtain ⟨p, hp, hs⟩ := Option.bind_eq_some_iff.mp hs
    obtain ⟨signs, hp', -, hr, hpr⟩ := stepSign_moves he hs
    rw [appends_of_proc hp, appends_of_proc hp', proofReqs_of_proc hp, proofReqs_of_proc hp', hr, hpr]
    exact ⟨.refl _, .refl _⟩
  | rotate e =>
    obtain ⟨p, hp, hs⟩ := Option.bind_eq_some_iff.mp hs
    obtain ⟨signer, rotations, hp', -, hr, hpr⟩ := stepRotate_moves he hs
    rw [appends_of_proc hp, appends_of_proc hp', proofReqs_of_proc hp, proofReqs_of_proc hp', hr, hpr]
    exact ⟨.refl _, .refl _⟩
  | proof e =>
    obtain ⟨p, hp, hs⟩ := Option.bind_eq_some_iff.mp hs
    have hstep := stepProof_step sha256 hs
    refine ⟨?_, stepProof_proofReqs he hp hstep⟩
    cases hstep with
    | refused | sized => cases he
    | unproved | proved | headRead | answered =>
      exact .of_eq (appends_of_proc hp).symm
  | watch | crash | restart => cases he

/-! ## A task can take a step -/

/-- Only a request for a consistency proof reads a first head. -/
def ProofTask.Shaped (t : ProofTask) : Prop :=
  ∀ proof oldSth, t.phase = .oldHead proof oldSth → ∃ oldSize newSize, t.req = .consistency oldSize newSize

def St.Shaped (s : St) : Prop := ∀ p, s.proc = some p → ∀ t ∈ p.proofs, t.Shaped

theorem St.Shaped.apart (h : s.Shaped) (ha : Apart s s') : s'.Shaped := by
  intro p' hp' t ht
  rcases ha.tasks p' hp' with h0 | ⟨p, hp, he⟩
  · rw [h0] at ht
    cases ht
  · rw [he] at ht
    exact h p hp t ht

theorem stepProof_shaped {e : ProofEv} (h : ∀ t ∈ p.proofs, t.Shaped) (hp : s.proc = some p) (hs : ProofStep sha256 s p e s') :
    s'.Shaped := by
  have hnew : ∀ {t : ProofTask}, (∀ proof oldSth, t.phase ≠ .oldHead proof oldSth) → t.Shaped :=
    fun hne proof oldSth hph => absurd hph (hne proof oldSth)
  intro p' hp' t ht
  cases hs with
  | refused =>
    rw [show (s.proofReply _).proc = s.proc from rfl, hp] at hp'
    cases hp'
    exact h t ht
  | sized =>
    cases hp'
    rcases List.mem_append.mp ht with ht | ht
    · exact h t ht
    · rw [List.mem_singleton.mp ht]
      exact hnew fun _ _ hph => by cases hph
  | unproved | answered => cases hp'; exact h t (List.mem_of_mem_eraseIdx ht)
  | proved hi _ =>
    cases hp'
    rcases List.mem_or_eq_of_mem_set ht with ht | rfl
    · exact h t ht
    · exact hnew fun _ _ hph => by cases hph
  | headRead hi hr =>
    cases hp'
    rcases List.mem_or_eq_of_mem_set ht with ht | rfl
    · exact h t ht
    · cases readHead_headRead hr with
      | oldHead => exact fun _ _ _ => ⟨_, _, rfl⟩

theorem step_shaped {e : Ev} (h : s.Shaped) (hs : step sha256 E s e = some s') : s'.Shaped := by
  cases step_step sha256 E hs with
  | append hp hs => exact h.apart (hs.apart sha256 hp)
  | sign hp hs => exact h.apart (hs.apart sha256 E hp)
  | rotate hp hs => exact h.apart (hs.apart E hp)
  | proof hp hs => exact stepProof_shaped (h _ hp) hp hs
  | watch hp hs => exact h.apart (hs.apart hp)
  | crash hp => exact fun p hp' => by cases hp'
  | restart hp hr => exact h.apart ((restart_restarted sha256 E hp hr).apart sha256)

/-- The counter has room for the call that holds the lock. -/
def St.Room (s : St) : Prop := ∀ p req, s.proc = some p → p.mu = some (.locked req) → p.nextSeq + req.entries.length ≤ u64Max

/-- What progress rests on. -/
structure Working (sha256 : Bytes → Hash) (s : St) : Prop where
  log : ∃ es, LogIs sha256 s es
  shaped : s.Shaped
  room : s.Room

/-- The holder of the lock goes on. -/
theorem Working.crit (h : Working sha256 s) (hp : s.proc = some p) {c : Crit} (hmu : p.mu = some c) :
    ∃ e s', Ev.works (.append e) = true ∧ stepAppend sha256 s p e = some s' := by
  cases c with
  | locked req => exact ⟨.reserve 0, _, rfl, by rw [stepAppend, hmu]; exact if_pos (h.room p req hp hmu)⟩
  | reserved req first ts => exact ⟨.write, _, rfl, by rw [stepAppend, hmu]⟩
  | written req results left =>
    cases left with
    | nil => exact ⟨.unlock, _, rfl, by rw [stepAppend, hmu]⟩
    | cons lh left =>
      obtain ⟨es, hlog⟩ := h.log
      have hcrit := (hlog.proc hp).crit
      rw [hmu] at hcrit
      obtain ⟨-, -, L, -, hrep⟩ := hcrit
      obtain ⟨t, happend, -⟩ := hrep.append lh
      exact ⟨.merkle, _, rfl, by simp only [stepAppend, hmu, happend]; rfl⟩

variable (sha256 s) in
theorem writer_goes_on {w : Writer} {ws : List Writer} (hw : p.writers = w :: ws) :
    ∃ e s', Ev.works (.append e) = true ∧ stepAppend sha256 s p e = some s' := by
  obtain ⟨req, results, unsent⟩ := w
  cases unsent with
  | nil => exact ⟨.reply 0, _, rfl, by rw [stepAppend, hw]; rfl⟩
  | cons e unsent => exact ⟨.send 0, _, rfl, by rw [stepAppend, hw]; rfl⟩

variable (sha256 E s) in
theorem sign_goes_on {t : SignTask} {ts : List SignTask} (ht : p.signs = t :: ts) :
    ∃ e s', Ev.works (.sign e) = true ∧ stepSign sha256 E s p e = some s' := by
  have hget : p.signs[0]? = some t := by rw [ht]; rfl
  have hnext : ∃ s', stepSign sha256 E s p (.next 0 0) = some s' := by
    simp only [stepSign, hget]
    cases t with
    | assembled d publicKey keyVersion => exact ⟨_, rfl⟩
    | snapped | checked | stamped | signed | keyed =>
      dsimp only
      split <;> exact ⟨_, rfl⟩
  obtain ⟨s', hs⟩ := hnext
  exact ⟨.next 0 0, s', rfl, hs⟩

variable (E s) in
theorem rotation_goes_on {t : RotateTask} {ts : List RotateTask} (ht : p.rotations = t :: ts) :
    ∃ e s', Ev.works (.rotate e) = true ∧ stepRotate E s p e = some s' := by
  have hget : p.rotations[0]? = some t := by rw [ht]; rfl
  have hnext : ∃ s', stepRotate E s p (.next 0 .zero) = some s' := by
    simp only [stepRotate, hget]
    cases t <;> exact ⟨_, rfl⟩
  obtain ⟨s', hs⟩ := hnext
  exact ⟨.next 0 .zero, s', rfl, hs⟩

theorem readHead_isSome {t : ProofTask} (ht : t.Shaped) (hphase : t.phase ≠ .sized) (store : Store) :
    ∃ r, t.readHead store = some r := by
  obtain ⟨req, size, phase, known⟩ := t
  cases phase with
  | sized => exact absurd rfl hphase
  | proved proof =>
    cases req with
    | inclusion seq treeSize =>
      simp only [ProofTask.readHead]
      split <;> exact ⟨_, rfl⟩
    | consistency oldSize newSize =>
      simp only [ProofTask.readHead]
      split <;> exact ⟨_, rfl⟩
  | oldHead proof oldSth =>
    obtain ⟨oldSize, newSize, rfl⟩ := ht proof oldSth rfl
    simp only [ProofTask.readHead]
    split <;> exact ⟨_, rfl⟩

variable (sha256 s) in
theorem proof_goes_on {t : ProofTask} {ts : List ProofTask} (hsh : t.Shaped) (ht : p.proofs = t :: ts) :
    ∃ e s', Ev.works (.proof e) = true ∧ stepProof sha256 s p e = some s' := by
  have hget : p.proofs[0]? = some t := by rw [ht]; rfl
  by_cases hsized : t.phase = .sized
  · obtain ⟨req, size, phase, known⟩ := t
    cases hsized
    have hnext : ∃ s', stepProof sha256 s p (.readLog 0) = some s' := by
      simp only [stepProof, hget]
      split <;> exact ⟨_, rfl⟩
    obtain ⟨s', hs⟩ := hnext
    exact ⟨.readLog 0, s', rfl, hs⟩
  · obtain ⟨r, hr⟩ := readHead_isSome hsh hsized s.store
    have hnext : ∃ s', stepProof sha256 s p (.readHead 0) = some s' := by
      simp only [stepProof, hget, hr]
      cases r <;> exact ⟨_, rfl⟩
    obtain ⟨s', hs⟩ := hnext
    exact ⟨.readHead 0, s', rfl, hs⟩

/-- While a task is left, some task can take a step. -/
theorem Working.progress (h : Working sha256 s) (hleft : 0 < s.workLeft) :
    ∃ e s', e.works = true ∧ step sha256 E s e = some s' := by
  cases hp : s.proc with
  | none => rw [St.workLeft, hp] at hleft; cases hleft
  | some p =>
    rw [workLeft_of_proc hp] at hleft
    cases hmu : p.mu with
    | some c =>
      obtain ⟨e, s', he, hs⟩ := h.crit hp hmu
      exact ⟨.append e, s', he, by rw [step, hp]; exact hs⟩
    | none =>
      cases hw : p.writers with
      | cons w ws =>
        obtain ⟨e, s', he, hs⟩ := writer_goes_on sha256 s hw
        exact ⟨.append e, s', he, by rw [step, hp]; exact hs⟩
      | nil =>
        cases hsg : p.signs with
        | cons t ts =>
          obtain ⟨e, s', he, hs⟩ := sign_goes_on sha256 E s hsg
          exact ⟨.sign e, s', he, by rw [step, hp]; exact hs⟩
        | nil =>
          cases hr : p.rotations with
          | cons t ts =>
            obtain ⟨e, s', he, hs⟩ := rotation_goes_on E s hr
            exact ⟨.rotate e, s', he, by rw [step, hp]; exact hs⟩
          | nil =>
            cases hpr : p.proofs with
            | cons t ts =>
              have hsh := h.shaped p hp t (by rw [hpr]; exact List.mem_cons_self)
              obtain ⟨e, s', he, hs⟩ := proof_goes_on sha256 s hsh hpr
              exact ⟨.proof e, s', he, by rw [step, hp]; exact hs⟩
            | nil =>
              rw [Proc.workLeft, hmu, hw, hsg, hr, hpr] at hleft
              cases hleft

/-- No working step lets a new call into the critical section. -/
theorem step_room {e : Ev} (he : e.works = true) (h : s.Room) (hs : step sha256 E s e = some s') : s'.Room := by
  intro p' req hp' hmu'
  cases e with
  | append e =>
    obtain ⟨p, hp, hs⟩ := Option.bind_eq_some_iff.mp hs
    cases stepAppend_step sha256 hs with
    | refused | emptyBatch | locked => cases he
    | reserved | written | failed | leaf | unlocked => cases hp'; cases hmu'
    | sent | replied => cases hp'; exact h p req hp hmu'
  | sign e =>
    obtain ⟨p, hp, hs⟩ := Option.bind_eq_some_iff.mp hs
    obtain ⟨signs, hp'', -⟩ := stepSign_moves he hs
    rw [hp''] at hp'
    cases hp'
    exact h p req hp hmu'
  | rotate e =>
    obtain ⟨p, hp, hs⟩ := Option.bind_eq_some_iff.mp hs
    obtain ⟨signer, rotations, hp'', -⟩ := stepRotate_moves he hs
    rw [hp''] at hp'
    cases hp'
    exact h p req hp hmu'
  | proof e =>
    obtain ⟨p, hp, hs⟩ := Option.bind_eq_some_iff.mp hs
    cases stepProof_step sha256 hs with
    | refused | sized => cases he
    | unproved | proved | headRead | answered => cases hp'; exact h p req hp hmu'
  | watch | crash | restart => cases he

theorem Working.step {e : Ev} (h : Working sha256 s) (he : e.works = true) (hs : Server.step sha256 E s e = some s') :
    Working sha256 s' where
  log := by
    obtain ⟨es, hlog⟩ := h.log
    obtain ⟨fs, hlog'⟩ := hlog.step hs
    exact ⟨_, hlog'⟩
  shaped := step_shaped h.shaped hs
  room := step_room he h.room hs

/-- A schedule: what every working step does, added up. -/
theorem run_works : ∀ {es : List Ev} {s s' : St}, Working sha256 s →
    run (Server.step sha256 E) (fun _ e => e.works) s es = some s' →
    Working sha256 s' ∧ es.length + s'.workLeft ≤ s.workLeft ∧ s'.appends.Perm s.appends ∧ s'.proofReqs.Perm s.proofReqs := by
  intro es
  induction es with
  | nil => intro s s' h hr; cases hr; exact ⟨h, by simp, .refl _, .refl _⟩
  | cons e es ih =>
    intro s s' h hr
    unfold run at hr
    split at hr
    next he =>
      split at hr
      · cases hr
      next s1 hs =>
        have hlt := step_workLeft he hs
        obtain ⟨hperm, hpermp⟩ := step_requests he hs
        obtain ⟨h', hle, hperm', hpermp'⟩ := ih (h.step he hs) hr
        refine ⟨h', ?_, hperm'.trans hperm, hpermp'.trans hpermp⟩
        rw [List.length_cons]
        omega
    · cases hr

theorem atRest_of_workLeft (h : s.workLeft = 0) (hp : s.proc = some p) : p.AtRest := by
  rw [workLeft_of_proc hp, Proc.workLeft] at h
  have hmu : p.mu = none := by
    cases hmu : p.mu with
    | none => rfl
    | some c =>
      rw [hmu] at h
      cases c <;> simp only [critLeft, Crit.left] at h <;> omega
  exact ⟨hmu, sumOf_eq_zero Writer.left (fun _ => Nat.succ_pos _) (by omega), sumOf_eq_zero _ SignTask.left_pos (by omega),
    sumOf_eq_zero _ RotateTask.left_pos (by omega), sumOf_eq_zero _ ProofTask.left_pos (by omega)⟩

theorem requests_at_rest (h : ∀ p, s.proc = some p → p.AtRest) :
    s.appends = s.hist.replies.map (·.1) ∧ s.proofReqs = s.hist.proofs.map (·.req) := by
  cases hp : s.proc with
  | none => exact ⟨by rw [St.appends, hp, List.append_nil], by rw [St.proofReqs, hp, List.append_nil]⟩
  | some p =>
    obtain ⟨hmu, hw, -, -, hpr⟩ := h p hp
    rw [appends_of_proc hp, proofReqs_of_proc hp, Proc.appends, hmu, hw, hpr]
    exact ⟨List.append_nil _, List.append_nil _⟩

end

/-- Every schedule of the tasks under way ends, none is stuck before the end, and at the end
    each request has been answered once. -/
theorem calls_answered {s : St} (h : Reach (step sha256 E) (fun _ _ => true) .init s) (hroom : s.Room) :
    (∀ es s', run (step sha256 E) (fun _ e => e.works) s es = some s' →
      es.length + s'.workLeft ≤ s.workLeft ∧ s'.appends.Perm s.appends ∧ s'.proofReqs.Perm s.proofReqs ∧
        ((∀ p, s'.proc = some p → p.AtRest) ∨ ∃ e s'', e.works = true ∧ step sha256 E s' e = some s'')) ∧
    ∃ es s', run (step sha256 E) (fun _ e => e.works) s es = some s' ∧ (∀ p, s'.proc = some p → p.AtRest) ∧
      (s'.hist.replies.map (·.1)).Perm s.appends ∧ (s'.hist.proofs.map (·.req)).Perm s.proofReqs := by
  have hwork : Working sha256 s := by
    refine ⟨?_, ?_, hroom⟩
    · refine Reach.inv (P := fun s => ∃ es, LogIs sha256 s es) ⟨[], .init⟩ (fun s e s' hl _ hs => ?_) h
      obtain ⟨es, hl⟩ := hl
      obtain ⟨fs, hl'⟩ := hl.step hs
      exact ⟨_, hl'⟩
    · exact Reach.inv (P := St.Shaped) (fun p hp => by cases hp) (fun s e s' hsh _ hs => step_shaped hsh hs) h
  constructor
  · intro es s' hr
    obtain ⟨hwork', hle, hperm, hpermp⟩ := run_works hwork hr
    refine ⟨hle, hperm, hpermp, ?_⟩
    by_cases hleft : s'.workLeft = 0
    · exact Or.inl fun p hp => atRest_of_workLeft hleft hp
    · exact Or.inr (hwork'.progress (Nat.pos_of_ne_zero hleft))
  · have hstep : ∀ s e s', Working sha256 s → e.works = true → step sha256 E s e = some s' →
        Working sha256 s' ∧ s'.workLeft < s.workLeft :=
      fun s e s' hw he hs => ⟨hw.step he hs, step_workLeft he hs⟩
    obtain ⟨es, s', hr, -, hleft⟩ := exists_run_to_rest hstep (fun s hw hpos => hw.progress hpos) s.workLeft s rfl hwork
    have hrest : ∀ p, s'.proc = some p → p.AtRest := fun p hp => atRest_of_workLeft hleft hp
    obtain ⟨-, -, hperm, hpermp⟩ := run_works hwork hr
    obtain ⟨happ, hprf⟩ := requests_at_rest hrest
    exact ⟨es, s', hr, hrest, happ ▸ hperm, hprf ▸ hpermp⟩

/-- One entry under a signed head; then a request for its proof, a rotation and a batch of
    two that holds the lock. -/
def busyRun : List Ev :=
  .restart .zero true :: appendEvs [1] [10] 5 ++ [.sign .snapshot] ++ List.replicate 6 (.sign (.next 0 6)) ++
    [.proof (.request (.inclusion 0 0)), .rotate .start, .append (.request (.batchAppend [([2], [20]), ([3], [30])]) true)]

theorem calls_answered_busy : ∃ s, Reach (step Sha256.sha256 plainKeys) (fun _ _ => true) .init s ∧ s.Room ∧ s.workLeft = 15 ∧
    ∃ es s', run (step Sha256.sha256 plainKeys) (fun _ e => e.works) s es = some s' ∧ (∀ p, s'.proc = some p → p.AtRest) ∧
      (s'.hist.replies.map (·.1)).Perm [.append [1] [10], .batchAppend [([2], [20]), ([3], [30])]] ∧
      (s'.hist.proofs.map (·.req)).Perm [.inclusion 0 0] := by
  have hrun : (run (step Sha256.sha256 plainKeys) (fun _ _ => true) .init busyRun).map
      (fun s => ((s.workLeft, s.appends), (s.proofReqs, s.proc.map fun p => (p.mu, p.nextSeq)))) =
      some ((15, [.append [1] [10], .batchAppend [([2], [20]), ([3], [30])]]), ([.inclusion 0 0],
        some (some (.locked (.batchAppend [([2], [20]), ([3], [30])])), 1))) := by decide +kernel
  obtain ⟨s, hs, he⟩ := Option.map_eq_some_iff.mp hrun
  simp only [Prod.mk.injEq] at he
  obtain ⟨⟨hleft, happ⟩, hprf, hproc⟩ := he
  have hr := Reach.init.run hs
  have hroom : s.Room := by
    intro p req hp hmu
    rw [hp, Option.map_some, Option.some.injEq, Prod.mk.injEq, hmu] at hproc
    obtain ⟨hreq, hnext⟩ := hproc
    cases hreq
    rw [hnext]
    decide
  obtain ⟨es, s', hrun', hrest, happ', hprf'⟩ := (calls_answered Sha256.sha256 plainKeys hr hroom).2
  exact ⟨s, hr, hroom, hleft, es, s', hrun', hrest, happ ▸ happ', hprf ▸ hprf'⟩

end Settled.Server
