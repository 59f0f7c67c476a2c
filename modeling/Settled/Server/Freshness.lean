/-
  Settled.Server.Freshness — what a finished signing cycle promises (`sth_task.rs`,
  `admin.rs`: `force_sth`, `get_sth`).

  The server of `Settled.Server.Machine` with two things beside it: for each cycle the
  numbers that were acknowledged when it took its snapshot, and the heads that reads of
  `heads.latest()` have returned (`GetSth(0)`, `GET /api/sth`, the last step of
  `POST /api/sth/force`). A cycle returns `Ok` when it has written its head, when the
  latest head has its size already, or when the tree is empty; a failed write is an
  error.

  A cycle that is overtaken by a longer one still writes its head, below the latest; a
  cycle that finds the latest head at its own size writes nothing. In every order of
  their steps:

  - `signed_entries_provable`: from the moment a cycle has returned `Ok`, each entry
    acknowledged before the cycle's snapshot is in the tree of a latest head, at a place
    where its inclusion proof verifies. So after `force_sth` nothing acknowledged is left
    unsigned; and the same for the last cycle of a shutdown, which runs once all calls are
    answered. Where nothing was acknowledged there may be no head: a cycle that finds the
    tree empty returns `Ok` without one.
  - `latest_heads_grow`: the sizes of the heads returned never go back.

  Writes to the log may fail and leave gaps in the numbers; the process may crash and
  restart anywhere.
-/

import Settled.Lib.Paired
import Settled.Server.Durability
import Settled.Server.Heads

namespace Settled.Server

open Settled.Lib Settled.Core Settled.Storage

variable (sha256 : Bytes → Hash) (E : Ed25519)

/-! ## The log of a server -/

/-- The server's log is `es`, and all it has answered and signed agrees with that. -/
def LogIs (s : St) (es : List LogEntry) : Prop := ∃ wal, Durable sha256 ⟨s, wal, []⟩ es

section

variable {sha256 E} {s s' : St} {es : List LogEntry}

theorem LogIs.init : LogIs sha256 .init [] := ⟨[], .init sha256⟩

theorem LogIs.step (h : LogIs sha256 s es) {e : Ev} (hs : step sha256 E s e = some s') : ∃ fs, LogIs sha256 s' (es ++ fs) := by
  obtain ⟨wal, hd⟩ := h
  obtain ⟨fs, hd'⟩ := step_durable sha256 E hd hs
  exact ⟨fs, _, hd'⟩

theorem LogIs.logged (h : LogIs sha256 s es) : Logged s.store es := by
  obtain ⟨wal, hd⟩ := h
  have hl := hd.wal.logged
  rw [← hd.store] at hl
  exact hl

theorem LogIs.entries (h : LogIs sha256 s es) : s.store.log.entries.map (·.2) = es := by
  rw [h.logged.log, List.map_map]
  exact List.map_id es

theorem LogIs.heads (h : LogIs sha256 s es) {t : Nat} {sth : SignedTreeHead} (hsth : s.store.heads.get? t = some sth) :
    HeadOk sha256 es t sth := by
  obtain ⟨wal, hd⟩ := h
  exact hd.heads hsth

theorem LogIs.proc (h : LogIs sha256 s es) {p : Proc} (hp : s.proc = some p) : ProcWal sha256 es p := by
  obtain ⟨wal, hd⟩ := h
  exact hd.proc p hp

end

/-- The numbers acknowledged so far. -/
def St.acked (s : St) : List Nat := Machine.acked ⟨s, [], []⟩

theorem LogIs.acked {s : St} {es : List LogEntry} (h : LogIs sha256 s es) {seq : Nat} (hseq : seq ∈ s.acked) :
    ∃ e ∈ es, e.seq = seq := by
  obtain ⟨wal, hd⟩ := h
  obtain ⟨⟨req, result⟩, hr, hseq⟩ := List.mem_flatMap.mp hseq
  cases result with
  | error err => cases hseq
  | ok resps =>
    obtain ⟨r, hr', rfl⟩ := List.mem_map.mp hseq
    obtain ⟨fs, hfs, rfl⟩ := hd.replies req resps hr
    obtain ⟨e, he, rfl⟩ := List.mem_map.mp hr'
    exact ⟨e, hfs.2 e he, rfl⟩

/-! ## Cycles and the heads they leave -/

structure Signing where
  st : St
  /-- For each cycle under way, what was acknowledged when it took its snapshot. -/
  begun : List (List Nat)
  /-- The same for the cycles that have returned `Ok`. -/
  done : List (List Nat)
  /-- What reads of the latest head have returned, in order. -/
  returned : List SignedTreeHead

inductive SigningEv where
  | server (e : Ev)
  | latest
  deriving DecidableEq

/-- The cycles after the event `e`, which led to `s'`: a cycle's step that leaves one cycle
    less was its last. -/
def Signing.track (m : Signing) (s' : St) : Ev → Signing
  | .sign .snapshot => { m with st := s', begun := m.begun ++ [m.st.acked] }
  | .sign (.next i _) =>
    if s'.cycles.length < m.st.cycles.length then
      { m with st := s', begun := m.begun.eraseIdx i, done := m.done ++ m.begun[i]?.toList }
    else { m with st := s' }
  | .sign (.writeFails i) => { m with st := s', begun := m.begun.eraseIdx i }
  | .crash => { m with st := s', begun := [] }
  | _ => { m with st := s' }

def stepSigning (m : Signing) : SigningEv → Option Signing
  | .server e => (step sha256 E m.st e).map fun s' => m.track s' e
  | .latest =>
    match m.st.proc, m.st.store.latestHead with
    | none, _ => none
    | some _, none => some m
    | some _, some sth => some { m with returned := m.returned ++ [sth] }

def Signing.init : Signing := ⟨.init, [], [], []⟩

/-! ## What a signing step does -/

section

variable {sha256 E} {s s' : St} {p : Proc}

/-- The steps of a cycle: its write, its end without one, or on to the next point. -/
theorem stepSign_next {i : Nat} {now : Int} (h : stepSign sha256 E s p (.next i now) = some s') :
    (∃ d publicKey keyVersion, p.signs[i]? = some (.assembled d publicKey keyVersion) ∧
      s'.store = s.store.writeHead (d.head publicKey keyVersion) ∧ s'.proc = some { p with signs := p.signs.eraseIdx i }) ∨
    (∃ treeSize root, p.signs[i]? = some (.snapped treeSize root) ∧
      (treeSize = 0 ∨ latestIs s.store treeSize = true ∨ root = none) ∧
      s' = s.withProc { p with signs := p.signs.eraseIdx i }) ∨
    ∃ t t', p.signs[i]? = some t ∧ t'.snap = t.snap ∧ s' = s.withProc { p with signs := p.signs.set i t' } := by
  simp only [stepSign] at h
  split at h
  · cases h
  next d publicKey keyVersion ht =>
    cases h
    exact Or.inl ⟨d, publicKey, keyVersion, ht, rfl, rfl⟩
  next t hne ht =>
    right
    split at h
    next hn =>
      cases h
      left
      cases t with
      | snapped treeSize root =>
        refine ⟨treeSize, root, ht, ?_, rfl⟩
        simp only [SignTask.next] at hn
        split at hn
        next h0 => exact Or.inl h0
        next =>
          split at hn
          next hl => exact Or.inr (Or.inl hl)
          next => exact Or.inr (Or.inr (Option.map_eq_none_iff.mp hn))
      | assembled d publicKey keyVersion => exact absurd rfl (hne d publicKey keyVersion)
      | checked | stamped | signed | keyed => cases hn
    next t' hn =>
      cases h
      exact Or.inr ⟨t, t', ht, SignTask.next_snap E hn, rfl⟩

/-- The latest head after a write: not below the one written, nor the one before. -/
theorem latestHead_writeHead {store : Store} (hkey : ∀ n x, store.heads.get? n = some x → x.treeSize = n) (sth : SignedTreeHead) :
    ∃ y, (store.writeHead sth).latestHead = some y ∧ sth.treeSize ≤ y.treeSize ∧
      ∀ x, store.latestHead = some x → x.treeSize ≤ y.treeSize := by
  have hlatest : (store.writeHead sth).latestHead = (store.heads.put sth.treeSize sth).last?.map (·.2) := rfl
  cases hl : store.heads.last? with
  | none =>
    have hput := OrdMap.last?_put_of_le (m := store.heads) (k := sth.treeSize) sth fun k' v' hk' => by
      rw [OrdMap.last?_eq_none_iff.mp hl] at hk'
      cases hk'
    refine ⟨sth, by rw [hlatest, hput]; rfl, Nat.le_refl _, fun x hx => ?_⟩
    rw [Store.latestHead, hl] at hx
    cases hx
  | some e =>
    obtain ⟨n, x⟩ := e
    obtain ⟨hget, hmax⟩ := OrdMap.get?_last? hl
    have hx := hkey n x hget
    have hsame : ∀ x', store.latestHead = some x' → x' = x := fun x' hx' => by
      rw [Store.latestHead, hl] at hx'
      exact (Option.some.inj hx').symm
    by_cases hle : n ≤ sth.treeSize
    · have hput := OrdMap.last?_put_of_le (m := store.heads) (k := sth.treeSize) sth
        fun k' v' hk' => Nat.le_trans (hmax k' v' hk') hle
      refine ⟨sth, by rw [hlatest, hput]; rfl, Nat.le_refl _, fun x' hx' => ?_⟩
      rw [hsame x' hx', hx]
      exact hle
    · have hput := OrdMap.last?_put_of_lt sth hl (Nat.lt_of_not_le hle)
      refine ⟨x, by rw [hlatest, hput]; rfl, by omega, fun x' hx' => by rw [hsame x' hx']⟩

end

/-! ## The invariant -/

/-- The first `n` entries have all these numbers. -/
def Covers (es : List LogEntry) (n : Nat) (acked : List Nat) : Prop := ∀ seq ∈ acked, ∃ e ∈ es.take n, e.seq = seq

theorem Covers.mono {es : List LogEntry} {n n' : Nat} {acked : List Nat} (h : Covers es n acked) (hn : n ≤ n')
    (fs : List LogEntry) : Covers (es ++ fs) n' acked := by
  intro seq hseq
  obtain ⟨e, he, heq⟩ := h seq hseq
  obtain ⟨i, hi, rfl⟩ := List.mem_take_iff_getElem.mp he
  refine ⟨es[i], List.mem_take_iff_getElem.mpr ⟨i, ?_, List.getElem_append_left (by omega)⟩, heq⟩
  rw [List.length_append]
  omega

structure SigningInv (m : Signing) (es : List LogEntry) : Prop where
  log : LogIs sha256 m.st es
  begun : List.Forall₂ (fun acked t => Covers es (SignTask.snap t).1 acked) m.begun m.st.cycles
  done : ∀ acked ∈ m.done, acked ≠ [] → ∃ sth, m.st.store.latestHead = some sth ∧ Covers es sth.treeSize acked
  returned : ∀ x ∈ m.returned, ∃ sth, m.st.store.latestHead = some sth ∧ x.treeSize ≤ sth.treeSize
  ordered : m.returned.Pairwise fun x y => x.treeSize ≤ y.treeSize

theorem SigningInv.init : SigningInv sha256 .init [] where
  log := .init
  begun := .nil
  done acked h := by cases h
  returned x h := by cases h
  ordered := .nil

section

variable {sha256 E} {m : Signing} {es fs : List LogEntry} {s' : St}

/-- The latest head has not gone back. -/
def LatestKept (s s' : Store) : Prop := ∀ x, s.latestHead = some x → ∃ y, s'.latestHead = some y ∧ x.treeSize ≤ y.treeSize

theorem LatestKept.of_heads {s s' : Store} (h : s'.heads = s.heads) : LatestKept s s' := fun x hx =>
  ⟨x, by rw [Store.latestHead, h]; exact hx, Nat.le_refl _⟩

theorem SigningInv.done_grow (h : SigningInv sha256 m es) {store : Store} (hk : LatestKept m.st.store store) (fs : List LogEntry) :
    ∀ acked ∈ m.done, acked ≠ [] → ∃ sth, store.latestHead = some sth ∧ Covers (es ++ fs) sth.treeSize acked := by
  intro acked ha hne
  obtain ⟨x, hx, hc⟩ := h.done acked ha hne
  obtain ⟨y, hy, hle⟩ := hk x hx
  exact ⟨y, hy, hc.mono hle fs⟩

theorem SigningInv.returned_grow (h : SigningInv sha256 m es) {store : Store} (hk : LatestKept m.st.store store) :
    ∀ x ∈ m.returned, ∃ sth, store.latestHead = some sth ∧ x.treeSize ≤ sth.treeSize := by
  intro x hx
  obtain ⟨y, hy, hle⟩ := h.returned x hx
  obtain ⟨z, hz, hle'⟩ := hk y hy
  exact ⟨z, hz, Nat.le_trans hle hle'⟩

/-- A step under which no cycle ends. -/
theorem SigningInv.keep (h : SigningInv sha256 m es) (hlog : LogIs sha256 s' (es ++ fs))
    (hk : LatestKept m.st.store s'.store) {begun : List (List Nat)}
    (hb : List.Forall₂ (fun acked t => Covers (es ++ fs) (SignTask.snap t).1 acked) begun s'.cycles) :
    SigningInv sha256 { m with st := s', begun := begun } (es ++ fs) :=
  ⟨hlog, hb, h.done_grow hk fs, h.returned_grow hk, h.ordered⟩

theorem SigningInv.begun_grow (h : SigningInv sha256 m es) (fs : List LogEntry) :
    List.Forall₂ (fun acked t => Covers (es ++ fs) (SignTask.snap t).1 acked) m.begun m.st.cycles :=
  h.begun.imp fun _ _ hc => hc.mono (Nat.le_refl _) fs

theorem Step.cycles {s : St} {e : Ev} (hs : Step sha256 E s e s') (he : ∀ e', e ≠ .sign e') :
    s'.cycles = if e = .crash then [] else s.cycles := by
  cases hs with
  | append hp hs =>
    cases hs with
    | refused | emptyBatch => rfl
    | locked | reserved | written | failed | leaf | unlocked | sent | replied => rw [cycles_of_proc hp]; rfl
  | sign => exact absurd rfl (he _)
  | rotate hp hs => cases hs <;> (rw [cycles_of_proc hp]; rfl)
  | proof hp hs =>
    cases hs with
    | refused => rfl
    | sized | unproved | proved | headRead | answered => rw [cycles_of_proc hp]; rfl
  | watch hp hs => cases hs <;> (rw [cycles_of_proc hp]; rfl)
  | crash => rfl
  | restart hp hr =>
    have hres := restart_restarted sha256 E hp hr
    have hnil : s.cycles = [] := by rw [St.cycles, hp]; rfl
    rw [if_neg (fun h => by cases h), hnil]
    cases hp' : s'.proc with
    | none => rw [St.cycles, hp']; rfl
    | some p' => rw [cycles_of_proc hp', (hres.proc p' hp').2.2.2.2.2.1]

/-- Every event but those of the cycles. -/
theorem SigningInv.other (h : SigningInv sha256 m es) {e : Ev} (hs : step sha256 E m.st e = some s')
    (he : ∀ e', e ≠ .sign e') : ∃ fs, SigningInv sha256 (m.track s' e) (es ++ fs) := by
  obtain ⟨fs, hlog⟩ := h.log.step hs
  have hst := step_step sha256 E hs
  have hk := LatestKept.of_heads (hst.signsKept he).heads
  have hcycles := hst.cycles he
  refine ⟨fs, ?_⟩
  by_cases hcrash : e = .crash
  · subst hcrash
    rw [if_pos rfl] at hcycles
    refine h.keep hlog hk ?_
    rw [hcycles]
    exact .nil
  · have htrack : m.track s' e = { m with st := s', begun := m.begun } := by
      cases e with
      | sign e' => exact absurd rfl (he e')
      | crash => exact absurd rfl hcrash
      | append | rotate | proof | watch | restart => rfl
    rw [htrack]
    refine h.keep hlog hk ?_
    rw [hcycles, if_neg hcrash]
    exact h.begun_grow fs

/-- A cycle's end in `Ok`: the latest head is not below its snapshot. -/
theorem SigningInv.end (h : SigningInv sha256 m es) {p : Proc} (hp : m.st.proc = some p) (hlog : LogIs sha256 s' es)
    (hk : LatestKept m.st.store s'.store) {i : Nat} {t : SignTask} (ht : p.signs[i]? = some t)
    (hp' : s'.proc = some { p with signs := p.signs.eraseIdx i })
    (hlatest : t.snap.1 = 0 ∨ ∃ sth, s'.store.latestHead = some sth ∧ t.snap.1 ≤ sth.treeSize) (now : Int) :
    SigningInv sha256 (m.track s' (.sign (.next i now))) es := by
  have hi := (List.getElem?_eq_some_iff.mp ht).1
  have hcycles := cycles_of_proc hp
  have hcycles' : s'.cycles = m.st.cycles.eraseIdx i := by rw [cycles_of_proc hp', hcycles]
  have hless : s'.cycles.length < m.st.cycles.length := by
    rw [hcycles', List.length_eraseIdx, hcycles, if_pos hi]
    omega
  have hbegun := h.begun
  rw [← hcycles] at ht
  obtain ⟨acked, hacked, hcovers⟩ := paired_getElem? hbegun ht
  have hdone := h.done_grow hk []
  rw [List.append_nil] at hdone
  simp only [Signing.track, if_pos hless, hacked, Option.toList_some]
  refine ⟨hlog, ?_, fun a ha hne => ?_, h.returned_grow hk, h.ordered⟩
  · show List.Forall₂ _ (m.begun.eraseIdx i) s'.cycles
    rw [hcycles']
    exact paired_eraseIdx hbegun i
  · rcases List.mem_append.mp ha with ha | ha
    · exact hdone a ha hne
    · rw [List.mem_singleton.mp ha] at hne ⊢
      rcases hlatest with h0 | ⟨sth, hsth, hle⟩
      · -- nothing was acknowledged before an empty tree's snapshot
        obtain ⟨seq, hseq⟩ := List.exists_mem_of_ne_nil acked hne
        obtain ⟨e, he, -⟩ := hcovers seq hseq
        rw [h0, List.take_zero] at he
        cases he
      · refine ⟨sth, hsth, ?_⟩
        have := hcovers.mono hle []
        rwa [List.append_nil] at this

/-- A root is missing only from the empty tree. -/
theorem SnapOk.root_none {treeSize : Nat} (h : SnapOk sha256 es (treeSize, none)) : treeSize = 0 := by
  obtain ⟨hle, hroot⟩ := h
  by_contra hne
  have hlen : (hashes (es.take treeSize)).length = treeSize := by
    rw [length_hashes, List.length_take]
    exact Nat.min_eq_left hle
  obtain ⟨r, hr⟩ := mth_some (.sha sha256) _ (hashes (es.take treeSize)) rfl fun hnil => by
    rw [hnil] at hlen
    exact hne hlen.symm
  have hnone : (mth (.sha sha256) (hashes (es.take treeSize))).val = none := hroot
  rw [hr] at hnone
  cases hnone

/-- A step of a cycle. -/
theorem SigningInv.next (h : SigningInv sha256 m es) {p : Proc} (hp : m.st.proc = some p) {i : Nat} {now : Int}
    (hlog : LogIs sha256 s' es) (hs : stepSign sha256 E m.st p (.next i now) = some s') :
    SigningInv sha256 (m.track s' (.sign (.next i now))) es := by
  have hkey : ∀ n x, m.st.store.heads.get? n = some x → x.treeSize = n := fun n x hx => (h.log.heads hx).1
  rcases stepSign_next hs with ⟨d, publicKey, keyVersion, ht, hstore, hp'⟩ | ⟨treeSize, root, ht, hend, rfl⟩ | ⟨t, t', ht, hsnap, rfl⟩
  · obtain ⟨y, hy, hle, hmax⟩ := latestHead_writeHead hkey (d.head publicKey keyVersion)
    rw [← hstore] at hy
    exact h.end hp hlog (fun x hx => ⟨y, hy, hmax x hx⟩) ht hp' (Or.inr ⟨y, hy, hle⟩) now
  · refine h.end hp hlog (LatestKept.of_heads rfl) ht rfl ?_ now
    rcases hend with h0 | hl | rfl
    · exact Or.inl h0
    · rw [latestIs, Option.any_eq_true] at hl
      obtain ⟨x, hx, hsize⟩ := hl
      exact Or.inr ⟨x, hx, Nat.le_of_eq (of_decide_eq_true hsize).symm⟩
    · exact Or.inl ((h.log.proc hp).signs _ (List.mem_of_getElem? ht)).root_none
  · have hcycles : (m.st.withProc { p with signs := p.signs.set i t' }).cycles = m.st.cycles.set i t' := by
      rw [cycles_of_proc hp]
      rfl
    rw [← cycles_of_proc hp] at ht
    have hsame : ¬ (m.st.withProc { p with signs := p.signs.set i t' }).cycles.length < m.st.cycles.length := by
      rw [hcycles, List.length_set]
      exact Nat.lt_irrefl _
    simp only [Signing.track, if_neg hsame]
    refine ⟨hlog, ?_, h.done, h.returned, h.ordered⟩
    show List.Forall₂ _ m.begun (m.st.withProc { p with signs := p.signs.set i t' }).cycles
    rw [hcycles]
    exact paired_set h.begun ht fun a ha => by rw [hsnap]; exact ha

theorem SigningInv.sign (h : SigningInv sha256 m es) {e : SignEv} (hs : step sha256 E m.st (.sign e) = some s') :
    SigningInv sha256 (m.track s' (.sign e)) es := by
  obtain ⟨wal, hd⟩ := h.log
  obtain ⟨p, hp, hs⟩ := Option.bind_eq_some_iff.mp hs
  have hlog : LogIs sha256 s' es := ⟨_, stepSign_durable sha256 E hd hp hs⟩
  have herase : ∀ i, (m.st.withProc { p with signs := p.signs.eraseIdx i }).cycles = m.st.cycles.eraseIdx i := fun i => by
    rw [cycles_of_proc hp]
    rfl
  cases e with
  | snapshot =>
    cases stepSign_step sha256 E hs with
    | snapped hmu =>
      have hcrit := (h.log.proc hp).crit
      rw [hmu] at hcrit
      have hsize : p.merkle.size = es.length := by rw [hcrit.2.size, length_hashes]
      refine ⟨hlog, ?_, h.done, h.returned, h.ordered⟩
      show List.Forall₂ _ (m.begun ++ [m.st.acked]) (p.signs ++ [SignTask.snapped p.merkle.size (p.merkle.root (.sha sha256))])
      rw [← cycles_of_proc hp]
      refine paired_push h.begun fun seq hseq => ?_
      show ∃ e ∈ es.take p.merkle.size, e.seq = seq
      rw [hsize, List.take_length]
      exact h.log.acked sha256 hseq
  | next i now => exact h.next hp hlog hs
  | writeFails i =>
    cases stepSign_step sha256 E hs with
    | failed =>
      refine ⟨hlog, ?_, h.done, h.returned, h.ordered⟩
      show List.Forall₂ _ (m.begun.eraseIdx i) (m.st.withProc { p with signs := p.signs.eraseIdx i }).cycles
      rw [herase]
      exact paired_eraseIdx h.begun i

theorem stepSigning_inv {m' : Signing} {e : SigningEv} (h : SigningInv sha256 m es) (hs : stepSigning sha256 E m e = some m') :
    ∃ fs, SigningInv sha256 m' (es ++ fs) := by
  have same : SigningInv sha256 m' es → ∃ fs, SigningInv sha256 m' (es ++ fs) := fun h => ⟨[], by rw [List.append_nil]; exact h⟩
  cases e with
  | server e =>
    obtain ⟨s', hstep, rfl⟩ := Option.map_eq_some_iff.mp hs
    by_cases hsign : ∃ e', e = .sign e'
    · obtain ⟨e', rfl⟩ := hsign
      exact same (h.sign hstep)
    · exact h.other hstep fun e' he => hsign ⟨e', he⟩
  | latest =>
    simp only [stepSigning] at hs
    split at hs
    · cases hs
    · cases hs
      exact same h
    next sth hp hsth =>
      cases hs
      refine same ⟨h.log, h.begun, h.done, fun x hx => ?_, ?_⟩
      · rcases List.mem_append.mp hx with hx | hx
        · exact h.returned x hx
        · rw [List.mem_singleton.mp hx]
          exact ⟨sth, hsth, Nat.le_refl _⟩
      · refine List.pairwise_append.mpr ⟨h.ordered, List.pairwise_singleton _ _, fun x hx y hy => ?_⟩
        obtain ⟨z, hz, hle⟩ := h.returned x hx
        rw [hsth] at hz
        cases hz
        rw [List.mem_singleton.mp hy]
        exact hle

theorem reach_signingInv (h : Reach (stepSigning sha256 E) (fun _ _ => true) .init m) : ∃ es, SigningInv sha256 m es := by
  apply h.inv (P := fun m => ∃ es, SigningInv sha256 m es) ⟨[], .init sha256⟩
  intro m e m' ⟨es, hi⟩ _ hs
  obtain ⟨fs, hi'⟩ := stepSigning_inv hi hs
  exact ⟨es ++ fs, hi'⟩

end

/-! ## What is signed -/

/-- Everything acknowledged before a cycle is provable after it: in every run, once a signing
    cycle has returned `Ok`, then and at every later moment, for each entry that was
    acknowledged when the cycle took its snapshot, there is a latest head, and the entry
    stands in the log at a place below the head's size where the proof `inclusion_proof`
    makes over the head's leaves is accepted under the head's root. -/
theorem signed_entries_provable {m : Signing} (h : Reach (stepSigning sha256 E) (fun _ _ => true) .init m) (acked : List Nat)
    (hdone : acked ∈ m.done) (seq : Nat) (hseq : seq ∈ acked) : ∃ sth i e proof, m.st.store.latestHead = some sth ∧
      (m.st.store.log.entries.map (·.2))[i]? = some e ∧ e.seq = seq ∧ i < sth.treeSize ∧
      inclusionProof (.sha sha256) (hashes ((m.st.store.log.entries.map (·.2)).take sth.treeSize)) i = .ok proof ∧
      (verifyInclusion (.sha sha256) e.leafHash i sth.treeSize proof sth.rootHash).val = true := by
  obtain ⟨es, hi⟩ := reach_signingInv h
  obtain ⟨sth, hsth, hcovers⟩ := hi.done acked hdone (List.ne_nil_of_mem hseq)
  obtain ⟨e, he, rfl⟩ := hcovers seq hseq
  obtain ⟨i, hlt, rfl⟩ := List.mem_take_iff_getElem.mp he
  obtain ⟨n, hl⟩ := latestHead_eq_some hsth
  obtain ⟨rfl, hle, hroot⟩ := hi.log.heads (OrdMap.get?_last? hl).1
  rw [hi.log.entries]
  have hleaf : (hashes (es.take sth.treeSize))[i]? = some es[i].leafHash := by
    rw [hashes, List.getElem?_map, List.getElem?_take_of_lt (by omega), List.getElem?_eq_getElem (by omega)]
    rfl
  obtain ⟨proof, r, c, hproof, hr, ho, -⟩ := inclusionProof_opens (.sha sha256) hleaf
  have hlen : (hashes (es.take sth.treeSize)).length = sth.treeSize := by
    rw [length_hashes, List.length_take]
    exact Nat.min_eq_left hle
  rw [rootAt, hr] at hroot
  rw [hlen, Option.some.inj hroot] at ho
  exact ⟨sth, i, es[i], proof, hsth, List.getElem?_eq_getElem (by omega), rfl, by omega, hproof,
    by rw [verifyInclusion_iff.mpr ho]⟩

/-- Two cycles over one and two entries; the longer one ends first, and the shorter one
    writes its head below the latest. -/
def overtakenRun : List SigningEv :=
  [.server (.restart .zero true)] ++ (appendEvs [1] [10] 5).map .server ++ [.server (.sign .snapshot)] ++
    (appendEvs [2] [20] 6).map .server ++ [.server (.sign .snapshot)] ++
    List.replicate 6 (.server (.sign (.next 1 7))) ++ [.latest] ++ List.replicate 6 (.server (.sign (.next 0 8))) ++ [.latest]

theorem overtakenRun_state : ∃ m, Reach (stepSigning Sha256.sha256 plainKeys) (fun _ _ => true) .init m ∧
    m.done = [[0, 1], [0]] ∧ m.returned.map (·.treeSize) = [2, 2] := by
  have hrun : (run (stepSigning Sha256.sha256 plainKeys) (fun _ _ => true) .init overtakenRun).map
      (fun m => (m.done, m.returned.map (·.treeSize))) = some ([[0, 1], [0]], [2, 2]) := by decide +kernel
  obtain ⟨m, hm, he⟩ := Option.map_eq_some_iff.mp hrun
  obtain ⟨hdone, hret⟩ := Prod.mk.inj he
  exact ⟨m, Reach.init.run hm, hdone, hret⟩

theorem signed_entries_provable_overtaken : ∃ m, Reach (stepSigning Sha256.sha256 plainKeys) (fun _ _ => true) .init m ∧
    [0] ∈ m.done ∧ ∃ sth i e proof, m.st.store.latestHead = some sth ∧ (m.st.store.log.entries.map (·.2))[i]? = some e ∧
      e.seq = 0 ∧ i < sth.treeSize ∧
      inclusionProof (.sha Sha256.sha256) (hashes ((m.st.store.log.entries.map (·.2)).take sth.treeSize)) i = .ok proof ∧
      (verifyInclusion (.sha Sha256.sha256) e.leafHash i sth.treeSize proof sth.rootHash).val = true := by
  obtain ⟨m, hm, hdone, -⟩ := overtakenRun_state
  have hmem : [0] ∈ m.done := by rw [hdone]; decide
  exact ⟨m, hm, hmem, signed_entries_provable Sha256.sha256 plainKeys hm [0] hmem 0 (by decide)⟩

/-- The heads that reads of the latest head return never go back in size. -/
theorem latest_heads_grow {m : Signing} (h : Reach (stepSigning sha256 E) (fun _ _ => true) .init m) :
    m.returned.Pairwise fun x y => x.treeSize ≤ y.treeSize := by
  obtain ⟨es, hi⟩ := reach_signingInv h
  exact hi.ordered

theorem latest_heads_grow_overtaken : ∃ m, Reach (stepSigning Sha256.sha256 plainKeys) (fun _ _ => true) .init m ∧
    m.returned.length = 2 ∧ m.returned.Pairwise fun x y => x.treeSize ≤ y.treeSize := by
  obtain ⟨m, hm, -, hret⟩ := overtakenRun_state
  refine ⟨m, hm, ?_, latest_heads_grow Sha256.sha256 plainKeys hm⟩
  have hlen := congrArg List.length hret
  rwa [List.length_map] at hlen

end Settled.Server
