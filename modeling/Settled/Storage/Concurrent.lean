/-
  Settled.Storage.Concurrent — clones of one `LogStore`, used at the same time
  (`LogStore::append`, `LogStore::append_batch` in `log_store.rs`).

  A call reserves its numbers with one `fetch_add` and commits one `WriteBatch` later;
  between the two any other call may do either. The clones share the counter and the
  database, so the state is these and the calls that have reserved and not yet committed.
  No write fails; the counter stays below the end of `u64`.

  Numbers are given in one order and commits land in another, and the put into the index
  CF does not look at what is there: if the call with the smaller number commits last, the
  index goes back to the older entry (`index_goes_back`). If no commit finds a newer entry
  with one of its keys, the index has the last entry of every key (`index_last_write_wins`).
-/

import Settled.Core.Sha256
import Settled.Lib.Run
import Settled.Lib.Tasks
import Settled.Storage.Store

namespace Settled.Storage

open Settled.Lib Settled.Core

variable (sha256 : Bytes → Hash)

/-! ## Calls -/

/-- `LogStoreInner`, with the batches reserved and not committed. -/
structure Clones where
  store : Store
  nextSeq : Nat
  calls : List (List LogEntry)

def Clones.init : Clones := ⟨.empty, 0, []⟩

inductive CloneEv where
  /-- `append`, up to its write. -/
  | append (key data : Bytes) (timestampNs : Int)
  | appendBatch (entries : List (Bytes × Bytes)) (timestampNs : Int)
  /-- The write of a call. -/
  | commit (i : Nat)
  /-- `Db::open`, with no call under way. -/
  | reopen
  deriving DecidableEq

/-- `fetch_add`, and the batch built from what it returned. -/
def Clones.reserve (c : Clones) (entries : List (Bytes × Bytes)) (timestampNs : Int) : Option Clones :=
  if c.nextSeq + entries.length ≤ u64Max then
    some { c with nextSeq := c.nextSeq + entries.length,
                  calls := c.calls ++ [entriesOf sha256 c.nextSeq timestampNs entries] }
  else none

def stepClones (c : Clones) : CloneEv → Option Clones
  | .append key data timestampNs => c.reserve sha256 [(key, data)] timestampNs
  | .appendBatch [] _ => some c
  | .appendBatch (e :: entries) timestampNs => c.reserve sha256 (e :: entries) timestampNs
  | .commit i =>
    match c.calls[i]? with
    | none => none
    | some batch => some { c with store := c.store.writeBatch batch, calls := c.calls.eraseIdx i }
  | .reopen => if c.calls = [] then some { c with nextSeq := c.store.nextSeq } else none

/-- No commit finds a newer entry with one of its keys. -/
def commitsLatest (c : Clones) : CloneEv → Bool
  | .commit i =>
    match c.calls[i]? with
    | none => true
    | some batch => c.store.log.entries.all fun row => batch.all fun e => row.2.key ≠ e.key || row.1 < e.seq
  | _ => true

/-! ## The index -/

/-- The index has, for each key, the greatest number under which the log has it. -/
def Store.LastWins (s : Store) : Prop := ∀ k n, s.getSeqByKey k = some n ↔
  (∃ e, s.getBySeq n = some e ∧ e.key = k) ∧ ∀ m e, s.getBySeq m = some e → e.key = k → m ≤ n

theorem getBySeq_putEntry (s : Store) (e : LogEntry) (m : Nat) :
    (s.putEntry e).getBySeq m = if m = e.seq then some e else s.getBySeq m := by
  show (s.log.put e.seq e).get? m = _
  rw [OrdMap.get?_put]
  rfl

/-- An entry under a new number, above those of its key. -/
theorem Store.LastWins.putEntry {s : Store} (h : s.LastWins) {e : LogEntry} (hnew : s.getBySeq e.seq = none)
    (hlast : ∀ m e', s.getBySeq m = some e' → e'.key = e.key → m < e.seq) : (s.putEntry e).LastWins := by
  intro k n
  have hindex : (s.putEntry e).getSeqByKey k = if k = e.key then some e.seq else s.getSeqByKey k := rfl
  rw [hindex]
  by_cases hk : k = e.key
  · rw [if_pos hk]
    constructor
    · intro hn
      cases hn
      refine ⟨⟨e, by rw [getBySeq_putEntry, if_pos rfl], hk.symm⟩, fun m e' hm hk' => ?_⟩
      rw [getBySeq_putEntry] at hm
      split at hm
      next heq => exact Nat.le_of_eq heq
      next => exact Nat.le_of_lt (hlast m e' hm (hk'.trans hk))
    · intro ⟨⟨e', hn, hk'⟩, hmax⟩
      have hle : e.seq ≤ n := hmax e.seq e (by rw [getBySeq_putEntry, if_pos rfl]) hk.symm
      rw [getBySeq_putEntry] at hn
      split at hn
      next heq => rw [heq]
      next =>
        have := hlast n e' hn (hk'.trans hk)
        omega
  · rw [if_neg hk, h k n]
    have hother : ∀ m e', e'.key = k → ((s.putEntry e).getBySeq m = some e' ↔ s.getBySeq m = some e') := by
      intro m e' hk'
      rw [getBySeq_putEntry]
      by_cases hm : m = e.seq
      · rw [if_pos hm, hm, hnew]
        constructor
        · intro he
          cases he
          exact absurd hk'.symm hk
        · intro he
          cases he
      · rw [if_neg hm]
    constructor
    · intro ⟨⟨e', hn, hk'⟩, hmax⟩
      exact ⟨⟨e', (hother n e' hk').mpr hn, hk'⟩, fun m f hm hf => hmax m f ((hother m f hf).mp hm) hf⟩
    · intro ⟨⟨e', hn, hk'⟩, hmax⟩
      exact ⟨⟨e', (hother n e' hk').mp hn, hk'⟩, fun m f hm hf => hmax m f ((hother m f hf).mpr hm) hf⟩

/-- A batch in the order of its numbers: of several entries with one key the last stays. -/
theorem Store.LastWins.writeBatch : ∀ {batch : List LogEntry} {s : Store}, s.LastWins →
    (batch.map (·.seq)).Pairwise (· < ·) → (∀ e ∈ batch, s.getBySeq e.seq = none) →
    (∀ e ∈ batch, ∀ m e', s.getBySeq m = some e' → e'.key = e.key → m < e.seq) → (s.writeBatch batch).LastWins := by
  intro batch
  induction batch with
  | nil => intro s h _ _ _; exact h
  | cons e batch ih =>
    intro s h hasc hnew hlast
    rw [List.map_cons, List.pairwise_cons] at hasc
    obtain ⟨hlt, hasc⟩ := hasc
    have hput := h.putEntry (hnew e List.mem_cons_self) (hlast e List.mem_cons_self)
    apply ih hput hasc
    · intro f hf
      have hef := hlt f.seq (List.mem_map_of_mem hf)
      rw [getBySeq_putEntry, if_neg (by omega)]
      exact hnew f (List.mem_cons_of_mem _ hf)
    · intro f hf m e' hm hk
      have hef := hlt f.seq (List.mem_map_of_mem hf)
      rw [getBySeq_putEntry] at hm
      split at hm
      next heq => rw [heq]; exact hef
      next => exact hlast f (List.mem_cons_of_mem _ hf) m e' hm hk

theorem getBySeq_writeBatch : ∀ {batch : List LogEntry} {s : Store} {m : Nat} {e : LogEntry},
    (s.writeBatch batch).getBySeq m = some e → s.getBySeq m = some e ∨ ∃ f ∈ batch, f.seq = m := by
  intro batch
  induction batch with
  | nil => intro s m e h; exact Or.inl h
  | cons f batch ih =>
    intro s m e h
    rcases ih (show ((s.putEntry f).writeBatch batch).getBySeq m = some e from h) with h | ⟨g, hg, hm⟩
    · rw [getBySeq_putEntry] at h
      split at h
      next heq => exact Or.inr ⟨f, List.mem_cons_self, heq.symm⟩
      next => exact Or.inl h
    · exact Or.inr ⟨g, List.mem_cons_of_mem _ hg, hm⟩

/-! ## Runs -/

/-- Every number is given once: to a stored entry or to a call under way. -/
structure ClonesInv (c : Clones) : Prop where
  index : c.store.LastWins
  below : ∀ m e, c.store.getBySeq m = some e → m < c.nextSeq
  ascending : ∀ b ∈ c.calls, (b.map (·.seq)).Pairwise (· < ·)
  unstored : ∀ b ∈ c.calls, ∀ e ∈ b, e.seq < c.nextSeq ∧ c.store.getBySeq e.seq = none
  distinct : c.calls.Pairwise fun a b => ∀ e ∈ a, ∀ f ∈ b, e.seq ≠ f.seq

theorem ClonesInv.init : ClonesInv .init where
  index k n := by
    constructor
    · intro h
      cases h
    · intro ⟨⟨e, he, _⟩, _⟩
      cases he
  below m e h := by cases h
  ascending b hb := by cases hb
  unstored b hb := by cases hb
  distinct := List.Pairwise.nil

theorem symm_distinct {a b : List LogEntry} (h : ∀ e ∈ a, ∀ f ∈ b, e.seq ≠ f.seq) : ∀ e ∈ b, ∀ f ∈ a, e.seq ≠ f.seq :=
  fun e he f hf => (h f hf e he).symm

theorem ClonesInv.reserve {c c' : Clones} (h : ClonesInv c) {entries : List (Bytes × Bytes)} {ts : Int}
    (hs : c.reserve sha256 entries ts = some c') : ClonesInv c' := by
  unfold Clones.reserve at hs
  split at hs
  · cases hs
    have hseqs := map_seq_entriesOf sha256 entries c.nextSeq ts
    have hnum : ∀ e ∈ entriesOf sha256 c.nextSeq ts entries, c.nextSeq ≤ e.seq ∧ e.seq < c.nextSeq + entries.length := by
      intro e he
      have hmem : e.seq ∈ List.range' c.nextSeq entries.length := by
        rw [← hseqs]
        exact List.mem_map_of_mem he
      exact List.mem_range'_1.mp hmem
    refine ⟨h.index, fun m e hm => ?_, fun b hb => ?_, fun b hb e he => ?_, pairwise_push symm_distinct h.distinct ?_⟩
    · exact Nat.lt_of_lt_of_le (h.below m e hm) (Nat.le_add_right _ _)
    · rcases List.mem_append.mp hb with hb | hb
      · exact h.ascending b hb
      · rw [List.mem_singleton.mp hb, hseqs]
        exact List.pairwise_lt_range'
    · rcases List.mem_append.mp hb with hb | hb
      · obtain ⟨hlt, hnone⟩ := h.unstored b hb e he
        exact ⟨Nat.lt_of_lt_of_le hlt (Nat.le_add_right _ _), hnone⟩
      · rw [List.mem_singleton.mp hb] at he
        refine ⟨(hnum e he).2, ?_⟩
        cases hget : c.store.getBySeq e.seq with
        | none => rfl
        | some e' =>
          have := h.below _ e' hget
          have := (hnum e he).1
          omega
    · intro b hb e he f hf
      have := (hnum e he).1
      have := (h.unstored b hb f hf).1
      omega
  · cases hs

theorem ClonesInv.commit {c : Clones} (h : ClonesInv c) {i : Nat} {batch : List LogEntry} (hb : c.calls[i]? = some batch)
    (hok : commitsLatest c (.commit i) = true) :
    ClonesInv { c with store := c.store.writeBatch batch, calls := c.calls.eraseIdx i } := by
  have hmem := List.mem_of_getElem? hb
  have hrest := pairwise_rest symm_distinct h.distinct hb
  have hlatest : ∀ e ∈ batch, ∀ m e', c.store.getBySeq m = some e' → e'.key = e.key → m < e.seq := by
    intro e he m e' hm hk
    simp only [commitsLatest, hb, List.all_eq_true] at hok
    have hrow := hok (m, e') (OrdMap.mem_entries.mpr hm) e he
    rw [Bool.or_eq_true, decide_eq_true_iff, decide_eq_true_iff] at hrow
    exact hrow.resolve_left fun hne => hne hk
  refine ⟨?_, fun m e hm => ?_, fun b hb' => h.ascending b (List.mem_of_mem_eraseIdx hb'), fun b hb' e he => ?_,
    pairwise_eraseIdx h.distinct i⟩
  · exact h.index.writeBatch (h.ascending batch hmem) (fun e he => (h.unstored batch hmem e he).2) hlatest
  · rcases getBySeq_writeBatch hm with hm | ⟨f, hf, rfl⟩
    · exact h.below m e hm
    · exact (h.unstored batch hmem f hf).1
  · obtain ⟨hlt, hnone⟩ := h.unstored b (List.mem_of_mem_eraseIdx hb') e he
    refine ⟨hlt, ?_⟩
    cases hget : (c.store.writeBatch batch).getBySeq e.seq with
    | none => rfl
    | some e' =>
      rcases getBySeq_writeBatch hget with hget | ⟨f, hf, heq⟩
      · rw [hnone] at hget
        cases hget
      · exact absurd heq (hrest b hb' f hf e he)

theorem ClonesInv.reopen {c : Clones} (h : ClonesInv c) (hcalls : c.calls = []) :
    ClonesInv { c with nextSeq := c.store.nextSeq } := by
  refine ⟨h.index, fun m e hm => ?_, h.ascending, fun b hb => ?_, h.distinct⟩
  · show m < c.store.nextSeq
    unfold Store.nextSeq
    split
    next hlast =>
      rw [Store.getBySeq, OrdMap.last?_eq_none_iff.mp hlast] at hm
      cases hm
    next seq x hlast => exact Nat.lt_succ_of_le ((OrdMap.get?_last? hlast).2 m e hm)
  · have hb : b ∈ c.calls := hb
    rw [hcalls] at hb
    cases hb

theorem stepClones_inv {c c' : Clones} {e : CloneEv} (h : ClonesInv c) (hok : commitsLatest c e = true)
    (hs : stepClones sha256 c e = some c') : ClonesInv c' := by
  cases e with
  | append key data ts => exact h.reserve sha256 hs
  | appendBatch entries ts =>
    cases entries with
    | nil => cases hs; exact h
    | cons e entries => exact h.reserve sha256 hs
  | commit i =>
    simp only [stepClones] at hs
    split at hs
    · cases hs
    next batch hb => cases hs; exact h.commit hb hok
  | reopen =>
    simp only [stepClones] at hs
    split at hs
    next hcalls => cases hs; exact h.reopen hcalls
    · cases hs

/-- In every run of concurrent calls in which no commit finds a newer entry with one of
    its keys, the index has, for every key, the greatest number of a stored entry with it:
    in particular once all calls have returned. -/
theorem index_last_write_wins {c : Clones} (h : Reach (stepClones sha256) commitsLatest .init c) (k : Bytes) (n : Nat) :
    c.store.getSeqByKey k = some n ↔ (∃ e, c.store.getBySeq n = some e ∧ e.key = k) ∧
      ∀ m e, c.store.getBySeq m = some e → e.key = k → m ≤ n := by
  have hinv : ClonesInv c := by
    apply h.inv (P := ClonesInv) .init
    intro c e c' hi hok hs
    exact stepClones_inv sha256 hi hok hs
  exact hinv.index k n

/-- Two calls reserve their numbers, one entry and a batch with its key again. -/
def twoCalls : List CloneEv := [.append [1] [10] 5, .appendBatch [([2], [20]), ([1], [30])] 6]

/-- They commit in this order; a call under another key, the first to reserve, comes
    last. -/
theorem index_last_write_wins_two_calls : ∃ c, Reach (stepClones Sha256.sha256) commitsLatest .init c ∧ c.calls = [] ∧
    c.store.getSeqByKey [1] = some 3 ∧ ∀ m e, c.store.getBySeq m = some e → e.key = [1] → m ≤ 3 := by
  have hrun : (run (stepClones Sha256.sha256) commitsLatest .init
      (.append [3] [40] 4 :: twoCalls ++ [.commit 1, .commit 1, .commit 0])).map
        (fun c => (c.calls, c.store.getSeqByKey [1])) = some ([], some 3) := by decide +kernel
  obtain ⟨c, hs, heq⟩ := Option.map_eq_some_iff.mp hrun
  obtain ⟨hcalls, hkey⟩ := Prod.mk.inj heq
  have hr : Reach (stepClones Sha256.sha256) commitsLatest .init c := Reach.init.run hs
  exact ⟨c, hr, hcalls, hkey, ((index_last_write_wins Sha256.sha256 hr [1] 3).mp hkey).2⟩

/-- The call with the smaller number commits last: the index goes back to its entry. -/
theorem index_goes_back : ∃ c e, Reach (stepClones Sha256.sha256) (fun _ _ => true) .init c ∧ c.calls = [] ∧
    c.store.getSeqByKey [1] = some 0 ∧ c.store.getBySeq 2 = some e ∧ e.key = [1] := by
  have hrun : (run (stepClones Sha256.sha256) (fun _ _ => true) .init (twoCalls ++ [.commit 1, .commit 0])).map
      (fun c => (c.calls, c.store.getSeqByKey [1], (c.store.getBySeq 2).map (·.key))) = some ([], some 0, some [1]) := by
    decide +kernel
  obtain ⟨c, hs, heq⟩ := Option.map_eq_some_iff.mp hrun
  obtain ⟨hcalls, heq⟩ := Prod.mk.inj heq
  obtain ⟨hkey, hget⟩ := Prod.mk.inj heq
  obtain ⟨e, he, hk⟩ := Option.map_eq_some_iff.mp hget
  exact ⟨c, e, Reach.init.run hs, hcalls, hkey, he, hk⟩

end Settled.Storage
