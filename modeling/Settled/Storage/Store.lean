/-
  Settled.Storage.Store — the column families of `settled-storage` and the operations
  the server puts to them (`log_store.rs`, `head_store.rs`, `key_store.rs`, `db.rs`).

  The log, heads and keys CFs are keyed by fixed-width big-endian numbers, whose byte
  order is the numeric one; each is an ordered map. The index CF is only read and
  written by key, and is a function. An entry is stored as its protobuf encoding; the
  model stores the record. Sequence numbers and sizes are naturals: `u64Max` is where
  the code's would end. Reads do not fail; writes may, and then write nothing.

  `Holds` says what a log over the entries `es` is: keyed 0, 1, ..., each entry under
  its own number and with its data's leaf hash. `writeBatch` of the next entries keeps
  it (`writeBatch_log`).
-/

import Mathlib.Data.List.Induction
import Settled.Core.Merkle
import Settled.Lib.OrdMap

namespace Settled.Storage

open Settled.Lib Settled.Core

def u64Max : Nat := 2 ^ 64 - 1

structure LogEntry where
  seq : Nat
  timestampNs : Int
  key : Bytes
  data : Bytes
  leafHash : Hash
  deriving DecidableEq

structure SignedTreeHead where
  treeSize : Nat
  rootHash : Hash
  timestampNs : Int
  signature : Bytes
  publicKey : Hash
  keyVersion : Nat
  deriving DecidableEq

structure KeyRecord where
  version : Nat
  publicKey : Hash
  activatedAtTreeSize : Nat
  deriving DecidableEq

/-- What is on disk. -/
structure Store where
  log : OrdMap Nat LogEntry
  index : Bytes → Option Nat
  heads : OrdMap Nat SignedTreeHead
  keys : OrdMap Nat KeyRecord

def Store.empty : Store := ⟨.empty, fun _ => none, .empty, .empty⟩

/-! ## Log and index -/

/-- The entries of one call: numbered from `first`, in input order, with one timestamp. -/
def entriesOf (sha256 : Bytes → Hash) (first : Nat) (timestampNs : Int) : List (Bytes × Bytes) → List LogEntry
  | [] => []
  | (key, data) :: rest =>
    ⟨first, timestampNs, key, data, leafHash sha256 data⟩ :: entriesOf sha256 (first + 1) timestampNs rest

/-- The two puts of an entry. -/
def Store.putEntry (s : Store) (e : LogEntry) : Store :=
  { s with log := s.log.put e.seq e, index := fun k => if k = e.key then some e.seq else s.index k }

/-- One `WriteBatch`, applied in order. -/
def Store.writeBatch (s : Store) (entries : List LogEntry) : Store := entries.foldl Store.putEntry s

/-- `Db::open`: the number after the last key of the log. -/
def Store.nextSeq (s : Store) : Nat :=
  match s.log.last? with
  | none => 0
  | some (seq, _) => seq + 1

def Store.getBySeq (s : Store) (seq : Nat) : Option LogEntry := s.log.get? seq

def Store.getSeqByKey (s : Store) (key : Bytes) : Option Nat := s.index key

/-- Entries with `seq` in `[start, stop)`. -/
def Store.seqRange (s : Store) (start stop : Nat) : List LogEntry := s.log.range start stop

/-- Up to `limit` entries with `seq` in `[start, stop)` (`stop = 0`: no bound), and the
    cursor for the next page (0: no more). -/
def Store.seqRangePaged (s : Store) (start stop limit : Nat) : List LogEntry × Nat :=
  if limit = 0 then ([], 0)
  else
    let rest := s.log.entries.dropWhile fun e => e.1 < start
    let rest := if stop = 0 then rest else rest.takeWhile fun e => e.1 < stop
    let page := rest.take limit
    let next := match page.getLast? with
      | none => 0
      | some (seq, _) => if page.length < limit then 0 else if stop = 0 ∨ seq + 1 < stop then seq + 1 else 0
    (page.map (·.2), next)

/-! ## Heads and keys -/

def Store.writeHead (s : Store) (sth : SignedTreeHead) : Store := { s with heads := s.heads.put sth.treeSize sth }

def Store.latestHead (s : Store) : Option SignedTreeHead := s.heads.last?.map (·.2)

def Store.headAtSize (s : Store) (treeSize : Nat) : Option SignedTreeHead := s.heads.get? treeSize

def Store.putKey (s : Store) (r : KeyRecord) : Store := { s with keys := s.keys.put r.version r }

def Store.getKey (s : Store) (version : Nat) : Option KeyRecord := s.keys.get? version

/-- All records, by version. -/
def Store.allKeys (s : Store) : List KeyRecord := s.keys.entries.map (·.2)

def Store.latestKey (s : Store) : Option KeyRecord := s.keys.last?.map (·.2)

/-! ## A log without gaps -/

variable (sha256 : Bytes → Hash)

def hashes (es : List LogEntry) : List Hash := es.map (·.leafHash)

@[simp] theorem hashes_append (es fs : List LogEntry) : hashes (es ++ fs) = hashes es ++ hashes fs := List.map_append
@[simp] theorem length_hashes (es : List LogEntry) : (hashes es).length = es.length := List.length_map _

/-- The index after the entries `es`, in order. -/
def indexOf (es : List LogEntry) : Bytes → Option Nat :=
  es.foldl (fun ix e k => if k = e.key then some e.seq else ix k) fun _ => none

/-- Entries numbered from `first`, each with the leaf hash of its data. -/
def Numbered (first : Nat) (es : List LogEntry) : Prop :=
  ∀ i e, es[i]? = some e → e.seq = first + i ∧ e.leafHash = leafHash sha256 e.data

/-- The log and the index hold exactly `es`. -/
structure Holds (s : Store) (es : List LogEntry) : Prop where
  log : s.log = .ofList es
  index : s.index = indexOf es
  numbered : Numbered sha256 0 es

theorem Holds.empty : Holds sha256 .empty [] := ⟨rfl, rfl, fun i e h => by cases h⟩

theorem length_entriesOf (reqs : List (Bytes × Bytes)) : ∀ (first : Nat) (ts : Int),
    (entriesOf sha256 first ts reqs).length = reqs.length := by
  induction reqs with
  | nil => intro first ts; rfl
  | cons r reqs ih => intro first ts; rw [entriesOf, List.length_cons, ih, List.length_cons]

theorem getElem?_entriesOf (reqs : List (Bytes × Bytes)) : ∀ (first : Nat) (ts : Int) (i : Nat),
    (entriesOf sha256 first ts reqs)[i]? =
      reqs[i]?.map fun r => ⟨first + i, ts, r.1, r.2, leafHash sha256 r.2⟩ := by
  induction reqs with
  | nil => intro first ts i; rfl
  | cons r reqs ih =>
    intro first ts i
    cases i with
    | zero => rfl
    | succ i =>
      rw [entriesOf, List.getElem?_cons_succ, List.getElem?_cons_succ, ih, Nat.add_right_comm, Nat.add_assoc]

theorem numbered_entriesOf (reqs : List (Bytes × Bytes)) (first : Nat) (ts : Int) :
    Numbered sha256 first (entriesOf sha256 first ts reqs) := by
  intro i e h
  rw [getElem?_entriesOf, Option.map_eq_some_iff] at h
  obtain ⟨r, -, rfl⟩ := h
  exact ⟨rfl, rfl⟩

theorem map_seq_entriesOf (reqs : List (Bytes × Bytes)) : ∀ (first : Nat) (ts : Int),
    (entriesOf sha256 first ts reqs).map (·.seq) = List.range' first reqs.length := by
  induction reqs with
  | nil => intro first ts; rfl
  | cons r reqs ih => intro first ts; rw [entriesOf, List.map_cons, ih, List.length_cons, List.range'_succ]

theorem Numbered.map_seq {first : Nat} {es : List LogEntry} (h : Numbered sha256 first es) :
    es.map (·.seq) = List.range' first es.length := by
  apply List.ext_getElem?
  intro i
  rw [List.getElem?_map]
  cases he : es[i]? with
  | none =>
    have hlen : (List.range' first es.length).length ≤ i := by
      rw [List.length_range']
      exact List.getElem?_eq_none_iff.mp he
    rw [List.getElem?_eq_none hlen]
    rfl
  | some e =>
    have hlt := (List.getElem?_eq_some_iff.mp he).1
    rw [List.getElem?_range' hlt, Option.map_some, (h i e he).1, Nat.one_mul]

theorem Numbered.take {first : Nat} {es : List LogEntry} (h : Numbered sha256 first es) (n : Nat) :
    Numbered sha256 first (es.take n) := by
  intro i e hi
  rw [List.getElem?_take] at hi
  split at hi
  · exact h i e hi
  · cases hi

theorem Numbered.append {first : Nat} {es fs : List LogEntry} (h : Numbered sha256 first es)
    (h' : Numbered sha256 (first + es.length) fs) : Numbered sha256 first (es ++ fs) := by
  intro i e hi
  by_cases hlt : i < es.length
  · rw [List.getElem?_append_left hlt] at hi
    exact h i e hi
  · rw [List.getElem?_append_right (by omega)] at hi
    obtain ⟨h1, h2⟩ := h' _ e hi
    exact ⟨by omega, h2⟩

/-- A batch of the next numbers appends it to the log. -/
theorem writeBatch_log : ∀ {fs : List LogEntry} {s : Store} {es : List LogEntry}, s.log = .ofList es →
    Numbered sha256 es.length fs → (s.writeBatch fs).log = .ofList (es ++ fs) := by
  intro fs
  induction fs with
  | nil => intro s es h _; rw [List.append_nil]; exact h
  | cons f fs ih =>
    intro s es h hn
    have hf := (hn 0 f rfl).1
    have hlog : (s.putEntry f).log = .ofList (es ++ [f]) := by
      rw [← OrdMap.put_ofList, ← h]
      show s.log.put f.seq f = s.log.put es.length f
      rw [hf, Nat.add_zero]
    have hrest : Numbered sha256 (es ++ [f]).length fs := by
      intro i e hi
      obtain ⟨h1, h2⟩ := hn (i + 1) e (by simpa using hi)
      rw [List.length_append, List.length_singleton]
      exact ⟨by omega, h2⟩
    have := ih hlog hrest
    rw [List.append_assoc, List.singleton_append] at this
    exact this

theorem indexOf_append (es : List LogEntry) (f : LogEntry) (k : Bytes) :
    indexOf (es ++ [f]) k = if k = f.key then some f.seq else indexOf es k := by
  rw [indexOf, List.foldl_append, List.foldl_cons, List.foldl_nil]
  rfl

theorem writeBatch_index : ∀ {fs : List LogEntry} {s : Store} {es : List LogEntry}, s.index = indexOf es →
    (s.writeBatch fs).index = indexOf (es ++ fs) := by
  intro fs
  induction fs with
  | nil => intro s es h; rw [List.append_nil]; exact h
  | cons f fs ih =>
    intro s es h
    have hput : (s.putEntry f).index = indexOf (es ++ [f]) := by
      funext k
      rw [indexOf_append, ← h]
      rfl
    have := ih hput
    rw [List.append_assoc, List.singleton_append] at this
    exact this

theorem writeBatch_frame (fs : List LogEntry) : ∀ s : Store,
    (s.writeBatch fs).heads = s.heads ∧ (s.writeBatch fs).keys = s.keys := by
  induction fs with
  | nil => intro s; exact ⟨rfl, rfl⟩
  | cons f fs ih => intro s; exact ih (s.putEntry f)

theorem Holds.writeBatch {s : Store} {es fs : List LogEntry} (h : Holds sha256 s es) (hn : Numbered sha256 es.length fs) :
    Holds sha256 (s.writeBatch fs) (es ++ fs) where
  log := writeBatch_log sha256 h.log hn
  index := writeBatch_index h.index
  numbered := h.numbered.append sha256 (by rw [Nat.zero_add]; exact hn)

theorem Holds.nextSeq {s : Store} {es : List LogEntry} (h : Holds sha256 s es) : s.nextSeq = es.length := by
  rw [Store.nextSeq, h.log]
  cases es using List.reverseRecOn with
  | nil => rfl
  | append_singleton fs e => rw [OrdMap.last?_ofList_append, List.length_append, List.length_singleton]

theorem Holds.seqRange {s : Store} {es : List LogEntry} (h : Holds sha256 s es) (stop : Nat) :
    s.seqRange 0 stop = es.take stop := by rw [Store.seqRange, h.log, OrdMap.range_ofList]

theorem Holds.getBySeq {s : Store} {es : List LogEntry} (h : Holds sha256 s es) (i : Nat) : s.getBySeq i = es[i]? := by
  rw [Store.getBySeq, h.log, OrdMap.get?_ofList]

/-- Last write wins: the index has, for each key, the number of the last entry with it. -/
theorem indexOf_eq_some {es : List LogEntry} (hn : Numbered sha256 0 es) {k : Bytes} {n : Nat} :
    indexOf es k = some n ↔
      (∃ e, es[n]? = some e ∧ e.key = k) ∧ ∀ i e, es[i]? = some e → e.key = k → i ≤ n := by
  induction es using List.reverseRecOn with
  | nil => simp [indexOf]
  | append_singleton es f ih =>
    have hn' : Numbered sha256 0 es := by
      intro i e hi
      have hlt := (List.getElem?_eq_some_iff.mp hi).1
      exact hn i e (by rw [List.getElem?_append_left hlt]; exact hi)
    have hf : f.seq = es.length := by
      have := (hn es.length f (by simp)).1
      omega
    rw [indexOf_append]
    by_cases hk : k = f.key
    · rw [if_pos hk, Option.some.injEq, hf]
      constructor
      · intro h
        subst h
        refine ⟨⟨f, by simp, hk.symm⟩, fun i e hi _ => ?_⟩
        have := (List.getElem?_eq_some_iff.mp hi).1
        rw [List.length_append, List.length_singleton] at this
        omega
      · intro ⟨⟨e, he, _⟩, hmax⟩
        have h1 := hmax es.length f (by simp) hk.symm
        have h2 := (List.getElem?_eq_some_iff.mp he).1
        rw [List.length_append, List.length_singleton] at h2
        omega
    · rw [if_neg hk, ih hn']
      have hlast : ∀ (i : Nat) (e : LogEntry), (es ++ [f])[i]? = some e → e.key = k → es[i]? = some e := by
        intro i e hi he
        by_cases hlt : i < es.length
        · rw [List.getElem?_append_left hlt] at hi
          exact hi
        · have hi' := (List.getElem?_eq_some_iff.mp hi).1
          rw [List.length_append, List.length_singleton] at hi'
          have : i = es.length := by omega
          subst this
          rw [List.getElem?_concat_length, Option.some.injEq] at hi
          exact absurd (he.symm.trans (by rw [← hi])) hk
      have hmono : ∀ (i : Nat) (e : LogEntry), es[i]? = some e → (es ++ [f])[i]? = some e := by
        intro i e hi
        rw [List.getElem?_append_left (List.getElem?_eq_some_iff.mp hi).1]
        exact hi
      constructor
      · intro ⟨⟨e, he, hek⟩, hmax⟩
        exact ⟨⟨e, hmono n e he, hek⟩, fun i e' hi hk' => hmax i e' (hlast i e' hi hk') hk'⟩
      · intro ⟨⟨e, he, hek⟩, hmax⟩
        exact ⟨⟨e, hlast n e he hek, hek⟩, fun i e' hi hk' => hmax i e' (hmono i e' hi) hk'⟩

/-! ## A log with gaps -/

/-- The log holds `es`, each entry under its own number, which is below the end. -/
structure Logged (s : Store) (es : List LogEntry) : Prop where
  log : s.log.entries = es.map fun e => (e.seq, e)
  bound : ∀ e ∈ es, e.seq < u64Max

theorem Logged.empty : Logged .empty [] := ⟨rfl, fun e he => by cases he⟩

section

variable {s : Store} {es : List LogEntry}

theorem Logged.getBySeq (h : Logged s es) {e : LogEntry} (he : e ∈ es) : s.getBySeq e.seq = some e := by
  apply OrdMap.mem_entries.mp
  rw [h.log]
  exact List.mem_map_of_mem he

theorem Logged.eq_of_seq (h : Logged s es) {e e' : LogEntry} (he : e ∈ es) (he' : e' ∈ es) (hseq : e.seq = e'.seq) : e = e' := by
  have h1 := h.getBySeq he
  rw [hseq, h.getBySeq he'] at h1
  exact (Option.some.inj h1).symm

theorem Logged.seqRange (h : Logged s es) : s.seqRange 0 u64Max = es := by
  rw [Store.seqRange, OrdMap.range_all, h.log, List.map_map]
  · exact List.map_id es
  · intro x hx
    rw [h.log] at hx
    obtain ⟨e, he, rfl⟩ := List.mem_map.mp hx
    exact h.bound e he

/-- The next number is above all, and in range. -/
theorem Logged.nextSeq (h : Logged s es) : (∀ e ∈ es, e.seq < s.nextSeq) ∧ s.nextSeq ≤ u64Max := by
  unfold Store.nextSeq
  split
  next hlast =>
    refine ⟨fun e he => ?_, Nat.zero_le _⟩
    have := h.getBySeq he
    rw [Store.getBySeq, OrdMap.last?_eq_none_iff.mp hlast] at this
    cases this
  next seq x hlast =>
    obtain ⟨hget, hmax⟩ := OrdMap.get?_last? hlast
    refine ⟨fun e he => Nat.lt_succ_of_le (hmax e.seq e (h.getBySeq he)), ?_⟩
    have hmem := OrdMap.mem_entries.mpr hget
    rw [h.log] at hmem
    obtain ⟨e, he, heq⟩ := List.mem_map.mp hmem
    rw [← (Prod.mk.inj heq).1]
    exact h.bound e he

theorem Logged.writeBatch : ∀ {fs : List LogEntry} {s : Store} {es : List LogEntry} {first : Nat}, Logged s es →
    (∀ e ∈ es, e.seq < first) → Numbered sha256 first fs → first + fs.length ≤ u64Max → Logged (s.writeBatch fs) (es ++ fs) := by
  intro fs
  induction fs with
  | nil => intro s es first h _ _ _; rw [List.append_nil]; exact h
  | cons f fs ih =>
    intro s es first h habove hnum hbound
    have hf : f.seq = first := (hnum 0 f rfl).1
    rw [List.length_cons] at hbound
    have hput : Logged (s.putEntry f) (es ++ [f]) := by
      refine ⟨?_, fun e he => ?_⟩
      · show OrdMap.insert f.seq f s.log.entries = _
        rw [h.log, OrdMap.insert_of_forall_lt, List.map_append]
        · rfl
        · intro x hx
          obtain ⟨e, he, rfl⟩ := List.mem_map.mp hx
          rw [hf]
          exact habove e he
      · rcases List.mem_append.mp he with he | he
        · exact h.bound e he
        · rw [List.mem_singleton.mp he]
          omega
    have hrest : Numbered sha256 (first + 1) fs := by
      intro i e hi
      obtain ⟨h1, h2⟩ := hnum (i + 1) e (by simpa using hi)
      exact ⟨by omega, h2⟩
    have := ih hput (fun e he => ?_) hrest (by omega)
    · rw [List.append_assoc, List.singleton_append] at this
      exact this
    · rcases List.mem_append.mp he with he | he
      · exact Nat.lt_succ_of_lt (habove e he)
      · rw [List.mem_singleton.mp he]
        omega

end

end Settled.Storage
