/-
  Settled.Server.Activation — the activation sizes of the key records, and the rule of
  `docs/wire-format.md` section 6.3 that looks for the signing key of a head by them.

  `rotate_key` records the size of the log at the rotation. A head of that very size may
  already have been signed with the old key, and the rule then picks the new one
  (`rotated_after_head`). In runs of requests one at a time without failures (`serial`)
  that is the only way it goes wrong: the rule finds a head's key exactly when no later
  key was activated at the head's size (`activation_selects_iff`).

  In such a run a head is signed, and a key activated, at the size the log has while the
  request runs, so activation sizes grow with the versions and every later key of a head
  was activated at its size or above (`StoreAct`).
-/

import Mathlib.Data.List.MinMax
import Mathlib.Data.Prod.Lex
import Settled.Server.KeyChain

namespace Settled.Server

open Settled.Lib Settled.Core Settled.Storage

variable (sha256 : Bytes → Hash) (E : Ed25519)

/-! ## The rule -/

/-- Of the records activated at `treeSize` or before: the greatest activation size, and the
    latest version among equals. -/
def selectKey (records : List KeyRecord) (treeSize : Nat) : Option KeyRecord :=
  (records.filter fun r => r.activatedAtTreeSize ≤ treeSize).argmax fun r => toLex (r.activatedAtTreeSize, r.version)

theorem selectKey_some {records : List KeyRecord} {treeSize : Nat} {r : KeyRecord} (h : selectKey records treeSize = some r) :
    r ∈ records ∧ r.activatedAtTreeSize ≤ treeSize ∧ ∀ r' ∈ records, r'.activatedAtTreeSize ≤ treeSize →
      r'.activatedAtTreeSize < r.activatedAtTreeSize ∨
        (r'.activatedAtTreeSize = r.activatedAtTreeSize ∧ r'.version ≤ r.version) := by
  have hmem := List.mem_filter.mp (List.argmax_mem h)
  refine ⟨hmem.1, of_decide_eq_true hmem.2, fun r' hr' hle => ?_⟩
  have := List.le_of_mem_argmax (List.mem_filter.mpr ⟨hr', decide_eq_true hle⟩) h
  exact Prod.Lex.toLex_le_toLex.mp this

theorem selectKey_isSome {records : List KeyRecord} {treeSize : Nat} {r : KeyRecord} (hr : r ∈ records)
    (hle : r.activatedAtTreeSize ≤ treeSize) : ∃ r', selectKey records treeSize = some r' := by
  cases h : selectKey records treeSize with
  | some r' => exact ⟨r', rfl⟩
  | none =>
    have hnil := List.argmax_eq_none.mp h
    have hmem : r ∈ records.filter fun r => r.activatedAtTreeSize ≤ treeSize :=
      List.mem_filter.mpr ⟨hr, decide_eq_true hle⟩
    rw [hnil] at hmem
    cases hmem

/-! ## One request at a time -/

/-- No request is in flight. -/
def Proc.idle (p : Proc) : Bool := p.mu.isNone && p.writers.isEmpty && p.signs.isEmpty && p.rotations.isEmpty

/-- A request comes, and the server is stopped, only while none is in flight; nothing
    fails. -/
def serial (s : St) : Ev → Bool
  | .append (.request _ _) => s.proc.all Proc.idle
  | .sign .snapshot => s.proc.all Proc.idle
  | .rotate .start => s.proc.all Proc.idle
  | .crash => s.proc.all Proc.idle
  | .append (.writeFails _) => false
  | .sign (.writeFails _) => false
  | .rotate (.fails _) => false
  | _ => true

/-- How many requests are in flight. -/
def Proc.load (p : Proc) : Nat := p.mu.toList.length + p.writers.length + p.signs.length + p.rotations.length

theorem load_of_idle {p : Proc} (h : p.idle = true) : p.load = 0 := by
  simp only [Proc.idle, Bool.and_eq_true, Option.isNone_iff_eq_none, List.isEmpty_iff] at h
  obtain ⟨⟨⟨h1, h2⟩, h3⟩, h4⟩ := h
  simp [Proc.load, h1, h2, h3, h4]

theorem serial_idle {s : St} {p : Proc} (hp : s.proc = some p) (h : s.proc.all Proc.idle = true) : p.load = 0 := by
  rw [hp] at h
  exact load_of_idle h

theorem AppendStep.load {s s' : St} {p : Proc} (hp : s.proc = some p) (h : p.load ≤ 1) {e : AppendEv}
    (hok : serial s (.append e) = true) (hs : AppendStep sha256 s p e s') : ∀ p', s'.proc = some p' → p'.load ≤ 1 := by
  cases hs with
  | refused | emptyBatch =>
    intro p' hp'
    rw [show p' = p from Option.some.inj (hp'.symm.trans hp)]
    exact h
  | locked =>
    intro p' hp'
    cases hp'
    have := serial_idle hp hok
    simp only [Proc.load, Option.toList_some, List.length_singleton] at this ⊢
    omega
  | reserved hmu | written hmu | leaf hmu =>
    intro p' hp'
    cases hp'
    simpa [Proc.load, hmu] using h
  | failed => cases hok
  | unlocked hmu =>
    intro p' hp'
    cases hp'
    simp only [Proc.load, hmu, Option.toList_some, List.length_singleton, Option.toList_none, List.length_nil,
      List.length_append] at h ⊢
    omega
  | sent =>
    intro p' hp'
    cases hp'
    simpa [Proc.load] using h
  | replied =>
    intro p' hp'
    cases hp'
    have := List.length_eraseIdx_le p.writers ‹Nat›
    simp only [Proc.load] at h ⊢
    omega

theorem SignStep.load {s s' : St} {p : Proc} (hp : s.proc = some p) (h : p.load ≤ 1) {e : SignEv}
    (hok : serial s (.sign e) = true) (hs : SignStep sha256 E s p e s') : ∀ p', s'.proc = some p' → p'.load ≤ 1 := by
  cases hs with
  | snapped =>
    intro p' hp'
    cases hp'
    have := serial_idle hp hok
    simp only [Proc.load, List.length_append, List.length_singleton] at this ⊢
    omega
  | @wrote i | @skipped i =>
    intro p' hp'
    cases hp'
    have := List.length_eraseIdx_le p.signs i
    simp only [Proc.load] at h ⊢
    omega
  | moved =>
    intro p' hp'
    cases hp'
    simpa [Proc.load] using h
  | failed => cases hok

theorem RotateStep.load {s s' : St} {p : Proc} (hp : s.proc = some p) (h : p.load ≤ 1) {e : RotateEv}
    (hok : serial s (.rotate e) = true) (hs : RotateStep E s p e s') : ∀ p', s'.proc = some p' → p'.load ≤ 1 := by
  cases hs with
  | sized =>
    intro p' hp'
    cases hp'
    have := serial_idle hp hok
    simp only [Proc.load, List.length_append, List.length_singleton] at this ⊢
    omega
  | numbered | filed | swapped =>
    intro p' hp'
    cases hp'
    simpa [Proc.load] using h
  | @recorded i =>
    intro p' hp'
    cases hp'
    have := List.length_eraseIdx_le p.rotations i
    simp only [Proc.load] at h ⊢
    omega
  | failed => cases hok

theorem Step.load {s s' : St} {e : Ev} (h : ∀ p, s.proc = some p → p.load ≤ 1) (hok : serial s e = true)
    (hs : Step sha256 E s e s') : ∀ p, s'.proc = some p → p.load ≤ 1 := by
  cases hs with
  | append hp hs => exact hs.load sha256 hp (h _ hp) hok
  | sign hp hs => exact hs.load sha256 E hp (h _ hp) hok
  | rotate hp hs => exact hs.load E hp (h _ hp) hok
  | @proof p _ _ hp hs =>
    have hl := h p hp
    cases hs with
    | refused => exact h
    | sized | unproved | proved | headRead | answered => intro p' hp'; cases hp'; exact hl
  | @watch p _ _ hp hs =>
    have hl := h p hp
    cases hs <;> (intro p' hp'; cases hp'; exact hl)
  | crash => intro p' hp'; cases hp'
  | restart hp hr =>
    intro p' hp'
    obtain ⟨-, -, hmu, hw, -, hs, hrot, -⟩ := (restart_restarted sha256 E hp hr).proc p' hp'
    simp [Proc.load, hmu, hw, hs, hrot]

/-! ## The invariant -/

def RotateTask.activatedAt : RotateTask → Nat
  | sized activatedAt => activatedAt
  | numbered activatedAt _ => activatedAt
  | filed activatedAt _ _ => activatedAt
  | swapped activatedAt _ _ => activatedAt

/-- Activation sizes, with `n` entries in the log. -/
structure StoreAct (store : Store) (n : Nat) : Prop where
  grows : ∀ v v' r r', store.getKey v = some r → store.getKey v' = some r' → v < v' →
    r.activatedAtTreeSize ≤ r'.activatedAtTreeSize
  upTo : ∀ v r, store.getKey v = some r → r.activatedAtTreeSize ≤ n
  headKey : ∀ t sth, store.headAtSize t = some sth →
    ∃ r, store.getKey sth.keyVersion = some r ∧ r.activatedAtTreeSize ≤ t
  headLater : ∀ t sth, store.headAtSize t = some sth → ∀ v r, store.getKey v = some r → sth.keyVersion < v →
    t ≤ r.activatedAtTreeSize

theorem StoreAct.mono {store : Store} {n n' : Nat} (h : StoreAct store n) (hle : n ≤ n') : StoreAct store n' :=
  ⟨h.grows, fun v r hr => Nat.le_trans (h.upTo v r hr) hle, h.headKey, h.headLater⟩

theorem StoreAct.congr {store store' : Store} {n : Nat} (h : StoreAct store n) (hkeys : store'.keys = store.keys)
    (hheads : store'.heads = store.heads) : StoreAct store' n := by
  have hk : ∀ v, store'.getKey v = store.getKey v := fun v => by rw [Store.getKey, Store.getKey, hkeys]
  have hh : ∀ t, store'.headAtSize t = store.headAtSize t := fun t => by rw [Store.headAtSize, Store.headAtSize, hheads]
  refine ⟨?_, ?_, ?_, ?_⟩
  · simpa only [hk] using h.grows
  · simpa only [hk] using h.upTo
  · simpa only [hk, hh] using h.headKey
  · simpa only [hk, hh] using h.headLater

/-- The cycle or the rotation in flight has the size the log has now, and the signer of
    now. -/
structure ProcAct (p : Proc) (n : Nat) : Prop where
  signs : ∀ t ∈ p.signs, t.snap.1 = n ∧ ∀ d, t.draft = some d → d.signer = p.signer
  rotations : ∀ t ∈ p.rotations, t.activatedAt = n ∧ ∀ a v key, t = .swapped a v key → v = p.signer.version

theorem ProcAct.of_none {p : Proc} {n : Nat} (hs : p.signs = []) (hr : p.rotations = []) : ProcAct p n :=
  ⟨fun t ht => (by rw [hs] at ht; cases ht), fun t ht => (by rw [hr] at ht; cases ht)⟩

/-- A head of the size the log has, of the latest key. -/
theorem StoreAct.writeHead {store : Store} {n : Nat} (h : StoreAct store n) {sth : SignedTreeHead} (hsize : sth.treeSize = n)
    {r : KeyRecord} (hr : store.getKey sth.keyVersion = some r) (hmax : ∀ v r, store.getKey v = some r → v ≤ sth.keyVersion) :
    StoreAct (store.writeHead sth) n := by
  have hh : ∀ t, (store.writeHead sth).headAtSize t = if t = n then some sth else store.headAtSize t := by
    intro t
    rw [← hsize]
    exact OrdMap.get?_put _ _ _ t
  refine ⟨h.grows, h.upTo, fun t x hx => ?_, fun t x hx v r' hr' hlt => ?_⟩
  · rw [hh] at hx
    split at hx
    next ht => cases hx; exact ⟨r, hr, by rw [ht]; exact h.upTo _ r hr⟩
    next => exact h.headKey t x hx
  · rw [hh] at hx
    split at hx
    next =>
      cases hx
      have := hmax v r' hr'
      omega
    next => exact h.headLater t x hx v r' hr' hlt

/-- A record of the size the log has, of a version above all others. -/
theorem StoreAct.putKey {store : Store} {n : Nat} (h : StoreAct store n) (hheads : ∀ t sth, store.headAtSize t = some sth → t ≤ n)
    {record : KeyRecord} (hsize : record.activatedAtTreeSize = n) (hmax : ∀ v r, store.getKey v = some r → v < record.version) :
    StoreAct (store.putKey record) n := by
  have hk := getKey_putKey store record
  refine ⟨fun v v' r r' hr hr' hlt => ?_, fun v r hr => ?_, fun t x hx => ?_, fun t x hx v r hr hlt => ?_⟩
  · rw [hk] at hr hr'
    split at hr'
    next =>
      cases hr'
      rw [if_neg (by omega)] at hr
      rw [hsize]
      exact h.upTo v r hr
    next =>
      have := hmax v' r' hr'
      rw [if_neg (by omega)] at hr
      exact h.grows v v' r r' hr hr' hlt
  · rw [hk] at hr
    split at hr
    next => cases hr; exact Nat.le_of_eq hsize
    next => exact h.upTo v r hr
  · obtain ⟨r, hr, hle⟩ := h.headKey t x hx
    refine ⟨r, ?_, hle⟩
    have := hmax _ r hr
    rw [hk, if_neg (by omega)]
    exact hr
  · rw [hk] at hr
    split at hr
    next => cases hr; rw [hsize]; exact hheads t x hx
    next => exact h.headLater t x hx v r hr hlt

structure SerialInv (s : St) (es : List LogEntry) : Prop where
  inv : Inv sha256 s es
  keys : KeyInv E s
  signed : SignInv E s
  load : ∀ p, s.proc = some p → p.load ≤ 1
  store : StoreAct s.store es.length
  proc : ∀ p, s.proc = some p → ProcAct p es.length

theorem SerialInv.init : SerialInv sha256 E .init [] where
  inv := .init sha256
  keys := .init E
  signed := .init E
  load p h := by cases h
  store := ⟨fun v v' r r' h => (by cases h), fun v r h => (by cases h), fun t sth h => (by cases h), fun t sth h => (by cases h)⟩
  proc p h := by cases h

/-! ## A request is alone -/

theorem eq_singleton_of_getElem? {α : Type} {l : List α} {i : Nat} {x : α} (hi : l[i]? = some x) (hlen : l.length ≤ 1) :
    l = [x] ∧ i = 0 := by
  obtain ⟨hlt, hget⟩ := List.getElem?_eq_some_iff.mp hi
  obtain rfl : i = 0 := by omega
  obtain ⟨y, rfl⟩ := List.length_eq_one_iff.mp (show l.length = 1 by omega)
  exact ⟨congrArg (fun z => [z]) hget, rfl⟩

/-- While an append is in flight, no cycle and no rotation is. -/
theorem AppendStep.alone {s s' : St} {p : Proc} (hp : s.proc = some p) (h : p.load ≤ 1) {e : AppendEv}
    (hok : serial s (.append e) = true) (hs : AppendStep sha256 s p e s') : p.signs = [] ∧ p.rotations = [] := by
  simp only [← List.length_eq_zero_iff]
  have hidle : p.load = 0 → p.signs.length = 0 ∧ p.rotations.length = 0 := by
    simp only [Proc.load]
    omega
  have hbusy : 0 < p.mu.toList.length + p.writers.length → p.signs.length = 0 ∧ p.rotations.length = 0 := by
    simp only [Proc.load] at h
    omega
  cases hs with
  | refused | emptyBatch | locked => exact hidle (serial_idle hp hok)
  | reserved hmu | written hmu | failed hmu | leaf hmu | unlocked hmu =>
    exact hbusy (by rw [hmu]; exact Nat.lt_add_right _ Nat.zero_lt_one)
  | sent hw | replied hw =>
    have := (List.getElem?_eq_some_iff.mp hw).1
    exact hbusy (by omega)

theorem signs_alone {p : Proc} (h : p.load ≤ 1) {i : Nat} {t : SignTask} (ht : p.signs[i]? = some t) :
    p.signs = [t] ∧ i = 0 ∧ p.rotations = [] := by
  simp only [Proc.load] at h
  obtain ⟨h1, h2⟩ := eq_singleton_of_getElem? ht (by omega)
  rw [h1, List.length_singleton] at h
  exact ⟨h1, h2, List.length_eq_zero_iff.mp (by omega)⟩

theorem rotations_alone {p : Proc} (h : p.load ≤ 1) {i : Nat} {t : RotateTask} (ht : p.rotations[i]? = some t) :
    p.rotations = [t] ∧ i = 0 ∧ p.signs = [] := by
  simp only [Proc.load] at h
  obtain ⟨h1, h2⟩ := eq_singleton_of_getElem? ht (by omega)
  rw [h1, List.length_singleton] at h
  exact ⟨h1, h2, List.length_eq_zero_iff.mp (by omega)⟩

/-! ## Steps -/

/-- With the lock free the tree has the size of the log. -/
theorem Inv.merkle_size {s : St} {es : List LogEntry} (h : Inv sha256 s es) {p : Proc} (hp : s.proc = some p)
    (hmu : p.mu = none) : p.merkle.size = es.length := by
  have hcrit := (h.proc p hp).crit
  rw [hmu] at hcrit
  rw [hcrit.2.size, length_hashes]

theorem SignStep.act {s s' : St} {es : List LogEntry} {p : Proc} (h : SerialInv sha256 E s es) (hp : s.proc = some p)
    {e : SignEv} (hok : serial s (.sign e) = true) (hs : SignStep sha256 E s p e s') :
    StoreAct s'.store es.length ∧ ∀ p', s'.proc = some p' → ProcAct p' es.length := by
  obtain ⟨hsigns, hrot⟩ := h.proc p hp
  have hload := h.load p hp
  have herase : ∀ i, ProcAct { p with signs := p.signs.eraseIdx i } es.length :=
    fun i => ⟨fun t ht => hsigns t (List.mem_of_mem_eraseIdx ht), hrot⟩
  cases hs with
  | snapped hmu =>
    refine ⟨h.store, fun p' hp' => ?_⟩
    cases hp'
    refine ⟨fun t ht => ?_, hrot⟩
    rcases List.mem_append.mp ht with ht | ht
    · exact hsigns t ht
    · rw [List.mem_singleton.mp ht]
      exact ⟨h.inv.merkle_size sha256 hp hmu, fun d hd => by cases hd⟩
  | @wrote i now d publicKey keyVersion ht =>
    refine ⟨?_, fun p' hp' => by cases hp'; exact herase i⟩
    have hmem := List.mem_of_getElem? ht
    obtain ⟨hsize, hsigner⟩ := hsigns _ hmem
    obtain ⟨-, -, hver⟩ := h.signed.signs p hp _ hmem
    rw [hsigner d rfl] at hver
    obtain ⟨hup, hknown, -⟩ := h.keys.proc p hp
    rcases hknown with ⟨r, hr, -⟩ | ⟨at_, hm⟩
    · rw [← hver] at hr hup
      exact h.store.writeHead hsize hr hup
    · rw [(signs_alone hload ht).2.2] at hm
      cases hm
  | skipped => exact ⟨h.store, fun p' hp' => by cases hp'; exact herase _⟩
  | @moved i now t t' ht hn =>
    refine ⟨h.store, fun p' hp' => ?_⟩
    cases hp'
    refine ⟨fun u hu => ?_, hrot⟩
    rcases (mem_set_iff ht).mp hu with rfl | hu
    · obtain ⟨hsize, hsigner⟩ := hsigns t (List.mem_of_getElem? ht)
      refine ⟨by rw [SignTask.next_snap E hn]; exact hsize, fun d hd => ?_⟩
      rcases SignTask.next_draft E hn with hsame | ⟨treeSize, root, ts, d', rfl, hd', hsig⟩
      · exact hsigner d (by rw [← hsame]; exact hd)
      · rw [hd] at hd'
        cases hd'
        exact hsig
    · exact hsigns u (List.mem_of_mem_eraseIdx hu)
  | failed => cases hok

theorem RotateStep.act {s s' : St} {es : List LogEntry} {p : Proc} (h : SerialInv sha256 E s es) (hp : s.proc = some p)
    {e : RotateEv} (hok : serial s (.rotate e) = true) (hs : RotateStep E s p e s') :
    StoreAct s'.store es.length ∧ ∀ p', s'.proc = some p' → ProcAct p' es.length := by
  obtain ⟨hsigns, hrot⟩ := h.proc p hp
  have hload := h.load p hp
  cases hs with
  | sized hmu =>
    refine ⟨h.store, fun p' hp' => ?_⟩
    cases hp'
    refine ⟨hsigns, fun t ht => ?_⟩
    rcases List.mem_append.mp ht with ht | ht
    · exact hrot t ht
    · rw [List.mem_singleton.mp ht]
      exact ⟨h.inv.merkle_size sha256 hp hmu, fun a v key heq => by cases heq⟩
  | numbered ht | filed ht =>
    refine ⟨h.store, fun p' hp' => ?_⟩
    cases hp'
    have hsize := (hrot _ (List.mem_of_getElem? ht)).1
    obtain ⟨hone, rfl, -⟩ := rotations_alone hload ht
    refine ⟨hsigns, fun u hu => ?_⟩
    simp only [hone, List.set_cons_zero, List.mem_singleton] at hu
    rw [hu]
    exact ⟨hsize, fun a v key heq => by cases heq⟩
  | swapped ht =>
    refine ⟨h.store, fun p' hp' => ?_⟩
    cases hp'
    have hsize := (hrot _ (List.mem_of_getElem? ht)).1
    obtain ⟨hone, rfl, hnone⟩ := rotations_alone hload ht
    refine ⟨fun u hu => ?_, fun u hu => ?_⟩
    · simp only [hnone, List.not_mem_nil] at hu
    · simp only [hone, List.set_cons_zero, List.mem_singleton] at hu
      rw [hu]
      exact ⟨hsize, fun a v key heq => by cases heq; rfl⟩
  | @recorded i at_ version key newKey ht =>
    have hmem := List.mem_of_getElem? ht
    obtain ⟨hsize, hver⟩ := hrot _ hmem
    have hver := hver at_ version key rfl
    obtain ⟨hup, -, -, htasks, -⟩ := h.keys.proc p hp
    have hfree : s.store.getKey version = none := (htasks _ hmem).2
    refine ⟨h.store.putKey (fun t sth hsth => (h.inv.heads t sth hsth).2.1) hsize fun v r hr => ?_, fun p' hp' => ?_⟩
    · have hne : v ≠ version := by
        rintro rfl
        rw [hfree] at hr
        cases hr
      have := hup v r hr
      show v < version
      omega
    · cases hp'
      exact ⟨hsigns, fun u hu => hrot u (List.mem_of_mem_eraseIdx hu)⟩
  | failed => cases hok

/-- A first record is put only when there is none, and then there are no heads. -/
theorem restart_act {s s' : St} {n : Nat} (h : StoreAct s.store n) {newKey : Hash} {seeded : Bool}
    (hr : restart sha256 E s newKey seeded = some s') : StoreAct s'.store n := by
  unfold restart at hr
  split at hr
  · cases hr
  · cases seeded with
    | false => cases hr; exact h
    | true =>
      simp only [if_true] at hr
      cases hk : s.store.latestKey with
      | some r => simp only [hk] at hr; cases hr; exact h
      | none =>
        simp only [hk] at hr
        cases hr
        have hkeys : ∀ v r, s.store.getKey v ≠ some r := by
          intro v r hr
          rw [Store.getKey, OrdMap.last?_eq_none_iff.mp (Option.map_eq_none_iff.mp hk) v] at hr
          cases hr
        have hheads : ∀ t sth, s.store.headAtSize t ≠ some sth := by
          intro t sth hsth
          obtain ⟨r, hr, -⟩ := h.headKey t sth hsth
          exact hkeys _ r hr
        have hempty : StoreAct s.store 0 :=
          ⟨fun v v' r r' hr => absurd hr (hkeys v r), fun v r hr => absurd hr (hkeys v r),
            fun t sth hsth => absurd hsth (hheads t sth), fun t sth hsth => absurd hsth (hheads t sth)⟩
        have hput : StoreAct (s.store.putKey ⟨1, E.publicKey (s.keyFile.getD newKey), 0⟩) 0 :=
          hempty.putKey (fun t sth hsth => absurd hsth (hheads t sth)) rfl fun v r hr => absurd hr (hkeys v r)
        exact hput.mono (Nat.zero_le n)

/-- What one request at a time means for the other conditions. -/
theorem serial_ok {s : St} {e : Ev} (hload : ∀ p, s.proc = some p → p.load ≤ 1) (hok : serial s e = true) :
    noLogWriteError s e = true ∧ chainOk s e = true ∧ swapsApart s e = true := by
  have hsingle : Single s := by
    intro p hp
    have := hload p hp
    simp only [Proc.load] at this
    omega
  refine ⟨?_, Bool.and_eq_true_iff.mpr ⟨hsingle.versionsApart e, ?_⟩, ?_⟩
  · unfold noLogWriteError
    split
    · cases hok
    · rfl
  · unfold rotationsKept
    split
    · cases hok
    · split
      · rfl
      next p hp =>
        have := serial_idle hp hok
        simp only [Proc.load] at this
        rw [List.length_eq_zero_iff.mp (show p.rotations.length = 0 by omega)]
        rfl
    · rfl
  · unfold swapsApart
    split
    · split
      · rfl
      next p hp =>
        split
        next ht =>
          rw [(rotations_alone (hload p hp) ht).2.2]
          rfl
        · rfl
    · rfl

/-- Requests that touch neither keys nor heads. -/
theorem procAct_kept {s s' : St} {n : Nat} (hk : KeysKept s s') (hsk : SignsKept s s')
    (h : ∀ p, s.proc = some p → ProcAct p n) : ∀ p', s'.proc = some p' → ProcAct p' n := by
  intro p' hp'
  obtain ⟨-, -, p, q, hp, hq, hsigner, hrot⟩ := hk
  have hact := h p hp
  rw [hq] at hp'
  cases hp'
  refine ⟨fun t ht => ?_, fun t ht => ?_⟩
  · rw [hsigner]
    rcases hsk.proc _ hq with hnil | ⟨q, hq', heq⟩
    · rw [hnil] at ht
      cases ht
    · rw [hp] at hq'
      cases hq'
      exact hact.signs t (by rw [← heq]; exact ht)
  · rw [hsigner]
    exact hact.rotations t (by rw [← hrot]; exact ht)

theorem Step.serialInv {s s' : St} {e : Ev} {es : List LogEntry} (h : SerialInv sha256 E s es) (hok : serial s e = true)
    (hs : Step sha256 E s e s') : ∃ fs, SerialInv sha256 E s' (es ++ fs) := by
  obtain ⟨-, hchain, hswap⟩ := serial_ok h.load hok
  have hkeys := (hs.keyInv sha256 E h.keys hchain).1
  have hsigned := hs.signInv sha256 E h.signed hswap
  have hload := hs.load sha256 E h.load hok
  have same : Inv sha256 s' es → StoreAct s'.store es.length ∧ (∀ p', s'.proc = some p' → ProcAct p' es.length) →
      ∃ fs, SerialInv sha256 E s' (es ++ fs) := by
    intro hinv hact
    refine ⟨[], ?_⟩
    rw [List.append_nil]
    exact ⟨hinv, hkeys, hsigned, hload, hact.1, hact.2⟩
  have hkept : e.keepsKeys = true → (∀ e', e ≠ .sign e') → StoreAct s'.store es.length ∧
      ∀ p', s'.proc = some p' → ProcAct p' es.length := fun he hne =>
    ⟨h.store.congr (hs.keysKept he).keys (hs.signsKept hne).heads, procAct_kept (hs.keysKept he) (hs.signsKept hne) h.proc⟩
  cases hs with
  | @append p e _ hp hs =>
    obtain ⟨fs, hinv⟩ := hs.inv sha256 h.inv hp fun m hm => by subst hm; cases hok
    obtain ⟨hsigns, hrot⟩ := hs.alone sha256 hp (h.load p hp) hok
    have hs : Step sha256 E s (.append e) s' := .append hp hs
    refine ⟨fs, hinv, hkeys, hsigned, hload, (hkept rfl fun e' he' => by cases he').1.mono (by rw [List.length_append]; omega),
      procAct_kept (hs.keysKept rfl) (hs.signsKept fun e' he' => by cases he') fun q hq => ?_⟩
    rw [hp] at hq
    cases hq
    exact .of_none hsigns hrot
  | sign hp hs => exact same (hs.inv sha256 E h.inv hp) (hs.act sha256 E h hp hok)
  | rotate hp hs => exact same (h.inv.quiet sha256 (hs.quiet E hp)) (hs.act sha256 E h hp hok)
  | proof hp hs => exact same (h.inv.quiet sha256 (hs.quiet sha256 hp)) (hkept rfl fun e' he' => by cases he')
  | watch hp hs => exact same (h.inv.quiet sha256 (hs.quiet hp)) (hkept rfl fun e' he' => by cases he')
  | crash =>
    exact same ⟨h.inv.holds, h.inv.bound, h.inv.heads, h.inv.replies, fun q hq => by cases hq⟩ ⟨h.store, fun q hq => by cases hq⟩
  | restart hp hr =>
    have hres := restart_restarted sha256 E hp hr
    refine same (hres.inv sha256 h.inv) ⟨restart_act sha256 E h.store hr, fun p' hp' => ?_⟩
    obtain ⟨-, -, -, -, -, hsigns, hrot, -⟩ := hres.proc p' hp'
    exact .of_none hsigns hrot

theorem reach_serialInv {s : St} (h : Reach (step sha256 E) serial .init s) : ∃ es, SerialInv sha256 E s es := by
  apply h.inv (P := fun s => ∃ es, SerialInv sha256 E s es) ⟨[], .init sha256 E⟩
  intro s e s' ⟨es, hi⟩ hok hs
  obtain ⟨fs, hi'⟩ := (step_step sha256 E hs).serialInv sha256 E hi hok
  exact ⟨es ++ fs, hi'⟩

/-- `all` has exactly the records of the versions. -/
theorem mem_allKeys {store : Store} (h : ∀ v r, store.getKey v = some r → r.version = v) {r : KeyRecord} :
    r ∈ store.allKeys ↔ store.getKey r.version = some r := by
  constructor
  · intro hr
    obtain ⟨⟨v, r'⟩, hm, rfl⟩ := List.mem_map.mp hr
    have hget := OrdMap.mem_entries.mp hm
    rw [h v r' hget]
    exact hget
  · intro hr
    exact List.mem_map.mpr ⟨(r.version, r), OrdMap.mem_entries.mpr hr, rfl⟩

/-- In every run of requests one at a time without failures, for every head in the store:
    the rule finds the record of its key version exactly when no later key was activated
    at the head's own size. -/
theorem activation_selects_iff {s : St} (h : Reach (step sha256 E) serial .init s) {t : Nat} {sth : SignedTreeHead}
    (hsth : s.store.headAtSize t = some sth) :
    (∃ r, selectKey s.store.allKeys sth.treeSize = some r ∧ r.version = sth.keyVersion) ↔
      ∀ r ∈ s.store.allKeys, sth.keyVersion < r.version → r.activatedAtTreeSize ≠ sth.treeSize := by
  obtain ⟨es, hi⟩ := reach_serialInv sha256 E h
  obtain ⟨hsize, -, -⟩ := hi.inv.heads t sth hsth
  have hmem : ∀ {r}, r ∈ s.store.allKeys ↔ s.store.getKey r.version = some r := mem_allKeys hi.keys.versions
  constructor
  · -- a later key of the same activation size would have been taken before the head's
    rintro ⟨r, hr, hver⟩ r' hr' hlt heq
    obtain ⟨hr, hle, hmax⟩ := selectKey_some hr
    rcases hmax r' hr' (Nat.le_of_eq heq) with hless | ⟨-, hle'⟩
    · omega
    · omega
  · intro hno
    obtain ⟨r, hr, hle⟩ := hi.store.headKey t sth hsth
    have hver := hi.keys.versions _ r hr
    rw [← hsize] at hle
    have hrm : r ∈ s.store.allKeys := hmem.mpr (by rw [hver]; exact hr)
    obtain ⟨r', hr'⟩ := selectKey_isSome hrm hle
    refine ⟨r', hr', ?_⟩
    obtain ⟨hr'm, hle', hmax⟩ := selectKey_some hr'
    rcases Nat.lt_trichotomy r'.version sth.keyVersion with hlt | heq | hgt
    · -- an earlier key was activated no later than the head's
      have hgrows := hi.store.grows _ _ r' r (hmem.mp hr'm) hr hlt
      rcases hmax r hrm hle with hless | ⟨-, hle''⟩
      · omega
      · omega
    · exact heq
    · -- a later key was activated at the head's size or above
      have hlater := hi.store.headLater t sth hsth _ r' (hmem.mp hr'm) hgt
      have := hno r' hr'm hgt
      omega

/-- A head at 1, an entry, a rotation at 2, a head at 2: the rule finds both keys. -/
def rotatedBetween : List Ev :=
  [.restart .zero true] ++ appendEvs [1] [10] 5 ++ signEvs 6 ++ appendEvs [2] [20] 7 ++ rotateEvs secondKey ++ signEvs 8

theorem activation_selects_between : ∃ s sth, Reach (step Sha256.sha256 plainKeys) serial .init s ∧
    s.store.headAtSize 1 = some sth ∧ s.store.allKeys.map (fun r => (r.version, r.activatedAtTreeSize)) = [(1, 0), (2, 2)] ∧
    ∃ r, selectKey s.store.allKeys sth.treeSize = some r ∧ r.version = sth.keyVersion := by
  have hrun : ((run (step Sha256.sha256 plainKeys) serial .init rotatedBetween).bind fun s =>
      (s.store.headAtSize 1).map fun sth => (s.store.allKeys.map fun r => (r.version, r.activatedAtTreeSize), sth.treeSize)) =
        some ([(1, 0), (2, 2)], 1) := by decide +kernel
  obtain ⟨s, hs, hrun⟩ := Option.bind_eq_some_iff.mp hrun
  obtain ⟨sth, hsth, hrun⟩ := Option.map_eq_some_iff.mp hrun
  obtain ⟨hkeys, hsize⟩ := Prod.mk.inj hrun
  have h := Reach.init.run hs
  refine ⟨s, sth, h, hsth, hkeys, (activation_selects_iff Sha256.sha256 plainKeys h hsth).mpr fun r hr hlt heq => ?_⟩
  have hm : (r.version, r.activatedAtTreeSize) ∈ [(1, 0), (2, 2)] := by
    rw [← hkeys]
    exact List.mem_map_of_mem hr
  simp only [List.mem_cons, Prod.mk.injEq, List.not_mem_nil, or_false] at hm
  omega

/-- A head at 1, then a rotation with no entry in between: the rule finds version 2 for the
    head, which version 1 signed. -/
theorem rotated_after_head : ∃ s sth r, Reach (step Sha256.sha256 plainKeys) serial .init s ∧
    s.store.headAtSize 1 = some sth ∧ sth.keyVersion = 1 ∧ selectKey s.store.allKeys sth.treeSize = some r ∧ r.version = 2 := by
  have hrun : ((run (step Sha256.sha256 plainKeys) serial .init ([Ev.restart .zero true] ++ appendEvs [1] [10] 5 ++ signEvs 6 ++
      rotateEvs secondKey)).bind fun s => (s.store.headAtSize 1).bind fun sth =>
        (selectKey s.store.allKeys sth.treeSize).map fun r => (sth.keyVersion, r.version)) = some (1, 2) := by
    decide +kernel
  obtain ⟨s, hs, hrun⟩ := Option.bind_eq_some_iff.mp hrun
  obtain ⟨sth, hsth, hrun⟩ := Option.bind_eq_some_iff.mp hrun
  obtain ⟨r, hr, hrun⟩ := Option.map_eq_some_iff.mp hrun
  obtain ⟨h1, h2⟩ := Prod.mk.inj hrun
  exact ⟨s, sth, r, Reach.init.run hs, hsth, h1, hr, h2⟩

end Settled.Server
