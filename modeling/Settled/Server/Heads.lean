/-
  Settled.Server.Heads — the history of signed tree heads under any number of signing
  cycles at once (the interval task, `POST /api/sth/force`, the shutdown cycle).

  `sign_and_store` takes its size, looks at the latest head, reads the clock and writes,
  and holds nothing from one to the next. Two cycles of one size can both find no head
  there, and the later write replaces the earlier (`head_rewritten`); a cycle whose size
  is behind the latest head's does not see a head of its own size.

  If a cycle goes past its check only while no head has its size and no other cycle of
  its size is past the check (`checksApart`), a head once written stays
  (`heads_write_once`).

  The clock is read after the size was taken: of two cycles the one with the smaller tree
  can have the later timestamp, and of two with one size the earlier timestamp can be
  written last (`timestamps_out_of_order`). If a cycle reads the clock only while no head
  and no other cycle past its own reading is ahead of it (`stampsApart`), timestamps grow
  with the size, and a client that follows the latest head never sees one go back
  (`timestamps_monotone`).
-/

import Settled.Lib.Tasks
import Settled.Sdk.TreeHead
import Settled.Server.Signing

namespace Settled.Server

open Settled.Lib Settled.Core Settled.Storage

variable (sha256 : Bytes → Hash) (E : Ed25519)

/-- The signing cycles of the process, if there is one. -/
def St.cycles (s : St) : List SignTask := (s.proc.map (·.signs)).getD []

theorem cycles_of_proc {s : St} {p : Proc} (hp : s.proc = some p) : s.cycles = p.signs := by rw [St.cycles, hp]; rfl

theorem SignsKept.cycles {s s' : St} (h : SignsKept s s') : s'.cycles = [] ∨ s'.cycles = s.cycles := by
  cases hp' : s'.proc with
  | none => exact Or.inl (by rw [St.cycles, hp']; rfl)
  | some p' =>
    rw [cycles_of_proc hp']
    rcases h.proc p' hp' with hnil | ⟨p, hp, hsame⟩
    · exact Or.inl hnil
    · exact Or.inr (by rw [cycles_of_proc hp, hsame])

/-! ## Cycles past their check -/

/-- The size a cycle will write at, once it is past its check. -/
def SignTask.pending : SignTask → Option Nat
  | snapped _ _ => none
  | t => some t.snap.1

/-- The check's answer: the latest head has this size. -/
def latestIs (s : Store) (treeSize : Nat) : Bool := s.latestHead.any fun latest => latest.treeSize = treeSize

theorem SignTask.next_pending {store : Store} {signer : Signer} {now : Int} {t t' : SignTask}
    (h : t.next E store signer now = some t') : t'.pending = some t.snap.1 ∧
      (t.pending = some t.snap.1 ∨ ∃ root, t = .snapped t.snap.1 root ∧ latestIs store t.snap.1 = false) := by
  cases t with
  | snapped treeSize root =>
    obtain ⟨hl, r, -, rfl⟩ := SignTask.next_snapped E h
    exact ⟨rfl, Or.inr ⟨root, rfl, hl⟩⟩
  | checked | stamped | signed | keyed => cases h; exact ⟨rfl, Or.inl rfl⟩
  | assembled => cases h

/-- A cycle goes past its check only while no head has its size, and no other cycle of
    its size is past the check. -/
def checksApart (s : St) : Ev → Bool
  | .sign (.next i _) =>
    match s.proc with
    | none => true
    | some p =>
      match p.signs[i]? with
      | some (.snapped treeSize _) => latestIs s.store treeSize ||
          ((s.store.headAtSize treeSize).isNone && p.signs.all fun t => t.pending ≠ some treeSize)
      | _ => true
  | _ => true

/-! ## Heads are written once -/

theorem headAtSize_writeHead (store : Store) (d : Draft) (publicKey : Hash) (keyVersion t : Nat) :
    (store.writeHead (d.head publicKey keyVersion)).headAtSize t =
      if t = d.treeSize then some (d.head publicKey keyVersion) else store.headAtSize t :=
  OrdMap.get?_put _ _ _ t

/-- Not past the check with one size. -/
def SignTask.Apart (t u : SignTask) : Prop := ∀ n, t.pending = some n → u.pending ≠ some n

theorem SignTask.Apart.symm {t u : SignTask} (h : t.Apart u) : u.Apart t := fun n hu ht => h n ht hu

/-- No two cycles are past the check with one size, and none with the size of a head. -/
structure OnceInv (store : Store) (signs : List SignTask) : Prop where
  apart : signs.Pairwise SignTask.Apart
  fresh : ∀ t ∈ signs, ∀ n, t.pending = some n → store.headAtSize n = none

theorem OnceInv.eraseIdx {store : Store} {signs : List SignTask} (h : OnceInv store signs) (i : Nat) :
    OnceInv store (signs.eraseIdx i) :=
  ⟨pairwise_eraseIdx h.apart i, fun t ht => h.fresh t (List.mem_of_mem_eraseIdx ht)⟩

/-- What a signing step does to the heads and the cycles. -/
theorem SignStep.once {s s' : St} {p : Proc} (hp : s.proc = some p) (h : OnceInv s.store p.signs) {e : SignEv}
    (hok : checksApart s (.sign e) = true) (hs : SignStep sha256 E s p e s') :
    OnceInv s'.store s'.cycles ∧ ∀ t sth, s.store.headAtSize t = some sth → s'.store.headAtSize t = some sth := by
  cases hs with
  | snapped =>
    refine ⟨⟨pairwise_push SignTask.Apart.symm h.apart (fun u _ n hn => by cases hn), fun t ht n hn => ?_⟩,
      fun t sth hsth => hsth⟩
    rcases List.mem_append.mp ht with ht | ht
    · exact h.fresh t ht n hn
    · rw [List.mem_singleton.mp ht] at hn
      cases hn
  | @wrote i now d publicKey keyVersion ht =>
    have hfree : s.store.headAtSize d.treeSize = none := h.fresh _ (List.mem_of_getElem? ht) _ rfl
    refine ⟨⟨pairwise_eraseIdx h.apart i, fun u hu n hn => ?_⟩, fun t sth hsth => ?_⟩
    · have hne : n ≠ d.treeSize := by
        rintro rfl
        exact pairwise_rest SignTask.Apart.symm h.apart ht u hu _ rfl hn
      rw [headAtSize_writeHead, if_neg hne]
      exact h.fresh u (List.mem_of_mem_eraseIdx hu) n hn
    · have hne : t ≠ d.treeSize := by
        rintro rfl
        rw [hfree] at hsth
        cases hsth
      rw [headAtSize_writeHead, if_neg hne]
      exact hsth
  | @skipped i now t ht hn => exact ⟨h.eraseIdx i, fun t sth hsth => hsth⟩
  | @moved i now t t' ht hn =>
    obtain ⟨hpend, hcases⟩ := SignTask.next_pending E hn
    have hnew : s.store.headAtSize t.snap.1 = none ∧ ∀ u ∈ p.signs.eraseIdx i, u.pending ≠ some t.snap.1 := by
      rcases hcases with hold | ⟨root, hsnap, hl⟩
      · exact ⟨h.fresh t (List.mem_of_getElem? ht) _ hold, fun u hu => pairwise_rest SignTask.Apart.symm h.apart ht u hu _ hold⟩
      · rw [hsnap] at ht
        simp only [checksApart, hp, ht, hl, Bool.false_or, Bool.and_eq_true, Option.isNone_iff_eq_none, List.all_eq_true,
          decide_eq_true_eq] at hok
        exact ⟨hok.1, fun u hu => hok.2 u (List.mem_of_mem_eraseIdx hu)⟩
    refine ⟨⟨pairwise_set SignTask.Apart.symm h.apart ht (fun u hu n hpn => ?_), fun u hu n hpn => ?_⟩,
      fun t sth hsth => hsth⟩
    · rw [hpend] at hpn
      cases hpn
      exact hnew.2 u hu
    · rcases (mem_set_iff ht).mp hu with rfl | hu
      · rw [hpend] at hpn
        cases hpn
        exact hnew.1
      · exact h.fresh u (List.mem_of_mem_eraseIdx hu) n hpn
  | @failed i => exact ⟨h.eraseIdx i, fun t sth hsth => hsth⟩

theorem Step.once {s s' : St} {e : Ev} (h : OnceInv s.store s.cycles) (hok : checksApart s e = true)
    (hs : Step sha256 E s e s') : OnceInv s'.store s'.cycles ∧
      ∀ t sth, s.store.headAtSize t = some sth → s'.store.headAtSize t = some sth := by
  by_cases he : ∃ e', e = .sign e'
  · obtain ⟨e', rfl⟩ := he
    cases hs with
    | sign hp hs =>
      rw [cycles_of_proc hp] at h
      exact hs.once sha256 E hp h hok
  · have hk := hs.signsKept fun e' he' => he ⟨e', he'⟩
    have hget : ∀ t, s'.store.headAtSize t = s.store.headAtSize t := fun t => by
      rw [Store.headAtSize, Store.headAtSize, hk.heads]
    refine ⟨?_, fun t sth hsth => by rw [hget]; exact hsth⟩
    rcases hk.cycles with hc | hc
    · rw [hc]
      exact ⟨.nil, fun t ht => by cases ht⟩
    · rw [hc]
      exact ⟨h.apart, fun t ht n hn => by rw [hget]; exact h.fresh t ht n hn⟩

/-- In every run in which a cycle goes past its check only while no head has its size and
    no other cycle of its size is past the check: once a head is stored at a size, every
    later read at that size returns it. Log writes may fail, keys may be rotated, and the
    process may crash and restart. -/
theorem heads_write_once {s s' : St} (h : Reach (step sha256 E) checksApart .init s)
    (h' : Reach (step sha256 E) checksApart s s') {t : Nat} {sth : SignedTreeHead} (hsth : s.store.headAtSize t = some sth) :
    s'.store.headAtSize t = some sth := by
  have hinv : OnceInv s.store s.cycles := by
    apply h.inv (P := fun s => OnceInv s.store s.cycles)
    · exact ⟨.nil, fun t ht => by cases ht⟩
    · intro s e s' hi hok hs
      exact ((step_step sha256 E hs).once sha256 E hi hok).1
  have := h'.inv (P := fun s => OnceInv s.store s.cycles ∧ s.store.headAtSize t = some sth) ⟨hinv, hsth⟩ ?_
  · exact this.2
  · intro s e s' ⟨hi, hsth⟩ hok hs
    obtain ⟨h1, h2⟩ := (step_step sha256 E hs).once sha256 E hi hok
    exact ⟨h1, h2 t sth hsth⟩

/-- One entry and its head; then a cycle that finds its size signed, another entry and its
    head. -/
theorem heads_write_once_two_sizes : ∃ s s' sth, Reach (step Sha256.sha256 plainKeys) checksApart .init s ∧
    Reach (step Sha256.sha256 plainKeys) checksApart s s' ∧ s.store.headAtSize 1 = some sth ∧
    s'.store.heads.entries.length = 2 ∧ s'.store.headAtSize 1 = some sth := by
  have hrun : ((run (step Sha256.sha256 plainKeys) checksApart .init
      ([Ev.restart .zero true] ++ appendEvs [1] [10] 5 ++ signEvs 6)).bind fun s =>
        (run (step Sha256.sha256 plainKeys) checksApart s ([Ev.sign .snapshot, .sign (.next 0 7)] ++ appendEvs [2] [20] 8 ++
          signEvs 9)).map fun s' => ((s.store.headAtSize 1).isSome, s'.store.heads.entries.length)) = some (true, 2) := by
    decide +kernel
  obtain ⟨s, hs, hrun⟩ := Option.bind_eq_some_iff.mp hrun
  obtain ⟨s', hs', hrun⟩ := Option.map_eq_some_iff.mp hrun
  obtain ⟨h1, h2⟩ := Prod.mk.inj hrun
  obtain ⟨sth, hsth⟩ := Option.isSome_iff_exists.mp h1
  have hreach : Reach (step Sha256.sha256 plainKeys) checksApart .init s := Reach.init.run hs
  have hreach' : Reach (step Sha256.sha256 plainKeys) checksApart s s' := Reach.init.run hs'
  exact ⟨s, s', sth, hreach, hreach', hsth, h2, heads_write_once Sha256.sha256 plainKeys hreach hreach' hsth⟩

/-- Two cycles of one size both find no head, and both write: the head of size 1 is first
    the one's, with timestamp 7, then the other's, with timestamp 6. -/
theorem head_rewritten : ∃ s s' sth sth', Reach (step Sha256.sha256 plainKeys) (fun _ _ => true) .init s ∧
    Reach (step Sha256.sha256 plainKeys) (fun _ _ => true) s s' ∧ s.store.headAtSize 1 = some sth ∧
    s'.store.headAtSize 1 = some sth' ∧ sth.timestampNs = 7 ∧ sth'.timestampNs = 6 ∧ sth.signature ≠ sth'.signature := by
  have hrun : ((run (step Sha256.sha256 plainKeys) (fun _ _ => true) .init
      ([Ev.restart .zero true] ++ appendEvs [1] [10] 5 ++ [Ev.sign .snapshot, .sign .snapshot, .sign (.next 0 6), .sign (.next 0 6)] ++
        List.replicate 6 (Ev.sign (.next 1 7)))).bind fun s =>
          (run (step Sha256.sha256 plainKeys) (fun _ _ => true) s (List.replicate 4 (Ev.sign (.next 0 8)))).bind fun s' =>
            (s.store.headAtSize 1).bind fun sth => (s'.store.headAtSize 1).map fun sth' =>
              (sth.timestampNs, sth'.timestampNs, decide (sth.signature = sth'.signature))) = some (7, 6, false) := by
    decide +kernel
  obtain ⟨s, hs, hrun⟩ := Option.bind_eq_some_iff.mp hrun
  obtain ⟨s', hs', hrun⟩ := Option.bind_eq_some_iff.mp hrun
  obtain ⟨sth, hsth, hrun⟩ := Option.bind_eq_some_iff.mp hrun
  obtain ⟨sth', hsth', hrun⟩ := Option.map_eq_some_iff.mp hrun
  obtain ⟨h1, hrun⟩ := Prod.mk.inj hrun
  obtain ⟨h2, h3⟩ := Prod.mk.inj hrun
  exact ⟨s, s', sth, sth', Reach.init.run hs, Reach.init.run hs', hsth, hsth', h1, h2, of_decide_eq_false h3⟩

/-! ## Timestamps -/

/-- The size and the timestamp of a cycle that has read the clock. -/
def SignTask.stamp : SignTask → Option (Nat × Int)
  | snapped _ _ => none
  | checked _ _ => none
  | stamped treeSize _ timestampNs => some (treeSize, timestampNs)
  | signed d => some (d.treeSize, d.timestampNs)
  | keyed d _ => some (d.treeSize, d.timestampNs)
  | assembled d _ _ => some (d.treeSize, d.timestampNs)

/-- The cycle that reads the clock in this step: its size and the reading. -/
def stamping (s : St) : Ev → Option (Nat × Int)
  | .sign (.next i now) =>
    match s.proc with
    | none => none
    | some p =>
      match p.signs[i]? with
      | some (.checked treeSize _) => some (treeSize, now)
      | _ => none
  | _ => none

/-- What the clock answers in this step. -/
def clockRead (s : St) (e : Ev) : Option Int := (stamping s e).map (·.2)

/-- A cycle reads the clock only while no head is larger than its tree, and no other cycle
    that has read it, and has still to write, is as large. -/
def stampsApart (s : St) (e : Ev) : Bool :=
  (stamping s e).all fun (treeSize, _) => (s.store.latestHead.all fun latest => latest.treeSize ≤ treeSize) &&
    (s.proc.all fun p => p.signs.all fun t => t.stamp.all fun u => u.1 < treeSize)

theorem SignTask.next_stamp {store : Store} {signer : Signer} {now : Int} {t t' : SignTask}
    (h : t.next E store signer now = some t') :
    t'.stamp = t.stamp ∨ ∃ treeSize root, t = .checked treeSize root ∧ t'.stamp = some (treeSize, now) := by
  cases t with
  | snapped treeSize root =>
    obtain ⟨-, r, -, rfl⟩ := SignTask.next_snapped E h
    exact Or.inl rfl
  | checked treeSize root => cases h; exact Or.inr ⟨treeSize, root, rfl, rfl⟩
  | stamped | signed | keyed => cases h; exact Or.inl rfl
  | assembled => cases h

/-- Of two cycles past their reading, the one with the smaller tree has the earlier
    timestamp. -/
def SignTask.Ordered (t u : SignTask) : Prop :=
  ∀ x y, t.stamp = some x → u.stamp = some y → (x.1 < y.1 ∧ x.2 < y.2) ∨ (y.1 < x.1 ∧ y.2 < x.2)

theorem SignTask.Ordered.symm {t u : SignTask} (h : t.Ordered u) : u.Ordered t := fun x y hx hy => (h y x hy hx).symm

/-- Timestamps so far, in the heads and in the cycles past their reading. `clock` is
    everything the clock has answered. -/
structure StampInv (store : Store) (signs : List SignTask) (clock : List Int) : Prop where
  headsRead : ∀ t sth, store.headAtSize t = some sth → sth.treeSize = t ∧ sth.timestampNs ∈ clock
  stampsRead : ∀ t ∈ signs, ∀ x, t.stamp = some x → x.2 ∈ clock
  heads : ∀ a b x y, store.headAtSize a = some x → store.headAtSize b = some y → a < b → x.timestampNs < y.timestampNs
  ahead : ∀ t ∈ signs, ∀ x, t.stamp = some x → ∀ n sth, store.headAtSize n = some sth →
    (n ≤ x.1 → sth.timestampNs < x.2) ∧ (x.1 < n → x.2 < sth.timestampNs)
  ordered : signs.Pairwise SignTask.Ordered

theorem StampInv.eraseIdx {store : Store} {signs : List SignTask} {clock : List Int} (h : StampInv store signs clock) (i : Nat) :
    StampInv store (signs.eraseIdx i) clock where
  headsRead := h.headsRead
  stampsRead t ht := h.stampsRead t (List.mem_of_mem_eraseIdx ht)
  heads := h.heads
  ahead t ht := h.ahead t (List.mem_of_mem_eraseIdx ht)
  ordered := pairwise_eraseIdx h.ordered i

theorem StampInv.mono {store : Store} {signs : List SignTask} {clock : List Int} (h : StampInv store signs clock)
    (l : List Int) : StampInv store signs (clock ++ l) where
  headsRead t sth hsth := ⟨(h.headsRead t sth hsth).1, List.mem_append_left l (h.headsRead t sth hsth).2⟩
  stampsRead t ht x hx := List.mem_append_left l (h.stampsRead t ht x hx)
  heads := h.heads
  ahead := h.ahead
  ordered := h.ordered

/-- The cycle at `i` with its stamp, or one that is behind nothing. -/
theorem StampInv.set {store : Store} {signs : List SignTask} {clock : List Int} (h : StampInv store signs clock) {i : Nat}
    {t t' : SignTask} (ht : signs[i]? = some t)
    (hread : ∀ x, t'.stamp = some x → x.2 ∈ clock)
    (hahead : ∀ x, t'.stamp = some x → ∀ n sth, store.headAtSize n = some sth →
      (n ≤ x.1 → sth.timestampNs < x.2) ∧ (x.1 < n → x.2 < sth.timestampNs))
    (hord : ∀ u ∈ signs.eraseIdx i, t'.Ordered u) : StampInv store (signs.set i t') clock where
  headsRead := h.headsRead
  stampsRead u hu := by
    rcases (mem_set_iff ht).mp hu with rfl | hu
    · exact hread
    · exact h.stampsRead u (List.mem_of_mem_eraseIdx hu)
  heads := h.heads
  ahead u hu := by
    rcases (mem_set_iff ht).mp hu with rfl | hu
    · exact hahead
    · exact h.ahead u (List.mem_of_mem_eraseIdx hu)
  ordered := pairwise_set SignTask.Ordered.symm h.ordered ht hord

theorem StampInv.write {store : Store} {signs : List SignTask} {clock : List Int} (h : StampInv store signs clock) {i : Nat}
    {d : Draft} {publicKey : Hash} {keyVersion : Nat} (ht : signs[i]? = some (.assembled d publicKey keyVersion)) :
    StampInv (store.writeHead (d.head publicKey keyVersion)) (signs.eraseIdx i) clock := by
  have hmem := List.mem_of_getElem? ht
  have hread := h.stampsRead _ hmem _ rfl
  have hahead := h.ahead _ hmem _ rfl
  have hrest := pairwise_rest SignTask.Ordered.symm h.ordered ht
  refine ⟨fun t sth hsth => ?_, (h.eraseIdx i).stampsRead, fun a b x y hx hy hab => ?_, fun u hu x hx n sth hsth => ?_,
    pairwise_eraseIdx h.ordered i⟩
  · rw [headAtSize_writeHead] at hsth
    split at hsth
    next heq => cases hsth; exact ⟨heq.symm, hread⟩
    next => exact h.headsRead t sth hsth
  · rw [headAtSize_writeHead] at hx hy
    split at hx
    next ha =>
      cases hx
      rw [if_neg (by omega)] at hy
      exact (hahead b y hy).2 (by show d.treeSize < b; omega)
    next ha =>
      split at hy
      next hb => cases hy; exact (hahead a x hx).1 (by show a ≤ d.treeSize; omega)
      next hb => exact h.heads a b x y hx hy hab
  · rw [headAtSize_writeHead] at hsth
    split at hsth
    next heq =>
      cases hsth
      have := hrest u hu _ x rfl hx
      simp only [Draft.head]
      constructor <;> intro hle <;> rcases this with ⟨h1, h2⟩ | ⟨h1, h2⟩ <;> simp only at h1 h2 <;> omega
    next => exact h.ahead u (List.mem_of_mem_eraseIdx hu) x hx n sth hsth

/-- The latest head stays, or its successor's timestamp is later. -/
def LatestGrows (store store' : Store) : Prop :=
  ∀ x, store.latestHead = some x → ∃ y, store'.latestHead = some y ∧ (y = x ∨ x.timestampNs < y.timestampNs)

theorem LatestGrows.of_heads {store store' : Store} (h : store'.heads = store.heads) : LatestGrows store store' := by
  intro x hx
  exact ⟨x, by rw [Store.latestHead, h]; exact hx, Or.inl rfl⟩

theorem LatestGrows.trans {s₁ s₂ s₃ : Store} (h : LatestGrows s₁ s₂) (h' : LatestGrows s₂ s₃) : LatestGrows s₁ s₃ := by
  intro x hx
  obtain ⟨y, hy, hxy⟩ := h x hx
  obtain ⟨z, hz, hyz⟩ := h' y hy
  refine ⟨z, hz, ?_⟩
  rcases hxy with rfl | hxy
  · exact hyz
  rcases hyz with rfl | hyz
  · exact Or.inr hxy
  · exact Or.inr (Int.lt_trans hxy hyz)

theorem latestHead_eq_some {store : Store} {x : SignedTreeHead} (h : store.latestHead = some x) :
    ∃ n, store.heads.last? = some (n, x) := by
  obtain ⟨⟨n, y⟩, hl, rfl⟩ := Option.map_eq_some_iff.mp h
  exact ⟨n, hl⟩

theorem StampInv.latestGrows {store : Store} {signs : List SignTask} {clock : List Int} (h : StampInv store signs clock)
    {i : Nat} {d : Draft} {publicKey : Hash} {keyVersion : Nat} (ht : signs[i]? = some (.assembled d publicKey keyVersion)) :
    LatestGrows store (store.writeHead (d.head publicKey keyVersion)) := by
  intro x hx
  obtain ⟨n, hl⟩ := latestHead_eq_some hx
  obtain ⟨hget, hmax⟩ := OrdMap.last?_eq_some_iff.mp hl
  by_cases hle : n ≤ d.treeSize
  · refine ⟨d.head publicKey keyVersion, ?_, Or.inr ?_⟩
    · have hput : (store.heads.put d.treeSize (d.head publicKey keyVersion)).last? = some (d.treeSize, d.head publicKey keyVersion) :=
        OrdMap.last?_put_of_le _ fun k v hk => Nat.le_trans (hmax k v hk) hle
      rw [Store.latestHead, Store.writeHead]
      show (store.heads.put d.treeSize (d.head publicKey keyVersion)).last?.map (·.2) = _
      rw [hput]
      rfl
    · exact (h.ahead _ (List.mem_of_getElem? ht) _ rfl n x hget).1 hle
  · have hput : (store.heads.put d.treeSize (d.head publicKey keyVersion)).last? = some (n, x) :=
      OrdMap.last?_put_of_lt _ hl (Nat.lt_of_not_le hle)
    refine ⟨x, ?_, Or.inl rfl⟩
    show (store.heads.put d.treeSize (d.head publicKey keyVersion)).last?.map (·.2) = _
    rw [hput]
    rfl

/-- A new reading is behind nothing. -/
theorem StampInv.stamp {store : Store} {signs : List SignTask} {clock : List Int} (h : StampInv store signs clock) {i : Nat}
    {t t' : SignTask} (ht : signs[i]? = some t) {treeSize : Nat} {now : Int} (hst : t'.stamp = some (treeSize, now))
    (hclock : ∀ c ∈ clock, c < now) (hheads : ∀ latest, store.latestHead = some latest → latest.treeSize ≤ treeSize)
    (hsigns : ∀ u ∈ signs, ∀ x, u.stamp = some x → x.1 < treeSize) :
    StampInv store (signs.set i t') (clock ++ [now]) := by
  apply (h.mono [now]).set ht
  · intro x hx
    rw [hst] at hx
    cases hx
    exact List.mem_append_right clock (List.mem_singleton_self now)
  · intro x hx n sth hsth
    rw [hst] at hx
    cases hx
    obtain ⟨hn, hread⟩ := h.headsRead n sth hsth
    have hle : n ≤ treeSize := by
      cases hl : store.heads.last? with
      | none =>
        have : store.heads.get? n = some sth := hsth
        rw [OrdMap.last?_eq_none_iff.mp hl n] at this
        cases this
      | some y =>
        obtain ⟨m, y⟩ := y
        obtain ⟨hget, hmax⟩ := OrdMap.last?_eq_some_iff.mp hl
        have hm := (h.headsRead m y hget).1
        have := hheads y (by rw [Store.latestHead, hl]; rfl)
        exact Nat.le_trans (hmax n sth hsth) (by omega)
    exact ⟨fun _ => hclock _ hread, fun hlt => absurd hlt (Nat.not_lt.mpr hle)⟩
  · intro u hu x y hx hy
    rw [hst] at hx
    cases hx
    have hmem := List.mem_of_mem_eraseIdx hu
    exact Or.inr ⟨hsigns u hmem y hy, hclock _ (h.stampsRead u hmem y hy)⟩

theorem SignStep.stamps {s s' : St} {p : Proc} {clock : List Int} (hp : s.proc = some p) (h : StampInv s.store p.signs clock)
    {e : SignEv} (hclock : ∀ now, clockRead s (.sign e) = some now → ∀ c ∈ clock, c < now)
    (hok : stampsApart s (.sign e) = true) (hs : SignStep sha256 E s p e s') :
    StampInv s'.store s'.cycles (clock ++ (clockRead s (.sign e)).toList) ∧ LatestGrows s.store s'.store := by
  cases hs with
  | snapped =>
    refine ⟨StampInv.mono ⟨h.headsRead, fun t ht x hx => ?_, h.heads, fun t ht x hx => ?_, ?_⟩ _, .of_heads rfl⟩
    · rcases List.mem_append.mp ht with ht | ht
      · exact h.stampsRead t ht x hx
      · rw [List.mem_singleton.mp ht] at hx
        cases hx
    · rcases List.mem_append.mp ht with ht | ht
      · exact h.ahead t ht x hx
      · rw [List.mem_singleton.mp ht] at hx
        cases hx
    · exact pairwise_push SignTask.Ordered.symm h.ordered fun u _ x y hx => by cases hx
  | wrote ht => exact ⟨(h.write ht).mono _, h.latestGrows ht⟩
  | @skipped i now t ht hn => exact ⟨(h.eraseIdx i).mono _, .of_heads rfl⟩
  | @moved i now t t' ht hn =>
    refine ⟨?_, .of_heads rfl⟩
    rcases SignTask.next_stamp E hn with hst | ⟨treeSize, root, rfl, hst⟩
    · apply StampInv.mono
      apply h.set ht
      · intro x hx
        exact h.stampsRead t (List.mem_of_getElem? ht) x (by rw [← hst]; exact hx)
      · intro x hx
        exact h.ahead t (List.mem_of_getElem? ht) x (by rw [← hst]; exact hx)
      · intro u hu x y hx
        rw [hst] at hx
        exact pairwise_rest SignTask.Ordered.symm h.ordered ht u hu x y hx
    · have hstamp : stamping s (.sign (.next i now)) = some (treeSize, now) := by simp only [stamping, hp, ht]
      have hread : clockRead s (.sign (.next i now)) = some now := by rw [clockRead, hstamp]; rfl
      simp only [stampsApart, hstamp, hp, Option.all_some, Bool.and_eq_true, List.all_eq_true] at hok
      rw [hread]
      refine h.stamp ht hst (hclock now hread) (fun latest hl => ?_) (fun u hu x hx => ?_)
      · have := hok.1
        rw [hl] at this
        simpa using this
      · have := hok.2 u hu
        rw [hx] at this
        simpa using this
  | @failed i => exact ⟨(h.eraseIdx i).mono _, .of_heads rfl⟩

theorem Step.stamps {s s' : St} {e : Ev} {clock : List Int} (h : StampInv s.store s.cycles clock)
    (hclock : ∀ now, clockRead s e = some now → ∀ c ∈ clock, c < now) (hok : stampsApart s e = true)
    (hs : Step sha256 E s e s') :
    StampInv s'.store s'.cycles (clock ++ (clockRead s e).toList) ∧ LatestGrows s.store s'.store := by
  by_cases he : ∃ e', e = .sign e'
  · obtain ⟨e', rfl⟩ := he
    cases hs with
    | sign hp hs =>
      rw [cycles_of_proc hp] at h
      exact hs.stamps sha256 E hp h hclock hok
  · have hk := hs.signsKept fun e' he' => he ⟨e', he'⟩
    refine ⟨StampInv.mono ?_ _, .of_heads hk.heads⟩
    have hget : ∀ t, s'.store.headAtSize t = s.store.headAtSize t := fun t => by
      rw [Store.headAtSize, Store.headAtSize, hk.heads]
    refine ⟨?_, ?_, ?_, ?_, ?_⟩
    · simpa only [hget] using h.headsRead
    · rcases hk.cycles with hc | hc <;> rw [hc]
      · intro t ht; cases ht
      · exact h.stampsRead
    · simpa only [hget] using h.heads
    · simp only [hget]
      rcases hk.cycles with hc | hc <;> rw [hc]
      · intro t ht; cases ht
      · exact h.ahead
    · rcases hk.cycles with hc | hc <;> rw [hc]
      · exact .nil
      · exact h.ordered

/-- A cycle reads the clock, and a rotation swaps the signer, only apart from other
    cycles. -/
def cyclesApart (s : St × List Int) (e : Ev) : Bool := stampsApart s.1 e && swapsApart s.1 e

/-- A step of the machine with its clock: the readings so far ascend. -/
theorem observed_stamps {s s' : St × List Int} {e : Ev} (h : StampInv s.1.store s.1.cycles s.2) (hok : cyclesApart s e = true)
    (hs : observed (step sha256 E) clockRead s e = some s') (hclock : s'.2.Pairwise (· < ·)) :
    StampInv s'.1.store s'.1.cycles s'.2 ∧ LatestGrows s.1.store s'.1.store := by
  obtain ⟨hs, hl⟩ := observed_eq_some.mp hs
  rw [hl] at hclock ⊢
  refine (step_step sha256 E hs).stamps sha256 E h (fun now hread c hc => ?_) (Bool.and_eq_true_iff.mp hok).1
  rw [hread] at hclock
  exact (List.pairwise_append.mp hclock).2.2 c hc now (List.mem_singleton_self now)

theorem observed_clock {s s' : St × List Int} {e : Ev} (hs : observed (step sha256 E) clockRead s e = some s')
    (hclock : s'.2.Pairwise (· < ·)) : s.2.Pairwise (· < ·) := by
  rw [(observed_eq_some.mp hs).2] at hclock
  exact (List.pairwise_append.mp hclock).1

/-- With a clock whose readings strictly increase, in every run in which a cycle reads it
    only while no head is larger than its tree and no other cycle past its reading is as
    large (and a rotation does not split a head): at any time the heads' timestamps grow
    strictly with their sizes; and of the latest heads at two times either they are the
    same, or the later one has the later timestamp and `verify_tree_head_sequential`
    accepts it after the earlier. -/
theorem timestamps_monotone (hverify : ∀ key m, E.verify (E.publicKey key) m (E.sign key m) = true)
    (hsig : ∀ key m, (E.sign key m).length = 64) {s s' : St × List Int}
    (h : Reach (observed (step sha256 E) clockRead) cyclesApart (.init, []) s)
    (h' : Reach (observed (step sha256 E) clockRead) cyclesApart s s') (hclock : s'.2.Pairwise (· < ·)) :
    (∀ a b x y, s.1.store.headAtSize a = some x → s.1.store.headAtSize b = some y → a < b →
      x.timestampNs < y.timestampNs) ∧
    ∀ x y, s.1.store.latestHead = some x → s'.1.store.latestHead = some y → y = x ∨ (x.timestampNs < y.timestampNs ∧
      Sdk.Rust.verifyTreeHeadSequential E y.treeSize y.rootHash y.timestampNs y.signature y.publicKey.val x.timestampNs =
        true) := by
  have hstart : s.2.Pairwise (· < ·) → StampInv s.1.store s.1.cycles s.2 := by
    apply h.inv (P := fun s => s.2.Pairwise (· < ·) → StampInv s.1.store s.1.cycles s.2)
    · intro _
      exact ⟨fun t sth hsth => (by cases hsth), fun t ht => (by cases ht), fun a b x y hx => (by cases hx), fun t ht => (by cases ht),
        .nil⟩
    · intro s e s' hi hok hs hclock
      exact (observed_stamps sha256 E (hi (observed_clock sha256 E hs hclock)) hok hs hclock).1
  have hrun := h'.inv (P := fun s' => s'.2.Pairwise (· < ·) → s.2.Pairwise (· < ·) ∧
    StampInv s'.1.store s'.1.cycles s'.2 ∧ LatestGrows s.1.store s'.1.store) (fun hc => ⟨hc, hstart hc, .of_heads rfl⟩) ?_ hclock
  · obtain ⟨hc, -, hgrows⟩ := hrun
    refine ⟨(hstart hc).heads, fun x y hx hy => ?_⟩
    obtain ⟨z, hz, hor⟩ := hgrows x hx
    rw [hy] at hz
    cases hz
    refine hor.imp_right fun hlt => ⟨hlt, ?_⟩
    have himp : ∀ (s : St) (l : List Int) (e : Ev), cyclesApart (s, l) e = true → swapsApart s e = true :=
      fun s l e h => (Bool.and_eq_true_iff.mp h).2
    have hi := reach_signInv sha256 E ((h.unobserved himp).trans (h'.unobserved himp))
    obtain ⟨n, hl⟩ := latestHead_eq_some hy
    obtain ⟨signer, hmem⟩ := hi.heads n y (OrdMap.last?_eq_some_iff.mp hl).1
    obtain ⟨hsg, hpub, -⟩ := hi.signed y signer hmem
    rw [Sdk.Rust.verifyTreeHeadSequential, if_neg (by omega), Sdk.Rust.verifyTreeHead_eq (by rw [hsg]; exact hsig _ _),
      Ed25519.verifyTreeHead, hsg, hpub]
    exact hverify signer.key _
  · intro t e t' hi hok hs hclock
    obtain ⟨hc, hst, hgrows⟩ := hi (observed_clock sha256 E hs hclock)
    obtain ⟨hst', hgrows'⟩ := observed_stamps sha256 E hst hok hs hclock
    exact ⟨hc, hst', hgrows.trans hgrows'⟩

/-- A head at 6 of the clock, and after another entry one at 9. -/
theorem timestamps_monotone_two_sizes : ∃ s s' x y,
    Reach (observed (step Sha256.sha256 digestKeys) clockRead) cyclesApart (.init, []) s ∧
    Reach (observed (step Sha256.sha256 digestKeys) clockRead) cyclesApart s s' ∧ s'.2 = [6, 9] ∧
    s.1.store.latestHead = some x ∧ s'.1.store.latestHead = some y ∧ x.timestampNs < y.timestampNs ∧
    Sdk.Rust.verifyTreeHeadSequential digestKeys y.treeSize y.rootHash y.timestampNs y.signature y.publicKey.val
      x.timestampNs = true := by
  have hrun : ((run (observed (step Sha256.sha256 digestKeys) clockRead) cyclesApart (.init, [])
      ([Ev.restart .zero true] ++ appendEvs [1] [10] 5 ++ signEvs 6)).bind fun s =>
        (run (observed (step Sha256.sha256 digestKeys) clockRead) cyclesApart s (appendEvs [2] [20] 8 ++ signEvs 9)).bind
          fun s' => s.1.store.latestHead.bind fun x => s'.1.store.latestHead.map fun y =>
            (s'.2, x.timestampNs, y.timestampNs)) = some ([6, 9], 6, 9) := by
    decide +kernel
  obtain ⟨s, hs, hrun⟩ := Option.bind_eq_some_iff.mp hrun
  obtain ⟨s', hs', hrun⟩ := Option.bind_eq_some_iff.mp hrun
  obtain ⟨x, hx, hrun⟩ := Option.bind_eq_some_iff.mp hrun
  obtain ⟨y, hy, hrun⟩ := Option.map_eq_some_iff.mp hrun
  obtain ⟨hclock, hrun⟩ := Prod.mk.inj hrun
  obtain ⟨h6, h9⟩ := Prod.mk.inj hrun
  have h := Reach.init.run hs
  have h' := Reach.init.run hs'
  have hlaw := timestamps_monotone Sha256.sha256 digestKeys digestKeys_verify digestKeys_length h h' (by rw [hclock]; decide)
  rcases hlaw.2 x y hx hy with rfl | ⟨hlt, hv⟩
  · omega
  · exact ⟨s, s', x, y, h, h', hclock, hx, hy, hlt, hv⟩

/-- A cycle takes size 1; another takes size 2, reads 7 and writes; the first then reads 8
    and writes: the smaller head has the later timestamp. And of two cycles of one size
    the one that read 7 writes first and the one that read 6 last: the latest head goes
    back, and a client that follows it rejects it. -/
theorem timestamps_out_of_order :
    (∃ s x y, Reach (observed (step Sha256.sha256 digestKeys) clockRead) (fun _ _ => true) (.init, []) s ∧ s.2 = [7, 8] ∧
      s.1.store.headAtSize 1 = some x ∧ s.1.store.headAtSize 2 = some y ∧ x.timestampNs = 8 ∧ y.timestampNs = 7) ∧
    ∃ s s' x y, Reach (observed (step Sha256.sha256 digestKeys) clockRead) (fun _ _ => true) (.init, []) s ∧
      Reach (observed (step Sha256.sha256 digestKeys) clockRead) (fun _ _ => true) s s' ∧ s'.2 = [6, 7] ∧
      s.1.store.latestHead = some x ∧ s'.1.store.latestHead = some y ∧ x.timestampNs = 7 ∧ y.timestampNs = 6 ∧
      Sdk.Rust.verifyTreeHeadSequential digestKeys y.treeSize y.rootHash y.timestampNs y.signature y.publicKey.val
        x.timestampNs = false := by
  constructor
  · have hrun : ((run (observed (step Sha256.sha256 digestKeys) clockRead) (fun _ _ => true) (.init, [])
        ([Ev.restart .zero true] ++ appendEvs [1] [10] 5 ++ [Ev.sign .snapshot, .sign (.next 0 5)] ++ appendEvs [2] [20] 6 ++
          [Ev.sign .snapshot] ++ List.replicate 6 (Ev.sign (.next 1 7)) ++ List.replicate 5 (Ev.sign (.next 0 8)))).bind fun s =>
            (s.1.store.headAtSize 1).bind fun x => (s.1.store.headAtSize 2).map fun y =>
              (s.2, x.timestampNs, y.timestampNs)) = some ([7, 8], 8, 7) := by
      decide +kernel
    obtain ⟨s, hs, hrun⟩ := Option.bind_eq_some_iff.mp hrun
    obtain ⟨x, hx, hrun⟩ := Option.bind_eq_some_iff.mp hrun
    obtain ⟨y, hy, hrun⟩ := Option.map_eq_some_iff.mp hrun
    obtain ⟨hclock, hrun⟩ := Prod.mk.inj hrun
    obtain ⟨h8, h7⟩ := Prod.mk.inj hrun
    exact ⟨s, x, y, Reach.init.run hs, hclock, hx, hy, h8, h7⟩
  · have hrun : ((run (observed (step Sha256.sha256 digestKeys) clockRead) (fun _ _ => true) (.init, [])
        ([Ev.restart .zero true] ++ appendEvs [1] [10] 5 ++ [Ev.sign .snapshot, .sign .snapshot, .sign (.next 0 6),
          .sign (.next 0 6)] ++ List.replicate 6 (Ev.sign (.next 1 7)))).bind fun s =>
            (run (observed (step Sha256.sha256 digestKeys) clockRead) (fun _ _ => true) s
              (List.replicate 4 (Ev.sign (.next 0 8)))).bind fun s' => s.1.store.latestHead.bind fun x =>
                s'.1.store.latestHead.map fun y => (s'.2, x.timestampNs, y.timestampNs)) = some ([6, 7], 7, 6) := by
      decide +kernel
    obtain ⟨s, hs, hrun⟩ := Option.bind_eq_some_iff.mp hrun
    obtain ⟨s', hs', hrun⟩ := Option.bind_eq_some_iff.mp hrun
    obtain ⟨x, hx, hrun⟩ := Option.bind_eq_some_iff.mp hrun
    obtain ⟨y, hy, hrun⟩ := Option.map_eq_some_iff.mp hrun
    obtain ⟨hclock, hrun⟩ := Prod.mk.inj hrun
    obtain ⟨h7, h6⟩ := Prod.mk.inj hrun
    refine ⟨s, s', x, y, Reach.init.run hs, Reach.init.run hs', hclock, hx, hy, h7, h6, ?_⟩
    rw [Sdk.Rust.verifyTreeHeadSequential, if_pos (by rw [h6, h7]; decide)]

end Settled.Server
