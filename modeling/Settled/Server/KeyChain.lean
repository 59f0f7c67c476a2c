/-
  Settled.Server.KeyChain — the signer, the key file and the `keys` records under
  `rotate_key`, failures, crashes and restarts.

  `rotate_key` reads the version, writes the key file, swaps the signer and puts the
  record, and holds nothing from one to the next. Two rotations that read one version
  both succeed with it, and the record of the one replaces the other's
  (`rotations_collide`). A rotation that fails or crashes after the key file was written
  and before its record was leaves a signer, or after a restart a key file, that no
  record has (`rotation_cut_off`).

  - If a rotation reads the version only while no other stands between its own reading
    and its swap (`versionsApart`), and none is cut off (`rotationsKept`), every version
    is given out once and its record never changes: `KeyInv`.
  - `key_chain_integrity`: then, with no rotation in flight, the signer and every head
    match their records.
  - `rotation_atomic`: if moreover nothing is signed between a swap and its record
    (`signsRecorded`), every head matches its record at all times, and the signer exactly
    while no rotation stands between its swap and its record.

  Versions are naturals: all of this is about fewer than 2^32 - 1 rotations.
-/

import Settled.Lib.Tasks
import Settled.Sdk.TreeHead
import Settled.Server.Heads

namespace Settled.Server

open Settled.Lib Settled.Core Settled.Storage

variable (sha256 : Bytes → Hash) (E : Ed25519)

/-! ## Rotations -/

/-- The version a rotation has read for its key. -/
def RotateTask.claims : RotateTask → Option Nat
  | sized _ => none
  | numbered _ version => some version
  | filed _ version _ => some version
  | swapped _ version _ => some version

/-- Between its reading of the version and its swap. -/
def RotateTask.unswapped : RotateTask → Bool
  | numbered _ _ => true
  | filed _ _ _ => true
  | _ => false

/-- Between the key file and the record. -/
def RotateTask.begun : RotateTask → Bool
  | filed _ _ _ => true
  | swapped _ _ _ => true
  | _ => false

/-- A rotation reads the version only while no other stands between its own reading and
    its swap. -/
def versionsApart (s : St) : Ev → Bool
  | .rotate (.next i _) =>
    match s.proc with
    | none => true
    | some p =>
      match p.rotations[i]? with
      | some (.sized _) => p.rotations.all fun t => !t.unswapped
      | _ => true
  | _ => true

/-- No rotation is cut off between the key file and the record: it may fail only at the
    key file, and no crash comes while one is past it. -/
def rotationsKept (s : St) : Ev → Bool
  | .rotate (.fails i) =>
    match s.proc with
    | none => true
    | some p =>
      match p.rotations[i]? with
      | some (.numbered _ _) => true
      | _ => false
  | .crash =>
    match s.proc with
    | none => true
    | some p => p.rotations.all fun t => !t.begun
  | _ => true

def RotateTask.Apart (t u : RotateTask) : Prop := ∀ v, t.claims = some v → u.claims ≠ some v

theorem RotateTask.Apart.symm {t u : RotateTask} (h : t.Apart u) : u.Apart t := fun v hu ht => h v ht hu

/-! ## The invariant -/

/-- There is a record of the signer's version with its public key. -/
def Recorded (store : Store) (signer : Signer) : Prop :=
  ∃ r, store.getKey signer.version = some r ∧ r.publicKey = E.publicKey signer.key

/-- What a rotation has done: the version it read is the next, until it has swapped; then
    its record is still to come. -/
def RotateTask.Ok (store : Store) (keyFile : Option Hash) (signer : Signer) : RotateTask → Prop
  | sized _ => True
  | numbered _ version => version = signer.version + 1
  | filed _ version newKey => version = signer.version + 1 ∧ keyFile = some newKey
  | swapped _ version _ => version ≤ signer.version ∧ store.getKey version = none

def RotateTask.isFiled : RotateTask → Bool
  | filed _ _ _ => true
  | _ => false

structure ProcKeys (store : Store) (keyFile : Option Hash) (signer : Signer) (rotations : List RotateTask) : Prop where
  upTo : ∀ v r, store.getKey v = some r → v ≤ signer.version
  known : Recorded E store signer ∨ ∃ at_, .swapped at_ signer.version signer.key ∈ rotations
  apart : rotations.Pairwise RotateTask.Apart
  tasks : ∀ t ∈ rotations, t.Ok store keyFile signer
  file : (∀ t ∈ rotations, t.isFiled = false) → keyFile = some signer.key

structure KeyInv (s : St) : Prop where
  versions : ∀ v r, s.store.getKey v = some r → r.version = v
  proc : ∀ p, s.proc = some p → ProcKeys E s.store s.keyFile p.signer p.rotations
  /-- With no process: no record yet, or the latest is that of the key file. -/
  disk : s.proc = none → (∀ v, s.store.getKey v = none) ∨
    ∃ v r key, s.store.keys.last? = some (v, r) ∧ s.keyFile = some key ∧ r.publicKey = E.publicKey key

theorem KeyInv.init : KeyInv E .init where
  versions v r h := by cases h
  proc p h := by cases h
  disk _ := Or.inl fun v => rfl

/-- No record was replaced. -/
def RecordsKept (store store' : Store) : Prop := ∀ v r, store.getKey v = some r → store'.getKey v = some r

theorem RecordsKept.of_keys {store store' : Store} (h : store'.keys = store.keys) : RecordsKept store store' := by
  intro v r hr
  rw [Store.getKey, h]
  exact hr

theorem getKey_putKey (store : Store) (r : KeyRecord) (v : Nat) :
    (store.putKey r).getKey v = if v = r.version then some r else store.getKey v := OrdMap.get?_put _ _ _ v

theorem RecordsKept.put {store : Store} {r : KeyRecord} (h : store.getKey r.version = none) :
    RecordsKept store (store.putKey r) := by
  intro v r' hr
  have hne : v ≠ r.version := by
    rintro rfl
    rw [h] at hr
    cases hr
  rw [getKey_putKey, if_neg hne]
  exact hr

theorem RecordsKept.recorded {store store' : Store} (h : RecordsKept store store') {signer : Signer}
    (hr : Recorded E store signer) : Recorded E store' signer := by
  obtain ⟨r, hget, hpub⟩ := hr
  exact ⟨r, h _ r hget, hpub⟩

/-! ## Steps of a rotation -/

section

variable {store : Store} {keyFile : Option Hash} {signer : Signer} {rotations : List RotateTask}

theorem ProcKeys.start (h : ProcKeys E store keyFile signer rotations) (at_ : Nat) :
    ProcKeys E store keyFile signer (rotations ++ [.sized at_]) where
  upTo := h.upTo
  known := h.known.imp_right fun ⟨at', ht⟩ => ⟨at', List.mem_append_left _ ht⟩
  apart := pairwise_push RotateTask.Apart.symm h.apart fun u _ v hv => by cases hv
  tasks t ht := by
    rcases List.mem_append.mp ht with ht | ht
    · exact h.tasks t ht
    · rw [List.mem_singleton.mp ht]
      trivial
  file hno := h.file fun t ht => hno t (List.mem_append_left _ ht)

/-- The rotation at `i` reads the version. -/
theorem ProcKeys.number (h : ProcKeys E store keyFile signer rotations) {i at_ : Nat}
    (ht : rotations[i]? = some (.sized at_)) (hno : ∀ t ∈ rotations, t.unswapped = false) :
    ProcKeys E store keyFile signer (rotations.set i (.numbered at_ (signer.version + 1))) := by
  obtain ⟨hup, hknown, hapart, htasks, hfile⟩ := h
  refine ⟨hup, ?_, pairwise_set RotateTask.Apart.symm hapart ht fun u hu v hv => ?_, ?_, ?_⟩
  · simpa [mem_set_iff ht, mem_iff_eraseIdx ht] using hknown
  · -- the others have swapped, and so have a version up to the signer's
    cases hv
    have hm := (mem_iff_eraseIdx ht).mpr (Or.inr hu)
    have hok := htasks u hm
    have hu' := hno u hm
    cases u with
    | sized => simp [RotateTask.claims]
    | numbered | filed => cases hu'
    | swapped at' v key =>
      have := hok.1
      simp only [RotateTask.claims, ne_eq, Option.some.injEq]
      omega
  · simp only [mem_set_iff ht, forall_eq_or_imp]
    exact ⟨rfl, fun t hm => htasks t ((mem_iff_eraseIdx ht).mpr (Or.inr hm))⟩
  · simp only [mem_set_iff ht, mem_iff_eraseIdx ht, forall_eq_or_imp] at hfile ⊢
    exact fun hno => hfile ⟨rfl, hno.2⟩

/-- It writes the key file. -/
theorem ProcKeys.writeFile (h : ProcKeys E store keyFile signer rotations) {i at_ version : Nat}
    (ht : rotations[i]? = some (.numbered at_ version)) (newKey : Hash) :
    ProcKeys E store (some newKey) signer (rotations.set i (.filed at_ version newKey)) := by
  obtain ⟨hup, hknown, hapart, htasks, hfile⟩ := h
  have hrest := pairwise_rest RotateTask.Apart.symm hapart ht
  have hv : version = signer.version + 1 := htasks _ (List.mem_of_getElem? ht)
  refine ⟨hup, ?_, pairwise_set RotateTask.Apart.symm hapart ht hrest, ?_, ?_⟩
  · simpa [mem_set_iff ht, mem_iff_eraseIdx ht] using hknown
  · simp only [mem_set_iff ht, forall_eq_or_imp]
    refine ⟨⟨hv, rfl⟩, fun u hu => ?_⟩
    have hok := htasks u ((mem_iff_eraseIdx ht).mpr (Or.inr hu))
    cases u with
    | sized | numbered | swapped => exact hok
    | filed at' v key =>
      -- its version would be the same
      exact absurd (congrArg some (hok.1.trans hv.symm)) (hrest _ hu version rfl)
  · simp only [mem_set_iff ht, forall_eq_or_imp]
    exact fun hno => by cases hno.1

/-- It swaps the signer. -/
theorem ProcKeys.swap (h : ProcKeys E store keyFile signer rotations) {i at_ version : Nat} {key : Hash}
    (ht : rotations[i]? = some (.filed at_ version key)) :
    ProcKeys E store keyFile ⟨key, version⟩ (rotations.set i (.swapped at_ version key)) := by
  obtain ⟨hup, hknown, hapart, htasks, hfile⟩ := h
  have hrest := pairwise_rest RotateTask.Apart.symm hapart ht
  obtain ⟨hv, hk⟩ := htasks _ (List.mem_of_getElem? ht)
  have hfree : store.getKey version = none := by
    rw [Option.eq_none_iff_forall_ne_some]
    intro r hr
    have := hup version r hr
    omega
  refine ⟨fun v r hr => ?_, Or.inr ⟨at_, (mem_set_iff ht).mpr (Or.inl rfl)⟩,
    pairwise_set RotateTask.Apart.symm hapart ht hrest, ?_, fun _ => hk⟩
  · have := hup v r hr
    show v ≤ version
    omega
  · simp only [mem_set_iff ht, forall_eq_or_imp]
    refine ⟨⟨Nat.le_refl version, hfree⟩, fun u hu => ?_⟩
    have hok := htasks u ((mem_iff_eraseIdx ht).mpr (Or.inr hu))
    cases u with
    | sized => trivial
    | numbered at' v => exact absurd (congrArg some (Eq.trans hok hv.symm)) (hrest _ hu version rfl)
    | filed at' v key => exact absurd (congrArg some (hok.1.trans hv.symm)) (hrest _ hu version rfl)
    | swapped at' v key =>
      refine ⟨?_, hok.2⟩
      have := hok.1
      show v ≤ version
      omega

/-- It puts its record. -/
theorem ProcKeys.record (h : ProcKeys E store keyFile signer rotations) {i at_ version : Nat} {key : Hash}
    (ht : rotations[i]? = some (.swapped at_ version key)) :
    ProcKeys E (store.putKey ⟨version, E.publicKey key, at_⟩) keyFile signer (rotations.eraseIdx i) ∧
      RecordsKept store (store.putKey ⟨version, E.publicKey key, at_⟩) := by
  obtain ⟨hup, hknown, hapart, htasks, hfile⟩ := h
  have hrest := pairwise_rest RotateTask.Apart.symm hapart ht
  obtain ⟨hv, hfree⟩ := htasks _ (List.mem_of_getElem? ht)
  have hkept : RecordsKept store (store.putKey ⟨version, E.publicKey key, at_⟩) := .put hfree
  refine ⟨⟨fun v r hr => ?_, ?_, pairwise_eraseIdx hapart i, fun u hu => ?_, fun hno => hfile ?_⟩, hkept⟩
  · rw [getKey_putKey] at hr
    split at hr
    next heq => rw [heq]; exact hv
    next => exact hup v r hr
  · rcases hknown with hrec | ⟨at', hm⟩
    · exact Or.inl (hkept.recorded E hrec)
    · rcases (mem_iff_eraseIdx ht).mp hm with hm | hm
      · obtain ⟨-, h2, h3⟩ := RotateTask.swapped.inj hm
        left
        refine ⟨⟨version, E.publicKey key, at_⟩, ?_, by rw [h3]⟩
        rw [getKey_putKey, if_pos h2]
      · exact Or.inr ⟨at', hm⟩
  · have hok := htasks u ((mem_iff_eraseIdx ht).mpr (Or.inr hu))
    cases u with
    | sized | numbered | filed => exact hok
    | swapped at' v key' =>
      have hne : v ≠ version := fun he => hrest _ hu version rfl (congrArg some he)
      refine ⟨hok.1, ?_⟩
      rw [getKey_putKey, if_neg hne]
      exact hok.2
  · simp only [mem_iff_eraseIdx ht, forall_eq_or_imp]
    exact ⟨rfl, hno⟩

/-- It fails at the key file. -/
theorem ProcKeys.fail (h : ProcKeys E store keyFile signer rotations) {i at_ version : Nat}
    (ht : rotations[i]? = some (.numbered at_ version)) : ProcKeys E store keyFile signer (rotations.eraseIdx i) := by
  obtain ⟨hup, hknown, hapart, htasks, hfile⟩ := h
  refine ⟨hup, ?_, pairwise_eraseIdx hapart i, fun u hu => htasks u ((mem_iff_eraseIdx ht).mpr (Or.inr hu)),
    fun hno => hfile ?_⟩
  · simpa [mem_iff_eraseIdx ht] using hknown
  · simp only [mem_iff_eraseIdx ht, forall_eq_or_imp]
    exact ⟨rfl, hno⟩

end

theorem RotateStep.keyInv {s s' : St} {p : Proc} (h : KeyInv E s) (hp : s.proc = some p) {e : RotateEv}
    (hver : versionsApart s (.rotate e) = true) (hkept : rotationsKept s (.rotate e) = true) (hs : RotateStep E s p e s') :
    KeyInv E s' ∧ RecordsKept s.store s'.store := by
  have hkeys := h.proc p hp
  cases hs with
  | sized =>
    refine ⟨⟨h.versions, fun p' hp' => ?_, fun hn => by cases hn⟩, .of_keys rfl⟩
    cases hp'
    exact hkeys.start E _
  | @numbered i at_ newKey ht =>
    refine ⟨⟨h.versions, fun p' hp' => ?_, fun hn => by cases hn⟩, .of_keys rfl⟩
    cases hp'
    simp only [versionsApart, hp, ht, List.all_eq_true, Bool.not_eq_true'] at hver
    exact hkeys.number E ht hver
  | filed ht =>
    refine ⟨⟨h.versions, fun p' hp' => ?_, fun hn => by cases hn⟩, .of_keys rfl⟩
    cases hp'
    exact hkeys.writeFile E ht _
  | swapped ht =>
    refine ⟨⟨h.versions, fun p' hp' => ?_, fun hn => by cases hn⟩, .of_keys rfl⟩
    cases hp'
    exact hkeys.swap E ht
  | recorded ht =>
    obtain ⟨hkeys', hkept'⟩ := hkeys.record E ht
    refine ⟨⟨fun v r hr => ?_, fun p' hp' => ?_, fun hn => by cases hn⟩, hkept'⟩
    · have hr : (s.store.putKey _).getKey v = some r := hr
      rw [getKey_putKey] at hr
      split at hr
      next heq => cases hr; exact heq.symm
      next => exact h.versions v r hr
    · cases hp'
      exact hkeys'
  | @failed i =>
    refine ⟨⟨h.versions, fun p' hp' => ?_, fun hn => by cases hn⟩, .of_keys rfl⟩
    cases hp'
    simp only [rotationsKept, hp] at hkept
    split at hkept
    next ht => exact hkeys.fail E ht
    next => cases hkept

/-! ## Crashes and restarts -/

/-- With every rotation before its key file or done, disk and process agree. -/
theorem ProcKeys.crash {store : Store} {keyFile : Option Hash} {signer : Signer} {rotations : List RotateTask}
    (h : ProcKeys E store keyFile signer rotations) (hno : ∀ t ∈ rotations, t.begun = false) :
    ∃ v r key, store.keys.last? = some (v, r) ∧ keyFile = some key ∧ r.publicKey = E.publicKey key := by
  have hfile := h.file fun t ht => by
    have := hno t ht
    cases t with
    | filed => cases this
    | sized | numbered | swapped => rfl
  rcases h.known with ⟨r, hr, hpub⟩ | ⟨at_, hm⟩
  · exact ⟨signer.version, r, signer.key, OrdMap.last?_eq_some_iff.mpr ⟨hr, h.upTo⟩, hfile, hpub⟩
  · cases hno _ hm

/-- `AppState::build`: the version of the latest record, the key of the file, and a first
    record if there was none. -/
theorem restart_keyInv {s s' : St} (h : KeyInv E s) (hp : s.proc = none) {newKey : Hash} {seeded : Bool}
    (hr : restart sha256 E s newKey seeded = some s') : KeyInv E s' ∧ RecordsKept s.store s'.store := by
  unfold restart at hr
  split at hr
  · cases hr
  next merkle hm =>
    rcases h.disk hp with hnone | ⟨v, r, key, hlast, hfile, hpub⟩
    · -- the first start
      have hlatest : s.store.latestKey = none := by rw [Store.latestKey, OrdMap.last?_eq_none_iff.mpr hnone]; rfl
      cases seeded with
      | false =>
        cases hr
        exact ⟨⟨h.versions, fun p hp' => (by rw [hp] at hp'; cases hp'), fun _ => Or.inl hnone⟩, .of_keys rfl⟩
      | true =>
        simp only [hlatest, if_true] at hr
        cases hr
        have hget : ∀ (key : Hash) v r, (s.store.putKey ⟨1, E.publicKey key, 0⟩).getKey v = some r →
            v = 1 ∧ r = ⟨1, E.publicKey key, 0⟩ := by
          intro key v r hr
          rw [getKey_putKey] at hr
          split at hr
          next heq => exact ⟨heq, (Option.some.inj hr).symm⟩
          next => rw [hnone v] at hr; cases hr
        refine ⟨⟨fun v r hr => ?_, fun p hp' => ?_, fun hn => by cases hn⟩, .put (hnone 1)⟩
        · obtain ⟨rfl, rfl⟩ := hget _ v r hr
          rfl
        · cases hp'
          refine ⟨fun v r hr => Nat.le_of_eq (hget _ v r hr).1, Or.inl ⟨⟨1, E.publicKey (s.keyFile.getD newKey), 0⟩, ?_, rfl⟩,
            .nil, fun t ht => (by cases ht), fun _ => rfl⟩
          show (s.store.putKey _).getKey 1 = _
          rw [getKey_putKey, if_pos rfl]
    · have hlatest : s.store.latestKey = some r := by rw [Store.latestKey, hlast]; rfl
      obtain ⟨hget, hmax⟩ := OrdMap.last?_eq_some_iff.mp hlast
      have hv : r.version = v := h.versions v r hget
      cases seeded with
      | false =>
        cases hr
        refine ⟨⟨h.versions, fun p hp' => (by rw [hp] at hp'; cases hp'), fun _ => Or.inr ⟨v, r, key, hlast, ?_, hpub⟩⟩,
          .of_keys rfl⟩
        rw [hfile]
        rfl
      | true =>
        simp only [hlatest, if_true] at hr
        cases hr
        refine ⟨⟨h.versions, fun p hp' => ?_, fun hn => by cases hn⟩, .of_keys rfl⟩
        cases hp'
        rw [hfile]
        refine ⟨fun v' r' hr' => ?_, Or.inl ⟨r, ?_, hpub⟩, .nil, fun t ht => (by cases ht), fun _ => rfl⟩
        · show v' ≤ r.version
          rw [hv]
          exact hmax v' r' hr'
        · show s.store.getKey r.version = some r
          rw [hv]
          exact hget

/-- Versions are read apart, and no rotation is cut off. -/
def chainOk (s : St) (e : Ev) : Bool := versionsApart s e && rotationsKept s e

theorem Step.keyInv {s s' : St} {e : Ev} (h : KeyInv E s) (hok : chainOk s e = true) (hs : Step sha256 E s e s') :
    KeyInv E s' ∧ RecordsKept s.store s'.store := by
  obtain ⟨hver, hkept⟩ := Bool.and_eq_true_iff.mp hok
  have hquiet : e.keepsKeys = true → KeyInv E s' ∧ RecordsKept s.store s'.store := by
    intro he
    obtain ⟨hkeys, hfile, p, p', hp, hp', hsigner, hrot⟩ := hs.keysKept he
    have hget : ∀ v, s'.store.getKey v = s.store.getKey v := fun v => by rw [Store.getKey, Store.getKey, hkeys]
    refine ⟨⟨fun v r hr => h.versions v r (by rw [← hget]; exact hr), fun q hq => ?_, fun hn => ?_⟩, .of_keys hkeys⟩
    · rw [hp'] at hq
      cases hq
      obtain ⟨hup, hknown, hapart, htasks, hfl⟩ := h.proc p hp
      rw [hfile, hsigner, hrot]
      refine ⟨by simpa only [hget] using hup, hknown.imp_left ((RecordsKept.of_keys hkeys).recorded E), hapart,
        fun t ht => ?_, hfl⟩
      have hok := htasks t ht
      cases t with
      | sized | numbered | filed => exact hok
      | swapped at_ v key => exact ⟨hok.1, by rw [hget]; exact hok.2⟩
    · rw [hp'] at hn
      cases hn
  cases hs with
  | append | sign | proof | watch => exact hquiet rfl
  | rotate hp hs => exact hs.keyInv E h hp hver hkept
  | @crash p hp =>
    simp only [rotationsKept, hp, List.all_eq_true, Bool.not_eq_true'] at hkept
    exact ⟨⟨h.versions, fun q hq => (by cases hq), fun _ => Or.inr ((h.proc p hp).crash E hkept)⟩, .of_keys rfl⟩
  | restart hp hr => exact restart_keyInv sha256 E h hp hr

/-! ## Who signed -/

/-- The head a cycle has signed. -/
def SignTask.draft : SignTask → Option Draft
  | snapped _ _ => none
  | checked _ _ => none
  | stamped _ _ _ => none
  | signed d => some d
  | keyed d _ => some d
  | assembled d _ _ => some d

theorem SignTask.next_draft {store : Store} {signer : Signer} {now : Int} {t t' : SignTask}
    (h : t.next E store signer now = some t') : t'.draft = t.draft ∨
      ∃ treeSize root ts d, t = .stamped treeSize root ts ∧ t'.draft = some d ∧ d.signer = signer := by
  cases t with
  | snapped treeSize root =>
    obtain ⟨-, r, -, rfl⟩ := SignTask.next_snapped E h
    exact Or.inl rfl
  | stamped treeSize root ts => cases h; exact Or.inr ⟨treeSize, root, ts, _, rfl, rfl, rfl⟩
  | checked | signed | keyed => cases h; exact Or.inl rfl
  | assembled => cases h

/-- The signer that signs in this step. -/
def signing (s : St) : Ev → Option Signer
  | .sign (.next i _) =>
    match s.proc with
    | none => none
    | some p =>
      match p.signs[i]? with
      | some (.stamped _ _ _) => some p.signer
      | _ => none
  | _ => none

/-- `K` holds of everyone who has signed a head, written or not. -/
structure SignersOk (K : Signer → Prop) (s : St) : Prop where
  signed : ∀ sth signer, (sth, signer) ∈ s.hist.signed → K signer
  drafts : ∀ t ∈ s.cycles, ∀ d, t.draft = some d → K d.signer

theorem SignersOk.imp {K K' : Signer → Prop} {s : St} (h : SignersOk K s) (himp : ∀ signer, K signer → K' signer) :
    SignersOk K' s :=
  ⟨fun sth signer hm => himp _ (h.signed sth signer hm), fun t ht d hd => himp _ (h.drafts t ht d hd)⟩

theorem Step.signersOk {K : Signer → Prop} {s s' : St} {e : Ev} (h : SignersOk K s)
    (hnew : ∀ signer, signing s e = some signer → K signer) (hs : Step sha256 E s e s') : SignersOk K s' := by
  by_cases he : ∃ e', e = .sign e'
  · obtain ⟨e', rfl⟩ := he
    cases hs with
    | @sign p _ _ hp hs =>
      have hd := h.drafts
      rw [cycles_of_proc hp] at hd
      have herase : ∀ i, ∀ t ∈ p.signs.eraseIdx i, ∀ d, t.draft = some d → K d.signer :=
        fun i t ht => hd t (List.mem_of_mem_eraseIdx ht)
      cases hs with
      | snapped =>
        refine ⟨h.signed, fun t ht d hdr => ?_⟩
        rcases List.mem_append.mp ht with ht | ht
        · exact hd t ht d hdr
        · rw [List.mem_singleton.mp ht] at hdr
          cases hdr
      | @wrote i now d publicKey keyVersion ht =>
        refine ⟨fun sth signer hm => ?_, herase i⟩
        rcases List.mem_append.mp hm with hm | hm
        · exact h.signed sth signer hm
        · obtain ⟨-, rfl⟩ := Prod.mk.inj (List.mem_singleton.mp hm)
          exact hd _ (List.mem_of_getElem? ht) d rfl
      | skipped => exact ⟨h.signed, herase _⟩
      | @moved i now t t' ht hn =>
        refine ⟨h.signed, fun u hu d hdr => ?_⟩
        rcases (mem_set_iff ht).mp hu with rfl | hu
        · rcases SignTask.next_draft E hn with hsame | ⟨treeSize, root, ts, d', rfl, hdr', hsig⟩
          · exact hd t (List.mem_of_getElem? ht) d (by rw [← hsame]; exact hdr)
          · rw [hdr] at hdr'
            cases hdr'
            rw [hsig]
            exact hnew _ (by simp only [signing, hp, ht])
        · exact herase i u hu d hdr
      | failed => exact ⟨h.signed, herase _⟩
  · have hk := hs.signsKept fun e' he' => he ⟨e', he'⟩
    refine ⟨fun sth signer hm => h.signed sth signer (by rw [← hk.signed]; exact hm), fun t ht => ?_⟩
    rcases hk.cycles with hc | hc
    · rw [hc] at ht
      cases ht
    · rw [hc] at ht
      exact h.drafts t ht

/-! ## Signers whose record is there, or still to come -/

def Known (s : St) (signer : Signer) : Prop :=
  Recorded E s.store signer ∨
    ∃ p, s.proc = some p ∧ ∃ at_, .swapped at_ signer.version signer.key ∈ p.rotations

theorem RotateStep.known {s s' : St} {p : Proc} (hp : s.proc = some p) {e : RotateEv}
    (hkept : rotationsKept s (.rotate e) = true) (hrec : RecordsKept s.store s'.store) (hs : RotateStep E s p e s')
    {signer : Signer} (h : Known E s signer) : Known E s' signer := by
  rcases h with h | ⟨q, hq, at_, hm⟩
  · exact Or.inl (hrec.recorded E h)
  rw [hp] at hq
  cases hq
  cases hs with
  | sized => exact Or.inr ⟨_, rfl, at_, List.mem_append_left _ hm⟩
  | numbered ht | filed ht | swapped ht =>
    rcases (mem_iff_eraseIdx ht).mp hm with hm | hm
    · cases hm
    · exact Or.inr ⟨_, rfl, at_, (mem_set_iff ht).mpr (Or.inr hm)⟩
  | @recorded i at' version key newKey ht =>
    rcases (mem_iff_eraseIdx ht).mp hm with hm | hm
    · obtain ⟨-, h2, h3⟩ := RotateTask.swapped.inj hm
      refine Or.inl ⟨⟨version, E.publicKey key, at'⟩, ?_, by rw [h3]⟩
      show (s.store.putKey _).getKey _ = _
      rw [getKey_putKey, if_pos h2]
    · exact Or.inr ⟨_, rfl, at_, hm⟩
  | @failed i =>
    simp only [rotationsKept, hp] at hkept
    split at hkept
    next ht =>
      rcases (mem_iff_eraseIdx ht).mp hm with hm | hm
      · cases hm
      · exact Or.inr ⟨_, rfl, at_, hm⟩
    next => cases hkept

theorem Step.known {s s' : St} {e : Ev} (hkept : rotationsKept s e = true) (hrec : RecordsKept s.store s'.store)
    (hs : Step sha256 E s e s') {signer : Signer} (h : Known E s signer) : Known E s' signer := by
  have hquiet : e.keepsKeys = true → Known E s' signer := by
    intro he
    obtain ⟨-, -, p, p', hp, hp', -, hrot⟩ := hs.keysKept he
    rcases h with h | ⟨q, hq, at_, hm⟩
    · exact Or.inl (hrec.recorded E h)
    · rw [hp] at hq
      cases hq
      exact Or.inr ⟨p', hp', at_, by rw [hrot]; exact hm⟩
  cases hs with
  | append | sign | proof | watch => exact hquiet rfl
  | rotate hp hs => exact hs.known E hp hkept hrec h
  | @crash p hp =>
    rcases h with h | ⟨q, hq, at_, hm⟩
    · exact Or.inl (hrec.recorded E h)
    · rw [hp] at hq
      cases hq
      simp only [rotationsKept, hp, List.all_eq_true, Bool.not_eq_true'] at hkept
      cases hkept _ hm
  | restart hp =>
    rcases h with h | ⟨q, hq, -⟩
    · exact Or.inl (hrec.recorded E h)
    · rw [hp] at hq
      cases hq

theorem KeyInv.signer_known {s : St} {e : Ev} (h : KeyInv E s) {signer : Signer} (hs : signing s e = some signer) :
    Known E s signer := by
  unfold signing at hs
  split at hs
  · split at hs
    · cases hs
    next p hp =>
      split at hs
      · cases hs
        exact (h.proc p hp).known.imp_right fun hm => ⟨p, hp, hm⟩
      · cases hs
  · cases hs

/-! ## Integrity under concurrent rotations -/

/-- What a rotation answers in this step. -/
def rotateReply (s : St) : Ev → Option KeyRecord
  | .rotate (.next i _) =>
    match s.proc with
    | none => none
    | some p =>
      match p.rotations[i]? with
      | some (.swapped activatedAt version key) => some ⟨version, E.publicKey key, activatedAt⟩
      | _ => none
  | _ => none

/-- A rotation's answer is a record that was not there before. -/
theorem Step.rotateReply {s s' : St} {e : Ev} (h : KeyInv E s) (hs : Step sha256 E s e s') {r : KeyRecord}
    (hr : rotateReply E s e = some r) : s.store.getKey r.version = none ∧ s'.store.getKey r.version = some r := by
  unfold Server.rotateReply at hr
  split at hr
  next i newKey =>
    cases hs with
    | @rotate p _ _ hp hs =>
      simp only [hp] at hr
      split at hr
      next at_ version key ht =>
        cases hr
        refine ⟨((h.proc p hp).tasks _ (List.mem_of_getElem? ht)).2, ?_⟩
        cases hs with
        | numbered ht' | filed ht' | swapped ht' => rw [ht] at ht'; cases ht'
        | recorded ht' =>
          rw [ht] at ht'
          cases ht'
          show (s.store.putKey _).getKey _ = _
          rw [getKey_putKey, if_pos rfl]
      next => cases hr
  next => cases hr

/-- The records returned so far are there, with versions of their own; and everyone who
    has signed is known. -/
structure ChainInv (s : St) (returned : List KeyRecord) : Prop where
  keys : KeyInv E s
  signers : SignersOk (Known E s) s
  stored : ∀ r ∈ returned, s.store.getKey r.version = some r
  distinct : (returned.map (·.version)).Nodup

theorem Step.chainInv {s s' : St} {e : Ev} {returned : List KeyRecord} (h : ChainInv E s returned) (hok : chainOk s e = true)
    (hs : Step sha256 E s e s') : ChainInv E s' (returned ++ (Server.rotateReply E s e).toList) := by
  obtain ⟨hkeys, hrec⟩ := hs.keyInv sha256 E h.keys hok
  have hknown : ∀ signer, Known E s signer → Known E s' signer :=
    fun signer => hs.known sha256 E (Bool.and_eq_true_iff.mp hok).2 hrec
  refine ⟨hkeys, hs.signersOk sha256 E (h.signers.imp hknown) fun signer hsig => hknown _ (h.keys.signer_known E hsig), ?_, ?_⟩
  · intro r hr
    rcases List.mem_append.mp hr with hr | hr
    · exact hrec _ r (h.stored r hr)
    · exact (hs.rotateReply sha256 E h.keys (Option.mem_toList.mp hr)).2
  · rw [List.map_append, List.nodup_append]
    refine ⟨h.distinct, ?_, ?_⟩
    · cases Server.rotateReply E s e <;> simp
    · intro v hv w hw
      obtain ⟨r, hr, rfl⟩ := List.mem_map.mp hv
      obtain ⟨r', hr', rfl⟩ := List.mem_map.mp hw
      have hfree := (hs.rotateReply sha256 E h.keys (Option.mem_toList.mp hr')).1
      intro he
      rw [← he, h.stored r hr] at hfree
      cases hfree

/-- Versions are read apart, no rotation is cut off, and none splits a head. -/
def concurrentOk (s : St × List KeyRecord) (e : Ev) : Bool := chainOk s.1 e && swapsApart s.1 e

theorem reach_chainInv {s : St × List KeyRecord}
    (h : Reach (observed (step sha256 E) (rotateReply E)) concurrentOk (.init, []) s) : ChainInv E s.1 s.2 := by
  apply h.inv (P := fun s => ChainInv E s.1 s.2)
  · exact ⟨.init E, ⟨fun sth signer hm => (by cases hm), fun t ht => (by cases ht)⟩, fun r hr => (by cases hr), .nil⟩
  · intro s e s' hi hok hs
    obtain ⟨hs, hl⟩ := observed_eq_some.mp hs
    rw [hl]
    exact (step_step sha256 E hs).chainInv sha256 E hi (Bool.and_eq_true_iff.mp hok).1

/-- `GET /api/keys` has the record of a version exactly when the store has. -/
theorem find_allKeys {store : Store} (h : ∀ v r, store.getKey v = some r → r.version = v) (v : Nat) :
    store.allKeys.find? (fun r => r.version = v) = store.getKey v := by
  have hlookup : ∀ l : List (Nat × KeyRecord), (∀ e ∈ l, e.2.version = e.1) →
      (l.map (·.2)).find? (fun r => r.version = v) = OrdMap.lookup v l := by
    intro l
    induction l with
    | nil => intro _; rfl
    | cons e l ih =>
      intro hl
      have he := hl e List.mem_cons_self
      rw [List.map_cons, List.find?_cons, OrdMap.lookup, he, ih fun x hx => hl x (List.mem_cons_of_mem e hx)]
      by_cases hv : v = e.1
      · simp [hv]
      · simp [hv, Ne.symm hv]
  exact hlookup _ fun e he => h e.1 e.2 (OrdMap.mem_entries.mp he)

/-- In every run in which a rotation reads the version only while no other stands between
    its own reading and its swap (and none is cut off or splits a head), once no rotation
    is in flight: the records returned so far have different versions; the signer's
    version has a record with its public key; and so has every head's, and
    `verify_tree_head_with_chain` over all records accepts it. -/
theorem key_chain_integrity (hverify : ∀ key m, E.verify (E.publicKey key) m (E.sign key m) = true)
    (hsig : ∀ key m, (E.sign key m).length = 64) {s : St × List KeyRecord} {p : Proc}
    (h : Reach (observed (step sha256 E) (rotateReply E)) concurrentOk (.init, []) s) (hp : s.1.proc = some p)
    (hidle : p.rotations = []) :
    (s.2.map (·.version)).Nodup ∧
    (∃ r, s.1.store.getKey p.signer.version = some r ∧ r.publicKey = E.publicKey p.signer.key) ∧
    ∀ t sth, s.1.store.headAtSize t = some sth →
      (∃ r, s.1.store.getKey sth.keyVersion = some r ∧ r.publicKey = sth.publicKey) ∧
      Sdk.Rust.verifyTreeHeadWithChain E sth.treeSize sth.rootHash sth.timestampNs sth.signature sth.keyVersion
        s.1.store.allKeys = true := by
  have hi := reach_chainInv sha256 E h
  have hrecorded : ∀ signer, Known E s.1 signer → Recorded E s.1.store signer := by
    rintro signer (hr | ⟨q, hq, at_, hm⟩)
    · exact hr
    · rw [hp] at hq
      cases hq
      rw [hidle] at hm
      cases hm
  have hsigned := reach_signInv sha256 E (h.unobserved fun s l e hok => (Bool.and_eq_true_iff.mp hok).2)
  refine ⟨hi.distinct, hrecorded _ ((hi.keys.proc p hp).known.imp_right fun hm => ⟨p, hp, hm⟩), fun t sth hsth => ?_⟩
  obtain ⟨signer, hm⟩ := hsigned.heads t sth hsth
  obtain ⟨hsg, hpub, hver⟩ := hsigned.signed sth signer hm
  obtain ⟨r, hr, hrpub⟩ := hrecorded _ (hi.signers.signed sth signer hm)
  rw [← hver] at hr
  have hrpub : r.publicKey = sth.publicKey := hrpub.trans hpub.symm
  refine ⟨⟨r, hr, hrpub⟩, ?_⟩
  rw [Sdk.Rust.verifyTreeHeadWithChain, find_allKeys hi.keys.versions, hr]
  show Sdk.Rust.verifyTreeHead E _ _ _ _ r.publicKey.val = true
  rw [hrpub, Sdk.Rust.verifyTreeHead_eq (by rw [hsg]; exact hsig _ _), Ed25519.verifyTreeHead, hsg, hpub]
  exact hverify signer.key _

def thirdKey : Hash := .fill 2

/-- Two rotations: the second reads the version after the first has swapped and puts its
    record before it; a head is signed in between. -/
def overlappingRotations : List Ev :=
  [.restart .zero true] ++ appendEvs [1] [10] 5 ++ [.rotate .start, .rotate .start] ++
    List.replicate 3 (.rotate (.next 0 secondKey)) ++ [.rotate (.next 1 thirdKey)] ++ signEvs 6 ++
    List.replicate 3 (.rotate (.next 1 thirdKey)) ++ [.rotate (.next 0 secondKey)]

theorem key_chain_integrity_overlapping : ∃ s p sth,
    Reach (observed (step Sha256.sha256 digestKeys) (rotateReply digestKeys)) concurrentOk (.init, []) s ∧
    s.1.proc = some p ∧ p.rotations = [] ∧ s.2.map (·.version) = [3, 2] ∧ s.1.store.headAtSize 1 = some sth ∧
    sth.keyVersion = 2 ∧ Sdk.Rust.verifyTreeHeadWithChain digestKeys sth.treeSize sth.rootHash sth.timestampNs sth.signature
      sth.keyVersion s.1.store.allKeys = true := by
  have hrun : ((run (observed (step Sha256.sha256 digestKeys) (rotateReply digestKeys)) concurrentOk (.init, [])
      overlappingRotations).bind fun s => s.1.proc.bind fun p => (s.1.store.headAtSize 1).map fun sth =>
        (p.rotations, s.2.map (·.version), sth.keyVersion)) = some ([], [3, 2], 2) := by
    decide +kernel
  obtain ⟨s, hs, hrun⟩ := Option.bind_eq_some_iff.mp hrun
  obtain ⟨p, hp, hrun⟩ := Option.bind_eq_some_iff.mp hrun
  obtain ⟨sth, hsth, hrun⟩ := Option.map_eq_some_iff.mp hrun
  obtain ⟨hidle, hrun⟩ := Prod.mk.inj hrun
  obtain ⟨hret, hver⟩ := Prod.mk.inj hrun
  have h := Reach.init.run hs
  have hlaw := key_chain_integrity Sha256.sha256 digestKeys digestKeys_verify digestKeys_length h hp hidle
  exact ⟨s, p, sth, h, hp, hidle, hret, hsth, hver, (hlaw.2.2 1 sth hsth).2⟩

/-- Two rotations read version 1; the second swaps last and its record is put first; a head
    is signed; then the first puts its record. Both have answered version 2, whose record
    is now of a key that neither the signer nor the head has. -/
theorem rotations_collide : ∃ s p r sth,
    Reach (observed (step Sha256.sha256 digestKeys) (rotateReply digestKeys))
      (fun s e => rotationsKept s.1 e && swapsApart s.1 e) (.init, []) s ∧
    s.1.proc = some p ∧ p.rotations = [] ∧ s.2.map (·.version) = [2, 2] ∧ p.signer.version = 2 ∧
    s.1.store.getKey 2 = some r ∧ r.publicKey ≠ digestKeys.publicKey p.signer.key ∧
    s.1.store.headAtSize 1 = some sth ∧ sth.keyVersion = 2 ∧ r.publicKey ≠ sth.publicKey ∧
    Sdk.Rust.verifyTreeHeadWithChain digestKeys sth.treeSize sth.rootHash sth.timestampNs sth.signature sth.keyVersion
      s.1.store.allKeys = false := by
  have hrun : ((run (observed (step Sha256.sha256 digestKeys) (rotateReply digestKeys))
      (fun s e => rotationsKept s.1 e && swapsApart s.1 e) (.init, [])
      ([Ev.restart .zero true] ++ appendEvs [1] [10] 5 ++ [Ev.rotate .start, .rotate .start, .rotate (.next 0 secondKey),
        .rotate (.next 1 thirdKey), .rotate (.next 0 secondKey), .rotate (.next 0 secondKey), .rotate (.next 1 thirdKey),
        .rotate (.next 1 thirdKey), .rotate (.next 1 thirdKey)] ++ signEvs 6 ++ [Ev.rotate (.next 0 secondKey)])).bind fun s =>
          s.1.proc.bind fun p => (s.1.store.getKey 2).bind fun r => (s.1.store.headAtSize 1).map fun sth =>
            ((p.rotations, s.2.map (·.version), p.signer.version),
              (decide (r.publicKey = digestKeys.publicKey p.signer.key), sth.keyVersion, decide (r.publicKey = sth.publicKey)),
              Sdk.Rust.verifyTreeHeadWithChain digestKeys sth.treeSize sth.rootHash sth.timestampNs sth.signature
                sth.keyVersion s.1.store.allKeys)) = some (([], [2, 2], 2), (false, 2, false), false) := by
    decide +kernel
  obtain ⟨s, hs, hrun⟩ := Option.bind_eq_some_iff.mp hrun
  obtain ⟨p, hp, hrun⟩ := Option.bind_eq_some_iff.mp hrun
  obtain ⟨r, hr, hrun⟩ := Option.bind_eq_some_iff.mp hrun
  obtain ⟨sth, hsth, hrun⟩ := Option.map_eq_some_iff.mp hrun
  obtain ⟨h1, h2, h3⟩ : _ ∧ _ ∧ _ := by simpa only [Prod.mk.injEq] using hrun
  obtain ⟨hidle, hret, hver⟩ := h1
  obtain ⟨hsigner, hkv, hpub⟩ := h2
  exact ⟨s, p, r, sth, Reach.init.run hs, hp, hidle, hret, hver, hr, of_decide_eq_false hsigner, hsth, hkv,
    of_decide_eq_false hpub, h3⟩

/-! ## Rotations one at a time, with failures and crashes -/

def oneAtATime (s : St) : Ev → Bool
  | .rotate .start =>
    match s.proc with
    | none => true
    | some p => p.rotations.isEmpty
  | _ => true

/-- Between the swap and the record. -/
def RotateTask.isSwapped : RotateTask → Bool
  | swapped _ _ _ => true
  | _ => false

/-- No head is signed while a rotation stands between its swap and its record. -/
def signsRecorded (s : St) (e : Ev) : Bool :=
  (signing s e).isNone || (s.proc.all fun p => p.rotations.all fun t => !t.isSwapped)

/-- Rotations one at a time, none cut off, none splitting a head, and no head signed before
    its key's record is there. -/
def atomicOk (s : St) (e : Ev) : Bool := oneAtATime s e && rotationsKept s e && swapsApart s e && signsRecorded s e

/-- At most one rotation. -/
def Single (s : St) : Prop := ∀ p, s.proc = some p → p.rotations.length ≤ 1

theorem Step.single {s s' : St} {e : Ev} (h : Single s) (hok : oneAtATime s e = true) (hs : Step sha256 E s e s') :
    Single s' := by
  have hquiet : e.keepsKeys = true → Single s' := by
    intro he p' hp'
    obtain ⟨-, -, p, q, hp, hq, -, hrot⟩ := hs.keysKept he
    rw [hq] at hp'
    cases hp'
    rw [hrot]
    exact h p hp
  cases hs with
  | append | sign | proof | watch => exact hquiet rfl
  | @rotate p _ _ hp hs =>
    have hlen := h p hp
    cases hs with
    | sized =>
      simp only [oneAtATime, hp, List.isEmpty_iff] at hok
      intro p' hp'
      cases hp'
      simp [hok]
    | numbered | filed | swapped =>
      intro p' hp'
      cases hp'
      simpa using hlen
    | recorded | failed =>
      intro p' hp'
      cases hp'
      exact Nat.le_trans (List.length_eraseIdx_le _ _) hlen
  | crash => intro p' hp'; cases hp'
  | restart hp hr =>
    intro p' hp'
    obtain ⟨-, -, -, -, -, -, hrot, -⟩ := (restart_restarted sha256 E hp hr).proc p' hp'
    rw [hrot]
    exact Nat.zero_le 1

/-- A rotation past its swap has the signer's version. -/
def SwappedLast (s : St) : Prop :=
  ∀ p, s.proc = some p → ∀ at_ version key, RotateTask.swapped at_ version key ∈ p.rotations → version = p.signer.version

theorem Step.swappedLast {s s' : St} {e : Ev} (h : SwappedLast s) (hone : Single s) (hs : Step sha256 E s e s') :
    SwappedLast s' := by
  have hquiet : e.keepsKeys = true → SwappedLast s' := by
    intro he p' hp'
    obtain ⟨-, -, p, q, hp, hq, hsigner, hrot⟩ := hs.keysKept he
    rw [hq] at hp'
    cases hp'
    rw [hrot, hsigner]
    exact h p hp
  cases hs with
  | append | sign | proof | watch => exact hquiet rfl
  | @rotate p _ _ hp hs =>
    have hall := h p hp
    cases hs with
    | sized =>
      intro p' hp' at_ version key hm
      cases hp'
      rcases List.mem_append.mp hm with hm | hm
      · exact hall at_ version key hm
      · cases List.mem_singleton.mp hm
    | numbered | filed =>
      intro p' hp' at_ version key hm
      cases hp'
      rcases List.mem_or_eq_of_mem_set hm with hm | hm
      · exact hall at_ version key hm
      · cases hm
    | @swapped i at_' version' key' _ ht =>
      intro p' hp' at_ version key hm
      cases hp'
      rcases List.mem_or_eq_of_mem_set hm with hm | hm
      · -- it is the only one, and was at its key file
        obtain ⟨t, hl⟩ := List.length_eq_one_iff.mp (Nat.le_antisymm (hone p hp) (List.length_pos_of_mem hm))
        have ht := List.mem_of_getElem? ht
        rw [hl] at hm ht
        cases (List.mem_singleton.mp hm).trans (List.mem_singleton.mp ht).symm
      · cases hm
        rfl
    | recorded | failed =>
      intro p' hp' at_ version key hm
      cases hp'
      exact hall at_ version key (List.mem_of_mem_eraseIdx hm)
  | crash => intro p' hp'; cases hp'
  | restart hp hr =>
    intro p' hp' at_ version key hm
    obtain ⟨-, -, -, -, -, -, hrot, -⟩ := (restart_restarted sha256 E hp hr).proc p' hp'
    rw [hrot] at hm
    cases hm

/-- With one rotation there is no other between its reading and its swap. -/
theorem Single.versionsApart {s : St} (h : Single s) (e : Ev) : versionsApart s e = true := by
  unfold Server.versionsApart
  split
  next i newKey =>
    split
    · rfl
    next p hp =>
      split
      next at_ ht =>
        have hlen := h p hp
        obtain ⟨hlt, hget⟩ := List.getElem?_eq_some_iff.mp ht
        obtain ⟨t, hl⟩ := List.length_eq_one_iff.mp (show p.rotations.length = 1 by omega)
        have hmem := List.mem_of_getElem? ht
        rw [hl] at hmem ⊢
        rw [← List.mem_singleton.mp hmem]
        rfl
      · rfl
  · rfl

structure AtomicInv (s : St) : Prop where
  single : Single s
  swapped : SwappedLast s
  keys : KeyInv E s
  signers : SignersOk (Recorded E s.store) s

theorem Step.atomicInv {s s' : St} {e : Ev} (h : AtomicInv E s) (hok : atomicOk s e = true) (hs : Step sha256 E s e s') :
    AtomicInv E s' := by
  simp only [atomicOk, Bool.and_eq_true] at hok
  obtain ⟨⟨⟨hone, hkept⟩, -⟩, hrecorded⟩ := hok
  have hchain : chainOk s e = true := Bool.and_eq_true_iff.mpr ⟨h.single.versionsApart e, hkept⟩
  obtain ⟨hkeys, hrec⟩ := hs.keyInv sha256 E h.keys hchain
  refine ⟨hs.single sha256 E h.single hone, hs.swappedLast sha256 E h.swapped h.single, hkeys, ?_⟩
  refine hs.signersOk sha256 E (h.signers.imp fun signer => hrec.recorded E) fun signer hsig => hrec.recorded E ?_
  rcases h.keys.signer_known E hsig with hr | ⟨p, hp, at_, hm⟩
  · exact hr
  · simp only [signsRecorded, hsig, hp, Option.isNone_some, Bool.false_or, Option.all_some, List.all_eq_true,
      Bool.not_eq_true'] at hrecorded
    cases hrecorded _ hm

/-- In every run of rotations one at a time, with failures, crashes and restarts, in which
    none is cut off between its key file and its record (it fails at most at the key file,
    and no crash comes in between), none splits a head, and no head is signed between a
    swap and its record: the signer's version has a record with its public key exactly
    while no rotation stands between the two; and at all times every head ever signed has
    a record of its version with its public key. -/
theorem rotation_atomic {s : St} (h : Reach (step sha256 E) atomicOk .init s) :
    (∀ p, s.proc = some p →
      ((∃ r, s.store.getKey p.signer.version = some r ∧ r.publicKey = E.publicKey p.signer.key) ↔
        ∀ t ∈ p.rotations, t.isSwapped = false)) ∧
    ∀ sth signer, (sth, signer) ∈ s.hist.signed →
      ∃ r, s.store.getKey sth.keyVersion = some r ∧ r.publicKey = sth.publicKey := by
  have hi : AtomicInv E s := by
    apply h.inv (P := AtomicInv E)
    · exact ⟨fun p hp => (by cases hp), fun p hp => (by cases hp), .init E,
        ⟨fun sth signer hm => (by cases hm), fun t ht => (by cases ht)⟩⟩
    · intro s e s' hi hok hs
      exact (step_step sha256 E hs).atomicInv sha256 E hi hok
  have hsigned : SignInv E s := by
    apply reach_signInv sha256 E
    exact h.mono fun s e hok => by simp only [atomicOk, Bool.and_eq_true] at hok; exact hok.1.2
  refine ⟨fun p hp => ⟨fun hrec t ht => ?_, fun hno => ?_⟩, fun sth signer hm => ?_⟩
  · cases t with
    | sized | numbered | filed => rfl
    | swapped at_ version key =>
      -- its version is the signer's, and its record is still to be put
      obtain ⟨r, hr, -⟩ := hrec
      have hnone := ((hi.keys.proc p hp).tasks _ ht).2
      rw [hi.swapped p hp at_ version key ht, hr] at hnone
      cases hnone
  · rcases (hi.keys.proc p hp).known with hr | ⟨at_, hm⟩
    · exact hr
    · cases hno _ hm
  · obtain ⟨-, hpub, hver⟩ := hsigned.signed sth signer hm
    rw [hver, hpub]
    exact hi.signers.signed sth signer hm

/-- A rotation that fails at the key file, one that succeeds, a crash in the middle of a
    third before its key file, a restart and a head. -/
theorem rotation_atomic_after_crash : ∃ s p sth signer, Reach (step Sha256.sha256 digestKeys) atomicOk .init s ∧
    s.proc = some p ∧ p.rotations = [] ∧ p.signer.version = 2 ∧ (sth, signer) ∈ s.hist.signed ∧
    (∃ r, s.store.getKey p.signer.version = some r ∧ r.publicKey = digestKeys.publicKey p.signer.key) ∧
    ∃ r, s.store.getKey sth.keyVersion = some r ∧ r.publicKey = sth.publicKey := by
  have hrun : ((run (step Sha256.sha256 digestKeys) atomicOk .init ([Ev.restart .zero true] ++ appendEvs [1] [10] 5 ++
      [Ev.rotate .start, .rotate (.next 0 thirdKey), .rotate (.fails 0)] ++ rotateEvs secondKey ++
      [Ev.rotate .start, .rotate (.next 0 thirdKey), .crash, .restart .zero true] ++ signEvs 6)).bind fun s =>
        s.proc.map fun p => (p.rotations, p.signer.version, s.hist.signed.length)) = some ([], 2, 1) := by
    decide +kernel
  obtain ⟨s, hs, hrun⟩ := Option.bind_eq_some_iff.mp hrun
  obtain ⟨p, hp, hrun⟩ := Option.map_eq_some_iff.mp hrun
  obtain ⟨hidle, hrun⟩ := Prod.mk.inj hrun
  obtain ⟨hver, hlen⟩ := Prod.mk.inj hrun
  obtain ⟨⟨sth, signer⟩, hone⟩ := List.length_eq_one_iff.mp hlen
  have hm : (sth, signer) ∈ s.hist.signed := by rw [hone]; exact List.mem_singleton_self _
  have h := Reach.init.run hs
  have hlaw := rotation_atomic Sha256.sha256 digestKeys h
  exact ⟨s, p, sth, signer, h, hp, hidle, hver, hm, (hlaw.1 p hp).mpr (by rw [hidle]; intro t ht; cases ht), hlaw.2 sth signer hm⟩

/-- A crash after the key file was written and before the swap: after the restart the signer
    has the new key under version 1, whose record is of the old key, and signs with it. And
    a record that cannot be put: the signer has version 2, which has no record. -/
theorem rotation_cut_off :
    (∃ s p r sth signer, Reach (step Sha256.sha256 digestKeys) oneAtATime .init s ∧ s.proc = some p ∧ p.rotations = [] ∧
      s.store.getKey p.signer.version = some r ∧ r.publicKey ≠ digestKeys.publicKey p.signer.key ∧
      (sth, signer) ∈ s.hist.signed ∧ s.store.getKey sth.keyVersion = some r ∧ r.publicKey ≠ sth.publicKey) ∧
    ∃ s p sth signer, Reach (step Sha256.sha256 digestKeys) oneAtATime .init s ∧ s.proc = some p ∧ p.rotations = [] ∧
      s.store.getKey p.signer.version = none ∧ (sth, signer) ∈ s.hist.signed ∧ s.store.getKey sth.keyVersion = none := by
  constructor
  · have hrun : ((run (step Sha256.sha256 digestKeys) oneAtATime .init ([Ev.restart .zero true] ++ appendEvs [1] [10] 5 ++
        [Ev.rotate .start, .rotate (.next 0 secondKey), .rotate (.next 0 secondKey), .crash, .restart .zero true] ++
        signEvs 6)).bind fun s => s.proc.bind fun p => (s.store.getKey p.signer.version).bind fun r =>
          s.hist.signed.head?.map fun x => ((p.rotations, decide (r.publicKey = digestKeys.publicKey p.signer.key)),
            decide (s.store.getKey x.1.keyVersion = some r), decide (r.publicKey = x.1.publicKey))) =
              some (([], false), true, false) := by
      decide +kernel
    obtain ⟨s, hs, hrun⟩ := Option.bind_eq_some_iff.mp hrun
    obtain ⟨p, hp, hrun⟩ := Option.bind_eq_some_iff.mp hrun
    obtain ⟨r, hr, hrun⟩ := Option.bind_eq_some_iff.mp hrun
    obtain ⟨⟨sth, signer⟩, hx, hrun⟩ := Option.map_eq_some_iff.mp hrun
    obtain ⟨h1, hrun⟩ := Prod.mk.inj hrun
    obtain ⟨hidle, hne⟩ := Prod.mk.inj h1
    obtain ⟨hget, hpub⟩ := Prod.mk.inj hrun
    exact ⟨s, p, r, sth, signer, Reach.init.run hs, hp, hidle, hr, of_decide_eq_false hne, List.mem_of_mem_head? hx,
      of_decide_eq_true hget, of_decide_eq_false hpub⟩
  · have hrun : ((run (step Sha256.sha256 digestKeys) oneAtATime .init ([Ev.restart .zero true] ++ appendEvs [1] [10] 5 ++
        [Ev.rotate .start, .rotate (.next 0 secondKey), .rotate (.next 0 secondKey), .rotate (.next 0 secondKey),
         .rotate (.fails 0)] ++ signEvs 6)).bind fun s => s.proc.bind fun p => s.hist.signed.head?.map fun x =>
          (p.rotations, decide (s.store.getKey p.signer.version = none), decide (s.store.getKey x.1.keyVersion = none))) =
            some ([], true, true) := by
      decide +kernel
    obtain ⟨s, hs, hrun⟩ := Option.bind_eq_some_iff.mp hrun
    obtain ⟨p, hp, hrun⟩ := Option.bind_eq_some_iff.mp hrun
    obtain ⟨⟨sth, signer⟩, hx, hrun⟩ := Option.map_eq_some_iff.mp hrun
    obtain ⟨hidle, hrun⟩ := Prod.mk.inj hrun
    obtain ⟨hget, hget'⟩ := Prod.mk.inj hrun
    exact ⟨s, p, sth, signer, Reach.init.run hs, hp, hidle, of_decide_eq_true hget, List.mem_of_mem_head? hx,
      of_decide_eq_true hget'⟩

end Settled.Server
