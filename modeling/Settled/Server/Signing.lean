/-
  Settled.Server.Signing — signed tree heads under key rotation.

  `sign_and_store` takes the signer's lock three times: to sign, for the public key, and
  for the key version. A rotation (`LocalSigner::rotate`) swaps key and version under the
  lock, so it can land in between: the head then names a key that did not sign it
  (`rotation_splits_head`), or the right key under another version.

  If no rotation swaps the signer while a head is between its signature and its version
  (`swapsApart`), every head ever written verifies under its own public key, and its
  version is the one that key had when it signed (`heads_self_consistent`). `Drafted` is
  what a signing task has at each point.
-/

import Settled.Server.Invariant

namespace Settled.Server

open Settled.Lib Settled.Core Settled.Storage

variable (sha256 : Bytes → Hash) (E : Ed25519)

/-! ## What a head is made of -/

/-- Signed by `signer`, with its public key and its version. -/
structure SignedBy (sth : SignedTreeHead) (signer : Signer) : Prop where
  signature : sth.signature = E.sign signer.key (signingPayload sth.treeSize sth.rootHash sth.timestampNs)
  publicKey : sth.publicKey = E.publicKey signer.key
  keyVersion : sth.keyVersion = signer.version

def Draft.Signed (d : Draft) : Prop :=
  d.signature = E.sign d.signer.key (signingPayload d.treeSize d.rootHash d.timestampNs)

/-- A signing task's head so far; `signer` is the one installed now. -/
def Drafted (signer : Signer) : SignTask → Prop
  | .snapped _ _ => True
  | .checked _ _ => True
  | .stamped _ _ _ => True
  | .signed d => d.Signed E ∧ d.signer = signer
  | .keyed d publicKey => d.Signed E ∧ publicKey = E.publicKey d.signer.key ∧ d.signer.version = signer.version
  | .assembled d publicKey keyVersion => SignedBy E (d.head publicKey keyVersion) d.signer

theorem Drafted.next {store : Store} {signer : Signer} {now : Int} {t t' : SignTask} (h : Drafted E signer t)
    (hn : t.next E store signer now = some t') : Drafted E signer t' := by
  cases t with
  | snapped treeSize root =>
    obtain ⟨-, r, -, rfl⟩ := SignTask.next_snapped E hn
    trivial
  | checked treeSize root => cases hn; trivial
  | stamped treeSize root ts => cases hn; exact ⟨rfl, rfl⟩
  | signed d =>
    cases hn
    obtain ⟨h1, rfl⟩ := h
    exact ⟨h1, rfl, rfl⟩
  | keyed d publicKey =>
    cases hn
    obtain ⟨h1, h2, h3⟩ := h
    exact ⟨h1, h2, h3.symm⟩
  | assembled => cases hn

/-! ## Rotations apart from signing -/

/-- A swap to `version` now would split this task's head. -/
def SignTask.split (signer : Signer) (version : Nat) : SignTask → Bool
  | .signed _ => true
  | .keyed _ _ => version ≠ signer.version
  | _ => false

/-- A rotation swaps the signer only while no head is signed and still without its key
    or its version. -/
def swapsApart (s : St) : Ev → Bool
  | .rotate (.next i _) =>
    match s.proc with
    | none => true
    | some p =>
      match p.rotations[i]? with
      | some (.filed _ version _) => p.signs.all fun t => !t.split p.signer version
      | _ => true
  | _ => true

theorem Drafted.swap {signer signer' : Signer} {t : SignTask} (h : Drafted E signer t)
    (hs : t.split signer signer'.version = false) : Drafted E signer' t := by
  cases t with
  | snapped | checked | stamped => trivial
  | signed d => cases hs
  | keyed d publicKey =>
    obtain ⟨h1, h2, h3⟩ := h
    have hv : signer'.version = signer.version := by simpa [SignTask.split] using hs
    exact ⟨h1, h2, by rw [hv]; exact h3⟩
  | assembled => exact h

/-! ## The invariant -/

structure SignInv (s : St) : Prop where
  heads : ∀ t sth, s.store.headAtSize t = some sth → ∃ signer, (sth, signer) ∈ s.hist.signed
  signed : ∀ sth signer, (sth, signer) ∈ s.hist.signed → SignedBy E sth signer
  signs : ∀ p, s.proc = some p → ∀ t ∈ p.signs, Drafted E p.signer t

theorem SignInv.init : SignInv E .init where
  heads t sth h := by cases h
  signed sth signer h := by cases h
  signs p h := by cases h

/-- A step that leaves the heads and what was signed alone. -/
theorem SignInv.keep {s s' : St} (h : SignInv E s) (hheads : s'.store.heads = s.store.heads)
    (hsigned : s'.hist.signed = s.hist.signed) (hp : ∀ p', s'.proc = some p' → ∀ t ∈ p'.signs, Drafted E p'.signer t) :
    SignInv E s' := by
  refine ⟨fun t sth hsth => ?_, fun sth signer hm => ?_, hp⟩
  · rw [hsigned]
    rw [Store.headAtSize, hheads] at hsth
    exact h.heads t sth hsth
  · rw [hsigned] at hm
    exact h.signed sth signer hm

theorem SignStep.signInv {s s' : St} {p : Proc} (h : SignInv E s) (hp : s.proc = some p) {e : SignEv}
    (hs : SignStep sha256 E s p e s') : SignInv E s' := by
  have hsigns := h.signs p hp
  cases hs with
  | snapped hmu =>
    refine h.keep E rfl rfl fun p' hp' t ht => ?_
    cases hp'
    rcases List.mem_append.mp ht with ht | ht
    · exact hsigns t ht
    · rw [List.mem_singleton] at ht
      rw [ht]
      trivial
  | @wrote i now d publicKey keyVersion ht =>
    have hd : SignedBy E (d.head publicKey keyVersion) d.signer := hsigns _ (List.mem_of_getElem? ht)
    refine ⟨fun t sth hsth => ?_, fun sth signer hm => ?_, fun p' hp' t ht => ?_⟩
    · have hput : (s.store.heads.put d.treeSize (d.head publicKey keyVersion)).get? t = some sth := hsth
      rw [OrdMap.get?_put] at hput
      split at hput
      · cases hput
        exact ⟨d.signer, List.mem_append_right _ (List.mem_singleton_self _)⟩
      · obtain ⟨signer, hm⟩ := h.heads t sth hput
        exact ⟨signer, List.mem_append_left _ hm⟩
    · rcases List.mem_append.mp hm with hm | hm
      · exact h.signed sth signer hm
      · obtain ⟨rfl, rfl⟩ := Prod.mk.inj (List.mem_singleton.mp hm)
        exact hd
    · cases hp'
      exact hsigns t (List.mem_of_mem_eraseIdx ht)
  | skipped =>
    refine h.keep E rfl rfl fun p' hp' t ht => ?_
    cases hp'
    exact hsigns t (List.mem_of_mem_eraseIdx ht)
  | @moved i now t t' ht hnext =>
    refine h.keep E rfl rfl fun p' hp' u hu => ?_
    cases hp'
    rcases List.mem_or_eq_of_mem_set hu with hu | rfl
    · exact hsigns u hu
    · exact (hsigns t (List.mem_of_getElem? ht)).next E hnext
  | failed =>
    refine h.keep E rfl rfl fun p' hp' t ht => ?_
    cases hp'
    exact hsigns t (List.mem_of_mem_eraseIdx ht)

theorem RotateStep.signInv {s s' : St} {p : Proc} (h : SignInv E s) (hp : s.proc = some p) {e : RotateEv}
    (hok : swapsApart s (.rotate e) = true) (hs : RotateStep E s p e s') : SignInv E s' := by
  have hsigns := h.signs p hp
  cases hs with
  | sized | numbered | filed | recorded | failed =>
    refine h.keep E rfl rfl fun p' hp' => ?_
    cases hp'
    exact hsigns
  | @swapped i at_ version key newKey hr =>
    refine h.keep E rfl rfl fun p' hp' t ht => ?_
    cases hp'
    simp only [swapsApart, hp, hr, List.all_eq_true, Bool.not_eq_true'] at hok
    exact (hsigns t ht).swap E (hok t ht)

/-- Requests that touch neither heads nor keys. -/
theorem SignInv.kept {s s' : St} (h : SignInv E s) (hk : KeysKept s s') (hsk : SignsKept s s') : SignInv E s' := by
  refine h.keep E hsk.heads hsk.signed fun p' hp' t ht => ?_
  obtain ⟨-, -, p, q, hp, hq, hsigner, -⟩ := hk
  rw [hq] at hp'
  cases hp'
  rcases hsk.proc _ hq with hnil | ⟨q, hq', heq⟩
  · rw [hnil] at ht
    cases ht
  · rw [hp] at hq'
    cases hq'
    rw [hsigner]
    rw [heq] at ht
    exact h.signs p hp t ht

/-! ## Runs -/

theorem Step.signInv {s s' : St} {e : Ev} (h : SignInv E s) (hok : swapsApart s e = true) (hs : Step sha256 E s e s') :
    SignInv E s' := by
  have hkept : e.keepsKeys = true → (∀ e', e ≠ .sign e') → SignInv E s' :=
    fun he hne => h.kept E (hs.keysKept he) (hs.signsKept hne)
  cases hs with
  | append | proof | watch => exact hkept rfl fun e' he' => by cases he'
  | sign hp hs => exact hs.signInv sha256 E h hp
  | rotate hp hs => exact hs.signInv E h hp hok
  | crash => exact h.keep E rfl rfl fun p' hp' => by cases hp'
  | restart hp hr =>
    have hr := restart_restarted sha256 E hp hr
    refine h.keep E hr.heads (by rw [hr.hist]) fun p' hp' t ht => ?_
    obtain ⟨-, -, -, -, -, hsigns, -⟩ := hr.proc p' hp'
    rw [hsigns] at ht
    cases ht

theorem reach_signInv {s : St} (h : Reach (step sha256 E) swapsApart .init s) : SignInv E s := by
  apply h.inv (P := SignInv E) (.init E)
  intro s e s' hi hok hs
  exact (step_step sha256 E hs).signInv sha256 E hi hok

/-- In every run in which no rotation swaps the signer while a head is between its
    signature and its key version: every head ever written (and so every head in the
    store) verifies under its own public key, and its key and its version are those of
    the signer that signed it, as it was then. -/
theorem heads_self_consistent (hverify : ∀ key m, E.verify (E.publicKey key) m (E.sign key m) = true) {s : St}
    (h : Reach (step sha256 E) swapsApart .init s) :
    (∀ sth signer, (sth, signer) ∈ s.hist.signed →
      E.verifyTreeHead sth.publicKey sth.treeSize sth.rootHash sth.timestampNs sth.signature = true ∧
      sth.signature = E.sign signer.key (signingPayload sth.treeSize sth.rootHash sth.timestampNs) ∧
      sth.publicKey = E.publicKey signer.key ∧ sth.keyVersion = signer.version) ∧
    ∀ t sth, s.store.headAtSize t = some sth → ∃ signer, (sth, signer) ∈ s.hist.signed := by
  have hi := reach_signInv sha256 E h
  refine ⟨fun sth signer hm => ?_, hi.heads⟩
  obtain ⟨hsig, hpub, hver⟩ := hi.signed sth signer hm
  refine ⟨?_, hsig, hpub, hver⟩
  rw [Ed25519.verifyTreeHead, hsig, hpub]
  exact hverify signer.key _

/-- One rotation, one step at a time. -/
def rotateEvs (newKey : Hash) : List Ev := .rotate .start :: List.replicate 4 (.rotate (.next 0 newKey))

def secondKey : Hash := ⟨List.replicate 32 1, List.length_replicate⟩

theorem plainKeys_verify (key : Hash) (m : Bytes) : plainKeys.verify (plainKeys.publicKey key) m (plainKeys.sign key m) = true :=
  decide_eq_true rfl

/-- A signature verifies under no other key. -/
theorem plainKeys_verify_only {key key' : Hash} (hne : key' ≠ key) (m : Bytes) :
    plainKeys.verify (plainKeys.publicKey key') m (plainKeys.sign key m) = false := by
  refine decide_eq_false fun heq => hne ?_
  exact Subtype.ext (List.append_cancel_right heq).symm

/-- The heads written in a run: whether they verify, their version and the signer's. -/
def signedReport (s : St) : List (Bool × Nat × Nat) := s.hist.signed.map fun (sth, signer) =>
  (plainKeys.verifyTreeHead sth.publicKey sth.treeSize sth.rootHash sth.timestampNs sth.signature, sth.keyVersion,
    signer.version)

/-- An entry, a rotation, a head. -/
theorem heads_self_consistent_after_rotation : ∃ s sth signer, Reach (step Sha256.sha256 plainKeys) swapsApart .init s ∧
    (sth, signer) ∈ s.hist.signed ∧ sth.keyVersion = 2 ∧ signer.version = 2 ∧
    plainKeys.verifyTreeHead sth.publicKey sth.treeSize sth.rootHash sth.timestampNs sth.signature = true := by
  have hrun : (run (step Sha256.sha256 plainKeys) swapsApart .init ([Ev.restart .zero true] ++ appendEvs [1] [10] 5 ++
      rotateEvs secondKey ++ signEvs 7)).map (fun s => s.hist.signed.map fun x => (x.1.keyVersion, x.2.version)) =
        some [(2, 2)] := by decide +kernel
  obtain ⟨s, hs, hr⟩ := Option.map_eq_some_iff.mp hrun
  obtain ⟨⟨sth, signer⟩, hm, hv⟩ := List.map_eq_singleton_iff.mp hr
  have hmem : (sth, signer) ∈ s.hist.signed := by rw [hm]; exact List.mem_singleton_self _
  have hreach : Reach (step Sha256.sha256 plainKeys) swapsApart .init s := Reach.init.run hs
  have h := (heads_self_consistent Sha256.sha256 plainKeys plainKeys_verify hreach).1 sth signer hmem
  obtain ⟨h1, h2⟩ := Prod.mk.inj hv
  exact ⟨s, sth, signer, hreach, hmem, h1, h2, h.1⟩

/-- A rotation swaps the signer between a head's signature and its public key: the head
    is stored with a key that did not sign it and that key's version. The signature
    scheme is one in which a signature verifies under its own key and no other. -/
theorem rotation_splits_head : (∀ key m, plainKeys.verify (plainKeys.publicKey key) m (plainKeys.sign key m) = true) ∧
    (∀ key key' m, key' ≠ key → plainKeys.verify (plainKeys.publicKey key') m (plainKeys.sign key m) = false) ∧
    ∃ s sth signer, Reach (step Sha256.sha256 plainKeys) (fun _ _ => true) .init s ∧ (sth, signer) ∈ s.hist.signed ∧
      s.store.headAtSize 1 = some sth ∧ sth.keyVersion = 2 ∧ signer.version = 1 ∧
      plainKeys.verifyTreeHead sth.publicKey sth.treeSize sth.rootHash sth.timestampNs sth.signature = false := by
  refine ⟨plainKeys_verify, fun key key' m hne => plainKeys_verify_only hne m, ?_⟩
  have hrun : (run (step Sha256.sha256 plainKeys) (fun _ _ => true) .init ([Ev.restart .zero true] ++ appendEvs [1] [10] 5 ++
      [Ev.sign .snapshot, .sign (.next 0 7), .sign (.next 0 7), .sign (.next 0 7)] ++ rotateEvs secondKey ++
      [Ev.sign (.next 0 7), .sign (.next 0 7), .sign (.next 0 7)])).map
        (fun s => (signedReport s, s.hist.signed.map fun x => decide (s.store.headAtSize 1 = some x.1))) =
          some ([(false, 2, 1)], [true]) := by decide +kernel
  obtain ⟨s, hs, hr⟩ := Option.map_eq_some_iff.mp hrun
  obtain ⟨hrep, hstored⟩ := Prod.mk.inj hr
  obtain ⟨⟨sth, signer⟩, hm, hv⟩ := List.map_eq_singleton_iff.mp hrep
  have hmem : (sth, signer) ∈ s.hist.signed := by rw [hm]; exact List.mem_singleton_self _
  rw [hm] at hstored
  have hstored : decide (s.store.headAtSize 1 = some sth) = true := (List.cons.inj hstored).1
  obtain ⟨hbad, hv⟩ := Prod.mk.inj hv
  obtain ⟨h1, h2⟩ := Prod.mk.inj hv
  exact ⟨s, sth, signer, Reach.init.run hs, hmem, of_decide_eq_true hstored, h1, h2, hbad⟩

end Settled.Server
