/-
  Settled.Ui.Routes — the explorer's server (`apps/ui/src/server`) beside settled-server:
  `fetchEntry` and its cache, `GET /api/sth` and `GET /api/entries/:seq/proof` with theirs,
  and what the browser then checks (`verifySth`, `verifyInclusion`).

  A route asks settled-server and puts the answer into a cache; between the two, and
  between a question and its answer, other routes and settled-server go on. Entries are
  kept without end and proofs under `seq:tree_size`: right as long as neither ever changes.

  - `entries_coherent`: whatever settled-server goes through (appends, writes that fail,
    crashes, restarts), an entry that `fetchEntry` has returned or holds is the log's entry
    of that number, then and at every later moment.
  - `answers_check`: unless a log write fails or a rotation splits a head, every head and
    every proof that the explorer has answered passes the browser's checks, whenever the
    answer was cached. A proof the explorer asks for is always one under the latest head,
    so what others ask for does not matter.

  Two numbers never share a cache key (`decimal_inj`, `decimal_pair_inj`). A question that
  settled-server refuses rejects in an `async` handler, which ends the process: the next
  one starts with empty caches.
-/

import Settled.Lib.Decimal
import Settled.Lib.Lru
import Settled.Server.OwedProofs
import Settled.Server.Queries
import Settled.Ui.Payload

namespace Settled.Ui.Routes

open Settled.Lib Settled.Core Settled.Storage Settled.Server

/-! ## What goes to the browser -/

/-- `Number(text)` of an integer below `2^64`: from `2^53` on it has 53 bits, rounded to
    the nearer one, or to the even one of two. -/
def toNumber (n : Nat) : Nat :=
  if n < 2 ^ 53 then n
  else
    let unit := 2 ^ (Nat.log2 n - 52)
    let down := n / unit
    let rest := n % unit
    if unit < 2 * rest ∨ (unit = 2 * rest ∧ down % 2 = 1) then (down + 1) * unit else down * unit

structure EntryJson where
  seq : Nat
  key : Text
  data : Text
  timestampNs : Text
  leafHash : Text
  deriving DecidableEq

def serializeEntry (e : LogEntry) : EntryJson where
  seq := toNumber e.seq
  key := Utf8.decode e.key
  data := Utf8.decode e.data
  timestampNs := decimalInt e.timestampNs
  leafHash := toHex e.leafHash.val

structure SthJson where
  treeSize : Nat
  rootHash : Text
  timestampNs : Text
  signature : Text
  publicKey : Text
  keyVersion : Nat
  deriving DecidableEq

def serializeSth (sth : SignedTreeHead) : SthJson where
  treeSize := toNumber sth.treeSize
  rootHash := toHex sth.rootHash.val
  timestampNs := decimalInt sth.timestampNs
  signature := toHex sth.signature
  publicKey := toHex sth.publicKey.val
  keyVersion := sth.keyVersion

structure ProofJson where
  leafIndex : Nat
  treeSize : Nat
  proof : List Text
  sth : SthJson
  deriving DecidableEq

def serializeProof (leafIndex treeSize : Nat) (proof : List Hash) (sth : SignedTreeHead) : ProofJson where
  leafIndex := toNumber leafIndex
  treeSize := toNumber treeSize
  proof := proof.map fun h => toHex h.val
  sth := serializeSth sth

/-! ## What the browser checks -/

/-- `BigInt(text)`. Blanks and the forms with a radix are left out: they do not come here. -/
def bigInt (text : Text) : Except String Int :=
  if text = [] then .ok 0
  else match readInt text with
    | some x => .ok x
    | none =>
      let shown := String.ofList text
      .error s!"SyntaxError: Cannot convert {shown} to a BigInt"

/-- `setBigUint64` and `setBigInt64` write the last 64 bits, the first byte first. -/
def buildSthMessage (sth : SthJson) : Except String Bytes := do
  let rootHash := hex sth.rootHash
  let ns ← bigInt sth.timestampNs
  return toBeBytes 8 sth.treeSize ++ rootHash ++ toBeBytes 8 ns

inductive SthResult where
  | ok
  | failed (reason : String)
  deriving DecidableEq

/-- `verifyAsync` is `@noble/ed25519`'s: signature, message, public key; it may throw. -/
def verifySth (verifyAsync : Bytes → Bytes → Bytes → Except String Bool) (sth : SthJson) : SthResult :=
  match buildSthMessage sth with
  | .error e => .failed e
  | .ok msg =>
    match verifyAsync (hex sth.signature) msg (hex sth.publicKey) with
    | .error e => .failed e
    | .ok valid => if valid then .ok else .failed "signature invalid"

/-! ## The routes -/

def STH_TTL_MS : Nat := 60000

def entryKey (seq : Nat) : Text := decimal seq

def proofKey (seq treeSize : Nat) : Text := decimal seq ++ ':' :: decimal treeSize

/-- `entry` is a call of `fetchEntry`: for `GET /api/entries/:seq`, or one of a page. -/
inductive Route where
  | entry (seq : SafeInt)
  | sth
  | proof (seq : SafeInt)

/-- A route that waits for settled-server, and one that has its answer and has not gone on. -/
inductive Call where
  | entry (seq : SafeInt)
  | entryRead (seq : SafeInt) (e : LogEntry)
  | sth
  | sthRead (sth : SignedTreeHead)
  /-- `asked` is how many proofs had been answered when it asked. -/
  | proof (seq : SafeInt) (asked : Nat)
  | proofRead (seq : SafeInt) (leafIndex treeSize : Nat) (proof : List Hash) (sth : SignedTreeHead)

inductive Answer where
  | entry (seq : SafeInt) (json : EntryJson)
  | sth (json : SthJson)
  | proof (seq : SafeInt) (json : ProofJson)
  deriving DecidableEq

structure Explorer where
  st : St
  /-- `Date.now()`. -/
  now : Nat
  /-- The value and `expiresAt`. -/
  sthCache : Option (SthJson × Nat)
  entryCache : Lru Text EntryJson 5000
  proofCache : Lru Text ProofJson 1000
  calls : List Call
  answers : List Answer

def Explorer.init : Explorer := ⟨.init, 0, none, .empty, .empty, [], []⟩

inductive RouteEv where
  | server (e : Server.Ev)
  | tick (ms : Nat)
  | request (route : Route)
  /-- settled-server reads for call `i`. -/
  | reply (i : Nat)
  /-- Call `i` gets the answer to its proof request, the `j`-th that settled-server gave. -/
  | proofReply (i j : Nat)
  | resume (i : Nat)
  | exit

namespace Explorer

def answer (m : Explorer) (a : Answer) : Explorer := { m with answers := m.answers ++ [a] }

/-- The process ends, and the next one starts. -/
def restart (m : Explorer) : Explorer :=
  { m with sthCache := none, entryCache := .empty, proofCache := .empty, calls := [] }

def getCachedSth (m : Explorer) : Option SthJson :=
  match m.sthCache with
  | some (value, expiresAt) => if m.now < expiresAt then some value else none
  | none => none

/-- A route up to its first `await`. -/
def request (m : Explorer) : Route → Explorer
  | .entry seq =>
    match m.entryCache.get (entryKey seq.val) with
    | some (cached, entryCache) => { m with entryCache := entryCache }.answer (.entry seq cached)
    | none => { m with calls := m.calls ++ [.entry seq] }
  | .sth =>
    match m.getCachedSth with
    | some cached => m.answer (.sth cached)
    | none => { m with calls := m.calls ++ [.sth] }
  | .proof seq => { m with calls := m.calls ++ [.proof seq m.st.hist.proofs.length] }

/-- `get` and `get_sth` of settled-server, if it runs. -/
def reply (m : Explorer) (i : Nat) : Option Explorer :=
  match m.calls[i]?, m.st.proc with
  | some (.entry seq), some _ =>
    match getEntry m.st.store seq.val with
    | .ok e => some { m with calls := m.calls.set i (.entryRead seq e) }
    | .error _ => some m.restart
  | some .sth, some _ =>
    match m.st.store.latestHead with
    | some sth => some { m with calls := m.calls.set i (.sthRead sth) }
    | none => some m.restart
  | some _, none => some m.restart
  | _, _ => none

def proofReply (m : Explorer) (i j : Nat) : Option Explorer :=
  match m.calls[i]?, m.st.hist.proofs[j]? with
  | some (.proof seq asked), some r =>
    if asked ≤ j ∧ r.req = .inclusion seq.val 0 then
      match r.result with
      | .ok (.inclusion leafIndex treeSize proof sth) =>
        some { m with calls := m.calls.set i (.proofRead seq leafIndex treeSize proof sth) }
      | .ok (.consistency _ _ _ _ _) => none
      | .error _ => some m.restart
    else none
  | _, _ => none

/-- A route from its answer on. -/
def resume (m : Explorer) (i : Nat) : Option Explorer :=
  let done := { m with calls := m.calls.eraseIdx i }
  match m.calls[i]? with
  | some (.entryRead seq e) =>
    let serialized := serializeEntry e
    some ({ done with entryCache := m.entryCache.put (entryKey seq.val) serialized }.answer (.entry seq serialized))
  | some (.sthRead sth) =>
    let serialized := serializeSth sth
    some ({ done with sthCache := some (serialized, m.now + STH_TTL_MS) }.answer (.sth serialized))
  | some (.proofRead seq leafIndex treeSize proof sth) =>
    let cacheKey := proofKey seq.val treeSize
    match m.proofCache.get cacheKey with
    | some (cached, proofCache) => some ({ done with proofCache := proofCache }.answer (.proof seq cached))
    | none =>
      let serialized := serializeProof leafIndex treeSize proof sth
      some ({ done with proofCache := m.proofCache.put cacheKey serialized }.answer (.proof seq serialized))
  | _ => none

end Explorer

def stepRoutes (sha256 : Bytes → Hash) (E : Ed25519) (m : Explorer) : RouteEv → Option Explorer
  | .server e => (Server.step sha256 E m.st e).map fun s => { m with st := s }
  | .tick ms => some { m with now := m.now + ms }
  | .request route => some (m.request route)
  | .reply i => m.reply i
  | .proofReply i j => m.proofReply i j
  | .resume i => m.resume i
  | .exit => some m.restart

/-! ## What is cached was answered by settled-server -/

/-- What may be said of an entry, a head and a proof for a number. -/
structure Checks where
  entry : Nat → EntryJson → Prop
  sth : SthJson → Prop
  proof : Nat → ProofJson → Prop

def Checks.call (c : Checks) : Call → Prop
  | .entryRead seq e => c.entry seq.val (serializeEntry e)
  | .sthRead sth => c.sth (serializeSth sth)
  | .proofRead seq leafIndex treeSize proof sth => c.proof seq.val (serializeProof leafIndex treeSize proof sth)
  | .entry _ | .sth | .proof _ _ => True

def Checks.answer (c : Checks) : Answer → Prop
  | .entry seq json => c.entry seq.val json
  | .sth json => c.sth json
  | .proof seq json => c.proof seq.val json

/-- It holds of all that the explorer has got, holds and has answered. -/
structure Served (c : Checks) (m : Explorer) : Prop where
  calls : ∀ call ∈ m.calls, c.call call
  sthCache : ∀ json expiresAt, m.sthCache = some (json, expiresAt) → c.sth json
  entryCache : ∀ key json, (key, json) ∈ m.entryCache.entries → ∃ seq, key = entryKey seq ∧ c.entry seq json
  proofCache : ∀ key json, (key, json) ∈ m.proofCache.entries → ∃ seq treeSize, key = proofKey seq treeSize ∧ c.proof seq json
  answers : ∀ a ∈ m.answers, c.answer a

/-- It holds of all that settled-server would answer now. -/
structure Sources (c : Checks) (s : St) : Prop where
  entry : ∀ seq e, s.store.getBySeq seq = some e → c.entry seq (serializeEntry e)
  sth : ∀ sth, s.store.latestHead = some sth → c.sth (serializeSth sth)
  proof : ∀ r ∈ s.hist.proofs, ∀ seq leafIndex treeSize proof sth, r.req = .inclusion seq 0 →
    r.result = .ok (.inclusion leafIndex treeSize proof sth) → c.proof seq (serializeProof leafIndex treeSize proof sth)

section

variable {c : Checks} {m m' : Explorer}

theorem Served.init : Served c .init where
  calls call h := by cases h
  sthCache json expiresAt h := by cases h
  entryCache key json h := by cases h
  proofCache key json h := by cases h
  answers a h := by cases h

theorem Served.mono {c' : Checks} (h : Served c m) (hentry : ∀ seq json, c.entry seq json → c'.entry seq json)
    (hsth : ∀ json, c.sth json → c'.sth json) (hproof : ∀ seq json, c.proof seq json → c'.proof seq json) : Served c' m where
  calls call hcall := by
    have := h.calls call hcall
    cases call with
    | entryRead => exact hentry _ _ this
    | sthRead => exact hsth _ this
    | proofRead => exact hproof _ _ this
    | entry | sth | proof => trivial
  sthCache json expiresAt he := hsth json (h.sthCache json expiresAt he)
  entryCache key json he := by
    obtain ⟨seq, hkey, hok⟩ := h.entryCache key json he
    exact ⟨seq, hkey, hentry seq json hok⟩
  proofCache key json he := by
    obtain ⟨seq, treeSize, hkey, hok⟩ := h.proofCache key json he
    exact ⟨seq, treeSize, hkey, hproof seq json hok⟩
  answers a ha := by
    have := h.answers a ha
    cases a with
    | entry => exact hentry _ _ this
    | sth => exact hsth _ this
    | proof => exact hproof _ _ this

theorem Served.answer (h : Served c m) (a : Answer) (ha : c.answer a) : Served c (m.answer a) :=
  { h with
    answers := fun b hb => by
      rcases List.mem_append.mp hb with hb | hb
      · exact h.answers b hb
      · rw [List.mem_singleton.mp hb]
        exact ha }

theorem Served.restart (h : Served c m) : Served c m.restart where
  calls call hc := by cases hc
  sthCache json expiresAt he := by cases he
  entryCache key json he := by cases he
  proofCache key json he := by cases he
  answers := h.answers

theorem Served.ask (h : Served c m) (call : Call) (hcall : c.call call) : Served c { m with calls := m.calls ++ [call] } :=
  { h with
    calls := fun x hx => by
      rcases List.mem_append.mp hx with hx | hx
      · exact h.calls x hx
      · rw [List.mem_singleton.mp hx]
        exact hcall }

theorem Served.got (h : Served c m) (i : Nat) (call : Call) (hcall : c.call call) :
    Served c { m with calls := m.calls.set i call } :=
  { h with
    calls := fun x hx => by
      rcases List.mem_or_eq_of_mem_set hx with hx | rfl
      · exact h.calls x hx
      · exact hcall }

theorem Served.done (h : Served c m) (i : Nat) : Served c { m with calls := m.calls.eraseIdx i } :=
  { h with calls := fun x hx => h.calls x (List.mem_of_mem_eraseIdx hx) }

theorem Served.putEntry (h : Served c m) {seq : Nat} {json : EntryJson} (hok : c.entry seq json) :
    Served c { m with entryCache := m.entryCache.put (entryKey seq) json } :=
  { h with
    entryCache := fun key json' hx => by
      rcases Lru.mem_put hx with heq | hx
      · cases heq
        exact ⟨seq, rfl, hok⟩
      · exact h.entryCache key json' hx }

theorem Served.putProof (h : Served c m) {seq : Nat} (treeSize : Nat) {json : ProofJson} (hok : c.proof seq json) :
    Served c { m with proofCache := m.proofCache.put (proofKey seq treeSize) json } :=
  { h with
    proofCache := fun key json' hx => by
      rcases Lru.mem_put hx with heq | hx
      · cases heq
        exact ⟨seq, treeSize, rfl, hok⟩
      · exact h.proofCache key json' hx }

theorem Served.putSth (h : Served c m) {json : SthJson} (hok : c.sth json) (expiresAt : Nat) :
    Served c { m with sthCache := some (json, expiresAt) } :=
  { h with
    sthCache := fun json' expiresAt' he => by
      cases he
      exact hok }

/-- A hit: the value was put there under a key of this number only. -/
theorem Served.entryHit (h : Served c m) {seq : Nat} {json : EntryJson} {cache : Lru Text EntryJson 5000}
    (hget : m.entryCache.get (entryKey seq) = some (json, cache)) : c.entry seq json ∧ Served c { m with entryCache := cache } := by
  obtain ⟨hmem, hsub⟩ := Lru.mem_of_get hget
  obtain ⟨seq', hkey, hok⟩ := h.entryCache _ _ hmem
  cases decimal_inj hkey
  exact ⟨hok, { h with entryCache := fun key json hx => h.entryCache key json (hsub _ hx) }⟩

theorem Served.proofHit (h : Served c m) {seq treeSize : Nat} {json : ProofJson} {cache : Lru Text ProofJson 1000}
    (hget : m.proofCache.get (proofKey seq treeSize) = some (json, cache)) :
    c.proof seq json ∧ Served c { m with proofCache := cache } := by
  obtain ⟨hmem, hsub⟩ := Lru.mem_of_get hget
  obtain ⟨seq', treeSize', hkey, hok⟩ := h.proofCache _ _ hmem
  obtain ⟨rfl, -⟩ := decimal_pair_inj (by decide) hkey
  exact ⟨hok, { h with proofCache := fun key json hx => h.proofCache key json (hsub _ hx) }⟩

theorem Served.request (h : Served c m) (route : Route) : Served c (m.request route) := by
  cases route with
  | entry seq =>
    simp only [Explorer.request]
    split
    next cached cache hget =>
      obtain ⟨hok, hserved⟩ := h.entryHit hget
      exact hserved.answer _ hok
    · exact h.ask _ trivial
  | sth =>
    simp only [Explorer.request]
    split
    next cached hget =>
      refine h.answer _ ?_
      unfold Explorer.getCachedSth at hget
      split at hget
      next value expiresAt hcache =>
        split at hget
        · cases hget; exact h.sthCache _ _ hcache
        · cases hget
      · cases hget
    · exact h.ask _ trivial
  | proof seq => exact h.ask _ trivial

theorem Served.reply (h : Served c m) (hsrc : Sources c m.st) {i : Nat} (hs : m.reply i = some m') : Served c m' := by
  unfold Explorer.reply at hs
  split at hs
  next seq p hcall hp =>
    unfold getEntry at hs
    split at hs
    next e he =>
      split at he
      · cases he
      next e' hget =>
        cases he
        cases hs
        exact h.got i (.entryRead seq e) (hsrc.entry _ _ hget)
    · cases hs; exact h.restart
  next p hcall hp =>
    split at hs
    next sth hlatest => cases hs; exact h.got i (.sthRead sth) (hsrc.sth sth hlatest)
    · cases hs; exact h.restart
  · cases hs; exact h.restart
  · cases hs

theorem Served.proofReply (h : Served c m) (hsrc : Sources c m.st) {i j : Nat} (hs : m.proofReply i j = some m') :
    Served c m' := by
  unfold Explorer.proofReply at hs
  split at hs
  next seq asked r hcall hr =>
    split at hs
    next hreq =>
      split at hs
      next leafIndex treeSize proof sth hresult =>
        cases hs
        exact h.got i (.proofRead seq leafIndex treeSize proof sth)
          (hsrc.proof r (List.mem_of_getElem? hr) _ _ _ _ _ hreq.2 hresult)
      · cases hs
      · cases hs; exact h.restart
    · cases hs
  · cases hs

theorem Served.resume (h : Served c m) {i : Nat} (hs : m.resume i = some m') : Served c m' := by
  have hdone := h.done i
  simp only [Explorer.resume] at hs
  split at hs
  next seq e hcall =>
    have hok : c.entry seq.val (serializeEntry e) := h.calls _ (List.mem_of_getElem? hcall)
    cases hs
    exact (hdone.putEntry hok).answer (.entry seq (serializeEntry e)) hok
  next sth hcall =>
    have hok : c.sth (serializeSth sth) := h.calls _ (List.mem_of_getElem? hcall)
    cases hs
    exact (hdone.putSth hok _).answer (.sth (serializeSth sth)) hok
  next seq leafIndex treeSize proof sth hcall =>
    have hok : c.proof seq.val (serializeProof leafIndex treeSize proof sth) := h.calls _ (List.mem_of_getElem? hcall)
    split at hs
    next cached cache hget =>
      cases hs
      obtain ⟨hcached, hserved⟩ := hdone.proofHit hget
      exact hserved.answer _ hcached
    · cases hs
      exact (hdone.putProof treeSize hok).answer (.proof seq (serializeProof leafIndex treeSize proof sth)) hok
  · cases hs

variable {sha256 : Bytes → Hash} {E : Ed25519}

/-- A step of the explorer: settled-server stays as it is. -/
theorem Served.step {e : RouteEv} (he : ∀ ev, e ≠ .server ev) (h : Served c m) (hsrc : Sources c m.st)
    (hs : stepRoutes sha256 E m e = some m') : Served c m' := by
  cases e with
  | server ev => exact absurd rfl (he ev)
  | tick ms => cases hs; exact { h with }
  | request route => cases hs; exact h.request route
  | reply i => exact h.reply hsrc hs
  | proofReply i j => exact h.proofReply hsrc hs
  | resume i => exact h.resume hs
  | exit => cases hs; exact h.restart

/-- Only settled-server's own steps change its state. -/
theorem stepRoutes_st {e : RouteEv} (he : ∀ ev, e ≠ .server ev) (hs : stepRoutes sha256 E m e = some m') : m'.st = m.st := by
  cases e with
  | server ev => exact absurd rfl (he ev)
  | tick | exit => cases hs; rfl
  | request route =>
    cases hs
    cases route <;> simp only [Explorer.request] <;> (try split) <;> rfl
  | reply i =>
    simp only [stepRoutes, Explorer.reply] at hs
    split at hs
    · split at hs <;> (cases hs; rfl)
    · split at hs <;> (cases hs; rfl)
    · cases hs; rfl
    · cases hs
  | proofReply i j =>
    simp only [stepRoutes, Explorer.proofReply] at hs
    split at hs
    · split at hs
      · split at hs <;> (cases hs; try rfl)
      · cases hs
    · cases hs
  | resume i =>
    simp only [stepRoutes, Explorer.resume] at hs
    split at hs
    · cases hs; rfl
    · cases hs; rfl
    · split at hs <;> (cases hs; rfl)
    · cases hs

end

/-! ## Entries never change -/

section

variable {sha256 : Bytes → Hash} {E : Ed25519} {m m' : Explorer}

/-- The entry of that number in the log. -/
def entryChecks (es : List LogEntry) : Checks where
  entry seq json := ∃ e ∈ es, e.seq = seq ∧ json = serializeEntry e
  sth _ := True
  proof _ _ := True

theorem mem_of_getBySeq {s : Store} {es : List LogEntry} (h : Logged s es) {seq : Nat} {e : LogEntry}
    (hget : s.getBySeq seq = some e) : e ∈ es ∧ e.seq = seq := by
  have hmem := OrdMap.mem_entries.mpr hget
  rw [h.log] at hmem
  obtain ⟨f, hf, heq⟩ := List.mem_map.mp hmem
  obtain ⟨rfl, rfl⟩ := Prod.mk.inj heq
  exact ⟨hf, rfl⟩

theorem step_entries {es : List LogEntry} {e : RouteEv} (hlog : LogIs sha256 m.st es) (h : Served (entryChecks es) m)
    (hs : stepRoutes sha256 E m e = some m') : ∃ fs, LogIs sha256 m'.st fs ∧ Served (entryChecks fs) m' := by
  by_cases hserver : ∃ ev, e = .server ev
  · obtain ⟨ev, rfl⟩ := hserver
    obtain ⟨s', hstep, rfl⟩ := Option.map_eq_some_iff.mp hs
    obtain ⟨fs, hlog'⟩ := hlog.step hstep
    refine ⟨es ++ fs, hlog', ?_⟩
    have hgrow : Served (entryChecks (es ++ fs)) m := by
      refine h.mono (fun seq json hjson => ?_) (fun _ h => h) (fun _ _ h => h)
      obtain ⟨e, he, hok⟩ := hjson
      exact ⟨e, List.mem_append_left _ he, hok⟩
    exact { hgrow with }
  · have hne : ∀ ev, e ≠ .server ev := fun ev he => hserver ⟨ev, he⟩
    have hsrc : Sources (entryChecks es) m.st := by
      refine ⟨fun seq e hget => ?_, fun _ _ => trivial, fun _ _ _ _ _ _ _ _ _ => trivial⟩
      obtain ⟨he, hseq⟩ := mem_of_getBySeq hlog.logged hget
      exact ⟨e, he, hseq, rfl⟩
    exact ⟨es, stepRoutes_st hne hs ▸ hlog, h.step hne hsrc hs⟩

end

/-- Every entry that `fetchEntry` has returned, and every entry in its cache, is the log's
    entry of that number now. -/
theorem entries_coherent (sha256 : Bytes → Hash) (E : Ed25519) {m : Explorer}
    (h : Reach (stepRoutes sha256 E) (fun _ _ => true) .init m) :
    (∀ seq json, Answer.entry seq json ∈ m.answers → ∃ e, m.st.store.getBySeq seq.val = some e ∧ json = serializeEntry e) ∧
    ∀ seq json, (entryKey seq, json) ∈ m.entryCache.entries →
      ∃ e, m.st.store.getBySeq seq = some e ∧ json = serializeEntry e := by
  obtain ⟨es, hlog, hserved⟩ := Reach.inv (P := fun m => ∃ es, LogIs sha256 m.st es ∧ Served (entryChecks es) m)
    ⟨[], .init, .init⟩ (fun m e m' hm _ hs => by
      obtain ⟨es, hlog, hserved⟩ := hm
      exact step_entries hlog hserved hs) h
  have hnow : ∀ seq json, (entryChecks es).entry seq json →
      ∃ e, m.st.store.getBySeq seq = some e ∧ json = serializeEntry e := by
    intro seq json hjson
    obtain ⟨e, he, rfl, rfl⟩ := hjson
    exact ⟨e, hlog.logged.getBySeq he, rfl⟩
  refine ⟨fun seq json ha => hnow seq.val json (hserved.answers _ ha), fun seq json hx => ?_⟩
  obtain ⟨seq', hkey, hok⟩ := hserved.entryCache _ _ hx
  cases decimal_inj hkey
  exact hnow seq json hok

def firstSeq : SafeInt := ⟨0, by decide⟩

/-- An entry is read for the explorer and appended to before the explorer goes on; then it
    is asked for again. -/
def entryRun : List RouteEv :=
  [(.restart .zero true :: appendEvs [107] [104, 105] 5).map .server, [.request (.entry firstSeq), .reply 0],
    (appendEvs [107] [106] 6).map .server, [.resume 0, .request (.entry firstSeq)]].flatten

theorem entries_coherent_twice : ∃ m json, Reach (stepRoutes Sha256.sha256 plainKeys) (fun _ _ => true) .init m ∧
    m.answers = [.entry firstSeq json, .entry firstSeq json] ∧
    ∃ e, m.st.store.getBySeq 0 = some e ∧ json = serializeEntry e := by
  let json : EntryJson := ⟨0, ['k'], ['h', 'i'], ['5'], toHex (leafHash Sha256.sha256 [104, 105])⟩
  have hrun : (run (stepRoutes Sha256.sha256 plainKeys) (fun _ _ => true) .init entryRun).map (·.answers) =
      some [.entry firstSeq json, .entry firstSeq json] := by decide +kernel
  obtain ⟨m, hm, hanswers⟩ := Option.map_eq_some_iff.mp hrun
  have hreach := Reach.init.run hm
  refine ⟨m, json, hreach, hanswers, (entries_coherent Sha256.sha256 plainKeys hreach).1 firstSeq json ?_⟩
  rw [hanswers]
  exact List.mem_cons_self

/-! ## What the browser is given passes its checks -/

theorem toNumber_of_lt {n : Nat} (h : n < 2 ^ 53) : toNumber n = n := if_pos h

theorem lt_of_toNumber {n : Nat} (h : toNumber n < 2 ^ 53) : n < 2 ^ 53 := by
  by_contra hn
  have hbits : 2 ^ Nat.log2 n ≤ n := Nat.log2_self_le (by omega)
  have hlog : 53 ≤ Nat.log2 n := by
    by_contra hlt
    have := Nat.lt_log2_self (n := n)
    have : 2 ^ (Nat.log2 n + 1) ≤ 2 ^ 53 := Nat.pow_le_pow_right (by omega) (by omega)
    omega
  have hdown : 2 ^ 52 ≤ n / 2 ^ (Nat.log2 n - 52) := by
    rw [Nat.le_div_iff_mul_le (Nat.two_pow_pos _), ← Nat.pow_add]
    rwa [show 52 + (Nat.log2 n - 52) = Nat.log2 n by omega]
  have hunit : 2 ^ 1 ≤ 2 ^ (Nat.log2 n - 52) := Nat.pow_le_pow_right (by omega) (by omega)
  have hround : 2 ^ 53 ≤ n / 2 ^ (Nat.log2 n - 52) * 2 ^ (Nat.log2 n - 52) := Nat.mul_le_mul hdown hunit
  unfold toNumber at h
  rw [if_neg hn] at h
  dsimp only at h
  split at h
  · rw [Nat.add_mul] at h
    omega
  · omega

section

variable {sha256 : Bytes → Hash} {E : Ed25519} {m m' : Explorer}

/-- A number goes to the browser and back as it is. -/
theorem bigInt_decimalInt (x : Int) : bigInt (decimalInt x) = .ok x := by
  have hne : decimalInt x ≠ [] := by
    cases x with
    | ofNat n => exact decimal_ne_nil n
    | negSucc n => exact List.cons_ne_nil _ _
  rw [bigInt, if_neg hne, readInt_decimalInt]

/-- The browser rebuilds what was signed. -/
theorem buildSthMessage_serializeSth {sth : SignedTreeHead} (h : sth.treeSize < 2 ^ 53) :
    buildSthMessage (serializeSth sth) = .ok (signingPayload sth.treeSize sth.rootHash sth.timestampNs) := by
  simp only [buildSthMessage, serializeSth, bigInt_decimalInt, hex_toHex, toNumber_of_lt h]
  rfl

theorem verifySth_signed {verifyAsync : Bytes → Bytes → Bytes → Except String Bool}
    (hverify : ∀ key msg, verifyAsync (E.sign key msg) msg (E.publicKey key).val = .ok true) {sth : SignedTreeHead}
    {signer : Signer} (hsigned : SignedBy E sth signer) (h : (serializeSth sth).treeSize < 2 ^ 53) :
    verifySth verifyAsync (serializeSth sth) = .ok := by
  have hmsg := buildSthMessage_serializeSth (lt_of_toNumber h)
  rw [verifySth, hmsg]
  simp only [serializeSth, hex_toHex]
  rw [hsigned.signature, hsigned.publicKey, hverify]
  rfl

/-- Heads of the log, as signed, and proofs under them. -/
def genuineChecks (sha256 : Bytes → Hash) (signed : List (SignedTreeHead × Signer)) (es : List LogEntry) : Checks where
  entry _ _ := True
  sth json := ∃ n sth, Published sha256 signed es n sth ∧ json = serializeSth sth
  proof seq json := ∃ n proof sth, Verifies sha256 es (.inclusion seq 0) (.inclusion seq n proof sth) ∧
    Published sha256 signed es n sth ∧ json = serializeProof seq n proof sth

theorem sources_genuine {s : St} {es : List LogEntry} (h : Sound sha256 s es) :
    Sources (genuineChecks sha256 s.hist.signed es) s where
  entry _ _ _ := trivial
  sth sth hlatest := by
    obtain ⟨n, hl⟩ := latestHead_eq_some hlatest
    have hget := (OrdMap.get?_last? hl).1
    exact ⟨n, sth, ⟨h.log.heads n sth hget, h.written n sth hget⟩, rfl⟩
  proof r hr seq leafIndex treeSize proof sth hreq hres := by
    have hok := h.proofs.replies r hr
    obtain ⟨resp, hres', hv⟩ := hok.owed (hok.latest seq _ hreq hres)
    rw [hres] at hres'
    cases hres'
    rw [hreq] at hv
    obtain ⟨rfl, hverified⟩ := hv
    exact ⟨treeSize, proof, sth, ⟨rfl, hverified⟩, hok.written _ _ _ _ hres, rfl⟩

/-- No log write fails, and no rotation splits a head. -/
def steady (m : Explorer) : RouteEv → Bool
  | .server e => noLogWriteError m.st e && swapsApart m.st e
  | _ => true

structure GenuineInv (sha256 : Bytes → Hash) (E : Ed25519) (m : Explorer) (es : List LogEntry) : Prop where
  sound : Sound sha256 m.st es
  signed : SignInv E m.st
  served : Served (genuineChecks sha256 m.st.hist.signed es) m

theorem step_genuine {es : List LogEntry} {e : RouteEv} (h : GenuineInv sha256 E m es) (hok : steady m e = true)
    (hs : stepRoutes sha256 E m e = some m') : ∃ fs, GenuineInv sha256 E m' fs := by
  by_cases hserver : ∃ ev, e = .server ev
  · obtain ⟨ev, rfl⟩ := hserver
    obtain ⟨s', hstep, rfl⟩ := Option.map_eq_some_iff.mp hs
    rw [steady, Bool.and_eq_true] at hok
    obtain ⟨hwrite, hswap⟩ := hok
    obtain ⟨fs, hsound⟩ := h.sound.step hwrite hstep
    have hstep := step_step sha256 E hstep
    have hgrow : Served (genuineChecks sha256 s'.hist.signed (es ++ fs)) m := by
      refine h.served.mono (fun _ _ h => h) (fun json hjson => ?_) (fun seq json hjson => ?_)
      · obtain ⟨n, sth, hpub, heq⟩ := hjson
        exact ⟨n, sth, hpub.grow hstep.signed_grow, heq⟩
      · obtain ⟨n, proof, sth, hv, hpub, heq⟩ := hjson
        exact ⟨n, proof, sth, hv.append, hpub.grow hstep.signed_grow, heq⟩
    exact ⟨es ++ fs, hsound, hstep.signInv sha256 E h.signed hswap, { hgrow with }⟩
  · have hne : ∀ ev, e ≠ .server ev := fun ev he => hserver ⟨ev, he⟩
    have hst := stepRoutes_st hne hs
    have hserved := h.served.step hne (sources_genuine h.sound) hs
    exact ⟨es, hst ▸ h.sound, hst ▸ h.signed, hst ▸ hserved⟩

end

/-- What the check reads of a proof, where its numbers are safe integers. -/
def ProofJson.inclusionProof (json : ProofJson) : Option InclusionProof :=
  if h : json.leafIndex < 2 ^ 53 ∧ json.treeSize < 2 ^ 53 then
    some ⟨⟨json.leafIndex, h.1⟩, ⟨json.treeSize, h.2⟩, json.proof, json.sth.rootHash⟩
  else none

/-- The browser finds the signature valid, and the root is that of the first `treeSize`
    entries. -/
def HeadHolds (sha256 : Bytes → Hash) (verifyAsync : Bytes → Bytes → Bytes → Except String Bool) (es : List LogEntry)
    (json : SthJson) : Prop :=
  verifySth verifyAsync json = .ok ∧ (rootAt sha256 es json.treeSize).map (fun root => toHex root.val) = some json.rootHash

theorem headHolds_published {sha256 : Bytes → Hash} {E : Ed25519} {verifyAsync : Bytes → Bytes → Bytes → Except String Bool}
    (hverify : ∀ key msg, verifyAsync (E.sign key msg) msg (E.publicKey key).val = .ok true) {s : St} {es : List LogEntry}
    (hi : SignInv E s) {n : Nat} {sth : SignedTreeHead} (h : Published sha256 s.hist.signed es n sth)
    (hlt : (serializeSth sth).treeSize < 2 ^ 53) : HeadHolds sha256 verifyAsync es (serializeSth sth) := by
  obtain ⟨⟨rfl, -, hroot⟩, signer, hmem⟩ := h
  refine ⟨verifySth_signed hverify (hi.signed sth signer hmem) hlt, ?_⟩
  have hsize : (serializeSth sth).treeSize = sth.treeSize := toNumber_of_lt (lt_of_toNumber hlt)
  rw [hsize, hroot]
  rfl

/-- While no log write fails and no rotation splits a head: every head the explorer has
    answered, from its cache or not, is a head of the log and passes the browser's check, and
    so does every proof, for the entry the log has under its number. -/
theorem answers_check (sha256 : Bytes → Hash) (E : Ed25519) (verifyAsync : Bytes → Bytes → Bytes → Except String Bool)
    (hverify : ∀ key msg, verifyAsync (E.sign key msg) msg (E.publicKey key).val = .ok true) {m : Explorer}
    (h : Reach (stepRoutes sha256 E) steady .init m) :
    (∀ json, Answer.sth json ∈ m.answers → json.treeSize < 2 ^ 53 →
      HeadHolds sha256 verifyAsync (m.st.store.log.entries.map (·.2)) json) ∧
    ∀ seq json, Answer.proof seq json ∈ m.answers → json.treeSize < 2 ^ 53 →
      HeadHolds sha256 verifyAsync (m.st.store.log.entries.map (·.2)) json.sth ∧
      ∃ e proof, m.st.store.getBySeq seq.val = some e ∧ json.inclusionProof = some proof ∧
        (verifyInclusion sha256 proof e.data).isOk = true := by
  obtain ⟨es, hi⟩ := Reach.inv (P := fun m => ∃ es, GenuineInv sha256 E m es)
    ⟨[], .init, .init E, .init⟩ (fun m e m' hm hok hs => by
      obtain ⟨es, hm⟩ := hm
      exact step_genuine hm hok hs) h
  rw [Holds.entries sha256 hi.sound.log.holds]
  refine ⟨fun json ha hlt => ?_, fun seq json ha hlt => ?_⟩
  · obtain ⟨n, sth, hpub, rfl⟩ := hi.served.answers _ ha
    exact headHolds_published hverify hi.signed hpub hlt
  · obtain ⟨n, proof, sth, ⟨-, e, he, hv⟩, hpub, rfl⟩ := hi.served.answers _ ha
    have hn : n < 2 ^ 53 := lt_of_toNumber hlt
    have hnum : ∀ k, k < 2 ^ 53 → toNumber k = k := fun k => toNumber_of_lt
    have hsize : sth.treeSize = n := hpub.1.1
    refine ⟨headHolds_published hverify hi.signed hpub ?_, e, .of seq ⟨n, hn⟩ proof sth.rootHash, ?_, ?_, ?_⟩
    · show toNumber sth.treeSize < 2 ^ 53
      rw [hsize]
      exact hlt
    · rw [hi.sound.log.holds.getBySeq]
      exact he
    · simp only [ProofJson.inclusionProof, serializeProof, hnum n hn, hnum seq.val seq.property, hn, seq.property, and_self,
        dite_true]
      rfl
    · rw [verifyInclusion_genuine sha256 hv]
      rfl

/-- A check that goes with `plainKeys`. -/
def plainVerifyAsync (sig msg pub : Bytes) : Except String Bool := .ok (decide (sig = pub ++ msg))

/-- A head of one entry; its proof is asked for twice, an entry is appended in between. -/
def proofRun : List RouteEv :=
  let prove : List Server.Ev := [.proof (.request (.inclusion 0 0)), .proof (.readLog 0), .proof (.readHead 0)]
  [(.restart .zero true :: appendEvs [107] [104, 105] 5 ++ signEvs 7).map .server, [.request (.proof firstSeq)],
    prove.map .server, [.proofReply 0 0, .resume 0, .request .sth, .reply 0, .resume 0], (appendEvs [107] [106] 8).map .server,
    [.request (.proof firstSeq)], prove.map .server, [.proofReply 0 1, .resume 0]].flatten

theorem answers_check_twice : ∃ m head proof, Reach (stepRoutes Sha256.sha256 plainKeys) steady .init m ∧
    m.answers = [.proof firstSeq proof, .sth head, .proof firstSeq proof] ∧
    HeadHolds Sha256.sha256 plainVerifyAsync (m.st.store.log.entries.map (·.2)) head ∧
    ∃ e shown, m.st.store.getBySeq 0 = some e ∧ proof.inclusionProof = some shown ∧
      (verifyInclusion Sha256.sha256 shown e.data).isOk = true := by
  let root := Core.leafHash Sha256.sha256 [104, 105]
  let head : SthJson := ⟨1, toHex root.val, ['7'], toHex (Hash.zero.val ++ signingPayload 1 root 7), toHex Hash.zero.val, 1⟩
  let proof : ProofJson := ⟨0, 1, [], head⟩
  have hrun : (run (stepRoutes Sha256.sha256 plainKeys) steady .init proofRun).map (·.answers) =
      some [.proof firstSeq proof, .sth head, .proof firstSeq proof] := by decide +kernel
  obtain ⟨m, hm, hanswers⟩ := Option.map_eq_some_iff.mp hrun
  have hreach := Reach.init.run hm
  have hverify : ∀ key msg, plainVerifyAsync (plainKeys.sign key msg) msg (plainKeys.publicKey key).val = .ok true :=
    fun key msg => congrArg _ (decide_eq_true rfl)
  obtain ⟨hsth, hproof⟩ := answers_check Sha256.sha256 plainKeys plainVerifyAsync hverify hreach
  have hhead := hsth head (by rw [hanswers]; exact List.mem_cons_of_mem _ List.mem_cons_self) (by decide)
  exact ⟨m, head, proof, hreach, hanswers, hhead, (hproof firstSeq proof (by rw [hanswers]; exact List.mem_cons_self) (by decide)).2⟩

end Settled.Ui.Routes
