/-
  Settled.Check.Verify — `settled-check verify` (`crates/settled-check/src/main.rs`)
  against an arbitrary server.

  `cmd_verify --seq s` asks for the latest head, an inclusion proof of `s` and the entry
  `s`. The server's three answers are independent of each other. The head's signature is
  checked, and the proof of the entry's `leaf_hash` at the proof's `leaf_index`; but not
  that the index is `s`, nor that the hash is the one of the entry's data. So "inclusion:
  OK (seq=s)" is printed of another position, or of other data (`checked_elsewhere`).

  `cmd_verify_sound_iff`: of the servers that answer with a tree size, a leaf index and a
  leaf hash that is or is not the data's, all are checked soundly exactly when the index
  is `s` and the hash is the data's, or the index is outside the tree and the check fails
  anyway. A hash that adds (`Settled.Sdk.Forgery`) and a tree of equal leaves but one
  serve for the others.
-/

import Settled.Core.DomainSeparation
import Settled.Sdk.FixedWidth
import Settled.Sdk.Forgery
import Settled.Sdk.TreeHead

namespace Settled.Check

open Settled.Lib Settled.Core Settled.Sdk

/-! ## The SDK's client (`sdks/rust/src/client.rs`) -/

structure SignedTreeHead where
  treeSize : BitVec 64
  rootHash : Bytes
  timestampNs : Int
  signature : Bytes
  publicKey : Bytes
  keyVersion : Nat
  deriving Inhabited

structure Entry where
  seq : BitVec 64
  timestampNs : Int
  key : Bytes
  data : Bytes
  leafHash : Bytes
  deriving Inhabited

structure InclusionProofResponse where
  leafIndex : BitVec 64
  treeSize : BitVec 64
  proof : List Bytes
  sth : Option SignedTreeHead

structure InclusionProofResult where
  leafIndex : BitVec 64
  treeSize : BitVec 64
  proof : List Bytes
  sth : SignedTreeHead

/-- What a server answers, or the client's error: any functions of the requests. The
    messages inside the answers may be missing. -/
structure Server where
  connect : Except String Unit
  getSth : BitVec 64 → Except String (Option SignedTreeHead)
  inclusionProof : BitVec 64 → BitVec 64 → Except String InclusionProofResponse
  get : BitVec 64 → Except String (Option Entry)

namespace SettledClient

def getSth (server : Server) (treeSize : BitVec 64) : Except String SignedTreeHead :=
  (server.getSth treeSize).map (·.getD default)

def inclusionProof (server : Server) (seq treeSize : BitVec 64) : Except String InclusionProofResult :=
  (server.inclusionProof seq treeSize).map fun r => ⟨r.leafIndex, r.treeSize, r.proof, r.sth.getD default⟩

def get (server : Server) (seq : BitVec 64) : Except String Entry := (server.get seq).map (·.getD default)

end SettledClient

/-! ## `cmd_verify` -/

/-- An error is its outermost message. What is hashed is traced. -/
abbrev CheckM := ExceptT String (Traced Bytes)

/-- `.context(message)?`. -/
def context {α : Type} (x : Except String α) (message : String) : CheckM α :=
  ExceptT.mk (pure (x.mapError fun _ => message))

/-- `if !b { bail!(message) }`. -/
def bailUnless (b : Bool) (message : String) : CheckM Unit := if b then pure () else throw message

/-- `.try_into()` of a slice to a `[u8; 32]`. -/
def tryInto (b : Bytes) : Except String Hash := if h : b.length = 32 then .ok ⟨b, h⟩ else .error "could not convert slice to array"

section

variable (sha256 : Bytes → Hash) (E : Ed25519)

/-- What is printed on the way is left out. -/
def cmdVerify (server : Server) (seq : Option (BitVec 64)) : CheckM Unit := do
  context server.connect "Failed to connect to Settled server"
  let sth ← context (SettledClient.getSth server 0) "Failed to fetch latest STH"
  let root ← context (tryInto sth.rootHash) "root_hash must be 32 bytes"
  bailUnless (Rust.verifyTreeHead E sth.treeSize.toNat root sth.timestampNs sth.signature sth.publicKey)
    "STH signature verification FAILED"
  match seq with
  | none => pure ()
  | some seqNum =>
    let proofRes ← context (SettledClient.inclusionProof server seqNum sth.treeSize) "Failed to fetch inclusion proof"
    let path ← context (proofRes.proof.mapM tryInto) "proof node must be 32 bytes"
    let entry ← context (SettledClient.get server seqNum) "Failed to fetch entry"
    let leaf ← context (tryInto entry.leafHash) "leaf_hash must be 32 bytes"
    let included ← ExceptT.lift (Rust.verifyInclusion sha256 leaf proofRes.leafIndex sth.treeSize path root)
    bailUnless included s!"Inclusion proof verification FAILED for seq={seqNum.toNat}"

variable {sha256 E}

/-! ## What a successful run has seen -/

theorem context_bind {α β : Type} {x : Except String α} {message : String} {f : α → CheckM β} {b : β} {c : List Bytes} :
    (context x message >>= f).run = ⟨.ok b, c⟩ ↔ ∃ a, x = .ok a ∧ (f a).run = ⟨.ok b, c⟩ := by
  cases x with
  | error e =>
    constructor
    · intro h
      cases h
    · rintro ⟨a, ha, -⟩
      cases ha
  | ok a =>
    constructor
    · intro h
      exact ⟨a, rfl, h⟩
    · rintro ⟨a', ha, h⟩
      cases ha
      exact h

theorem bailUnless_run {b : Bool} {message : String} {c : List Bytes} :
    (bailUnless b message).run = ⟨.ok (), c⟩ ↔ b = true ∧ c = [] := by
  cases b with
  | false =>
    constructor
    · intro h
      cases h
    · rintro ⟨h, -⟩
      cases h
  | true =>
    constructor
    · intro h
      cases h
      exact ⟨rfl, rfl⟩
    · rintro ⟨-, rfl⟩
      rfl

theorem bailUnless_bind {α : Type} {b : Bool} {message : String} {f : Unit → CheckM α} {a : α} {c : List Bytes} :
    (bailUnless b message >>= f).run = ⟨.ok a, c⟩ ↔ b = true ∧ (f ()).run = ⟨.ok a, c⟩ := by
  cases b with
  | false =>
    constructor
    · intro h
      cases h
    · rintro ⟨h, -⟩
      cases h
  | true => exact ⟨fun h => ⟨rfl, h⟩, fun h => h.2⟩

theorem lift_bind {α β : Type} {x : Traced Bytes α} {f : α → CheckM β} {b : β} {c : List Bytes} :
    (ExceptT.lift x >>= f).run = ⟨.ok b, c⟩ ↔ ∃ a c1 c2, x = ⟨a, c1⟩ ∧ (f a).run = ⟨.ok b, c2⟩ ∧ c = c1 ++ c2 := by
  have hrun : (ExceptT.lift x >>= f).run = ⟨(f x.val).run.val, (x.calls ++ []) ++ (f x.val).run.calls⟩ := rfl
  rw [hrun, List.append_nil, Traced.mk.injEq]
  constructor
  · rintro ⟨hv, hc⟩
    exact ⟨x.val, x.calls, (f x.val).run.calls, rfl, by rw [← hv], hc.symm⟩
  · rintro ⟨a, c1, c2, rfl, hf, rfl⟩
    rw [hf]
    exact ⟨rfl, rfl⟩

theorem tryInto_eq_ok {b : Bytes} {h : Hash} : tryInto b = .ok h ↔ h.val = b := by
  unfold tryInto
  split
  next hb =>
    rw [Except.ok.injEq, Subtype.ext_iff]
    exact eq_comm
  next hb =>
    constructor
    · intro h
      cases h
    · intro heq
      exact absurd (heq ▸ h.property) hb

theorem mapM_tryInto : ∀ {proof : List Bytes} {path : List Hash}, proof.mapM tryInto = .ok path ↔ path.map (·.val) = proof := by
  intro proof
  induction proof with
  | nil =>
    intro path
    rw [List.mapM_nil, List.map_eq_nil_iff]
    exact ⟨fun h => (Except.ok.inj h).symm, fun h => congrArg Except.ok h.symm⟩
  | cons b proof ih =>
    intro path
    rw [List.mapM_cons]
    cases hb : tryInto b with
    | error e =>
      constructor
      · intro h
        cases h
      · intro h
        cases path with
        | nil => cases h
        | cons x path =>
          rw [tryInto_eq_ok.mpr (List.cons.inj h).1] at hb
          cases hb
    | ok x =>
      cases hp : proof.mapM tryInto with
      | error e =>
        constructor
        · intro h
          cases h
        · intro h
          cases path with
          | nil => cases h
          | cons y path =>
            rw [ih.mpr (List.cons.inj h).2] at hp
            cases hp
      | ok xs =>
        rw [← tryInto_eq_ok.mp hb, ← ih.mp hp, ← List.map_cons, List.map_inj_right fun _ _ => Subtype.ext]
        exact ⟨fun h => (Except.ok.inj h).symm, fun h => congrArg Except.ok h.symm⟩

theorem cmdVerify_ok {server : Server} {s : BitVec 64} {c : List Bytes} :
    (cmdVerify sha256 E server (some s)).run = ⟨.ok (), c⟩ ↔
      server.connect = .ok () ∧ ∃ sth root proofRes path entry leaf, SettledClient.getSth server 0 = .ok sth ∧
        root.val = sth.rootHash ∧
        Rust.verifyTreeHead E sth.treeSize.toNat root sth.timestampNs sth.signature sth.publicKey = true ∧
        SettledClient.inclusionProof server s sth.treeSize = .ok proofRes ∧ path.map (·.val) = proofRes.proof ∧
        SettledClient.get server s = .ok entry ∧ leaf.val = entry.leafHash ∧
        Rust.verifyInclusion sha256 leaf proofRes.leafIndex sth.treeSize path root = ⟨true, c⟩ := by
  unfold cmdVerify
  simp only [context_bind, bailUnless_bind, lift_bind, bailUnless_run, tryInto_eq_ok, mapM_tryInto]
  constructor
  · rintro ⟨⟨⟩, hconn, sth, hsth, root, hroot, hsig, proofRes, hproof, path, hpath, entry, hentry, leaf, hleaf, ok, c1, c2, hv,
      ⟨rfl, rfl⟩, rfl⟩
    rw [List.append_nil]
    exact ⟨hconn, sth, root, proofRes, path, entry, leaf, hsth, hroot, hsig, hproof, hpath, hentry, hleaf, hv⟩
  · rintro ⟨hconn, sth, root, proofRes, path, entry, leaf, hsth, hroot, hsig, hproof, hpath, hentry, hleaf, hv⟩
    exact ⟨(), hconn, sth, hsth, root, hroot, hsig, proofRes, hproof, path, hpath, entry, hentry, leaf, hleaf, true, c, [], hv,
      ⟨rfl, rfl⟩, (List.append_nil c).symm⟩

/-! ## Soundness -/

/-- If the check of `s` succeeds, every tree with the head's size and root has the leaf of
    the entry's data at `s`, or two of the strings hashed for its root, for the leaf and by
    the check collide. -/
def Sound (sha256 : Bytes → Hash) (E : Ed25519) (server : Server) (s : BitVec 64) : Prop :=
  ∀ c, (cmdVerify sha256 E server (some s)).run = ⟨.ok (), c⟩ → ∀ sth entry, SettledClient.getSth server 0 = .ok sth →
    SettledClient.get server s = .ok entry → ∀ (L : List Hash) (root : Hash), L.length = sth.treeSize.toNat →
    (mth (.sha sha256) L).val = some root → root.val = sth.rootHash →
    L[s.toNat]? = some (leafHash sha256 entry.data) ∨
      Collides sha256 ((mth (.sha sha256) L).calls ++ leafInput entry.data :: c)

/-- The server answers with a head of `n` leaves, a proof for the leaf `j`, and an entry whose
    leaf hash is the one of its data, or is not. -/
def Answers (sha256 : Bytes → Hash) (server : Server) (s n j : BitVec 64) (honest : Bool) : Prop :=
  ∃ sth proofRes entry, SettledClient.getSth server 0 = .ok sth ∧ sth.treeSize = n ∧
    SettledClient.inclusionProof server s n = .ok proofRes ∧ proofRes.leafIndex = j ∧
    SettledClient.get server s = .ok entry ∧ decide (entry.leafHash = (leafHash sha256 entry.data).val) = honest

theorem sha_cuts (sha256 : Bytes → Hash) : (Hasher.sha sha256).Cuts fun _ => True where
  left h _ _ := nodeInput_inj h
  right h _ _ := nodeInput_inj h
  digest _ := trivial

/-- An accepted proof against the root of a real tree is of the tree's own leaf. -/
theorem included_leaf {L : List Hash} {root a : Hash} {i : Nat} {P : List Hash} {c : List Bytes}
    (hroot : (mth (.sha sha256) L).val = some root) (h : Core.verifyInclusion (.sha sha256) a i L.length P root = ⟨true, c⟩) :
    L[i]? = some a ∨ Collides sha256 ((mth (.sha sha256) L).calls ++ c) := by
  have hopen := verifyInclusion_iff.mp h
  have hi := hopen.climbs.1
  obtain ⟨path, r, c', -, hr, hpath, hsub⟩ :=
    opens_path (.sha sha256) L.length L i L[i] rfl (List.getElem?_eq_getElem hi)
  rw [hroot] at hr
  rcases hpath.binding (sha_cuts sha256) hopen (Option.some.inj hr).symm trivial trivial with ⟨ha, -⟩ | hcol
  · exact Or.inl (by rw [List.getElem?_eq_getElem hi, ha])
  · refine Or.inr (hcol.mono fun q hq => ?_)
    rcases List.mem_append.mp hq with hq | hq
    · exact List.mem_append_left _ (hsub q hq)
    · exact List.mem_append_right _ hq

/-- With the index asked for and the hash of the data, the check is sound. -/
theorem sound_of_checked {server : Server} {s n : BitVec 64} (h : Answers sha256 server s n s true) : Sound sha256 E server s := by
  obtain ⟨sth, proofRes, entry, hsth, rfl, hproof, hindex, hentry, hhash⟩ := h
  intro c hc sth' entry' hsth' hentry' L root hlen hroot hrootHash
  obtain ⟨-, sth'', root'', proofRes'', path, entry'', leaf, h1, h2, -, h3, -, h4, h5, hv⟩ := cmdVerify_ok.mp hc
  rw [hsth] at hsth' h1
  rw [hentry] at hentry' h4
  cases hsth'
  cases h1
  cases hentry'
  cases h4
  rw [hproof] at h3
  cases h3
  obtain rfl : root = root'' := Subtype.ext (hrootHash.trans h2.symm)
  obtain rfl : leaf = leafHash sha256 entry.data := Subtype.ext (h5.trans (of_decide_eq_true hhash))
  rw [rust_verifyInclusion, hindex, ← hlen] at hv
  refine (included_leaf hroot hv).imp_right fun hcol => hcol.mono fun q hq => ?_
  rcases List.mem_append.mp hq with hq | hq
  · exact List.mem_append_left _ hq
  · exact List.mem_append_right _ (List.mem_cons_of_mem _ hq)

/-- An index outside the tree is not accepted. -/
theorem sound_of_outside {server : Server} {s n j : BitVec 64} {honest : Bool} (h : Answers sha256 server s n j honest)
    (hj : n ≤ j) : Sound sha256 E server s := by
  obtain ⟨sth, proofRes, entry, hsth, rfl, hproof, rfl, -⟩ := h
  intro c hc
  obtain ⟨-, sth', root, proofRes', path, entry', leaf, h1, -, -, h3, -, -, -, hv⟩ := cmdVerify_ok.mp hc
  rw [hsth] at h1
  cases h1
  rw [hproof] at h3
  cases h3
  rw [rust_verifyInclusion] at hv
  have := (verifyInclusion_iff.mp hv).climbs.1
  rw [BitVec.le_def] at hj
  omega

end

/-! ## Servers that are checked and should not be -/

/-- `t` leaves `enc 1`, but `enc forgedLeaf` at `j`. -/
def marked (t j : Nat) : List Hash := (List.replicate t (enc 1)).set j (enc forgedLeaf)

theorem length_marked (t j : Nat) : (marked t j).length = t := by rw [marked, List.length_set, List.length_replicate]

theorem take_marked {t k : Nat} (j : Nat) (h : k ≤ t) :
    (marked t j).take k = if j < k then marked k j else List.replicate k (enc 1) := by
  rw [marked, List.take_set, List.take_replicate, Nat.min_eq_left h]
  split
  · rfl
  · exact List.set_eq_of_length_le (by rw [List.length_replicate]; omega)

theorem drop_marked (t j k : Nat) :
    (marked t j).drop k = if j < k then List.replicate (t - k) (enc 1) else marked (t - k) (j - k) := by
  rw [marked, List.drop_set, List.drop_replicate]
  rfl

/-- The nodes above the marked leaf have ever larger sums, and the others are honest. -/
def MarkedCalls (t : Nat) (calls : List Bytes) : Prop :=
  ∃ F, Chain F (forgedLeaf + (t - 1)) ∧ ∀ q ∈ calls, q ∈ F ∨ ∃ u, 1 < u ∧ u ≤ t ∧ q = honest u

/-- A node over a marked subtree of `m` leaves and an honest one. -/
theorem MarkedCalls.node {t m : Nat} {calls calls' : List Bytes} {q : Bytes} (h : MarkedCalls m calls) (hm : 0 < m) (hlt : m < t)
    (hq : rank q = forgedLeaf + (t - 1)) (h' : ∀ q ∈ calls', ∃ u, 1 < u ∧ u ≤ t - m ∧ q = honest u) :
    ∀ all, (∀ x ∈ all, x ∈ calls ∨ x ∈ calls' ∨ x = q) → MarkedCalls t all := by
  obtain ⟨F, hF, hcalls⟩ := h
  intro all hall
  have hpush := hF.push (q := q) (by omega)
  rw [hq] at hpush
  refine ⟨F ++ [q], hpush, fun x hx => ?_⟩
  rcases hall x hx with hx | hx | rfl
  · rcases hcalls x hx with hx | ⟨u, hu1, hu, rfl⟩
    · exact Or.inl (List.mem_append_left _ hx)
    · exact Or.inr ⟨u, hu1, by omega, rfl⟩
  · obtain ⟨u, hu1, hu, rfl⟩ := h' x hx
    exact Or.inr ⟨u, hu1, by omega, rfl⟩
  · exact Or.inl (List.mem_append_right _ (List.mem_singleton_self _))

theorem mth_marked : ∀ t j, j < t → t ≤ 2 ^ 64 →
    (mth (.sha sumSha) (marked t j)).val = some (enc (forgedLeaf + (t - 1))) ∧
      MarkedCalls t (mth (.sha sumSha) (marked t j)).calls := by
  intro t
  induction t using Nat.strongRecOn with
  | ind t ih =>
  intro j hj ht
  by_cases h1 : t = 1
  · subst h1
    obtain rfl : j = 0 := by omega
    have hone : marked 1 0 = [enc forgedLeaf] := rfl
    rw [hone, mth]
    refine ⟨rfl, [], ⟨.nil, fun q hq => absurd hq List.not_mem_nil, Nat.le_refl _⟩, fun q hq => ?_⟩
    cases hq
  have hgt : 1 < t := by omega
  have hlt := k_lt hgt
  have hpos := k_pos t
  have hcap : forgedLeaf + t < 256 ^ 32 := Nat.lt_of_le_of_lt (Nat.add_le_add_left ht forgedLeaf) (by decide)
  obtain ⟨l, r, hl, hr, hv, hc⟩ := mth_split (.sha sumSha) (L := marked t j) (by rw [length_marked]; exact hgt)
  rw [length_marked, take_marked j (by omega)] at hl hc
  rw [length_marked, drop_marked] at hr
  rw [drop_marked] at hc
  by_cases hjk : j < Core.k t
  · rw [if_pos hjk] at hl hr
    rw [if_pos hjk, if_pos hjk] at hc
    obtain ⟨hl', hcl⟩ := ih (Core.k t) hlt j hjk (by omega)
    obtain ⟨hr', hcr⟩ := mth_honest (t - Core.k t) (by omega) (by omega)
    obtain rfl : enc (forgedLeaf + (Core.k t - 1)) = l := by rw [hl'] at hl; exact Option.some.inj hl
    obtain rfl : enc (t - Core.k t) = r := by rw [hr'] at hr; exact Option.some.inj hr
    have hrank : rank (nodeInput (enc (forgedLeaf + (Core.k t - 1))).val (enc (t - Core.k t)).val) = forgedLeaf + (t - 1) := by
      rw [rank_node (by omega) (by omega)]
      omega
    refine ⟨?_, hcl.node hpos hlt hrank hcr _ fun x hx => ?_⟩
    · rw [hv]
      exact congrArg some (congrArg enc hrank)
    · rw [hc] at hx
      simp only [List.mem_append, List.mem_singleton] at hx
      exact hx
  · rw [if_neg hjk] at hl hr
    rw [if_neg hjk, if_neg hjk] at hc
    obtain ⟨hr', hcr⟩ := ih (t - Core.k t) (by omega) (j - Core.k t) (by omega) (by omega)
    obtain ⟨hl', hcl⟩ := mth_honest (Core.k t) hpos (by omega)
    obtain rfl : enc (Core.k t) = l := by rw [hl'] at hl; exact Option.some.inj hl
    obtain rfl : enc (forgedLeaf + (t - Core.k t - 1)) = r := by rw [hr'] at hr; exact Option.some.inj hr
    have hrank : rank (nodeInput (enc (Core.k t)).val (enc (forgedLeaf + (t - Core.k t - 1))).val) = forgedLeaf + (t - 1) := by
      rw [rank_node (by omega) (by omega)]
      omega
    refine ⟨?_, hcr.node (by omega) (by omega) hrank (by rw [Nat.sub_sub_self (by omega)]; exact hcl) _ fun x hx => ?_⟩
    · rw [hv]
      exact congrArg some (congrArg enc hrank)
    · rw [hc] at hx
      simp only [List.mem_append, List.mem_singleton] at hx
      rcases hx with hx | hx | hx
      · exact Or.inr (Or.inl hx)
      · exact Or.inl hx
      · exact Or.inr (Or.inr hx)

theorem MarkedCalls.rank_of_mem {t : Nat} {calls : List Bytes} (h : MarkedCalls t calls) (ht : t ≤ 2 ^ 64) {q : Bytes} (hq : q ∈ calls) :
    (1 < rank q ∧ rank q ≤ t) ∨ (forgedLeaf < rank q ∧ rank q ≤ forgedLeaf + (t - 1)) := by
  obtain ⟨F, hF, hcalls⟩ := h
  rcases hcalls q hq with hq | ⟨u, hu1, hu, rfl⟩
  · exact Or.inr (hF.above q hq)
  · rw [rank_honest hu1 (by omega)]
    exact Or.inl ⟨hu1, hu⟩

/-- Nothing collides with a further string whose sum is 0 or the marked leaf's. -/
theorem MarkedCalls.no_collision {t : Nat} {calls c : List Bytes} {x : Bytes} (h : MarkedCalls t calls) (ht : t ≤ 2 ^ 64)
    (hc : ∀ q ∈ c, q ∈ calls) (hx : rank x = 0 ∨ rank x = forgedLeaf) : ¬ Collides sumSha (calls ++ x :: c) := by
  have hcap : forgedLeaf + t < 256 ^ 32 := Nat.lt_of_le_of_lt (Nat.add_le_add_left ht forgedLeaf) (by decide)
  have hlow : t < forgedLeaf := Nat.lt_of_le_of_lt ht (by decide)
  have hapart : ∀ q ∈ calls, sumSha x ≠ sumSha q := by
    intro q hq he
    have hq := h.rank_of_mem ht hq
    have := enc_inj (by omega) (by omega) he
    omega
  have hmem : ∀ q ∈ calls ++ x :: c, q = x ∨ q ∈ calls := by
    intro q hq
    rcases List.mem_append.mp hq with hq | hq
    · exact Or.inr hq
    · exact (List.mem_cons.mp hq).imp_right (hc q)
  rintro ⟨y, hy, z, hz, hne, he⟩
  rcases hmem y hy with hy | hy <;> rcases hmem z hz with hz | hz
  · exact hne (hy.trans hz.symm)
  · exact hapart z hz (hy ▸ he)
  · exact hapart y hy (hz ▸ he.symm)
  · obtain ⟨F, hF, hcalls⟩ := h
    exact Sdk.no_collision hF (by omega) hlow hcalls ⟨y, hy, z, hz, hne, he⟩

/-- A server with these answers. -/
def replyWith (sth : SignedTreeHead) (proofRes : InclusionProofResponse) (entry : Entry) : Server where
  connect := .ok ()
  getSth _ := .ok (some sth)
  inclusionProof _ _ := .ok proofRes
  get _ := .ok (some entry)

/-- A head signed with the key zero. -/
def signedHead (n : BitVec 64) (root : Hash) : SignedTreeHead where
  treeSize := n
  rootHash := root.val
  timestampNs := 0
  signature := digestKeys.sign .zero (signingPayload n.toNat root 0)
  publicKey := Hash.zero.val
  keyVersion := 1

theorem replyWith_ok (sha256 : Bytes → Hash) {n j : BitVec 64} {root leaf : Hash} {P : List Hash} {c : List Bytes}
    (hv : Core.verifyInclusion (.sha sha256) leaf j.toNat n.toNat P root = ⟨true, c⟩) (s : BitVec 64) (key data : Bytes) :
    (cmdVerify sha256 digestKeys (replyWith (signedHead n root) ⟨j, n, P.map (·.val), none⟩ ⟨s, 0, key, data, leaf.val⟩)
      (some s)).run = ⟨.ok (), c⟩ := by
  refine cmdVerify_ok.mpr ⟨rfl, _, root, _, P, _, leaf, rfl, rfl, ?_, rfl, rfl, rfl, rfl, ?_⟩
  · show Rust.verifyTreeHead digestKeys n.toNat root 0 (digestKeys.sign .zero (signingPayload n.toNat root 0)) Hash.zero.val = true
    rw [Rust.verifyTreeHead_eq (digestKeys_length _ _)]
    exact digestKeys_verify .zero _
  · show Rust.verifyInclusion sha256 leaf j n P root = ⟨true, c⟩
    rw [rust_verifyInclusion]
    exact hv

/-- A proof of another leaf than that of the data at `s`. -/
theorem not_sound (sha256 : Bytes → Hash) {n j s : BitVec 64} {root leaf : Hash} {P L : List Hash} {c : List Bytes} {data : Bytes}
    (hv : Core.verifyInclusion (.sha sha256) leaf j.toNat n.toNat P root = ⟨true, c⟩) (hlen : L.length = n.toNat)
    (hroot : (mth (.sha sha256) L).val = some root) (hne : L[s.toNat]? ≠ some (leafHash sha256 data))
    (hcol : ¬ Collides sha256 ((mth (.sha sha256) L).calls ++ leafInput data :: c)) :
    ¬ Sound sha256 digestKeys (replyWith (signedHead n root) ⟨j, n, P.map (·.val), none⟩ ⟨s, 0, [], data, leaf.val⟩) s := by
  intro h
  exact (h c (replyWith_ok sha256 hv s [] data) _ _ rfl rfl L root hlen hroot rfl).elim hne hcol

/-- The data whose leaf is the marked one, or no data. -/
def markedData (honest : Bool) : Bytes := if honest then (enc forgedLeaf).val else []

theorem rank_markedData (honest : Bool) : rank (leafInput (markedData honest)) = if honest then forgedLeaf else 0 := by
  cases honest with
  | false => rfl
  | true => exact weight_enc (by decide)

theorem leafHash_markedData (honest : Bool) : leafHash sumSha (markedData honest) = enc (if honest then forgedLeaf else 0) :=
  congrArg enc (rank_markedData honest)

theorem getElem?_marked {t j i : Nat} {x : Hash} (h : (marked t j)[i]? = some x) :
    (i = j ∧ x = enc forgedLeaf) ∨ x = enc 1 := by
  rw [marked, List.getElem?_set] at h
  split at h
  next hij =>
    split at h
    · exact Or.inl ⟨hij.symm, (Option.some.inj h).symm⟩
    · cases h
  next => exact Or.inr (List.eq_of_mem_replicate (List.mem_of_getElem? h))

/-- Outside the tree's own leaf at `s`, with its own data, some server is checked unsoundly. -/
theorem unsound_server {s n j : BitVec 64} {honest : Bool} (hj : j < n) (hbad : ¬ (j = s ∧ honest = true)) :
    ∃ server, Answers sumSha server s n j honest ∧ ¬ Sound sumSha digestKeys server s := by
  have hn := n.isLt
  have hjn : j.toNat < n.toNat := BitVec.lt_def.mp hj
  obtain ⟨hroot, hcalls⟩ := mth_marked n.toNat j.toNat hjn (by omega)
  have hlen := length_marked n.toNat j.toNat
  have hget : (marked n.toNat j.toNat)[j.toNat]? = some (enc forgedLeaf) :=
    List.getElem?_set_self (by rw [List.length_replicate]; exact hjn)
  obtain ⟨P, r, c, -, hr, hopen, hsub⟩ := opens_path (.sha sumSha) n.toNat _ j.toNat _ hlen hget
  have hv := verifyInclusion_iff.mpr hopen
  have hne : (marked n.toNat j.toNat)[s.toNat]? ≠ some (leafHash sumSha (markedData honest)) := by
    rw [leafHash_markedData]
    intro h
    rcases getElem?_marked h with ⟨hs, he⟩ | he
    · cases honest with
      | false => exact absurd (enc_inj (by decide) (by decide) he) (by decide)
      | true => exact hbad ⟨BitVec.eq_of_toNat_eq hs.symm, rfl⟩
    · cases honest <;> exact absurd (enc_inj (by decide) (by decide) he) (by decide)
  have hcol := hcalls.no_collision (x := leafInput (markedData honest)) (by omega) hsub (by
    rw [rank_markedData]
    cases honest
    · exact Or.inl rfl
    · exact Or.inr rfl)
  refine ⟨_, ⟨_, _, _, rfl, rfl, rfl, rfl, rfl, ?_⟩, not_sound sumSha hv hlen hr hne hcol⟩
  show decide ((enc forgedLeaf).val = (leafHash sumSha (markedData honest)).val) = honest
  rw [leafHash_markedData]
  cases honest with
  | false => exact decide_eq_false fun he => absurd (enc_inj (by decide) (by decide) (Subtype.ext he)) (by decide)
  | true => exact decide_eq_true rfl

/-- `settled-check verify --seq s` against servers that answer with a head of `n` leaves, a
    proof for the leaf `j`, and an entry whose leaf hash is or is not the one of its data:
    the check is sound against all of them, whatever the hash and the signature scheme,
    exactly when `j` is `s` and the hash is the data's, or `j` is outside the tree. -/
theorem cmd_verify_sound_iff (s n j : BitVec 64) (honest : Bool) :
    (∀ sha256 E server, Answers sha256 server s n j honest → Sound sha256 E server s) ↔
      n ≤ j ∨ (j = s ∧ honest = true) := by
  constructor
  · intro h
    by_contra hcon
    obtain ⟨hj, hbad⟩ := not_or.mp hcon
    obtain ⟨server, hans, hbad⟩ := unsound_server (BitVec.not_le.mp hj) hbad
    exact hbad (h _ _ server hans)
  · rintro (hj | ⟨rfl, rfl⟩) sha256 E server hans
    · exact sound_of_outside hans hj
    · exact sound_of_checked hans

theorem not_collides_pair {f : Bytes → Hash} {q x : Bytes} (h : f q ≠ f x) : ¬ Collides f ([q] ++ x :: [q]) := by
  have hnodup : ([q, x].map f).Nodup := by simpa using h
  refine fun hcol => not_collides_of_nodup hnodup (hcol.mono fun y hy => ?_)
  simp only [List.singleton_append, List.mem_cons, List.not_mem_nil, or_false] at hy ⊢
  rcases hy with hy | hy | hy
  · exact Or.inl hy
  · exact Or.inr hy
  · exact Or.inl hy

/-- Two entries: asked for the first, the server answers with the second, its proof and its
    index. And asked for the first it answers with the first's proof, index and leaf hash,
    and other data. With SHA-256 itself, nothing collides. -/
theorem checked_elsewhere :
    let leaf (x : UInt8) : Hash := leafHash Sha256.sha256 [x]
    let root : Hash := Sha256.sha256 (nodeInput (leaf 10).val (leaf 20).val)
    ¬ Sound Sha256.sha256 digestKeys (replyWith (signedHead 2 root) ⟨1, 2, [(leaf 10).val], none⟩ ⟨0, 0, [], [20], (leaf 20).val⟩) 0 ∧
    ¬ Sound Sha256.sha256 digestKeys (replyWith (signedHead 2 root) ⟨0, 2, [(leaf 20).val], none⟩ ⟨0, 0, [], [99], (leaf 10).val⟩) 0 := by
  intro leaf root
  have hmth := mth_pair (.sha Sha256.sha256) (leaf 10) (leaf 20)
  have hroot : (mth (.sha Sha256.sha256) [leaf 10, leaf 20]).val = some root := by rw [hmth]; rfl
  constructor
  · have hopen : Opens (.sha Sha256.sha256) 1 2 (leaf 20) [leaf 10] root [nodeInput (leaf 10).val (leaf 20).val] :=
      Opens.right (i := 1) (n := 2) (leaf 10) (by decide) (by decide) (.leaf (leaf 20))
    refine not_sound Sha256.sha256 (j := 1) (P := [leaf 10]) (verifyInclusion_iff.mpr hopen) rfl hroot (by decide +kernel) ?_
    rw [hmth]
    exact not_collides_pair (show Sha256.sha256 _ ≠ Sha256.sha256 _ by decide +kernel)
  · have hopen : Opens (.sha Sha256.sha256) 0 2 (leaf 10) [leaf 20] root [nodeInput (leaf 10).val (leaf 20).val] :=
      Opens.left (i := 0) (n := 2) (leaf 20) (by decide) (by decide) (.leaf (leaf 10))
    refine not_sound Sha256.sha256 (j := 0) (P := [leaf 20]) (verifyInclusion_iff.mpr hopen) rfl hroot (by decide +kernel) ?_
    rw [hmth]
    exact not_collides_pair (show Sha256.sha256 _ ≠ Sha256.sha256 _ by decide +kernel)

end Settled.Check
