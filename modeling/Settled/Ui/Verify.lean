/-
  Settled.Ui.Verify — the explorer's inclusion check (`apps/ui/src/client/lib/verify.ts`)
  against settled-core's `verify_inclusion`.

  The explorer halves the index and rounds the size up, one level a sibling; it never
  skips the levels at which the last node has no sibling, and it compares the root
  wherever the siblings end. Up to there the two agree on every side: a node that is the
  last of its level stays the last, and from then on every sibling is on the left
  (`Beside`). So the explorer accepts what settled-core accepts, with the same running
  hashes on the same sides (`ui_accepts_genuine`).

  Nothing in it ties the number of siblings to the size or the index to the tree: a proof
  cut short, or for an index outside the tree, is accepted for the root it computes
  (`ui_accepts_short_proof`). It is no weaker than settled-core exactly where the index is
  in the tree and the siblings are as many as its path has levels (`ui_sound_iff`).

  A string is the list of its characters; hashes come as lower-case hex. A `number` is an
  integer below 2^53, where halving and rounding are exact.
-/

import Settled.Core.Sha256
import Settled.Core.WireFormat

namespace Settled.Ui

open Settled.Lib Settled.Core

abbrev Text := List Char

/-- A `number` that is a safe integer and not negative. -/
abbrev SafeInt := { n : Nat // n < 2 ^ 53 }

/-! ## Hex -/

def hexDigit (d : Nat) : Char := if d < 10 then Char.ofNat (48 + d) else Char.ofNat (87 + d)

def hexValue (c : Char) : Option Nat :=
  if '0' ≤ c ∧ c ≤ '9' then some (c.toNat - 48)
  else if 'a' ≤ c ∧ c ≤ 'f' then some (c.toNat - 87)
  else if 'A' ≤ c ∧ c ≤ 'F' then some (c.toNat - 55)
  else none

def toHex : Bytes → Text
  | [] => []
  | b :: bytes => hexDigit (b.toNat / 16) :: hexDigit (b.toNat % 16) :: toHex bytes

/-- `parseInt` of two characters, stored as a byte: the digits up to the first character
    that is none, and 0 for `NaN`. The blanks and signs it takes in front are not hex and
    do not come here. -/
def parseByte (a b : Char) : UInt8 :=
  match hexValue a, hexValue b with
  | some x, some y => UInt8.ofNat (16 * x + y)
  | some x, none => UInt8.ofNat x
  | none, _ => 0

def hex : Text → Bytes
  | a :: b :: h => parseByte a b :: hex h
  | _ => []

theorem hexValue_hexDigit : ∀ d, d < 16 → hexValue (hexDigit d) = some d := by decide

theorem parseByte_hexDigit (b : UInt8) : parseByte (hexDigit (b.toNat / 16)) (hexDigit (b.toNat % 16)) = b := by
  have hlt := b.toNat_lt
  have hsum : 16 * (b.toNat / 16) + b.toNat % 16 = b.toNat := by omega
  rw [parseByte, hexValue_hexDigit _ (by omega), hexValue_hexDigit _ (by omega)]
  dsimp only
  rw [hsum, UInt8.ofNat_toNat]

@[simp] theorem hex_toHex (bytes : Bytes) : hex (toHex bytes) = bytes := by
  induction bytes with
  | nil => rfl
  | cons b bytes ih => rw [toHex, hex, parseByte_hexDigit, ih]

theorem toHex_inj {a b : Bytes} : toHex a = toHex b ↔ a = b := by
  constructor
  · intro h
    rw [← hex_toHex a, h, hex_toHex]
  · intro h
    rw [h]

/-! ## The check -/

/-- What the check reads of an inclusion proof; `rootHash` is `sth.root_hash`. -/
structure InclusionProof where
  leafIndex : SafeInt
  treeSize : SafeInt
  proof : List Text
  rootHash : Text

inductive Direction where
  | left
  | right
  deriving DecidableEq

structure ProofStep where
  sibling : Text
  direction : Direction
  running : Text
  deriving DecidableEq

inductive InclusionResult where
  | ok (steps : List ProofStep)
  | failed (steps : List ProofStep) (reason : String)
  deriving DecidableEq

def InclusionResult.isOk : InclusionResult → Bool
  | ok _ => true
  | failed _ _ => false

section

variable (sha256 : Bytes → Hash)

def leafHash (data : Bytes) : Bytes := (sha256 (0x00 :: data)).val

def nodeHash (left right : Bytes) : Bytes := (sha256 (0x01 :: (left ++ right))).val

/-- The `for` loop over the siblings: the last running hash and the steps. -/
def verifyInclusionLoop (idx size : Nat) (current : Bytes) (steps : List ProofStep) : List Text → Bytes × List ProofStep
  | [] => (current, steps)
  | siblingHex :: proof =>
    let sibling := hex siblingHex
    let (current, direction) :=
      -- the sibling is to the left
      if idx % 2 = 1 ∨ (idx : Int) = (size : Int) - 1 then (nodeHash sha256 sibling current, Direction.left)
      else (nodeHash sha256 current sibling, Direction.right)
    verifyInclusionLoop (idx / 2) ((size + 1) / 2) current (steps ++ [⟨siblingHex, direction, toHex current⟩]) proof

/-- Nothing in it throws on hex strings. -/
def verifyInclusion (proof : InclusionProof) (entryData : Bytes) : InclusionResult :=
  let (current, steps) :=
    verifyInclusionLoop sha256 proof.leafIndex.val proof.treeSize.val (leafHash sha256 entryData) [] proof.proof
  let computedRoot := toHex current
  let expectedRoot := proof.rootHash
  if computedRoot ≠ expectedRoot then
    let computed := String.ofList (computedRoot.take 16)
    let expected := String.ofList (expectedRoot.take 16)
    .failed steps s!"root mismatch: computed {computed}… expected {expected}…"
  else .ok steps

end

/-- An inclusion proof as the explorer's server passes it on (`routes/proofs.ts`). -/
def InclusionProof.of (leafIndex treeSize : SafeInt) (siblings : List Hash) (root : Hash) : InclusionProof :=
  ⟨leafIndex, treeSize, siblings.map fun s => toHex s.val, toHex root.val⟩

/-! ## The two walks side by side -/

/-- Node `fn` of a level with last node `sn` in settled-core's loop, and `idx` of `size` in
    the explorer's: the same node, or both the last of their levels. -/
def Beside (fn sn idx size : Nat) : Prop := (idx = fn ∧ size = sn + 1) ∨ (fn = sn ∧ idx + 1 = size)

section

variable {fn sn idx size : Nat}

/-- They take the sibling from the same side. -/
theorem Beside.side (h : Beside fn sn idx size) : (fn &&& 1 ≠ 0 ∨ fn = sn) ↔ (idx % 2 = 1 ∨ (idx : Int) = (size : Int) - 1) := by
  rw [Nat.and_one_is_mod]
  rcases h with ⟨rfl, rfl⟩ | ⟨rfl, rfl⟩ <;> omega

theorem skipLevels_self (fn : Nat) : (skipLevels fn fn).1 = (skipLevels fn fn).2 := by
  induction fn using Nat.strongRecOn with
  | ind fn ih =>
    by_cases h : fn ≠ 0 ∧ fn % 2 = 0
    · rw [skipLevels_even h.2 h.1]
      exact ih (fn / 2) (by omega)
    · rw [skipLevels, dif_neg (by rw [Nat.and_one_is_mod]; exact h)]

theorem Beside.half (h : Beside fn sn idx size) (hodd : fn % 2 = 1 ∨ fn ≠ sn) :
    Beside (fn / 2) (sn / 2) (idx / 2) ((size + 1) / 2) := by
  rcases h with ⟨rfl, rfl⟩ | ⟨rfl, rfl⟩
  · exact Or.inl ⟨rfl, by omega⟩
  · exact Or.inr ⟨rfl, by omega⟩

/-- The last node stays the last. -/
theorem Beside.left (h : Beside fn sn idx size) (hleft : fn &&& 1 ≠ 0 ∨ fn = sn) :
    Beside ((skipLevels fn sn).1 >>> 1) ((skipLevels fn sn).2 >>> 1) (idx / 2) ((size + 1) / 2) := by
  rw [Nat.and_one_is_mod] at hleft
  rw [Nat.shiftRight_one, Nat.shiftRight_one]
  by_cases hodd : fn % 2 = 1
  · rw [skipLevels_stop hodd]
    exact h.half (Or.inl hodd)
  · obtain rfl : fn = sn := by omega
    refine Or.inr ⟨by rw [skipLevels_self], ?_⟩
    rcases h with ⟨rfl, rfl⟩ | ⟨-, rfl⟩ <;> omega

end

section

variable (sha256 : Bytes → Hash)

/-- What settled-core's loop does with each element: the element, its side and the
    running hash after it. -/
def coreSteps (fn sn : Nat) (r : Hash) : List Hash → List (Hash × Direction × Hash)
  | [] => []
  | step :: proof =>
    if sn = 0 then []
    else if fn &&& 1 ≠ 0 ∨ fn = sn then
      let r := (Hasher.sha sha256).node step r
      let (fn, sn) := skipLevels fn sn
      (step, .left, r) :: coreSteps (fn >>> 1) (sn >>> 1) r proof
    else
      let r := (Hasher.sha sha256).node r step
      (step, .right, r) :: coreSteps (fn >>> 1) (sn >>> 1) r proof

/-- The running hashes are the answers to the loop's own queries. -/
theorem coreSteps_running (root : Hash) : ∀ (P : List Hash) (fn sn : Nat) (r : Hash),
    (coreSteps sha256 fn sn r P).map (·.2.2) = (Core.verifyInclusionLoop (.sha sha256) root fn sn r P).calls.map sha256 := by
  intro P
  induction P with
  | nil => intro fn sn r; rfl
  | cons step P ih =>
    intro fn sn r
    rw [coreSteps, Core.verifyInclusionLoop]
    split
    · rfl
    · split
      · simp only [Traced.calls_bind, Hasher.calls_nodeHash, List.map_cons, ih]
        rfl
      · simp only [Traced.calls_bind, Hasher.calls_nodeHash, List.map_cons, ih]
        rfl

def ProofStep.of (x : Hash × Direction × Hash) : ProofStep := ⟨toHex x.1.val, x.2.1, toHex x.2.2.val⟩

/-- On a proof that settled-core accepts the explorer makes the same steps. -/
theorem loop_genuine {root : Hash} : ∀ (P : List Hash) {fn sn idx size : Nat} {r : Hash} (steps : List ProofStep),
    Beside fn sn idx size → (Core.verifyInclusionLoop (.sha sha256) root fn sn r P).val = true →
    verifyInclusionLoop sha256 idx size r.val steps (P.map fun s => toHex s.val) =
      (root.val, steps ++ (coreSteps sha256 fn sn r P).map .of) := by
  intro P
  induction P with
  | nil =>
    intro fn sn idx size r steps _ h
    have h : (decide (sn = 0) && decide (r = root)) = true := h
    rw [Bool.and_eq_true, decide_eq_true_iff, decide_eq_true_iff] at h
    rw [← h.2, coreSteps]
    show (r.val, steps) = (r.val, steps ++ [])
    rw [List.append_nil]
  | cons step P ih =>
    intro fn sn idx size r steps hb h
    rw [Core.verifyInclusionLoop] at h
    rw [coreSteps, List.map_cons, verifyInclusionLoop, hex_toHex]
    split at h
    next => cases h
    next h0 =>
      rw [if_neg h0]
      split at h
      next hleft =>
        rw [if_pos hleft, if_pos (hb.side.mp hleft)]
        have hrest := ih (steps ++ [.of (step, .left, (Hasher.sha sha256).node step r)]) (hb.left hleft) h
        rw [List.append_assoc] at hrest
        exact hrest
      next hright =>
        have hhalf : fn % 2 = 1 ∨ fn ≠ sn := Or.inr fun heq => hright (Or.inr heq)
        have hb' := hb.half hhalf
        rw [if_neg hright, if_neg fun hl => hright (hb.side.mpr hl)]
        rw [← Nat.shiftRight_one fn, ← Nat.shiftRight_one sn] at hb'
        have hrest := ih (steps ++ [.of (step, .right, (Hasher.sha sha256).node r step)]) hb' h
        rw [List.append_assoc] at hrest
        exact hrest

/-- With as many siblings as the path has levels the explorer climbs to the root. -/
theorem loop_climbs : ∀ (sn : Nat) {P : List Hash} {fn idx size : Nat} {r : Hash} (steps : List ProofStep),
    fn ≤ sn → Beside fn sn idx size → P.length = WireFormat.levels fn sn →
    ∃ t c, (verifyInclusionLoop sha256 idx size r.val steps (P.map fun s => toHex s.val)).1 = t.val ∧
      Climbs (.sha sha256) fn sn r P t c := by
  intro sn
  induction sn using Nat.strongRecOn with
  | ind sn ih =>
    intro P fn idx size r steps hle hb hlen
    by_cases h0 : sn = 0
    · subst h0
      obtain rfl : fn = 0 := by omega
      rw [WireFormat.levels, dif_pos rfl] at hlen
      obtain rfl := List.length_eq_zero_iff.mp hlen
      exact ⟨r, [], rfl, .top r⟩
    · by_cases hskip : fn = sn ∧ fn % 2 = 0
      · -- a level without a sibling: settled-core goes up, the explorer stays
        obtain ⟨rfl, heven⟩ := hskip
        rw [WireFormat.levels, dif_neg h0, if_pos ⟨rfl, heven⟩, Nat.zero_add] at hlen
        have hb' : Beside (fn / 2) (fn / 2) idx size := by
          rcases hb with ⟨rfl, rfl⟩ | ⟨-, hsize⟩
          · exact Or.inr ⟨rfl, rfl⟩
          · exact Or.inr ⟨rfl, hsize⟩
        obtain ⟨t, c, ht, hc⟩ := ih (fn / 2) (by omega) steps (Nat.le_refl _) hb' hlen
        exact ⟨t, c, ht, .skip heven h0 hc⟩
      · rw [WireFormat.levels_step (by omega) h0, Nat.add_comm] at hlen
        obtain ⟨step, P, rfl⟩ := List.exists_cons_of_length_eq_add_one hlen
        have hlen : P.length = WireFormat.levels (fn / 2) (sn / 2) := Nat.succ.inj hlen
        have hb' := hb.half (by omega)
        rw [List.map_cons, verifyInclusionLoop, hex_toHex]
        by_cases hodd : fn % 2 = 1
        · have hside := hb.side.mp (Or.inl (by rw [Nat.and_one_is_mod]; omega))
          rw [if_pos hside]
          obtain ⟨t, c, ht, hc⟩ := ih (sn / 2) (by omega) (r := (Hasher.sha sha256).node step r) _ (by omega) hb' hlen
          exact ⟨t, _, ht, .left step hodd h0 hc⟩
        · have hne : fn ≠ sn := fun heq => hskip ⟨heq, by omega⟩
          have hside : ¬ (idx % 2 = 1 ∨ (idx : Int) = (size : Int) - 1) := fun hl => by
            have := hb.side.mpr hl
            rw [Nat.and_one_is_mod] at this
            omega
          rw [if_neg hside]
          obtain ⟨t, c, ht, hc⟩ := ih (sn / 2) (by omega) (r := (Hasher.sha sha256).node r step) _ (by omega) hb' hlen
          exact ⟨t, _, ht, .right step (by omega) hne h0 hc⟩

/-! ## The two checks -/

/-- The check by what its loop ends with. -/
theorem verifyInclusion_cases (proof : InclusionProof) (payload : Bytes) {current : Bytes} {steps : List ProofStep}
    (h : verifyInclusionLoop sha256 proof.leafIndex.val proof.treeSize.val (leafHash sha256 payload) [] proof.proof =
      (current, steps)) :
    (toHex current = proof.rootHash ∧ verifyInclusion sha256 proof payload = .ok steps) ∨
    (toHex current ≠ proof.rootHash ∧ (verifyInclusion sha256 proof payload).isOk = false) := by
  unfold verifyInclusion
  rw [h]
  dsimp only
  by_cases heq : toHex current = proof.rootHash
  · exact Or.inl ⟨heq, if_neg fun hne => hne heq⟩
  · rw [if_pos heq]
    exact Or.inr ⟨heq, rfl⟩

/-- A proof that settled-core accepts, step by step. -/
theorem verifyInclusion_genuine {payload : Bytes} {i n : SafeInt} {siblings : List Hash} {root : Hash}
    (h : (Core.verifyInclusion (.sha sha256) (Core.leafHash sha256 payload) i.val n.val siblings root).val = true) :
    verifyInclusion sha256 (.of i n siblings root) payload =
      .ok ((coreSteps sha256 i.val (n.val - 1) (Core.leafHash sha256 payload) siblings).map .of) := by
  unfold Core.verifyInclusion at h
  split at h
  next => cases h
  next hin =>
    have hb : Beside i.val (n.val - 1) i.val n.val := Or.inl ⟨rfl, by omega⟩
    have hloop := loop_genuine sha256 siblings [] hb h
    rw [List.nil_append] at hloop
    rcases verifyInclusion_cases sha256 (.of i n siblings root) payload hloop with ⟨-, hok⟩ | ⟨hne, -⟩
    · exact hok
    · exact absurd rfl hne

/-- The explorer accepts every proof that settled-core accepts, and computes the same
    running hashes with the siblings on the same sides. -/
theorem ui_accepts_genuine (payload : Bytes) (i n : SafeInt) (siblings : List Hash) (root : Hash)
    (h : (Core.verifyInclusion (.sha sha256) (Core.leafHash sha256 payload) i.val n.val siblings root).val = true) :
    verifyInclusion sha256 (.of i n siblings root) payload =
      .ok ((coreSteps sha256 i.val (n.val - 1) (Core.leafHash sha256 payload) siblings).map .of) ∧
    (coreSteps sha256 i.val (n.val - 1) (Core.leafHash sha256 payload) siblings).map (·.2.2) =
      (Core.verifyInclusion (.sha sha256) (Core.leafHash sha256 payload) i.val n.val siblings root).calls.map sha256 := by
  refine ⟨verifyInclusion_genuine sha256 h, ?_⟩
  unfold Core.verifyInclusion at h ⊢
  split at h
  next => cases h
  next hin =>
    rw [if_neg hin]
    exact coreSteps_running sha256 root siblings _ _ _

/-- Index 2 of 3 is the last: its only sibling is two levels up, and settled-core skips
    the level between. -/
theorem ui_accepts_genuine_third :
    let root := (Hasher.sha Sha256.sha256).node (.fill 1) (Core.leafHash Sha256.sha256 [7])
    (Core.verifyInclusion (.sha Sha256.sha256) (Core.leafHash Sha256.sha256 [7]) 2 3 [.fill 1] root).val = true ∧
    (verifyInclusion Sha256.sha256 (.of ⟨2, by decide⟩ ⟨3, by decide⟩ [.fill 1] root) [7]).isOk = true := by
  intro root
  have hcore : (Core.verifyInclusion (.sha Sha256.sha256) (Core.leafHash Sha256.sha256 [7]) 2 3 [.fill 1] root).val = true := by
    decide +kernel
  have hui := (ui_accepts_genuine Sha256.sha256 [7] ⟨2, by decide⟩ ⟨3, by decide⟩ [.fill 1] root hcore).1
  exact ⟨hcore, by rw [hui]; rfl⟩

/-- Every running hash is a hash. -/
theorem loop_hash : ∀ (P : List Hash) (idx size : Nat) (r : Hash) (steps : List ProofStep),
    ∃ root : Hash, (verifyInclusionLoop sha256 idx size r.val steps (P.map fun s => toHex s.val)).1 = root.val := by
  intro P
  induction P with
  | nil => intro idx size r steps; exact ⟨r, rfl⟩
  | cons step P ih =>
    intro idx size r steps
    rw [List.map_cons, verifyInclusionLoop, hex_toHex]
    by_cases hside : idx % 2 = 1 ∨ (idx : Int) = (size : Int) - 1
    · rw [if_pos hside]
      exact ih _ _ ((Hasher.sha sha256).node step r) _
    · rw [if_neg hside]
      exact ih _ _ ((Hasher.sha sha256).node r step) _

/-- For every payload, index, size and list of siblings: the explorer's check is no weaker
    than settled-core's, whatever the root, exactly if the index is in the tree and there
    are as many siblings as its path has levels with one. -/
theorem ui_sound_iff (payload : Bytes) (i n : SafeInt) (siblings : List Hash) :
    (∀ root, (verifyInclusion sha256 (.of i n siblings root) payload).isOk = true →
      (Core.verifyInclusion (.sha sha256) (Core.leafHash sha256 payload) i.val n.val siblings root).val = true) ↔
    i.val < n.val ∧ siblings.length = WireFormat.levels i.val (n.val - 1) := by
  constructor
  · intro h
    -- the root the explorer computes itself
    obtain ⟨root, hroot⟩ := loop_hash sha256 siblings i.val n.val (Core.leafHash sha256 payload) []
    have hok : (verifyInclusion sha256 (.of i n siblings root) payload).isOk = true := by
      rcases verifyInclusion_cases sha256 (.of i n siblings root) payload rfl with ⟨-, hok⟩ | ⟨hne, -⟩
      · rw [hok]; rfl
      · exact absurd (congrArg toHex hroot) hne
    have hcore : Core.verifyInclusion (.sha sha256) (Core.leafHash sha256 payload) i.val n.val siblings root = ⟨true, _⟩ :=
      congrArg (Traced.mk · _) (h root hok)
    obtain ⟨hlt, hclimbs⟩ := (verifyInclusion_iff.mp hcore).climbs
    exact ⟨hlt, WireFormat.Climbs.length hclimbs⟩
  · intro ⟨hlt, hlen⟩ root hok
    have hb : Beside i.val (n.val - 1) i.val n.val := Or.inl ⟨rfl, by omega⟩
    obtain ⟨t, c, ht, hclimbs⟩ := loop_climbs sha256 (n.val - 1) [] (by omega) hb hlen (r := Core.leafHash sha256 payload)
    have heq : t = root := by
      rcases verifyInclusion_cases sha256 (.of i n siblings root) payload rfl with ⟨heq, -⟩ | ⟨-, hno⟩
      · exact Subtype.ext (ht.symm.trans (toHex_inj.mp heq))
      · rw [hno] at hok
        cases hok
    rw [heq] at hclimbs
    rw [verifyInclusion_iff.mpr (hclimbs.opens n.val i.val hlt)]

/-- Index 0 of a tree of five leaves, no siblings, and the leaf's own hash as the root. -/
theorem ui_accepts_short_proof :
    let root := Core.leafHash Sha256.sha256 [7]
    (verifyInclusion Sha256.sha256 (.of ⟨0, by decide⟩ ⟨5, by decide⟩ [] root) [7]).isOk = true ∧
    (Core.verifyInclusion (.sha Sha256.sha256) (Core.leafHash Sha256.sha256 [7]) 0 5 [] root).val = false := by
  intro root
  exact ⟨by decide +kernel, by decide +kernel⟩

end

end Settled.Ui
