/-
  Settled.Ui.Payload — a payload on its way to the explorer's check: the gRPC bytes become
  a string (`serializeEntry` in `server/routes/entries.ts`), the string goes to the browser
  in a JSON body (`client/lib/api.ts`), and `ProofViewer` encodes it again and hashes it.

  JSON gives back every string it is given (`parse_quote`), so what is hashed is the
  payload decoded and encoded: the payload itself exactly if it is well-formed UTF-8. Then
  the genuine proof is reported as verified (`payload_verified_iff`). A payload is opaque
  bytes, though; of one that is not UTF-8 the explorer hashes other bytes, and reports the
  genuine proof as failed (`opaque_payload_fails`).
-/

import Settled.Core.Completeness
import Settled.Lib.Utf8
import Settled.Ui.Verify

namespace Settled.Ui

open Settled.Lib Settled.Core

/-! ## JSON strings -/

def quoteMark : Char := Char.ofNat 0x22
def backslash : Char := Char.ofNat 0x5C

/-- A character as `JSON.stringify` writes it. -/
def quoteChar (c : Char) : Text :=
  if c = quoteMark then [backslash, quoteMark]
  else if c = backslash then [backslash, backslash]
  else if c = Char.ofNat 0x08 then [backslash, 'b']
  else if c = Char.ofNat 0x0C then [backslash, 'f']
  else if c = Char.ofNat 0x0A then [backslash, 'n']
  else if c = Char.ofNat 0x0D then [backslash, 'r']
  else if c = Char.ofNat 0x09 then [backslash, 't']
  else if c.toNat < 0x20 then [backslash, 'u', '0', '0', hexDigit (c.toNat / 16), hexDigit (c.toNat % 16)]
  else [c]

def quote (text : Text) : Text := quoteMark :: (text.flatMap quoteChar ++ [quoteMark])

/-- The character after a backslash, other than `u`. -/
def escaped (c : Char) : Option Char :=
  if c = quoteMark ∨ c = backslash ∨ c = '/' then some c
  else if c = 'b' then some (Char.ofNat 0x08)
  else if c = 'f' then some (Char.ofNat 0x0C)
  else if c = 'n' then some (Char.ofNat 0x0A)
  else if c = 'r' then some (Char.ofNat 0x0D)
  else if c = 't' then some (Char.ofNat 0x09)
  else none

/-- Four digits after `u`. Half of a surrogate pair is no character; none is written for
    text that is well formed. -/
def escapedCode (a b c d : Char) : Option Char :=
  match hexValue a, hexValue b, hexValue c, hexValue d with
  | some a, some b, some c, some d =>
    let code := ((a * 16 + b) * 16 + c) * 16 + d
    if 0xD800 ≤ code ∧ code ≤ 0xDFFF then none else some (Char.ofNat code)
  | _, _, _, _ => none

/-- A string literal after its opening quote, and what follows it. -/
def parseBody : Text → Option (Text × Text)
  | [] => none
  | c :: rest =>
    if c = quoteMark then some ([], rest)
    else if c = backslash then
      match rest with
      | [] => none
      | e :: rest =>
        if e = 'u' then
          match rest with
          | h1 :: h2 :: h3 :: h4 :: rest =>
            match escapedCode h1 h2 h3 h4 with
            | none => none
            | some c => (parseBody rest).map fun r => (c :: r.1, r.2)
          | _ => none
        else
          match escaped e with
          | none => none
          | some c => (parseBody rest).map fun r => (c :: r.1, r.2)
    else if c.toNat < 0x20 then none
    else (parseBody rest).map fun r => (c :: r.1, r.2)

def parse : Text → Option Text
  | [] => none
  | c :: body =>
    if c = quoteMark then
      match parseBody body with
      | some (text, []) => some text
      | _ => none
    else none

theorem parseBody_plain {c : Char} (hq : c ≠ quoteMark) (hb : c ≠ backslash) (hc : ¬ c.toNat < 0x20) (rest : Text) :
    parseBody (c :: rest) = (parseBody rest).map fun r => (c :: r.1, r.2) := by
  rw [parseBody.eq_def]
  simp only [hq, hb, hc, if_false]

theorem parseBody_escaped {e c : Char} (hu : e ≠ 'u') (h : escaped e = some c) (rest : Text) :
    parseBody (backslash :: e :: rest) = (parseBody rest).map fun r => (c :: r.1, r.2) := by
  have hne : backslash ≠ quoteMark := by decide
  rw [parseBody.eq_def]
  simp only [hne, if_false, if_true, hu, h]

theorem parseBody_code {c : Char} (hc : c.toNat < 0x20) (rest : Text) :
    parseBody (backslash :: 'u' :: '0' :: '0' :: hexDigit (c.toNat / 16) :: hexDigit (c.toNat % 16) :: rest) =
      (parseBody rest).map fun r => (c :: r.1, r.2) := by
  have hcode : escapedCode '0' '0' (hexDigit (c.toNat / 16)) (hexDigit (c.toNat % 16)) = some c := by
    have h0 : hexValue '0' = some 0 := by decide
    have hsum : ((0 * 16 + 0) * 16 + c.toNat / 16) * 16 + c.toNat % 16 = c.toNat := by omega
    rw [escapedCode, h0, hexValue_hexDigit _ (by omega), hexValue_hexDigit _ (by omega)]
    dsimp only
    rw [hsum, if_neg (by omega), Char.ofNat_toNat]
  have hne : backslash ≠ quoteMark := by decide
  rw [parseBody.eq_def]
  simp only [hne, if_false, if_true, hcode]

/-- Each character is read back. -/
theorem parseBody_quoteChar (c : Char) (rest : Text) :
    parseBody (quoteChar c ++ rest) = (parseBody rest).map fun r => (c :: r.1, r.2) := by
  unfold quoteChar
  split
  next h => rw [h]; exact parseBody_escaped (by decide) (by decide) rest
  next hq =>
    split
    next h => rw [h]; exact parseBody_escaped (by decide) (by decide) rest
    next hb =>
      split
      next h => rw [h]; exact parseBody_escaped (by decide) (by decide) rest
      split
      next h => rw [h]; exact parseBody_escaped (by decide) (by decide) rest
      split
      next h => rw [h]; exact parseBody_escaped (by decide) (by decide) rest
      split
      next h => rw [h]; exact parseBody_escaped (by decide) (by decide) rest
      split
      next h => rw [h]; exact parseBody_escaped (by decide) (by decide) rest
      split
      next h => exact parseBody_code h rest
      next h => exact parseBody_plain hq hb h rest

theorem parseBody_quote (text : Text) : parseBody (text.flatMap quoteChar ++ [quoteMark]) = some (text, []) := by
  induction text with
  | nil => rfl
  | cons c text ih =>
    rw [List.flatMap_cons, List.append_assoc, parseBody_quoteChar, ih]
    rfl

/-- JSON gives back every string. -/
theorem parse_quote (text : Text) : parse (quote text) = some text := by
  rw [quote, parse, if_pos rfl, parseBody_quote]

/-! ## From the store to the hash -/

/-- The `data` of `serializeEntry`: `Buffer.from(e.data).toString()`. -/
def serializeData (data : Bytes) : Text := Utf8.decode data

/-- The string in the body of the response, UTF-8 on the wire. -/
def jsonBody (text : Text) : Bytes := Utf8.encode (quote text)

/-- `res.json()` in the browser. -/
def readBody (body : Bytes) : Option Text := parse (Utf8.decode body)

/-- What `ProofViewer` hashes: `enc.encode(entry.data)`. -/
def viewerPayload (data : Bytes) : Option Bytes := (readBody (jsonBody (serializeData data))).map Utf8.encode

inductive VerifyStatus where
  | verified
  | failed
  deriving DecidableEq

section

variable (sha256 : Bytes → Hash)

/-- The status `ProofViewer` ends with; a body that does not parse is an error. -/
def proofViewer (proof : InclusionProof) (data : Bytes) : VerifyStatus :=
  match viewerPayload data with
  | none => .failed
  | some payload => if (verifyInclusion sha256 proof payload).isOk then .verified else .failed

theorem viewerPayload_eq (data : Bytes) : viewerPayload data = some (Utf8.encode (Utf8.decode data)) := by
  rw [viewerPayload, readBody, jsonBody, Utf8.decode_encode, parse_quote]
  rfl

theorem viewerPayload_iff (data : Bytes) : viewerPayload data = some data ↔ Utf8.WellFormed data := by
  rw [viewerPayload_eq, Option.some.injEq]
  exact Utf8.encode_decode_iff data

/-- For every log of payloads, every size `n` of a tree head and every entry `s` it covers,
    with the proof and the root an honest server gives: the explorer hashes the bytes the
    server hashed and reports the proof as verified exactly if the payload is well-formed
    UTF-8. -/
theorem payload_verified_iff (payloads : List Bytes) (s n : SafeInt) (hn : n.val ≤ payloads.length) (hs : s.val < n.val)
    {payload : Bytes} (hp : payloads[s.val]? = some payload) :
    ∃ proof root,
      inclusionProof (.sha sha256) ((payloads.take n.val).map (Core.leafHash sha256)) s.val = .ok proof ∧
      (mth (.sha sha256) ((payloads.take n.val).map (Core.leafHash sha256))).val = some root ∧
      ((viewerPayload payload = some payload ∧ proofViewer sha256 (.of s n proof root) payload = .verified) ↔
        Utf8.WellFormed payload) := by
  have hlen : ((payloads.take n.val).map (Core.leafHash sha256)).length = n.val := by
    rw [List.length_map, List.length_take]
    omega
  have hleaf : ((payloads.take n.val).map (Core.leafHash sha256))[s.val]? = some (Core.leafHash sha256 payload) := by
    rw [List.getElem?_map, List.getElem?_take_of_lt hs, hp]
    rfl
  obtain ⟨proof, root, c, hproof, hroot, hopens, -⟩ := inclusionProof_opens (.sha sha256) hleaf
  rw [hlen] at hopens
  refine ⟨proof, root, hproof, hroot, ?_⟩
  rw [viewerPayload_iff]
  constructor
  · intro h
    exact h.1
  · intro h
    have hcore : (Core.verifyInclusion (.sha sha256) (Core.leafHash sha256 payload) s.val n.val proof root).val = true := by
      rw [verifyInclusion_iff.mpr hopens]
    have hok : (verifyInclusion sha256 (.of s n proof root) payload).isOk = true :=
      by rw [verifyInclusion_genuine sha256 hcore]; rfl
    refine ⟨h, ?_⟩
    rw [proofViewer, (viewerPayload_iff payload).mpr h]
    dsimp only
    rw [if_pos hok]

end

/-- A payload of one character in two bytes. -/
theorem payload_verified_iff_two_bytes : ∃ proof root, viewerPayload [0xC3, 0xA9] = some [0xC3, 0xA9] ∧
    proofViewer Sha256.sha256 (.of ⟨1, by decide⟩ ⟨2, by decide⟩ proof root) [0xC3, 0xA9] = .verified := by
  obtain ⟨proof, root, -, -, hiff⟩ := payload_verified_iff Sha256.sha256 [[1], [0xC3, 0xA9]] ⟨1, by decide⟩ ⟨2, by decide⟩
    (by decide) (by decide) rfl
  have hwf : Utf8.WellFormed [0xC3, 0xA9] := ⟨[Char.ofNat 0xE9], by decide⟩
  exact ⟨proof, root, hiff.mpr hwf⟩

/-- A log of one entry, the byte FF: the explorer hashes the three bytes of U+FFFD, and its
    genuine proof (no siblings, the leaf's hash as the root) is reported as failed. -/
theorem opaque_payload_fails :
    viewerPayload [0xFF] = some [0xEF, 0xBF, 0xBD] ∧
    inclusionProof (.sha Sha256.sha256) [Core.leafHash Sha256.sha256 [0xFF]] 0 = .ok [] ∧
    (mth (.sha Sha256.sha256) [Core.leafHash Sha256.sha256 [0xFF]]).val = some (Core.leafHash Sha256.sha256 [0xFF]) ∧
    proofViewer Sha256.sha256 (.of ⟨0, by decide⟩ ⟨1, by decide⟩ [] (Core.leafHash Sha256.sha256 [0xFF])) [0xFF] = .failed := by
  refine ⟨by decide +kernel, ?_, ?_, by decide +kernel⟩
  · simp [inclusionProof, path]
  · simp [mth]

end Settled.Ui
