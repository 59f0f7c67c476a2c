/-
  Settled.Core.Sha256 — SHA-256 (FIPS 180-4) over byte lists, for runs on concrete
  inputs. The development itself takes the hash as a parameter.

  Words are `Nat`s below 2^32. `force` passes a word on as a numeral, so that a round
  is evaluated once and not at each of its uses.
-/

import Mathlib.Algebra.Group.Nat.Defs
import Settled.Core.Hash

namespace Settled.Core.Sha256

abbrev Word := Nat

def force {α : Type} (x : Nat) (f : Nat → α) : α :=
  match x with
  | 0 => f 0
  | x + 1 => f (x + 1)

def add (x y : Word) : Word := (x + y) % 2 ^ 32
def rotr (x : Word) (n : Nat) : Word := (x >>> n) ||| ((x <<< (32 - n)) % 2 ^ 32)

def bigSigma0 (x : Word) : Word := rotr x 2 ^^^ rotr x 13 ^^^ rotr x 22
def bigSigma1 (x : Word) : Word := rotr x 6 ^^^ rotr x 11 ^^^ rotr x 25
def sigma0 (x : Word) : Word := rotr x 7 ^^^ rotr x 18 ^^^ (x >>> 3)
def sigma1 (x : Word) : Word := rotr x 17 ^^^ rotr x 19 ^^^ (x >>> 10)
def ch (x y z : Word) : Word := (x &&& y) ^^^ ((2 ^ 32 - 1 - x) &&& z)
def maj (x y z : Word) : Word := (x &&& y) ^^^ (x &&& z) ^^^ (y &&& z)

def constants : List Word :=
  [0x428a2f98, 0x71374491, 0xb5c0fbcf, 0xe9b5dba5, 0x3956c25b, 0x59f111f1, 0x923f82a4, 0xab1c5ed5,
   0xd807aa98, 0x12835b01, 0x243185be, 0x550c7dc3, 0x72be5d74, 0x80deb1fe, 0x9bdc06a7, 0xc19bf174,
   0xe49b69c1, 0xefbe4786, 0x0fc19dc6, 0x240ca1cc, 0x2de92c6f, 0x4a7484aa, 0x5cb0a9dc, 0x76f988da,
   0x983e5152, 0xa831c66d, 0xb00327c8, 0xbf597fc7, 0xc6e00bf3, 0xd5a79147, 0x06ca6351, 0x14292967,
   0x27b70a85, 0x2e1b2138, 0x4d2c6dfc, 0x53380d13, 0x650a7354, 0x766a0abb, 0x81c2c92e, 0x92722c85,
   0xa2bfe8a1, 0xa81a664b, 0xc24b8b70, 0xc76c51a3, 0xd192e819, 0xd6990624, 0xf40e3585, 0x106aa070,
   0x19a4c116, 0x1e376c08, 0x2748774c, 0x34b0bcb5, 0x391c0cb3, 0x4ed8aa4a, 0x5b9cca4f, 0x682e6ff3,
   0x748f82ee, 0x78a5636f, 0x84c87814, 0x8cc70208, 0x90befffa, 0xa4506ceb, 0xbef9a3f7, 0xc67178f2]

structure Working where
  (a b c d e f g h : Word)
  deriving DecidableEq

def initial : Working :=
  ⟨0x6a09e667, 0xbb67ae85, 0x3c6ef372, 0xa54ff53a, 0x510e527f, 0x9b05688c, 0x1f83d9ab, 0x5be0cd19⟩

/-- One round a constant; `w` holds the next 16 words of the message schedule. -/
def rounds : List Word → List Word → Working → Working
  | [], _, s => s
  | k :: ks, w, s =>
    force (add (add (add s.h (bigSigma1 s.e)) (add (ch s.e s.f s.g) k)) (w.getD 0 0)) fun t1 =>
    force (add t1 (add (bigSigma0 s.a) (maj s.a s.b s.c))) fun a =>
    force (add s.d t1) fun e =>
    force (add (add (sigma1 (w.getD 14 0)) (w.getD 9 0)) (add (sigma0 (w.getD 1 0)) (w.getD 0 0))) fun next =>
    rounds ks (w.drop 1 ++ [next]) ⟨a, s.a, s.b, s.c, e, s.e, s.f, s.g⟩

def compress (s : Working) (block : List Word) : Working :=
  let r := rounds constants block s
  ⟨add s.a r.a, add s.b r.b, add s.c r.c, add s.d r.d, add s.e r.e, add s.f r.f, add s.g r.g, add s.h r.h⟩

def toWords : Bytes → List Word
  | a :: b :: c :: d :: rest => (a.toNat * 2 ^ 24 + b.toNat * 2 ^ 16 + c.toNat * 2 ^ 8 + d.toNat) :: toWords rest
  | _ => []

def ofWord (x : Word) : Bytes := [24, 16, 8, 0].map fun s => UInt8.ofNat (x >>> s)

/-- The message, a one bit, zeros, and the bit length in 64 bits. -/
def pad (m : Bytes) : Bytes :=
  m ++ 0x80 :: List.replicate ((119 - m.length % 64) % 64) 0 ++ ofWord (m.length * 8 / 2 ^ 32) ++ ofWord (m.length * 8)

def blocks : Nat → List Word → Working → Working
  | 0, _, s => s
  | n + 1, w, s => blocks n (w.drop 16) (compress s (w.take 16))

def output (s : Working) : Bytes := [s.a, s.b, s.c, s.d, s.e, s.f, s.g, s.h].flatMap ofWord

def sha256 (m : Bytes) : Hash :=
  ⟨output (blocks ((pad m).length / 64) (toWords (pad m)) initial), by simp [output, ofWord]⟩

end Settled.Core.Sha256
