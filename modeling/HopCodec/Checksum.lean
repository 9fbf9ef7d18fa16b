/-
The XXH32 checksum.  Whole stripes of sixteen bytes drive four independent lanes; the lanes are
then merged, the words and bytes left over are folded in, and an avalanche spreads the result.
`Hasher` takes its input in pieces, and `xxh32` is a hasher fed once.
-/
import HopCodec.Raster

namespace HopCodec

namespace Checksum

def prime1 : UInt32 := 0x9E3779B1

def prime2 : UInt32 := 0x85EBCA77

def prime3 : UInt32 := 0xC2B2AE3D

def prime4 : UInt32 := 0x27D4EB2F

def prime5 : UInt32 := 0x165667B1

/-- Turn the bits of a word `count` places to the left, for `0 < count < 32`. -/
def rotateLeft (x count : UInt32) : UInt32 :=
  (x <<< count) ||| (x >>> (32 - count))

/-- The little-endian word at a place of a buffer. -/
def word (data : Bytes) (place : Nat) : UInt32 :=
  let byte (k : Nat) : UInt32 := (data.getD (place + k) 0).toUInt32
  byte 0 ||| (byte 1 <<< 8) ||| (byte 2 <<< 16) ||| (byte 3 <<< 24)

/-- Fold one word into a lane. -/
def round (lane input : UInt32) : UInt32 :=
  rotateLeft (lane + input * prime2) 13 * prime1

structure Lanes where
  first : UInt32
  second : UInt32
  third : UInt32
  fourth : UInt32
deriving DecidableEq, Repr

namespace Lanes

def start (seed : UInt32) : Lanes :=
  ⟨seed + prime1 + prime2, seed + prime2, seed, seed - prime1⟩

/-- Fold the sixteen bytes at a place into the lanes. -/
def absorb (lanes : Lanes) (data : Bytes) (place : Nat) : Lanes :=
  ⟨round lanes.first (word data place), round lanes.second (word data (place + 4)),
    round lanes.third (word data (place + 8)), round lanes.fourth (word data (place + 12))⟩

def merge (lanes : Lanes) : UInt32 :=
  rotateLeft lanes.first 1 + rotateLeft lanes.second 7 + rotateLeft lanes.third 12 +
    rotateLeft lanes.fourth 18

end Lanes

def foldWord (acc input : UInt32) : UInt32 :=
  rotateLeft (acc + input * prime3) 17 * prime4

def foldByte (acc : UInt32) (input : UInt8) : UInt32 :=
  rotateLeft (acc + input.toUInt32 * prime5) 11 * prime1

def avalanche (acc : UInt32) : UInt32 :=
  let acc := (acc ^^^ (acc >>> 15)) * prime2
  let acc := (acc ^^^ (acc >>> 13)) * prime3
  acc ^^^ (acc >>> 16)

/-- Fold in fewer than sixteen bytes: first whole words, then single bytes. -/
def foldTail (acc : UInt32) (tail : Bytes) : UInt32 :=
  let words := tail.size / 4
  let acc := words.fold (fun i _ acc => foldWord acc (word tail (4 * i))) acc
  (tail.size % 4).fold (fun i _ acc => foldByte acc (tail.getD (4 * words + i) 0)) acc

end Checksum

open Checksum in
/-- A checksum under way: the lanes after all whole stripes, and the bytes after them. -/
structure Hasher where
  seed : UInt32
  lanes : Lanes
  tail : Bytes
  length : Nat

namespace Hasher

open Checksum

def start (seed : UInt32) : Hasher :=
  ⟨seed, Lanes.start seed, #[], 0⟩

/-- Feed one piece of input. -/
def update (h : Hasher) (piece : Bytes) : Hasher :=
  let data := h.tail ++ piece
  let stripes := data.size / 16
  { h with
    lanes := stripes.fold (fun i _ lanes => lanes.absorb data (16 * i)) h.lanes
    tail := data.extract (16 * stripes) data.size
    length := h.length + piece.size }

def digest (h : Hasher) : UInt32 :=
  let base := if 16 ≤ h.length then h.lanes.merge else h.seed + prime5
  avalanche (foldTail (base + UInt32.ofNat h.length) h.tail)

end Hasher

def xxh32 (data : Bytes) (seed : UInt32) : UInt32 :=
  ((Hasher.start seed).update data).digest

end HopCodec
