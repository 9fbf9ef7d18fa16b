/-
Containers on the machine.  What is written has to be counted in four bytes.  When a container is
read, counts and lengths come from the data and may say anything; every byte is fetched, and every
place computed, with checks.
-/
import HopCodec.Container
import HopCodec.Machine.Word

namespace HopCodec.Machine.Container

open HopCodec.Container (magic headerSize entrySize wordBytes)

/-- The little-endian word at a place of a buffer. -/
def word (data : Bytes) (place : Nat) : Run UInt32 := do
  let b0 ← fetch data place
  let b1 ← fetch data (← add place 1)
  let b2 ← fetch data (← add place 2)
  let b3 ← fetch data (← add place 3)
  return b0.toUInt32 ||| (b1.toUInt32 <<< 8) ||| (b2.toUInt32 <<< 16) ||| (b3.toUInt32 <<< 24)

def isContainer (data : Bytes) : Run Bool := do
  if data.size < magic.size then return false
  return (← slice data 0 magic.size) = magic

section Format

variable (digest : Bytes → UInt32)

/-- A number in four bytes, unless it takes more. -/
def countBytes (n : Nat) (fault : ArgumentFault) : Run Bytes :=
  if n < halfSize then .ok (wordBytes (UInt32.ofNat n)) else refuse (.argument fault)

/-- Write a payload, with its length and checksum, behind what has been written. -/
def writeEntry (out payload : Bytes) : Run Bytes := do
  let length ← countBytes payload.size .payloadTooLarge
  return out ++ length ++ wordBytes (digest payload) ++ payload

/-- Write a container of payloads under a checksum. -/
def writeWith (payloads : List Bytes) : Run Bytes := do
  let count ← countBytes payloads.length .tooManyFrames
  payloads.foldlM (writeEntry digest) (magic ++ count)

/-- Read the entries that begin at a place.  Nothing may follow the last one. -/
def readEntries (data : Bytes) (place : Nat) : (count : Nat) → Run (List ContainerEntry)
  | 0 => do
      if place ≠ data.size then refuse (.format (.trailingBytes (← sub data.size place)))
      return []
  | count + 1 => do
      if (← sub data.size place) < entrySize then refuse .truncated
      let length := (← word data place).toNat
      let checksum ← word data (← add place 4)
      let start ← add place entrySize
      if (← sub data.size start) < length then refuse .truncated
      let payload ← slice data start (← add start length)
      let computed := digest payload
      if computed ≠ checksum then refuse (.checksum checksum computed)
      return ⟨place, checksum, payload⟩ :: (← readEntries data (← add start length) count)

/-- Read a container under a checksum. -/
def readWith (data : Bytes) : Run (List ContainerEntry) := do
  if data.size < headerSize then
    if data.size < magic.size then refuse .truncated
    if ← isContainer data then refuse .truncated
    refuse (.format .notContainer)
  if !(← isContainer data) then refuse (.format .notContainer)
  readEntries digest data headerSize (← word data 4).toNat

end Format

end HopCodec.Machine.Container
