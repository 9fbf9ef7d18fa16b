/-
The container of coded frames: a magic and a frame count, then every payload behind its length
and checksum.  The format is the same whatever the checksum is; containers are written and read
with XXH32.
-/
import HopCodec.Checksum
import HopCodec.Fault

namespace HopCodec

/-- A payload in a container, with the place of its length field. -/
structure ContainerEntry where
  offset : Nat
  checksum : UInt32
  payload : Bytes
deriving DecidableEq, Repr

namespace Container

/-- The bytes of `LHE1`. -/
def magic : Bytes := #[0x4C, 0x48, 0x45, 0x31]

/-- The bytes of magic and frame count. -/
def headerSize : Nat := 8

/-- The bytes of a payload's length and checksum. -/
def entrySize : Nat := 8

def wordBytes (word : UInt32) : Bytes :=
  #[word.toUInt8, (word >>> 8).toUInt8, (word >>> 16).toUInt8, (word >>> 24).toUInt8]

def isContainer (data : Bytes) : Bool :=
  data.extract 0 magic.size = magic

def writtenSize (payloads : List Bytes) : Nat :=
  headerSize + payloads.foldl (fun size payload => size + (payload.size + entrySize)) 0

section Format

variable (digest : Bytes → UInt32)

/-- A payload with its length and checksum. -/
def entryBytes (payload : Bytes) : Bytes :=
  wordBytes (UInt32.ofNat payload.size) ++ wordBytes (digest payload) ++ payload

/-- A container of payloads under a checksum. -/
def writeWith (payloads : List Bytes) : Except Fault Bytes :=
  if 1 <<< 32 ≤ payloads.length then .error (.argument .tooManyFrames)
  else if payloads.any fun payload => 1 <<< 32 ≤ payload.size then
    .error (.argument .payloadTooLarge)
  else
    .ok (payloads.foldl (fun out payload => out ++ entryBytes digest payload)
      (magic ++ wordBytes (UInt32.ofNat payloads.length)))

/-- Read the entries that begin at a place.  Nothing may follow the last one. -/
def readEntries (data : Bytes) (place : Nat) : (count : Nat) → Except Fault (List ContainerEntry)
  | 0 =>
      if place = data.size then .ok []
      else .error (.format (.trailingBytes (data.size - place)))
  | count + 1 =>
      if data.size < place + entrySize then .error .truncated
      else
        let length := (Checksum.word data place).toNat
        let checksum := Checksum.word data (place + 4)
        let start := place + entrySize
        if data.size < start + length then .error .truncated
        else
          let payload := data.extract start (start + length)
          let computed := digest payload
          if computed ≠ checksum then .error (.checksum checksum computed)
          else do
            return ⟨place, checksum, payload⟩ :: (← readEntries data (start + length) count)

/-- Read a container under a checksum.  A beginning of one is truncated; anything else is of
another format. -/
def readWith (data : Bytes) : Except Fault (List ContainerEntry) :=
  if data.size < magic.size then .error .truncated
  else if !isContainer data then .error (.format .notContainer)
  else if data.size < headerSize then .error .truncated
  else readEntries digest data headerSize (Checksum.word data 4).toNat

end Format

def write (payloads : List Bytes) : Except Fault Bytes :=
  writeWith (fun payload => xxh32 payload 0) payloads

def read (data : Bytes) : Except Fault (List ContainerEntry) :=
  readWith (fun payload => xxh32 payload 0) data

end Container

end HopCodec
