/-
Calls on a bit writer and on a bit reader.  A caller may go on after a read that failed; what it
sees of a read is the answer and the reader's two counters behind it.
-/
import HopCodec.Bits.Writer

namespace HopCodec

/-- A write of bits.  A number is written with a width that holds it. -/
inductive WriteCall
  | bit (bit : Bool)
  | bits (value n : Nat) (hn : n ≤ 32) (hvalue : value < 1 <<< n)
  | byte (byte : UInt8)
  | word (word : UInt32)

/-- A read of bits. -/
inductive ReadCall
  | bit
  | bits (n : Nat) (hn : n ≤ 32)
  | byte
  | word

/-- How many bits a call writes. -/
def WriteCall.width : WriteCall → Nat
  | bit _ => 1
  | bits _ n _ _ => n
  | byte _ => 8
  | word _ => 32

def BitWriter.writeCall (w : BitWriter) : WriteCall → BitWriter
  | .bit bit => w.writeBit bit
  | .bits value n _ _ => w.writeBits value n
  | .byte byte => w.writeByte byte
  | .word word => w.writeWord word

/-- What a caller sees of a read. -/
structure Sight where
  answer : Except Fault Nat
  consumed : Nat
  remaining : Nat

/-- A reader as its callers know it.  Every read leaves a reader behind, also one that fails. -/
structure Desk (m : Type → Type) (σ : Type) where
  read : ReadCall → σ → m (Except Fault Nat × σ)
  consumed : σ → Nat
  remaining : σ → m Nat

/-- What is seen of one read after the other, each made whatever became of those before it. -/
def Desk.sights {m : Type → Type} [Monad m] {σ : Type} (d : Desk m σ) :
    List ReadCall → σ → m (List Sight)
  | [], _ => return []
  | call :: rest, s => do
      let (answer, s) ← d.read call s
      let remaining ← d.remaining s
      let later ← d.sights rest s
      return ⟨answer, d.consumed s, remaining⟩ :: later

/-- A result and the state that it leaves behind. -/
def outcome {ε σ α : Type} : EStateM.Result ε σ α → Except ε α × σ
  | .ok a s => (.ok a, s)
  | .error e s => (.error e, s)

def Reading.call : ReadCall → Reading Nat
  | .bit => Bool.toNat <$> bit
  | .bits n _ => bits n
  | .byte => UInt8.toNat <$> byte
  | .word => UInt32.toNat <$> word

def BitReader.desk : Desk Id BitReader where
  read call r := outcome ((Reading.call call).run r)
  consumed := BitReader.consumed
  remaining := BitReader.remaining

end HopCodec
