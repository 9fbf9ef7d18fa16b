/-
The bit writer and the bit reader of the machine are one list of bits.  Writes put their bits
behind it, reads take theirs off its front, and neither is ever without a result: this holds of
every sequence of calls, of reads also past those that fail.
-/
import HopCodec.Proofs.Bits.Calls
import HopCodec.Proofs.Machine.Packer

namespace HopCodec.Machine

namespace Packer

theorem appends_writeCall (call : WriteCall) : Appends (writeCall call) call.spelling := by
  cases call with
  | bit bit => exact appends_writeBit bit
  | bits value n hn hvalue => exact appends_writeBits hn (Nat.one_shiftLeft n ▸ hvalue)
  | byte byte => exact appends_writeByte byte
  | word word => exact appends_writeWord word

/-- Any calls have a result, which finishes with their bits and zeros up to the end of a byte. -/
theorem exists_writeAll (writes : List WriteCall) :
    ∃ p bytes padding, writeAll writeCall writes .empty = .ok p ∧
      p.Packs (writes.flatMap WriteCall.spelling) ∧ p.finish = .ok bytes ∧
      (writes.foldl BitWriter.writeCall .empty).finish = bytes ∧ padding < 8 ∧
      bitsOf bytes = writes.flatMap WriteCall.spelling ++ List.replicate padding false := by
  obtain ⟨p, hwrite, hpacks⟩ :=
    Appends.writeAll writes (fun call _ => appends_writeCall call) .empty [] packs_empty
  obtain ⟨htidy, hbits⟩ := BitWriter.bits_writeCalls writes
  obtain ⟨padding, hpadding, hfinish⟩ := BitWriter.bitsOf_finish _ htidy
  rw [hbits] at hfinish
  exact ⟨p, _, padding, hwrite, hpacks, finish_eq hpacks hpadding hfinish, rfl, hpadding, hfinish⟩

end Packer

namespace Cursor

theorem simulates_bitList (total : Nat) :
    desk.Simulates (bitList total) fun c left =>
      ∃ r : BitReader, c.Tracks r ∧ r.rest = left ∧ r.limit = total := by
  have hplain := BitReader.simulates_bitList total
  constructor
  · rintro c left call ⟨r, htracks, hrel⟩
    obtain ⟨c', hc, htracks'⟩ := Tape.mirrors_call call htracks
    obtain ⟨r', hr, hrel'⟩ := hplain.read call hrel
    have houtcome : outcome ((Reading.call call).run r) =
      (((bitList total).read call left).run.1, r') := hr
    rw [houtcome] at hc htracks'
    exact ⟨c', hc, r', htracks', hrel'⟩
  · rintro c left ⟨r, htracks, hrel⟩
    rw [← hplain.consumed hrel]
    exact htracks.consumed_eq
  · rintro c left ⟨r, htracks, hrel⟩
    exact htracks.remaining_eq.trans (congrArg Except.ok (hplain.remaining hrel))

/-- Any reads have a result, the one of the same reads on the list of bits. -/
theorem exists_sights {data : Bytes} (h : Countable data.size) (budget : Nat)
    (reads : List ReadCall) :
    ∃ c, withBudget data budget = .ok c ∧ c.Tracks (.withBudget data budget) ∧
      desk.sights reads c = .ok ((bitList (min budget (8 * data.size))).sights reads
        ((bitsOf data).take (min budget (8 * data.size)))).run := by
  obtain ⟨c, hc, htracks⟩ := exists_withBudget budget h
  exact ⟨c, hc, htracks, (simulates_bitList _).sights_eq reads
    ⟨_, htracks, BitReader.rest_withBudget data budget, rfl⟩⟩

end Cursor

/-- Bit writer and bit reader are one list of bits, most significant bit of a byte first.  Writes
put their bits behind it, and finishing fills up the last byte with zeros.  Reads of any byte
string under any budget, also those after a read that failed, answer and count as the reads of the
list do. -/
theorem bitList_exact :
    (∀ writes : List WriteCall, ∃ p bytes padding,
      Packer.writeAll Packer.writeCall writes .empty = .ok p ∧
      ((writes.map WriteCall.width).sum < wordSize →
        p.bitLength = .ok (writes.map WriteCall.width).sum) ∧
      (writes.foldl BitWriter.writeCall .empty).bitLength = (writes.map WriteCall.width).sum ∧
      p.finish = .ok bytes ∧ (writes.foldl BitWriter.writeCall .empty).finish = bytes ∧
      padding < 8 ∧
      bitsOf bytes = writes.flatMap WriteCall.spelling ++ List.replicate padding false) ∧
    ∀ data : Bytes, Countable data.size → ∀ (budget : Nat) (reads : List ReadCall),
      let total := min budget (8 * data.size)
      let seen := ((bitList total).sights reads ((bitsOf data).take total)).run
      ∃ c, Cursor.withBudget data budget = .ok c ∧
        c.consumed = 0 ∧ c.remaining = .ok total ∧
        Cursor.desk.sights reads c = .ok seen ∧
        (BitReader.desk.sights reads (.withBudget data budget)).run = seen ∧
        ∀ sight ∈ seen, sight.consumed + sight.remaining = total := by
  constructor
  · intro writes
    have hlength := WriteCall.length_flatMap_spelling writes
    obtain ⟨p, bytes, padding, hwrite, hpacks, hfinish, hplain, hpadding, hbits⟩ :=
      Packer.exists_writeAll writes
    refine ⟨p, bytes, padding, hwrite, ?_, ?_, hfinish, hplain, hpadding, hbits⟩
    · intro hlt
      rw [← hlength] at hlt ⊢
      exact hpacks.bitLength_eq hlt
    · rw [← BitWriter.length_bits, (BitWriter.bits_writeCalls writes).2, hlength]
  · intro data h budget reads total seen
    have hplain : (BitReader.desk.sights reads (.withBudget data budget)).run = seen :=
      (BitReader.simulates_bitList total).sights_eq reads
        ⟨BitReader.rest_withBudget data budget, rfl⟩
    obtain ⟨c, hc, htracks, hseen⟩ := Cursor.exists_sights h budget reads
    refine ⟨c, hc, htracks.consumed_eq, htracks.remaining_eq, hseen, hplain, ?_⟩
    rw [← hplain]
    exact BitReader.sights_balanced reads _

/-- On three bytes and 23 bits a word ends after two of its bytes, and three more bits come. -/
theorem bitList_exact_threeBytes :
    Countable (#[0x5A, 0x12, 0x34] : Bytes).size ∧
      ∃ c, Cursor.withBudget #[0x5A, 0x12, 0x34] 23 = .ok c ∧
        Cursor.desk.sights [.bits 4 (by decide), .word, .bits 4 (by decide), .bits 3 (by decide),
          .bit] c = .ok [⟨.ok 5, 4, 19⟩, ⟨.error .truncated, 20, 3⟩, ⟨.error .truncated, 20, 3⟩,
            ⟨.ok 2, 23, 0⟩, ⟨.error .truncated, 23, 0⟩] := by
  have h : Countable (#[0x5A, 0x12, 0x34] : Bytes).size := by
    unfold Countable
    decide
  obtain ⟨c, hc, -, -, hseen, -⟩ := bitList_exact.2 #[0x5A, 0x12, 0x34] h 23
    [.bits 4 (by decide), .word, .bits 4 (by decide), .bits 3 (by decide), .bit]
  exact ⟨h, c, hc, hseen⟩

/-- Whatever calls wrote is read back from the finished bytes, each by the read that undoes it. -/
theorem read_back (writes : List WriteCall) :
    ∃ p bytes, Packer.writeAll Packer.writeCall writes .empty = .ok p ∧ p.finish = .ok bytes ∧
      (Countable bytes.size → ∃ c seen, Cursor.ofBytes bytes = .ok c ∧
        Cursor.desk.sights (writes.map WriteCall.back) c = .ok seen ∧
        seen.map Sight.answer = writes.map fun call => .ok call.value) := by
  obtain ⟨p, bytes, padding, hwrite, -, hfinish, -, -, hbits⟩ := Packer.exists_writeAll writes
  refine ⟨p, bytes, hwrite, hfinish, fun h => ?_⟩
  obtain ⟨c, hc, htracks⟩ := Cursor.exists_ofBytes h
  have hrest : (BitReader.ofBytes bytes).rest =
      writes.flatMap WriteCall.spelling ++ List.replicate padding false := by
    rw [BitReader.rest_ofBytes, hbits]
  refine ⟨c, _, hc, (Cursor.simulates_bitList _).sights_eq _ ⟨_, htracks, hrest, rfl⟩, ?_⟩
  exact answers_back _ writes _

end HopCodec.Machine
