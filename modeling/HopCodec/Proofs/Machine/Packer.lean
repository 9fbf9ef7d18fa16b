/-
The bit writer of the machine.  `Packs` says which bits a packer stands for; every write puts its
bits behind them, and finishing gives the bytes that the plain writer gives.
-/
import HopCodec.Machine.Packer
import HopCodec.Proofs.Machine.Cursor

namespace HopCodec

theorem bitsOf_injective {a b : Bytes} (h : bitsOf a = bitsOf b) : a = b := by
  have hsize : a.size = b.size := by
    have hlength := congrArg List.length h
    simpa using hlength
  apply Array.ext hsize
  intro k hk hk'
  have hbits : (List.range 8).map (fun i => bitAt a (8 * k + i)) =
      (List.range 8).map fun i => bitAt b (8 * k + i) := by
    apply List.map_congr_left
    intro i hi
    have hi : i < 8 := List.mem_range.mp hi
    have hget := congrArg (fun bits => bits[8 * k + i]?) h
    simpa [bitsOf, show 8 * k + i < 8 * a.size by omega,
      show 8 * k + i < 8 * b.size by omega] using hget
  have hvalue := congrArg bitsValue hbits
  rw [bitsValue_byte, bitsValue_byte, UInt8.toNat_inj] at hvalue
  simpa [Array.getD_eq_getD_getElem?, hk, hk'] using hvalue

/-- A number put behind another one is spelt behind it. -/
theorem spell_concat (front back m n : Nat) (h : back < 2 ^ n) :
    spell (front * 2 ^ n + back) (m + n) = spell front m ++ spell back n := by
  have hfront : (front * 2 ^ n + back) / 2 ^ n = front := by
    rw [Nat.mul_comm, Nat.mul_add_div (Nat.two_pow_pos _), Nat.div_eq_of_lt h, Nat.add_zero]
  have hback : spell (front * 2 ^ n + back) n = spell back n := by
    rw [← spell_mod, Nat.mul_comm, Nat.mul_add_mod, spell_mod]
  rw [spell_add, hfront, hback]

namespace Machine.Packer

/-- The bytes written and the `count` bits gathered, read as the number `value`. -/
structure Gathers (p : Packer) (value : Nat) (bits : List Bool) : Prop where
  held_eq : p.held = value * 2 ^ (64 - p.count)
  value_lt : value < 2 ^ p.count
  bits_eq : bitsOf p.output ++ spell value p.count = bits

/-- Between two writes less than a byte is gathered. -/
def Packs (p : Packer) (bits : List Bool) : Prop :=
  p.count < 8 ∧ ∃ value, p.Gathers value bits

theorem packs_empty : Packs .empty [] :=
  ⟨by decide, 0, rfl, by decide, rfl⟩

variable {p : Packer} {value : Nat} {bits : List Bool}

theorem Gathers.exists_flushByte (h : p.Gathers value bits) (hcount : p.count ≤ 64)
    (hmany : 8 ≤ p.count) :
    ∃ p' value', p.flushByte = .ok p' ∧ p'.Gathers value' bits ∧ p'.count = p.count - 8 := by
  let left := p.count - 8
  let top := value / 2 ^ left
  let low := value % 2 ^ left
  have hlow : low < 2 ^ left := Nat.mod_lt _ (Nat.two_pow_pos _)
  have htop : p.held >>> 56 = top := by
    rw [h.held_eq]
    exact shiftRight_held value hmany hcount
  refine ⟨⟨p.output.push (UInt8.ofNat top), low * 2 ^ (64 - left), left⟩, low, ?_,
    ⟨rfl, hlow, ?_⟩, rfl⟩
  · rw [flushByte, shiftRight_eq (by decide), ok_bind, htop, shiftLeft_eq (by decide), ok_bind,
      h.held_eq, shiftLeft_held value hmany hcount, sub_eq hmany]
    rfl
  · have hvalue : top * 2 ^ left + low = value := Nat.div_add_mod' value (2 ^ left)
    have hsum : 8 + left = p.count := Nat.add_sub_cancel' hmany
    change bitsOf (p.output.push (UInt8.ofNat top)) ++ spell low left = bits
    rw [bitsOf_push, spell_toUInt8, List.append_assoc, ← spell_concat top low 8 left hlow,
      hvalue, hsum]
    exact h.bits_eq

theorem Gathers.exists_flushFor (h : p.Gathers value bits) (hcount : p.count ≤ 64) (fuel : Nat)
    (hfuel : p.count < 8 * (fuel + 1)) : ∃ p', p.flushFor fuel = .ok p' ∧ p'.Packs bits := by
  induction fuel generalizing p value with
  | zero =>
      have hfew : ¬ 8 ≤ p.count := by omega
      exact ⟨p, by rw [flushFor, if_neg hfew], by omega, value, h⟩
  | succ fuel ih =>
      by_cases hmany : 8 ≤ p.count
      · obtain ⟨p', value', hflush, hgathers, hleft⟩ := h.exists_flushByte hcount hmany
        obtain ⟨p'', hrest, hpacks⟩ := ih hgathers (by omega) (by omega)
        refine ⟨p'', ?_, hpacks⟩
        rw [flushFor, if_pos hmany, hflush]
        exact hrest
      · exact ⟨p, by rw [flushFor, if_neg hmany], Nat.not_le.mp hmany, value, h⟩

theorem assertFits_eq {value n : Nat} (hn : n ≤ 32) (h : value < 2 ^ n) :
    assertFits value n = .ok () := by
  by_cases hfull : n = 32
  · rw [assertFits, if_pos hfull]
  · have hzero : value >>> n = 0 := by
      rw [Nat.shiftRight_eq_div_pow, Nat.div_eq_of_lt h]
    rw [assertFits, if_neg hfull, shiftRight_eq (by omega), ok_bind, ensure_eq hzero]

/-- `write` has a result and puts `added` behind the bits of any packer. -/
def Appends (write : Packer → Run Packer) (added : List Bool) : Prop :=
  ∀ p bits, Packs p bits → ∃ p', write p = .ok p' ∧ p'.Packs (bits ++ added)

/-- Bits that are put right behind the gathered ones are gathered too. -/
theorem Gathers.put {front value n : Nat} (h : p.Gathers front bits) (hvalue : value < 2 ^ n)
    (hroom : p.count + n ≤ 64) :
    Gathers ⟨p.output, p.held ||| value * 2 ^ (64 - p.count - n), p.count + n⟩
      (front * 2 ^ n + value) (bits ++ spell value n) := by
  refine ⟨?_, ?_, ?_⟩
  · change p.held ||| value * 2 ^ (64 - p.count - n) = _
    rw [h.held_eq]
    exact or_held front hvalue hroom
  · change front * 2 ^ n + value < 2 ^ (p.count + n)
    calc front * 2 ^ n + value < (front + 1) * 2 ^ n := by
          rw [Nat.add_mul, Nat.one_mul]
          exact Nat.add_lt_add_left hvalue _
      _ ≤ 2 ^ p.count * 2 ^ n := Nat.mul_le_mul_right _ h.value_lt
      _ = 2 ^ (p.count + n) := (Nat.pow_add 2 _ _).symm
  · change bitsOf p.output ++ spell (front * 2 ^ n + value) (p.count + n) = _
    rw [spell_concat _ _ _ _ hvalue, ← List.append_assoc, h.bits_eq]

theorem appends_writeBits {value n : Nat} (hn : n ≤ 32) (hvalue : value < 2 ^ n) :
    Appends (writeBits value n) (spell value n) := by
  rintro p bits ⟨hcount, front, hgathers⟩
  by_cases hzero : n = 0
  · subst hzero
    refine ⟨p, ?_, ?_⟩
    · rw [writeBits, ensure_eq hn, ok_bind, assertFits_eq hn hvalue]
      rfl
    · rw [show spell value 0 = [] from rfl, List.append_nil]
      exact ⟨hcount, front, hgathers⟩
  · have hplace : (value <<< (64 - p.count - n)) % (1 <<< 64) =
        value * 2 ^ (64 - p.count - n) := shiftLeft_mod hvalue (by omega)
    have hroom : p.count + n ≤ 64 := by omega
    obtain ⟨p', hflush, hpacks⟩ := (hgathers.put hvalue hroom).exists_flushFor hroom 4
      (show p.count + n < 8 * (4 + 1) by omega)
    have hfits : p.count + n < halfSize := by
      unfold halfSize
      omega
    refine ⟨p', ?_, hpacks⟩
    simp only [writeBits, ensure_eq hn, assertFits_eq hn hvalue, ok_bind, if_neg hzero,
      sub_eq (show p.count ≤ 64 by omega), sub_eq (show n ≤ 64 - p.count by omega),
      shiftLeft_eq (show 64 - p.count - n < 64 by omega), hplace, fit_eq hfits]
    exact hflush

theorem Appends.comp {f g : Packer → Run Packer} {xs ys : List Bool} (hf : Appends f xs)
    (hg : Appends g ys) : Appends (fun p => f p >>= g) (xs ++ ys) := by
  intro p bits h
  obtain ⟨p', hfirst, hpacks⟩ := hf p bits h
  obtain ⟨p'', hsecond, hpacks'⟩ := hg p' _ hpacks
  refine ⟨p'', ?_, ?_⟩
  · change f p >>= g = _
    rw [hfirst, ok_bind, hsecond]
  · rwa [List.append_assoc] at hpacks'

theorem Appends.nothing : Appends (fun p => .ok p) [] := by
  intro p bits h
  exact ⟨p, rfl, by rwa [List.append_nil]⟩

theorem Appends.writeAll {α : Type} {write : α → Packer → Run Packer} {added : α → List Bool}
    (items : List α) (h : ∀ a ∈ items, Appends (write a) (added a)) :
    Appends (Packer.writeAll write items) (items.flatMap added) := by
  induction items with
  | nil => exact .nothing
  | cons a rest ih =>
      have hhead := h a List.mem_cons_self
      have htail := ih fun b hb => h b (List.mem_cons_of_mem a hb)
      exact hhead.comp htail

theorem appends_writeBit (bit : Bool) : Appends (writeBit bit) [bit] := by
  rw [← spell_bit]
  exact appends_writeBits (by decide) bit.toNat_lt

theorem appends_writeByte (byte : UInt8) : Appends (writeByte byte) (spell byte.toNat 8) :=
  appends_writeBits (by decide) byte.toNat_lt

theorem appends_writeWord (word : UInt32) :
    Appends (writeWord word) ((BitWriter.wordBytes word).flatMap fun b => spell b.toNat 8) := by
  have hbytes := (appends_writeByte word.toUInt8).comp
    ((appends_writeByte (word >>> 8).toUInt8).comp
      ((appends_writeByte (word >>> 16).toUInt8).comp (appends_writeByte (word >>> 24).toUInt8)))
  have hbits : (BitWriter.wordBytes word).flatMap (fun b => spell b.toNat 8) =
      spell word.toUInt8.toNat 8 ++ (spell (word >>> 8).toUInt8.toNat 8 ++
        (spell (word >>> 16).toUInt8.toNat 8 ++ spell (word >>> 24).toUInt8.toNat 8)) := by
    simp only [BitWriter.wordBytes, List.flatMap_cons, List.flatMap_nil, List.append_nil]
  rw [hbits]
  exact hbytes

/-- A packer counts the bits it stands for, if a word can hold their number. -/
theorem Packs.bitLength_eq (h : p.Packs bits) (hlt : bits.length < wordSize) :
    p.bitLength = .ok bits.length := by
  obtain ⟨-, value, hgathers⟩ := h
  have hlength := congrArg List.length hgathers.bits_eq
  rw [List.length_append, length_bitsOf, length_spell] at hlength
  rw [bitLength, mul_eq (by omega), ok_bind, add_eq (by omega), Nat.mul_comm, hlength]

/-- A packer finishes with the bytes that hold its bits and less than a byte of padding. -/
theorem finish_eq (h : p.Packs bits) {bytes : Bytes} {padding : Nat} (hpadding : padding < 8)
    (hfinish : bitsOf bytes = bits ++ List.replicate padding false) : p.finish = .ok bytes := by
  obtain ⟨hcount, value, hgathers⟩ := h
  have hlength := congrArg List.length hfinish
  rw [length_bitsOf, List.length_append, List.length_replicate, ← hgathers.bits_eq,
    List.length_append, length_bitsOf, length_spell] at hlength
  rw [← hgathers.bits_eq] at hfinish
  by_cases hzero : p.count = 0
  · have hnone : padding = 0 := by omega
    have hbytes : bitsOf bytes = bitsOf p.output := by
      rw [hfinish, hnone, hzero]
      simp [spell]
    rw [finish, if_pos hzero, bitsOf_injective hbytes]
    rfl
  · have hleft : padding = 8 - p.count := by omega
    have htop : p.held >>> 56 = value * 2 ^ (8 - p.count) := by
      rw [hgathers.held_eq, show 64 - p.count = (8 - p.count) + 56 by omega, Nat.pow_add,
        ← Nat.mul_assoc, Nat.shiftRight_eq_div_pow, Nat.mul_div_cancel _ (Nat.two_pow_pos _)]
    have hbytes : bitsOf bytes = bitsOf (p.output.push (UInt8.ofNat (p.held >>> 56))) := by
      have hspell := spell_concat value 0 p.count (8 - p.count) (Nat.two_pow_pos _)
      rw [Nat.add_zero, show p.count + (8 - p.count) = 8 by omega] at hspell
      rw [hfinish, bitsOf_push, spell_toUInt8, htop, hspell, hleft, List.append_assoc]
      congr 2
      rw [eq_comm, List.eq_replicate_iff]
      exact ⟨length_spell _ _, by simp [spell]⟩
    rw [finish, if_neg hzero, shiftRight_eq (by decide), bitsOf_injective hbytes]
    rfl

/-- Every packer finishes with its bits and less than a byte of zeros. -/
theorem Packs.exists_finish (h : p.Packs bits) :
    ∃ bytes padding, p.finish = .ok bytes ∧ padding < 8 ∧
      bitsOf bytes = bits ++ List.replicate padding false := by
  obtain ⟨htidy, hbits⟩ := BitWriter.Writes.foldl bits
    (fun bit _ => BitWriter.writes_writeBit bit) .empty BitWriter.tidy_empty
  obtain ⟨padding, hpadding, hfinish⟩ := BitWriter.bitsOf_finish _ htidy
  rw [hbits, BitWriter.bits_empty, List.nil_append, List.flatMap_singleton'] at hfinish
  exact ⟨_, padding, finish_eq h hpadding hfinish, hpadding, hfinish⟩

end Machine.Packer

end HopCodec
