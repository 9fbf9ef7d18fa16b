/-
What XXH32 does with a single byte.  A rotation, a product with an odd number and a word folded
onto its own upper bits can all be undone, so that every step of the checksum is one-to-one in what
it has so far and in what it takes in.  A byte that differs therefore differs in its word, its lane
or its tail, and no later step makes up for it.
-/
import Mathlib.Logic.Function.Basic
import HopCodec.Checksum
import HopCodec.Proofs.Bits.Taking

namespace HopCodec

/-- Two buffers are alike but for one byte. -/
structure DifferAt (data other : Bytes) (place : Nat) : Prop where
  size_eq : other.size = data.size
  lt_size : place < data.size
  getD_ne : data.getD place 0 ≠ other.getD place 0
  getD_eq : ∀ i, i ≠ place → data.getD i 0 = other.getD i 0

namespace Checksum

section Steps

theorem mul_injective {factor inverse : UInt32} (hone : factor * inverse = 1) :
    Function.Injective (· * factor) := by
  intro x y h
  have hundo (z : UInt32) : z * factor * inverse = z := by
    rw [UInt32.mul_assoc, hone, UInt32.mul_one]
  rw [← hundo x, ← hundo y]
  exact congrArg (· * inverse) h

/-- A bit is found `turn` places to the left after a rotation, around the end if need be. -/
theorem getLsbD_rotateLeft_add {w turn i : Nat} (x : BitVec w) (hturn : turn < w) (hi : i < w) :
    (x.rotateLeft turn).getLsbD ((i + turn) % w) = x.getLsbD i := by
  rw [BitVec.getLsbD_rotateLeft_of_le hturn]
  rcases Nat.lt_or_ge (i + turn) w with hinside | haround
  · have hplace : ¬ i + turn < turn := Nat.not_lt.mpr (Nat.le_add_left turn i)
    simp [Nat.mod_eq_of_lt hinside, hplace, hinside]
  · have hplace : (i + turn) % w = i + turn - w := by
      rw [Nat.mod_eq_sub_mod haround, Nat.mod_eq_of_lt (by omega)]
    have hlow : i + turn - w < turn := by omega
    have hback : w - turn + (i + turn - w) = i := by omega
    simp [hplace, hlow, hback]

theorem toBitVec_rotateLeft {count : UInt32} (x : UInt32) (hpos : 0 < count.toNat)
    (hlt : count.toNat < 32) :
    (rotateLeft x count).toBitVec = x.toBitVec.rotateLeft count.toNat := by
  have hback : (2 ^ 32 - count.toNat) % 32 = 32 - count.toNat := by omega
  rw [BitVec.rotateLeft_def, Nat.mod_eq_of_lt hlt, ← hback]
  simp [rotateLeft, Nat.mod_eq_of_lt hlt]

theorem rotateLeft_injective {count : UInt32} (hpos : 0 < count.toNat) (hlt : count.toNat < 32) :
    Function.Injective (rotateLeft · count) := by
  intro x y h
  have hbits : x.toBitVec.rotateLeft count.toNat = y.toBitVec.rotateLeft count.toNat := by
    rw [← toBitVec_rotateLeft x hpos hlt, ← toBitVec_rotateLeft y hpos hlt]
    exact congrArg UInt32.toBitVec h
  apply UInt32.toBitVec_inj.mp
  apply BitVec.eq_of_getLsbD_eq
  intro i hi
  rw [← getLsbD_rotateLeft_add x.toBitVec hlt hi, hbits, getLsbD_rotateLeft_add y.toBitVec hlt hi]

theorem xor_shiftRight (x y shift : UInt32) :
    (x ^^^ y) >>> shift = x >>> shift ^^^ y >>> shift := by
  apply UInt32.toBitVec_inj.mp
  simp [BitVec.ushiftRight_xor_distrib]

/-- Only zero is what is left of it after a shift. -/
theorem eq_zero_of_shiftRight_eq {x shift : UInt32} (hpos : 0 < shift.toNat)
    (hlt : shift.toNat < 32) (h : x >>> shift = x) : x = 0 := by
  by_contra hne
  have hvalue : 0 < x.toNat := Nat.pos_of_ne_zero fun h0 => hne (UInt32.toNat_inj.mp h0)
  have hsmaller : (x >>> shift).toNat < x.toNat := by
    rw [UInt32.toNat_shiftRight, Nat.mod_eq_of_lt hlt, Nat.shiftRight_eq_div_pow]
    exact Nat.div_lt_self hvalue (Nat.one_lt_two_pow (Nat.ne_of_gt hpos))
  rw [h] at hsmaller
  exact Nat.lt_irrefl _ hsmaller

/-- Two words that agree once folded onto their upper bits differ by a word that is its own
shift. -/
theorem xorShift_injective {shift : UInt32} (hpos : 0 < shift.toNat) (hlt : shift.toNat < 32) :
    Function.Injective fun x : UInt32 => x ^^^ (x >>> shift) := by
  intro x y h
  have hcross : x >>> shift ^^^ y >>> shift ^^^ (x ^^^ y) = 0 := by
    rw [← UInt32.xor_eq_zero_iff.mpr h]
    change _ = x ^^^ x >>> shift ^^^ (y ^^^ y >>> shift)
    ac_rfl
  have hshift : (x ^^^ y) >>> shift = x ^^^ y := by
    rw [xor_shiftRight]
    exact UInt32.xor_eq_zero_iff.mp hcross
  exact UInt32.xor_eq_zero_iff.mp (eq_zero_of_shiftRight_eq hpos hlt hshift)

section Turned

variable {count factor inverse : UInt32}

theorem turned_left_injective (hpos : 0 < count.toNat) (hlt : count.toNat < 32)
    (hone : factor * inverse = 1) (term : UInt32) :
    Function.Injective fun acc => rotateLeft (acc + term) count * factor := by
  intro x y h
  exact (UInt32.add_left_inj term).mp (rotateLeft_injective hpos hlt (mul_injective hone h))

theorem turned_right_injective (hpos : 0 < count.toNat) (hlt : count.toNat < 32)
    (hone : factor * inverse = 1) (acc : UInt32) :
    Function.Injective fun term => rotateLeft (acc + term) count * factor := by
  intro x y h
  exact (UInt32.add_right_inj acc).mp (rotateLeft_injective hpos hlt (mul_injective hone h))

end Turned

theorem prime1_mul_inverse : prime1 * 0x0E8B2F51 = 1 := by decide

theorem prime2_mul_inverse : prime2 * 0xB6C92F47 = 1 := by decide

theorem prime3_mul_inverse : prime3 * 0xA89ED915 = 1 := by decide

theorem prime4_mul_inverse : prime4 * 0xA0FE3BCF = 1 := by decide

theorem prime5_mul_inverse : prime5 * 0xAE398151 = 1 := by decide

theorem round_left_injective (input : UInt32) : Function.Injective (round · input) :=
  turned_left_injective (by decide) (by decide) prime1_mul_inverse (input * prime2)

theorem round_right_injective (lane : UInt32) : Function.Injective (round lane) :=
  (turned_right_injective (by decide) (by decide) prime1_mul_inverse lane).comp
    (mul_injective prime2_mul_inverse)

theorem foldWord_left_injective (input : UInt32) : Function.Injective (foldWord · input) :=
  turned_left_injective (by decide) (by decide) prime4_mul_inverse (input * prime3)

theorem foldWord_right_injective (acc : UInt32) : Function.Injective (foldWord acc) :=
  (turned_right_injective (by decide) (by decide) prime4_mul_inverse acc).comp
    (mul_injective prime3_mul_inverse)

theorem foldByte_left_injective (input : UInt8) : Function.Injective (foldByte · input) :=
  turned_left_injective (by decide) (by decide) prime1_mul_inverse (input.toUInt32 * prime5)

theorem foldByte_right_injective (acc : UInt32) : Function.Injective (foldByte acc) := by
  intro x y h
  have hterm : x.toUInt32 * prime5 = y.toUInt32 * prime5 :=
    turned_right_injective (by decide) (by decide) prime1_mul_inverse acc h
  exact UInt8.toUInt32_inj.mp (mul_injective prime5_mul_inverse hterm)

theorem avalanche_injective : Function.Injective avalanche := by
  intro x y h
  have hlow := xorShift_injective (by decide) (by decide) h
  have hmiddle := xorShift_injective (by decide) (by decide) (mul_injective prime3_mul_inverse hlow)
  exact xorShift_injective (by decide) (by decide) (mul_injective prime2_mul_inverse hmiddle)

end Steps

section Runs

variable {α : Type} {f g : Nat → α → α} {count : Nat}

/-- Steps that lose nothing keep a difference. -/
theorem fold_injective (hf : ∀ i, Function.Injective (f i)) :
    Function.Injective (count.fold fun i _ a => f i a) := by
  intro a b h
  induction count with
  | zero => exact h
  | succ count ih =>
      rw [Nat.fold_succ, Nat.fold_succ] at h
      exact ih (hf count h)

theorem fold_congr (hsame : ∀ i < count, f i = g i) (a : α) :
    count.fold (fun i _ a => f i a) a = count.fold (fun i _ a => g i a) a := by
  induction count with
  | zero => rfl
  | succ count ih =>
      rw [Nat.fold_succ, Nat.fold_succ, ih fun i hi => hsame i (Nat.lt_succ_of_lt hi),
        hsame count (Nat.lt_succ_self count)]

/-- One step that goes another way makes a difference to the end, where no step loses anything. -/
theorem fold_ne (hf : ∀ i, Function.Injective (f i)) {k : Nat} (hk : k < count)
    (hsame : ∀ i < count, i ≠ k → f i = g i) (hdiff : ∀ a, f k a ≠ g k a) (a : α) :
    count.fold (fun i _ a => f i a) a ≠ count.fold (fun i _ a => g i a) a := by
  induction count with
  | zero => exact absurd hk (Nat.not_lt_zero k)
  | succ count ih =>
      rw [Nat.fold_succ, Nat.fold_succ]
      rcases Nat.lt_succ_iff_lt_or_eq.mp hk with hbefore | hlast
      · have hahead := ih hbefore fun i hi => hsame i (Nat.lt_succ_of_lt hi)
        rw [← hsame count (Nat.lt_succ_self count) (Nat.ne_of_gt hbefore)]
        exact fun h => hahead (hf count h)
      · subst hlast
        rw [fold_congr fun i hi => hsame i (Nat.lt_succ_of_lt hi) (Nat.ne_of_lt hi)]
        exact hdiff _

end Runs

/-- A word is its four bytes. -/
theorem word_eq_word_iff {data other : Bytes} {start : Nat} :
    word data start = word other start ↔
      ∀ i, start ≤ i → i < start + 4 → data.getD i 0 = other.getD i 0 := by
  constructor
  · intro h i hstart hend
    have hbytes := congrArg BitWriter.wordBytes h
    rw [word, word, Reading.join_wordBytes, Reading.join_wordBytes] at hbytes
    simp only [List.cons.injEq, and_true] at hbytes
    obtain ⟨h0, h1, h2, h3⟩ := hbytes
    have hcases : i = start + 0 ∨ i = start + 1 ∨ i = start + 2 ∨ i = start + 3 := by omega
    rcases hcases with rfl | rfl | rfl | rfl
    · exact h0
    · exact h1
    · exact h2
    · exact h3
  · intro h
    simp only [word]
    rw [h (start + 0) (by omega) (by omega), h (start + 1) (by omega) (by omega),
      h (start + 2) (by omega) (by omega), h (start + 3) (by omega) (by omega)]

/-- The words of one lane, folded into it. -/
def lane (data : Bytes) (offset stripes : Nat) (start : UInt32) : UInt32 :=
  stripes.fold (fun i _ lane => round lane (word data (16 * i + offset))) start

/-- The four lanes once a number of stripes went through them. -/
def lanesAfter (data : Bytes) (stripes : Nat) (start : Lanes) : Lanes :=
  ⟨lane data 0 stripes start.first, lane data 4 stripes start.second,
    lane data 8 stripes start.third, lane data 12 stripes start.fourth⟩

/-- The lanes do not meet before they are merged. -/
theorem fold_absorb (data : Bytes) (stripes : Nat) (lanes : Lanes) :
    stripes.fold (fun i _ lanes => lanes.absorb data (16 * i)) lanes =
      lanesAfter data stripes lanes := by
  induction stripes with
  | zero => rfl
  | succ stripes ih =>
      rw [Nat.fold_succ, ih]
      simp only [Lanes.absorb, lanesAfter, lane, Nat.fold_succ, Nat.add_zero]

/-- A checksum is folded from its lanes and its tail. -/
theorem xxh32_eq (data : Bytes) (seed : UInt32) :
    xxh32 data seed =
      avalanche (foldTail
        ((if 16 ≤ data.size then (lanesAfter data (data.size / 16) (Lanes.start seed)).merge
          else seed + prime5) + UInt32.ofNat data.size)
        (data.extract (16 * (data.size / 16)) data.size)) := by
  simp only [xxh32, Hasher.digest, Hasher.update, Hasher.start, Array.empty_append, Nat.zero_add,
    fold_absorb]

def foldWords (tail : Bytes) (words : Nat) (acc : UInt32) : UInt32 :=
  words.fold (fun i _ acc => foldWord acc (word tail (4 * i))) acc

def foldBytes (tail : Bytes) (start count : Nat) (acc : UInt32) : UInt32 :=
  count.fold (fun i _ acc => foldByte acc (tail.getD (start + i) 0)) acc

theorem foldTail_eq (acc : UInt32) (tail : Bytes) :
    foldTail acc tail =
      foldBytes tail (4 * (tail.size / 4)) (tail.size % 4) (foldWords tail (tail.size / 4) acc) :=
  rfl

theorem foldWords_injective (tail : Bytes) (words : Nat) :
    Function.Injective (foldWords tail words) :=
  fold_injective fun _ => foldWord_left_injective _

theorem foldBytes_injective (tail : Bytes) (start count : Nat) :
    Function.Injective (foldBytes tail start count) :=
  fold_injective fun _ => foldByte_left_injective _

theorem foldTail_injective (tail : Bytes) : Function.Injective (foldTail · tail) :=
  (foldBytes_injective tail _ _).comp (foldWords_injective tail _)

end Checksum

open Checksum

namespace DifferAt

variable {data other : Bytes} {place : Nat}

/-- Words differ where they hold the byte that does. -/
theorem word_eq_iff (h : DifferAt data other place) (start : Nat) :
    word data start = word other start ↔ ¬ (start ≤ place ∧ place < start + 4) := by
  rw [word_eq_word_iff]
  constructor
  · rintro hsame ⟨hstart, hend⟩
    exact h.getD_ne (hsame place hstart hend)
  · intro haway i hstart hend
    apply h.getD_eq
    rintro rfl
    exact haway ⟨hstart, hend⟩

/-- A lane is another where the byte falls to it. -/
theorem lane_eq_iff (h : DifferAt data other place) {stripes : Nat} (offset : Nat)
    (hoffset : offset + 4 ≤ 16) (hplace : place < 16 * stripes) (start : UInt32) :
    lane data offset stripes start = lane other offset stripes start ↔
      ¬ (offset ≤ place % 16 ∧ place % 16 < offset + 4) := by
  have haway : ∀ i, i ≠ place / 16 ∨ ¬ (offset ≤ place % 16 ∧ place % 16 < offset + 4) →
      word data (16 * i + offset) = word other (16 * i + offset) := by
    intro i hi
    rw [h.word_eq_iff]
    omega
  constructor
  · rintro hsame hmine
    refine absurd hsame (fold_ne (fun i => round_left_injective _) (k := place / 16) (by omega)
      (fun i _ hi => ?_) (fun acc hacc => ?_) start)
    · rw [haway i (.inl hi)]
    · have hword := round_right_injective acc hacc
      rw [h.word_eq_iff] at hword
      omega
  · intro hother
    exact fold_congr (fun i _ => by rw [haway i (.inr hother)]) start

/-- Stripes ahead of the place where they differ drive the lanes alike. -/
theorem lanesAfter_congr (h : DifferAt data other place) {stripes : Nat}
    (hplace : 16 * stripes ≤ place) (start : Lanes) :
    lanesAfter data stripes start = lanesAfter other stripes start := by
  have hlane : ∀ offset, offset + 4 ≤ 16 → lane data offset stripes = lane other offset stripes := by
    intro offset hoffset
    funext start
    refine fold_congr (fun i hi => ?_) start
    rw [(h.word_eq_iff _).mpr (by omega)]
  simp only [lanesAfter, hlane, Nat.reduceAdd, Nat.reduceLeDiff]

/-- One lane of four is another, and turning and adding them up keeps that. -/
theorem merge_ne (h : DifferAt data other place) {stripes : Nat} (hplace : place < 16 * stripes)
    (start : Lanes) :
    (lanesAfter data stripes start).merge ≠ (lanesAfter other stripes start).merge := by
  intro hmerge
  have hfirst := h.lane_eq_iff 0 (by decide) hplace start.first
  have hsecond := h.lane_eq_iff 4 (by decide) hplace start.second
  have hthird := h.lane_eq_iff 8 (by decide) hplace start.third
  have hfourth := h.lane_eq_iff 12 (by decide) hplace start.fourth
  have hcases : place % 16 < 4 ∨ (4 ≤ place % 16 ∧ place % 16 < 8) ∨
      (8 ≤ place % 16 ∧ place % 16 < 12) ∨ 12 ≤ place % 16 := by omega
  simp only [Lanes.merge, lanesAfter] at hmerge
  rcases hcases with hlane | hlane | hlane | hlane
  · rw [hsecond.mpr (by omega), hthird.mpr (by omega), hfourth.mpr (by omega),
      UInt32.add_left_inj, UInt32.add_left_inj, UInt32.add_left_inj] at hmerge
    exact hfirst.mp (rotateLeft_injective (by decide) (by decide) hmerge) (by omega)
  · rw [hfirst.mpr (by omega), hthird.mpr (by omega), hfourth.mpr (by omega),
      UInt32.add_left_inj, UInt32.add_left_inj, UInt32.add_right_inj] at hmerge
    exact hsecond.mp (rotateLeft_injective (by decide) (by decide) hmerge) (by omega)
  · rw [hfirst.mpr (by omega), hsecond.mpr (by omega), hfourth.mpr (by omega),
      UInt32.add_left_inj, UInt32.add_right_inj] at hmerge
    exact hthird.mp (rotateLeft_injective (by decide) (by decide) hmerge) (by omega)
  · rw [hfirst.mpr (by omega), hsecond.mpr (by omega), hthird.mpr (by omega),
      UInt32.add_right_inj] at hmerge
    exact hfourth.mp (rotateLeft_injective (by decide) (by decide) hmerge) (by omega)

/-- Words at the front differ where the byte is in one of them. -/
theorem foldWords_eq_iff (h : DifferAt data other place) (words : Nat) (acc : UInt32) :
    foldWords data words acc = foldWords other words acc ↔ 4 * words ≤ place := by
  have haway : ∀ i, i ≠ place / 4 → word data (4 * i) = word other (4 * i) := by
    intro i hi
    rw [h.word_eq_iff]
    omega
  constructor
  · intro hsame
    by_contra hinside
    refine fold_ne (fun i => foldWord_left_injective _) (k := place / 4) (by omega)
      (fun i _ hi => ?_) (fun acc hacc => ?_) acc hsame
    · rw [haway i hi]
    · have hword := foldWord_right_injective acc hacc
      rw [h.word_eq_iff] at hword
      omega
  · intro hbehind
    exact fold_congr (fun i hi => by rw [haway i (by omega)]) acc

theorem foldBytes_congr (h : DifferAt data other place) {start : Nat} (hstart : place < start)
    (count : Nat) (acc : UInt32) :
    foldBytes data start count acc = foldBytes other start count acc :=
  fold_congr (fun i _ => by rw [h.getD_eq (start + i) (by omega)]) acc

theorem foldBytes_ne (h : DifferAt data other place) {start count : Nat} (hstart : start ≤ place)
    (hend : place < start + count) (acc : UInt32) :
    foldBytes data start count acc ≠ foldBytes other start count acc := by
  obtain ⟨k, rfl⟩ := Nat.exists_eq_add_of_le hstart
  refine fold_ne (fun i => foldByte_left_injective _) (Nat.lt_of_add_lt_add_left hend)
    (fun i _ hi => ?_) (fun acc hacc => ?_) acc
  · rw [h.getD_eq (start + i) (by omega)]
  · exact h.getD_ne (foldByte_right_injective acc hacc)

/-- A tail that differs is folded into something else, by a word or by a byte. -/
theorem foldTail_ne (h : DifferAt data other place) (acc : UInt32) :
    foldTail acc data ≠ foldTail acc other := by
  rw [foldTail_eq, foldTail_eq, h.size_eq]
  rcases Nat.lt_or_ge place (4 * (data.size / 4)) with hword | hbyte
  · rw [h.foldBytes_congr hword]
    intro hsame
    have hwords := (h.foldWords_eq_iff _ acc).mp (foldBytes_injective other _ _ hsame)
    exact Nat.not_lt.mpr hwords hword
  · rw [(h.foldWords_eq_iff _ acc).mpr hbyte]
    have hend := h.lt_size
    exact h.foldBytes_ne hbyte (by omega) _

theorem extract_getD (data : Bytes) (start i : Nat) :
    (data.extract start data.size).getD i 0 = data.getD (start + i) 0 := by
  simp only [Array.getD_eq_getD_getElem?, Array.getElem?_extract, Nat.min_self]
  split
  · rfl
  · rw [Array.getElem?_eq_none (by omega)]

/-- Behind the place where they differ two buffers are the same. -/
theorem extract_eq (h : DifferAt data other place) {start : Nat} (hstart : place < start) :
    other.extract start data.size = data.extract start data.size := by
  apply Array.ext
  · rw [Array.size_extract, Array.size_extract, h.size_eq]
  · intro i hi hi'
    rw [Array.getElem_extract, Array.getElem_extract, Array.getElem_eq_getD 0,
      Array.getElem_eq_getD 0]
    exact (h.getD_eq (start + i) (by omega)).symm

/-- Dropping bytes ahead of the place where they differ moves the place. -/
theorem extract {start : Nat} (h : DifferAt data other (start + place)) :
    DifferAt (data.extract start data.size) (other.extract start data.size) place where
  size_eq := by rw [Array.size_extract, Array.size_extract, h.size_eq]
  lt_size := by
    have hplace := h.lt_size
    rw [Array.size_extract]
    omega
  getD_ne := by
    rw [extract_getD, ← h.size_eq, extract_getD]
    exact h.getD_ne
  getD_eq := by
    intro i hi
    rw [extract_getD, ← h.size_eq, extract_getD]
    exact h.getD_eq (start + i) (by omega)

/-- Buffers that differ in one byte have different checksums. -/
theorem xxh32_ne (h : DifferAt data other place) (seed : UInt32) :
    xxh32 data seed ≠ xxh32 other seed := by
  rw [xxh32_eq, xxh32_eq, h.size_eq]
  intro hsame
  have hfolded := avalanche_injective hsame
  rcases Nat.lt_or_ge place (16 * (data.size / 16)) with hstripe | htail
  · have hlong : 16 ≤ data.size := by omega
    rw [h.extract_eq hstripe, if_pos hlong, if_pos hlong] at hfolded
    have hmerged := (UInt32.add_left_inj _).mp (foldTail_injective _ hfolded)
    exact h.merge_ne hstripe _ hmerged
  · obtain ⟨k, rfl⟩ := Nat.exists_eq_add_of_le htail
    rw [h.lanesAfter_congr htail] at hfolded
    exact h.extract.foldTail_ne _ hfolded

end DifferAt

end HopCodec
