/-
Reading back what was written.  `Reads read bits a` says that `read` takes exactly `bits` off the
front of any reader and gives `a`; it is closed under sequencing, so that the reader of a format
is justified field by field.
-/
import HopCodec.Proofs.Bits.Stream
import HopCodec.Proofs.Results

namespace HopCodec

namespace BitReader

theorem rest_ofBytes (data : Bytes) : (ofBytes data).rest = bitsOf data := by
  simp [rest, remaining, ofBytes, withBudget, bitsOf]

theorem pos_add_le_limit {r : BitReader} {bits : List Bool} (h : bits <+: r.rest) :
    r.pos + bits.length ≤ r.limit := by
  have hlength := h.length_le
  have hpos := r.pos_le_limit
  rw [length_rest] at hlength
  unfold remaining at hlength
  omega

theorem rest_skip (r : BitReader) (n : Nat) (h : r.pos + n ≤ r.limit) :
    (r.skip n h).rest = r.rest.drop n := by
  apply List.ext_getElem
  · simp only [length_rest, List.length_drop, remaining, skip]
    omega
  · intro i _ _
    simp only [rest, skip, List.getElem_map, List.getElem_range, List.getElem_drop]
    congr 1
    omega

@[simp] theorem length_peek (r : BitReader) (n : Nat) : (r.peek n).length = n := by
  simp [peek]

theorem peek_eq_take (r : BitReader) (n : Nat) (h : r.pos + n ≤ r.limit) :
    r.peek n = r.rest.take n := by
  unfold peek rest remaining
  rw [← List.map_take, List.take_range, Nat.min_eq_left (by omega)]

theorem skip_skip (r : BitReader) (m n : Nat) (hm : r.pos + m ≤ r.limit)
    (hn : (r.skip m hm).pos + n ≤ (r.skip m hm).limit) (hmn : r.pos + (m + n) ≤ r.limit) :
    (r.skip m hm).skip n hn = r.skip (m + n) hmn := by
  simp [skip, Nat.add_assoc]

end BitReader

namespace Reading

variable {α β : Type}

section Runs

variable {r r' : BitReader}

theorem run_bind_ok {y : Reading α} {g : α → Reading β} {a : α}
    (h : y.run r = .ok a r') : (y >>= g).run r = (g a).run r' := by
  rw [EStateM.run_bind, h]

theorem run_bind_error {y : Reading α} {g : α → Reading β} {fault : Fault}
    (h : y.run r = .error fault r') : (y >>= g).run r = .error fault r' := by
  rw [EStateM.run_bind, h]

/-- A sequence of two readings has a result if both have. -/
theorem run_bind_eq_ok_iff {y : Reading α} {g : α → Reading β} {b : β} :
    (y >>= g).run r = .ok b r' ↔ ∃ a s, y.run r = .ok a s ∧ (g a).run s = .ok b r' := by
  rcases hrun : y.run r with ⟨a, s⟩ | ⟨fault, s⟩
  · rw [run_bind_ok hrun]
    constructor
    · exact fun h => ⟨a, s, rfl, h⟩
    · rintro ⟨a', s', heq, h⟩
      cases heq
      exact h
  · rw [run_bind_error hrun]
    simp

theorem run_bits_within {n : Nat} (h : r.pos + n ≤ r.limit) :
    (bits n).run r = .ok (bitsValue (r.peek n)) (r.skip n h) :=
  dif_pos h

theorem run_bits_beyond {n : Nat} (h : ¬ r.pos + n ≤ r.limit) :
    (bits n).run r = .error .truncated r :=
  dif_neg h

theorem run_bit_within (h : r.pos + 1 ≤ r.limit) :
    bit.run r = .ok (bitAt r.data r.pos) (r.skip 1 h) :=
  dif_pos h

theorem run_bit_beyond (h : ¬ r.pos + 1 ≤ r.limit) : bit.run r = .error .truncated r :=
  dif_neg h

theorem run_lift_eq_ok_iff {x : Except Fault α} {a : α} :
    (lift x).run r = .ok a r' ↔ x = .ok a ∧ r = r' := by
  rcases x with fault | b
  · constructor
    · intro h
      cases h
    · rintro ⟨h, -⟩
      cases h
  · constructor
    · intro h
      cases h
      exact ⟨rfl, rfl⟩
    · rintro ⟨h, rfl⟩
      cases h
      rfl

theorem run_lift_mapError_eq_ok_iff {γ : Type} {x : Except γ α} {f : γ → Fault} {a : α} :
    (lift (x.mapError f)).run r = .ok a r' ↔ x = .ok a ∧ r = r' := by
  rw [run_lift_eq_ok_iff, mapError_eq_ok_iff]

theorem length_of_list {y : Reading α} {n : Nat} {items : List α}
    (h : (list y n).run r = .ok items r') : items.length = n := by
  induction n generalizing r items with
  | zero =>
      cases h
      rfl
  | succ n ih =>
      obtain ⟨a, s, -, h⟩ := run_bind_eq_ok_iff.mp h
      obtain ⟨rest, s', hrest, h⟩ := run_bind_eq_ok_iff.mp h
      cases h
      rw [List.length_cons, ih hrest]

end Runs

/-- `read` gives `a` on every reader whose rest begins with `bits`, and takes just these. -/
def Reads (read : Reading α) (bits : List Bool) (a : α) : Prop :=
  ∀ r : BitReader, bits <+: r.rest →
    ∃ h : r.pos + bits.length ≤ r.limit, read.run r = .ok a (r.skip bits.length h)

theorem Reads.pure (a : α) : Reads (Pure.pure a) [] a := by
  intro r _
  exact ⟨r.pos_le_limit, rfl⟩

theorem Reads.bind {read : Reading α} {next : α → Reading β} {xs ys : List Bool} {a : α} {b : β}
    (hread : Reads read xs a) (hnext : Reads (next a) ys b) :
    Reads (read >>= next) (xs ++ ys) b := by
  intro r hfront
  have hle'' := BitReader.pos_add_le_limit hfront
  obtain ⟨tail, htail⟩ := hfront
  have hxs : xs <+: r.rest := ⟨ys ++ tail, by rw [← htail, List.append_assoc]⟩
  obtain ⟨hle, hrun⟩ := hread r hxs
  have hys : ys <+: (r.skip xs.length hle).rest := by
    rw [BitReader.rest_skip, ← htail, List.append_assoc, List.drop_left]
    exact List.prefix_append ys tail
  obtain ⟨hle', hrun'⟩ := hnext _ hys
  refine ⟨hle'', ?_⟩
  have hseq : (read >>= next).run r = (next a).run (r.skip xs.length hle) := by
    change EStateM.bind read next r = _
    unfold EStateM.bind
    rw [show read r = _ from hrun]
    rfl
  rw [hseq, hrun', BitReader.skip_skip r _ _ hle hle' (by simpa using hle'')]
  simp only [List.length_append]

theorem Reads.map {read : Reading α} {xs : List Bool} {a : α} (f : α → β)
    (hread : Reads read xs a) : Reads (read >>= fun a => Pure.pure (f a)) xs (f a) := by
  rw [← List.append_nil xs]
  exact hread.bind (Reads.pure (f a))

theorem reads_lift_ok (a : α) : Reads (lift (.ok a)) [] a :=
  Reads.pure a

theorem reads_bits (value n : Nat) (h : value < 2 ^ n) :
    Reads (bits n) (spell value n) value := by
  intro r hfront
  have hle := BitReader.pos_add_le_limit hfront
  refine ⟨hle, ?_⟩
  simp only [length_spell] at hle ⊢
  have hpeek : r.peek n = spell value n := by
    rw [BitReader.peek_eq_take r n hle]
    have htake := List.prefix_iff_eq_take.mp hfront
    rw [length_spell] at htake
    exact htake.symm
  rw [run_bits_within hle, hpeek, bitsValue_spell value n h]

theorem reads_bit (b : Bool) : Reads bit [b] b := by
  intro r hfront
  have hle := BitReader.pos_add_le_limit hfront
  refine ⟨hle, ?_⟩
  have hpeek : r.peek 1 = [b] := by
    rw [BitReader.peek_eq_take r 1 hle]
    exact (List.prefix_iff_eq_take.mp hfront).symm
  have hhead : bitAt r.data r.pos = b := by
    simpa [BitReader.peek] using hpeek
  rw [run_bit_within hle, hhead]
  rfl

theorem reads_byte (b : UInt8) : Reads byte (spell b.toNat 8) b := by
  have hbits := (reads_bits b.toNat 8 b.toNat_lt).map UInt8.ofNat
  simpa [byte] using hbits

theorem wordBytes_join (word : UInt32) :
    word.toUInt8.toUInt32 ||| ((word >>> 8).toUInt8.toUInt32 <<< 8) |||
      ((word >>> 16).toUInt8.toUInt32 <<< 16) ||| ((word >>> 24).toUInt8.toUInt32 <<< 24) =
        word := by
  apply UInt32.toBitVec_inj.mp
  apply BitVec.eq_of_getLsbD_eq
  intro i hi
  simp only [UInt32.toBitVec_or, UInt32.toBitVec_shiftLeft, UInt8.toBitVec_toUInt32,
    UInt32.toBitVec_toUInt8, UInt32.toBitVec_shiftRight, UInt32.toBitVec_ofNat,
    BitVec.ofNat_eq_ofNat, BitVec.reduceMod, BitVec.ushiftRight_eq', BitVec.shiftLeft_eq',
    BitVec.toNat_ofNat, Nat.reducePow, Nat.reduceMod, BitVec.getLsbD_or, BitVec.getLsbD_setWidth,
    BitVec.getLsbD_shiftLeft, BitVec.getLsbD_ushiftRight]
  -- Bit `i` comes from exactly one of the four bytes.
  grind

theorem reads_word (w : UInt32) :
    Reads word ((BitWriter.wordBytes w).flatMap fun b => spell b.toNat 8) w := by
  have hbytes : Reads word _ _ :=
    (reads_byte w.toUInt8).bind ((reads_byte (w >>> 8).toUInt8).bind
      ((reads_byte (w >>> 16).toUInt8).bind ((reads_byte (w >>> 24).toUInt8).map _)))
  rw [wordBytes_join] at hbytes
  simpa [word, BitWriter.wordBytes] using hbytes

theorem Reads.list {read : Reading α} {bits : α → List Bool} (items : List α)
    (h : ∀ a ∈ items, Reads read (bits a) a) :
    Reads (Reading.list read items.length) (items.flatMap bits) items := by
  induction items with
  | nil => exact .pure []
  | cons a rest ih =>
      have hhead := h a List.mem_cons_self
      have htail := ih fun b hb => h b (List.mem_cons_of_mem a hb)
      exact hhead.bind (htail.map (a :: ·))

/-- A check of the bits left passes when what is read next is long enough. -/
theorem Reads.guard {read : Reading α} {xs : List Bool} {a : α} (n : Nat) (fault : Fault)
    (hread : Reads read xs a) (hlength : n ≤ xs.length) :
    Reads (do
      let r ← get
      if r.remaining < n then refuse fault
      read) xs a := by
  intro r hfront
  have hlong : ¬ r.remaining < n := by
    have hle := hfront.length_le
    rw [BitReader.length_rest] at hle
    omega
  obtain ⟨hle, hrun⟩ := hread r hfront
  refine ⟨hle, ?_⟩
  rw [← hrun]
  change (if r.remaining < n then (refuse fault >>= fun _ => read) else read) r = read r
  rw [if_neg hlong]

end Reading

end HopCodec
