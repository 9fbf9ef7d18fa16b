/-
Frame headers.  A header whose fields are in range is written in twelve bytes and read back as it
was.
-/
import Mathlib.Tactic.ByContra
import HopCodec.Frame.Header
import HopCodec.Proofs.Bits.Reading

namespace HopCodec

namespace FrameHeader

open BitWriter Reading

/-- What the range checks of a header leave. -/
structure InRange (h : FrameHeader) : Prop where
  width_pos : 0 < h.width.toNat
  height_pos : 0 < h.height.toNat
  width_le : h.width.toNat ≤ dimensionMax
  height_le : h.height.toNat ≤ dimensionMax
  pixels_le : h.width.toNat * h.height.toNat ≤ pixelsMax
  blocksW_pos : 0 < h.blocksW.toNat
  blocksH_pos : 0 < h.blocksH.toNat
  single : h.mode = .sequential → h.blocksW = 1 ∧ h.blocksH = 1
  ratio_ge : Predictor.ratioMin ≤ h.ratio.toNat
  ratio_le : h.ratio.toNat ≤ Predictor.ratioMax
  average : h.prediction = .weighted → h.mode = .sequential

theorem uint8_eq_zero_iff (a : UInt8) : a = 0 ↔ a.toNat = 0 :=
  UInt8.toNat_inj.symm

theorem uint32_eq_zero_iff (a : UInt32) : a = 0 ↔ a.toNat = 0 :=
  UInt32.toNat_inj.symm

theorem fieldFault?_eq_none_iff (h : FrameHeader) : h.fieldFault? = none ↔ h.InRange := by
  unfold fieldFault?
  simp only [uint8_eq_zero_iff, uint32_eq_zero_iff]
  constructor
  · intro hnone
    split at hnone; · cases hnone
    split at hnone; · cases hnone
    split at hnone; · cases hnone
    split at hnone; · cases hnone
    split at hnone; · cases hnone
    split at hnone; · cases hnone
    split at hnone; · cases hnone
    next hsize hmax hpixels hblocks hsingle hratio hweighted =>
      refine ⟨by omega, by omega, by omega, by omega, by omega, by omega, by omega, ?_, by omega,
        by omega, ?_⟩
      · intro hmode
        by_contra hgrid
        exact hsingle ⟨hmode, hgrid⟩
      · intro hprediction
        by_contra hmode
        exact hweighted ⟨hprediction, hmode⟩
  · intro hrange
    have hwidth := hrange.width_pos
    have hheight := hrange.height_pos
    have hwidthMax := hrange.width_le
    have hheightMax := hrange.height_le
    have hpixels := hrange.pixels_le
    have hblocksW := hrange.blocksW_pos
    have hblocksH := hrange.blocksH_pos
    have hratioMin := hrange.ratio_ge
    have hratioMax := hrange.ratio_le
    rw [if_neg (by omega), if_neg (by omega), if_neg (by omega), if_neg (by omega),
      if_neg fun hmode => hmode.2 (hrange.single hmode.1), if_neg (by omega),
      if_neg fun hmode => hmode.2 (hrange.average hmode.1)]

/-- A header is valid if its fields are in range and its grids exist. -/
theorem validate_eq_ok_iff (h : FrameHeader) :
    h.validate = .ok () ↔ h.InRange ∧ ∃ g, h.grids = .ok g := by
  unfold validate
  rw [← fieldFault?_eq_none_iff]
  cases h.fieldFault? with
  | some fault => simp
  | none => cases h.grids <;> simp [Except.map]

def bits (h : FrameHeader) : List Bool :=
  spell h.modeByte.toNat 8 ++ (wordBytes h.width).flatMap (fun b => spell b.toNat 8) ++
    (wordBytes h.height).flatMap (fun b => spell b.toNat 8) ++ spell h.blocksW.toNat 8 ++
    spell h.blocksH.toNat 8 ++ spell h.parameterByte.toNat 8

theorem writes_write (h : FrameHeader) : Writes (fun w => h.write w) h.bits := by
  have hmode := writes_writeByte h.modeByte
  have hsize := (hmode.comp (writes_writeWord h.width)).comp (writes_writeWord h.height)
  have hblocks := (hsize.comp (writes_writeByte h.blocksW)).comp (writes_writeByte h.blocksH)
  have hall := hblocks.comp (writes_writeByte h.parameterByte)
  change Writes (fun w => (((((w.writeByte h.modeByte).writeWord h.width).writeWord
    h.height).writeByte h.blocksW).writeByte h.blocksH).writeByte h.parameterByte) h.bits
  exact hall

theorem toNat_modeByte (h : FrameHeader) :
    h.modeByte.toNat = h.chroma.code * 16 + h.mode.code := by
  unfold modeByte
  cases h.chroma <;> cases h.mode <;> rfl

theorem modeByte_mod (h : FrameHeader) : h.modeByte.toNat % 16 = h.mode.code := by
  rw [toNat_modeByte]
  cases h.chroma <;> cases h.mode <;> rfl

theorem modeByte_div (h : FrameHeader) : h.modeByte.toNat / 16 = h.chroma.code := by
  rw [toNat_modeByte]
  cases h.chroma <;> cases h.mode <;> rfl

theorem weighted_bits (b : BitVec 8) (h : b < 0x80#8) :
    (0x80#8 ||| b) &&& ~~~0x80#8 = b ∧ (0x80#8 ||| b) &&& 0x80#8 ≠ 0#8 ∧
      b &&& ~~~0x80#8 = b ∧ b &&& 0x80#8 = 0#8 := by
  revert b
  decide

/-- The ratio and the weighted flag share a byte without touching each other. -/
theorem parameterByte_split (h : FrameHeader) (hratio : h.ratio.toNat < 128) :
    h.parameterByte &&& ~~~weightedFlag = h.ratio ∧
      (h.parameterByte &&& weightedFlag = 0 ↔ h.prediction = .average) := by
  obtain ⟨hclear, hset, hclear', hset'⟩ := weighted_bits h.ratio.toBitVec hratio
  unfold parameterByte
  cases h.prediction with
  | average =>
      exact ⟨UInt8.toBitVec_inj.mp hclear', iff_of_true (UInt8.toBitVec_inj.mp hset') rfl⟩
  | weighted =>
      refine ⟨UInt8.toBitVec_inj.mp hclear, ?_⟩
      simp only [reduceCtorEq, iff_false]
      exact fun hzero => hset (congrArg UInt8.toBitVec hzero)

theorem reads_readFields (h : FrameHeader) (hratio : h.ratio.toNat < 128) :
    Reads readFields h.bits h := by
  obtain ⟨hclear, hflag⟩ := parameterByte_split h hratio
  have hmode : Reads (lift ((FrameMode.ofCode? (h.modeByte.toNat % 16)).mapError Fault.header)) []
      h.mode := by
    rw [modeByte_mod, FrameMode.ofCode?_code]
    exact reads_lift_ok _
  have hchroma : Reads
      (lift ((ChromaFormat.ofCode? (h.modeByte.toNat / 16)).mapError Fault.header)) []
      h.chroma := by
    rw [modeByte_div, ChromaFormat.ofCode?_code]
    exact reads_lift_ok _
  have hfields : (⟨h.mode, h.chroma, h.width, h.height, h.blocksW, h.blocksH,
      h.parameterByte &&& ~~~weightedFlag,
      if h.parameterByte &&& weightedFlag = 0 then .average else .weighted⟩ : FrameHeader) = h := by
    rw [hclear]
    by_cases hzero : h.parameterByte &&& weightedFlag = 0
    · rw [if_pos hzero, ← hflag.mp hzero]
    · have hweighted : h.prediction = .weighted := by
        cases hprediction : h.prediction with
        | average => exact absurd (hflag.mpr hprediction) hzero
        | weighted => rfl
      rw [if_neg hzero, ← hweighted]
  have hreads : Reads readFields _ _ :=
    (reads_byte h.modeByte).bind (hmode.bind (hchroma.bind ((reads_word h.width).bind
      ((reads_word h.height).bind ((reads_byte h.blocksW).bind ((reads_byte h.blocksH).bind
        ((reads_byte h.parameterByte).bind (Reads.pure _))))))))
  rw [hfields] at hreads
  simpa [bits, List.append_assoc] using hreads

theorem reads_read (h : FrameHeader) (hvalid : h.validate = .ok ()) :
    Reads FrameHeader.read h.bits h := by
  have hratio := ((validate_eq_ok_iff h).mp hvalid).1.ratio_le
  have hlift : Reads (lift h.validate) [] () := by
    rw [hvalid]
    exact reads_lift_ok ()
  rw [← List.append_nil h.bits]
  exact (reads_readFields h (by unfold Predictor.ratioMax at hratio; omega)).bind
    (hlift.bind (Reads.pure h))

end FrameHeader

end HopCodec
