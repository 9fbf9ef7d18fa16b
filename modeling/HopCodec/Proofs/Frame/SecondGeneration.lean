/-
The second generation of a frame.  In the basic modes no block drops samples, so the blocks of a
reconstruction are exactly the pixels that were reconstructed, and coding it again takes the same
hops in every block: nothing is lost any more.
-/
import HopCodec.Proofs.Frame.RoundTrip
import HopCodec.Proofs.Prediction.SecondGeneration

namespace HopCodec

namespace Predictor

/-- A block whose pixels are those of a reconstructed block is coded like the original one. -/
theorem codeBlock_of_reconstructed (p : Predictor) (ht : p.tables.Swept)
    (hratio : ratioMin ≤ p.ratio ∧ p.ratio ≤ ratioMax) (plane plane' : Plane) {b : Block}
    (hfull : b.x.samples = b.x.length ∧ b.y.samples = b.y.length)
    (hpos : 0 < b.width * b.height)
    (hcrop : plane'.crop b.x.start b.y.start b.width b.height = (p.codeBlock plane b).pixels) :
    p.codeBlock plane' b = p.codeBlock plane b := by
  rw [codeBlock_of_full p plane hfull] at hcrop ⊢
  rw [codeBlock_of_full p plane' hfull, hcrop]
  simp only [encodeBlock_values p _ ht hratio]
  congr 1
  exact getD_values_scan_zero p _ _ _ hpos

end Predictor

namespace BlockGrid

/-- The reconstruction of a full grid is coded like the plane it was made from. -/
theorem codeBlocks_of_reconstructed {g : BlockGrid} {width height : Nat}
    (hg : g.Tiles width height) (hfull : g.Full) (p : Predictor) (ht : p.tables.Swept)
    (hratio : Predictor.ratioMin ≤ p.ratio ∧ p.ratio ≤ Predictor.ratioMax)
    {plane plane' : Plane}
    (hplane : g.assemble width height
      ((g.blocks.toList.map (p.codeBlock plane)).map CodedBlock.pixels) = .ok plane') :
    g.blocks.toList.map (p.codeBlock plane') = g.blocks.toList.map (p.codeBlock plane) := by
  apply List.map_congr_left
  intro b hmem
  obtain ⟨k, hk, rfl⟩ := Array.mem_iff_getElem.mp (Array.mem_toList_iff.mp hmem)
  have hplaced := hg.placed k hk
  have hkept := hfull _ (Array.getElem_mem hk)
  have hpos : 0 < g.blocks[k].width * g.blocks[k].height :=
    Nat.mul_pos hplaced.x.length_pos hplaced.y.length_pos
  apply p.codeBlock_of_reconstructed ht hratio plane plane' hkept hpos
  have hk' : k < ((g.blocks.toList.map (p.codeBlock plane)).map CodedBlock.pixels).length := by
    simpa using hk
  have hpixels : ((g.blocks.toList.map (p.codeBlock plane)).map CodedBlock.pixels)[k] =
      (p.codeBlock plane g.blocks[k]).pixels := by
    simp
  rw [← hpixels]
  apply crop_assemble hg hplane hk hk'
  rw [hpixels, p.codeBlock_of_full plane hkept]
  exact p.size_values_scan _ _ _ _

end BlockGrid

namespace Model

/-- In a basic mode a frame and its reconstruction are coded alike. -/
theorem encodeFrame_reconstruction {m : Model} {s : Settings} (hs : s.validate = .ok ())
    (hmode : s.mode ≠ .advanced) (ht : m.tables.Swept) {f : Frame} {e : CodedFrame}
    (he : m.encodeFrame s f none = .ok e) :
    m.encodeFrame s e.reconstruction none = .ok e := by
  obtain ⟨c⟩ := coding_of_encodeFrame hs he
  have hyields := c.yields he
  have hframe := hyields.frame_eq
  have hsampling (f : Frame) : samplingOf c.predictor s f none c.full = none := if_neg hmode
  have hgrids : c.grids = c.full := by
    have heq := c.grids_eq
    rw [hsampling] at heq
    exact (Except.ok.inj heq).symm
  obtain ⟨hlumaFull, hchromaFull⟩ := FrameHeader.full_of_grids c.full_eq
  have hrange := c.ratio_range hs
  rw [← c.ratio_eq.2.1] at ht
  have hblocks : codeBlocks c.predictor e.reconstruction c.full =
      codeBlocks c.predictor f c.full := by
    obtain ⟨hluma, hchromaA, hchromaB, -⟩ := FrameGrids.assemble_eq_ok_iff.mp hframe
    unfold Coding.blocks at hluma hchromaA hchromaB
    rw [hgrids] at hluma hchromaA hchromaB
    simp only [codeBlocks]
    rw [BlockGrid.codeBlocks_of_reconstructed c.full_fit.luma hlumaFull c.predictor ht hrange
        hluma,
      BlockGrid.codeBlocks_of_reconstructed c.full_fit.chroma hchromaFull c.predictor ht hrange
        hchromaA,
      BlockGrid.codeBlocks_of_reconstructed c.full_fit.chroma hchromaFull c.predictor ht hrange
        hchromaB]
  have hheader : headerOf s e.reconstruction = headerOf s f := by
    obtain ⟨hchroma, hwidth, hheight⟩ := FrameGrids.shape_of_assemble hframe
    rw [c.header_size.1] at hwidth
    rw [c.header_size.2] at hheight
    rw [c.header_chroma] at hchroma
    unfold headerOf
    rw [hchroma, hwidth, hheight]
  have hfull : c.header.grids.mapError Fault.asArgument = .ok c.full := by
    rw [c.full_eq]
    rfl
  rw [← he, encodeFrame_eq_codeSampled, encodeFrame_eq_codeSampled, c.predictor_eq, hheader,
    c.header_eq]
  simp only [bind, Except.bind, hfull, hsampling, sampledGrids]
  unfold codeSampled
  rw [hblocks]

end Model

namespace Codec

/-- In the basic modes the second generation is the identity: coding a reconstruction gives the
same bytes and the same reconstruction again. -/
theorem encode_reconstruction (c : Codec) (hmode : c.settings.mode ≠ .advanced)
    (ht : c.model.tables.Swept) (f : Frame) (e : CodedFrame) (he : c.encode f = .ok e) :
    ∃ e', c.encode e.reconstruction = .ok e' ∧ e'.bytes = e.bytes ∧
      e'.reconstruction = e.reconstruction :=
  ⟨e, Model.encodeFrame_reconstruction c.valid hmode ht he, rfl, rfl⟩

/-- Three pixels on even ladders. -/
theorem encode_reconstruction_threePixels :
    let c : Codec := ⟨⟨.ofLadders fun _ => Ladder.even, Float32.pow⟩, { mode := .sequential }, rfl⟩
    ∃ e, c.encode (.ofRow #[10, 60, 200]) = .ok e ∧
      ∃ e', c.encode e.reconstruction = .ok e' ∧ e'.bytes = e.bytes ∧
        e'.reconstruction = e.reconstruction := by
  intro c
  have hheader : Model.headerOf c.settings (.ofRow #[10, 60, 200]) =
      .ok (c.settings.header .yuv444 3 1) :=
    Model.headerOf_eq_ok_iff.mpr ⟨by decide, rfl, by decide +kernel⟩
  have hmesh : c.settings.mode = .advanced →
      Model.MeshFits (c.settings.header .yuv444 3 1) none := by
    intro hmode
    cases hmode
  obtain ⟨coding⟩ := Model.exists_coding c.model c.valid hheader hmesh
  obtain ⟨e, he, -⟩ := coding.exists_encodeFrame
  exact ⟨e, he, encode_reconstruction c (by decide)
    (Tables.swept_ofLadders fun _ => Ladder.ordered_even) (.ofRow #[10, 60, 200]) e he⟩

end Codec

end HopCodec
