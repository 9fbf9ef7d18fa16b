/-
What a coder sees of a frame.  Two planes look alike if they have the same pixels, whatever lies
between their rows and behind them; blocks of a tiling are cut from pixels only, and so is the
estimate of relevance.  Coding never tells frames that look alike apart.
-/
import HopCodec.Proofs.Block.Partition
import HopCodec.Proofs.Machine.Coded

namespace HopCodec

namespace Plane

/-- Two planes of one size with the same pixels.  Their buffers may differ in stride, padding and
length. -/
structure LooksLike (p q : Plane) : Prop where
  width_eq : p.width = q.width
  height_eq : p.height = q.height
  pixels_eq : p.toPacked = q.toPacked

namespace LooksLike

variable {p q : Plane}

theorem get_eq (h : p.LooksLike q) {x y : Nat} (hx : x < p.width) (hy : y < p.height) :
    p.get x y = q.get x y := by
  rw [← getD_toPacked p hx hy, h.pixels_eq, h.width_eq]
  exact getD_toPacked q (h.width_eq ▸ hx) (h.height_eq ▸ hy)

/-- Blocks that cover the planes lie on pixels only. -/
theorem agreeOn (h : p.LooksLike q) {g : BlockGrid} (hg : g.Covering p.width p.height) {b : Block}
    (hb : b ∈ g.blocks) : p.AgreeOn b q := by
  rintro x y ⟨⟨-, hx⟩, -, hy⟩
  obtain ⟨hwide, hhigh⟩ := hg.block_le b hb
  exact h.get_eq (hx.trans_le hwide) (hy.trans_le hhigh)

/-- Every block of a tiling is coded alike. -/
theorem map_codeBlock (h : p.LooksLike q) {g : BlockGrid} (hg : g.Tiles p.width p.height)
    (predictor : Predictor) :
    g.blocks.toList.map (predictor.codeBlock p) = g.blocks.toList.map (predictor.codeBlock q) := by
  apply List.map_congr_left
  intro b hb
  have hagree := h.agreeOn hg.covering (Array.mem_toList_iff.mp hb)
  rw [Predictor.codeBlock, Predictor.codeBlock, hagree.crop_eq]

/-- Relevance is estimated alike. -/
theorem estimate_eq (h : p.LooksLike q) (predictor : Predictor) (grid : BlockGrid) :
    Relevance.estimate predictor p grid = Relevance.estimate predictor q grid := by
  unfold Relevance.estimate
  rw [h.width_eq, h.height_eq, h.pixels_eq]

end LooksLike

end Plane

namespace Frame

structure LooksLike (f f' : Frame) : Prop where
  chroma_eq : f.chroma = f'.chroma
  luma : f.planes.luma.LooksLike f'.planes.luma
  chromaA : f.planes.chromaA.LooksLike f'.planes.chromaA
  chromaB : f.planes.chromaB.LooksLike f'.planes.chromaB

/-- Format, size and packed pixels are all there is to see. -/
theorem looksLike_of_packed {f f' : Frame} (hchroma : f.chroma = f'.chroma)
    (hsize : f.width = f'.width ∧ f.height = f'.height) (hpacked : f.packed = f'.packed) :
    f.LooksLike f' := by
  obtain ⟨hwidth, hheight⟩ := hsize
  have hsizes : f.chroma.chromaSize f.planes.luma.width f.planes.luma.height =
      f'.chroma.chromaSize f'.planes.luma.width f'.planes.luma.height := by
    rw [hchroma]
    exact congrArg₂ _ hwidth hheight
  have hsizeA := (f.chromaA_size.trans hsizes).trans f'.chromaA_size.symm
  have hsizeB := (f.chromaB_size.trans hsizes).trans f'.chromaB_size.symm
  exact {
    chroma_eq := hchroma
    luma := ⟨hwidth, hheight, congrArg Channels.luma hpacked⟩
    chromaA := ⟨congrArg Prod.fst hsizeA, congrArg Prod.snd hsizeA,
      congrArg Channels.chromaA hpacked⟩
    chromaB := ⟨congrArg Prod.fst hsizeB, congrArg Prod.snd hsizeB,
      congrArg Channels.chromaB hpacked⟩ }

end Frame

namespace Frame.LooksLike

variable {f f' : Frame}

theorem headerOf_eq (h : f.LooksLike f') (s : Settings) :
    Model.headerOf s f = Model.headerOf s f' := by
  have hwidth : f.width = f'.width := h.luma.width_eq
  have hheight : f.height = f'.height := h.luma.height_eq
  rw [Model.headerOf, Model.headerOf, hwidth, hheight, h.chroma_eq]

theorem samplingOf_eq (h : f.LooksLike f') (p : Predictor) (s : Settings)
    (mesh : Option RelevanceMesh) (full : FrameGrids) :
    Model.samplingOf p s f mesh full = Model.samplingOf p s f' mesh full := by
  rw [Model.samplingOf, Model.samplingOf, h.luma.estimate_eq p full.luma]

/-- Every block of every plane is coded alike. -/
theorem codeBlocks_eq (h : f.LooksLike f') {m : Model} {s : Settings}
    {mesh : Option RelevanceMesh} (c : Coding m s f mesh) (hs : s.validate = .ok ()) :
    Model.codeBlocks c.predictor f c.grids = Model.codeBlocks c.predictor f' c.grids := by
  obtain ⟨hluma, hchromaA, hchromaB⟩ := c.plane_sizes
  have fitL := (c.fit hs).luma
  have fitA := (c.fit hs).chroma
  have fitB := (c.fit hs).chroma
  rw [hluma] at fitL
  rw [hchromaA] at fitA
  rw [hchromaB] at fitB
  simp only [Model.codeBlocks]
  rw [h.luma.map_codeBlock fitL, h.chromaA.map_codeBlock fitA, h.chromaB.map_codeBlock fitB]

/-- Frames that look alike are coded alike, with the same faults. -/
theorem encodeFrame_eq (h : f.LooksLike f') (m : Model) {s : Settings} (hs : s.validate = .ok ())
    (mesh : Option RelevanceMesh) : m.encodeFrame s f mesh = m.encodeFrame s f' mesh := by
  rcases m.encodeFrame_cases hs f mesh with
    ⟨fault, hheader, hcode⟩ | ⟨header, given, hheader, hmode, rfl, hmesh, hcode⟩ | ⟨⟨c⟩⟩
  · rw [hcode]
    rw [h.headerOf_eq] at hheader
    exact (Model.encodeFrame_of_header_error hs hheader mesh).symm
  · rw [hcode]
    rw [h.headerOf_eq] at hheader
    exact (Model.encodeFrame_of_mismatch hs hheader hmode hmesh).symm
  · have hheader := c.header_eq
    have hgrids := c.grids_eq
    rw [h.headerOf_eq] at hheader
    rw [h.samplingOf_eq, h.chroma_eq] at hgrids
    have hblocks := h.codeBlocks_eq c hs
    let c' : Coding m s f' mesh :=
      ⟨c.predictor, c.header, c.full, c.grids, c.lumaTable, c.chromaTable, c.predictor_eq, hheader,
        c.full_eq, hgrids, hblocks ▸ c.lumaTable_eq, hblocks ▸ c.chromaTable_eq⟩
    have hsampling : c.sampling = c'.sampling := h.samplingOf_eq c.predictor s mesh c.full
    rw [c.encodeFrame_eq_codeSampled, c'.encodeFrame_eq_codeSampled, ← hsampling]
    unfold Model.codeSampled
    rw [hblocks]

end Frame.LooksLike

namespace Codec

open Machine (Addressable)

/-- Only visible pixels matter.  Two frames of one format and size with the same packed pixels give
the same result whatever their strides, paddings and trailing bytes are: the same fault, or the same
stream, reconstruction and mesh.  The machine, which reads the strided buffers, agrees. -/
theorem encode_visible (c : Codec) {f f' : Frame} (hchroma : f.chroma = f'.chroma)
    (hsize : f.width = f'.width ∧ f.height = f'.height) (hpacked : f.packed = f'.packed) :
    (c.encode f = c.encode f' ∧
      ∀ mesh, c.encodeWithMesh f mesh = c.encodeWithMesh f' mesh) ∧
    (Addressable f → Addressable f' →
      (Machine.Engine.ofModel c.model).encode c.settings (.ofFrame f) =
        (Machine.Engine.ofModel c.model).encode c.settings (.ofFrame f') ∧
      ∀ mesh, (Machine.Engine.ofModel c.model).encodeWithMesh c.settings (.ofFrame f) mesh =
        (Machine.Engine.ofModel c.model).encodeWithMesh c.settings (.ofFrame f') mesh) := by
  have hlooks := Frame.looksLike_of_packed hchroma hsize hpacked
  have hencode : c.encode f = c.encode f' := hlooks.encodeFrame_eq c.model c.valid none
  have hwithMesh : ∀ mesh, c.encodeWithMesh f mesh = c.encodeWithMesh f' mesh := by
    intro mesh
    rw [encodeWithMesh, encodeWithMesh, hlooks.encodeFrame_eq c.model c.valid]
  refine ⟨⟨hencode, hwithMesh⟩, fun hdata hdata' => ⟨?_, fun mesh => ?_⟩⟩
  · rw [Machine.Engine.encode_eq c hdata, Machine.Engine.encode_eq c hdata', hencode]
  · rw [Machine.Engine.encodeWithMesh_eq c hdata, Machine.Engine.encodeWithMesh_eq c hdata',
      hwithMesh]

/-- Two pixels under one another, once packed and once with a byte between the rows and two behind
them. -/
theorem encode_visible_twoRows :
    let packed : Plane := ⟨1, 2, 1, #[200, 10], by decide, .inr (by decide)⟩
    let padded : Plane := ⟨1, 2, 2, #[200, 7, 10, 9, 9], by decide, .inr (by decide)⟩
    let f : Frame := ⟨.yuv444, ⟨packed, packed, packed⟩, by decide, by decide⟩
    let f' : Frame := ⟨.yuv444, ⟨padded, packed, padded⟩, by decide, by decide⟩
    let c : Codec := ⟨.standard, { mode := .sequential }, rfl⟩
    f ≠ f' ∧ c.encode f = c.encode f' ∧
      (Machine.Engine.ofModel c.model).encode c.settings (.ofFrame f) =
        (Machine.Engine.ofModel c.model).encode c.settings (.ofFrame f') := by
  intro packed padded f f' c
  obtain ⟨⟨hencode, -⟩, hmachine⟩ :=
    encode_visible c (show f.chroma = f'.chroma from rfl) ⟨rfl, rfl⟩ (by decide)
  obtain ⟨hmachine, -⟩ := hmachine ⟨by decide, by decide, by decide⟩
    ⟨by decide, by decide, by decide⟩
  exact ⟨by decide, hencode, hmachine⟩

end Codec

end HopCodec
