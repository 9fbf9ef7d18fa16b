/-
Independence of blocks.  A block is coded from its own pixels, and its seed and hops rebuild its own
pixels: what is coded for it is the same in all frames that look alike there, and a damaged seed
does no harm outside.
-/
import HopCodec.Proofs.Frame.Reseed

namespace HopCodec

structure Frame.SameShape (f f' : Frame) : Prop where
  chroma : f.chroma = f'.chroma
  width : f.width = f'.width
  height : f.height = f'.height

namespace Coding

variable {m : Model} {s : Settings} {f f' : Frame} {mesh : Option RelevanceMesh}

/-- Unless a mesh is estimated, format and size of a frame decide what its blocks are coded with. -/
theorem ground_eq (hshape : f.SameShape f') (hmesh : s.mode = .advanced → mesh.isSome)
    (c : Coding m s f mesh) (c' : Coding m s f' mesh) :
    c'.predictor = c.predictor ∧ c'.header = c.header ∧ c'.grids = c.grids := by
  have hpredictor : c'.predictor = c.predictor :=
    Except.ok.inj (c'.predictor_eq.symm.trans c.predictor_eq)
  have hheader : c'.header = c.header := by
    have hsame : Model.headerOf s f' = Model.headerOf s f := by
      rw [Model.headerOf, Model.headerOf, hshape.chroma, hshape.width, hshape.height]
    exact Except.ok.inj (c'.header_eq.symm.trans (hsame.trans c.header_eq))
  have hfull : c'.full = c.full := by
    have hgrids := c'.full_eq
    rw [hheader, c.full_eq] at hgrids
    exact (Except.ok.inj hgrids).symm
  refine ⟨hpredictor, hheader, ?_⟩
  have hsampling : Model.samplingOf c'.predictor s f' mesh c'.full =
      Model.samplingOf c.predictor s f mesh c.full := by
    unfold Model.samplingOf
    split
    · next hmode =>
        obtain ⟨given, rfl⟩ := Option.isSome_iff_exists.mp (hmesh hmode)
        rw [Option.getD_some, Option.getD_some]
    · rfl
  have hgrids := c'.grids_eq
  rw [hsampling, hfull, ← hshape.chroma, c.grids_eq] at hgrids
  exact (Except.ok.inj hgrids).symm

/-- The first coded sample of every block is the seed that a reader finds. -/
theorem get_seeds {c : Coding m s f mesh} {p : Prologue} (hp : p.Describes c) (k : Channel) :
    p.seeds.get k =
      (c.grids.channels.get k).blocks.toList.map (firstSample (f.planes.get k)) := by
  cases k
  · exact hp.luma_seeds
  · exact hp.chromaA_seeds
  · exact hp.chromaB_seeds

/-- A reconstruction shows over each block what the block was coded to. -/
theorem get_reconstruction (c : Coding m s f mesh) (hs : s.validate = .ok ()) {e : CodedFrame}
    (he : m.encodeFrame s f mesh = .ok e) (k : Channel) {i : Nat}
    (hi : i < (c.grids.channels.get k).blocks.size) {x y : Nat}
    (hcovers : (c.grids.channels.get k).blocks[i].Covers x y) :
    (e.reconstruction.planes.get k).get x y =
      BlockGrid.pixelAt ((c.grids.channels.get k).blocks[i],
        (c.predictor.codeBlock (f.planes.get k) (c.grids.channels.get k).blocks[i]).pixels)
          x y := by
  have hplane := FrameGrids.plane_of_assemble (c.yields he).frame_eq k
  rw [Channels.get_map, c.get_blocks] at hplane
  rw [BlockGrid.get_assemble ((c.fit hs).tiles k) hplane hi (by simpa using hi) hcovers]
  simp

/-- Two frames of one shape that agree on a block have the same seed and the same reconstruction
there. -/
theorem block_eq (hs : s.validate = .ok ()) (hshape : f.SameShape f')
    (hmesh : s.mode = .advanced → mesh.isSome) {e e' : CodedFrame}
    (he : m.encodeFrame s f mesh = .ok e) (he' : m.encodeFrame s f' mesh = .ok e') :
    ∃ g p p' n n', e.header.grids = .ok g ∧ e'.header = e.header ∧
      Prologue.inspect m.pow e.bytes = .ok (p, n) ∧
      Prologue.inspect m.pow e'.bytes = .ok (p', n') ∧
      ∀ k i (hi : i < (g.channels.get k).blocks.size),
        (f.planes.get k).AgreeOn (g.channels.get k).blocks[i] (f'.planes.get k) →
          (∃ seed, (p.seeds.get k)[i]? = some seed ∧ (p'.seeds.get k)[i]? = some seed) ∧
          (e.reconstruction.planes.get k).AgreeOn (g.channels.get k).blocks[i]
            (e'.reconstruction.planes.get k) := by
  obtain ⟨c⟩ := Model.coding_of_encodeFrame hs he
  obtain ⟨c'⟩ := Model.coding_of_encodeFrame hs he'
  obtain ⟨hpredictor, hheader, hgrids⟩ := ground_eq hshape hmesh c c'
  obtain ⟨p, hp, hdescribes, -⟩ := c.exists_inspect hs he
  obtain ⟨p', hp', hdescribes', -⟩ := c'.exists_inspect hs he'
  have hheaderE := (c.yields he).header_eq
  have hheaderE' := (c'.yields he').header_eq
  refine ⟨c.full, p, p', _, _, hheaderE ▸ c.full_eq,
    hheaderE'.trans (hheader.trans hheaderE.symm), hp, hp', ?_⟩
  intro k i hi hagree
  have fit := c.fit hs
  have hi' : i < (c.grids.channels.get k).blocks.size := by
    rw [fit.size_blocks]
    exact c.full_fit.size_blocks k ▸ hi
  have halike := Model.cutAlike_sampledGrids m c.full_eq _
    (c.header_chroma.symm ▸ c.grids_eq) k
  have hcovers : ∀ x y, (c.grids.channels.get k).blocks[i].Covers x y ↔
      (c.full.channels.get k).blocks[i].Covers x y :=
    fun x y => halike.covers_iff (c.full_fit.tiles k) (fit.tiles k) hi hi'
  have hcrop := Plane.AgreeOn.crop_eq fun x y hin => hagree x y ((hcovers x y).mp hin)
  constructor
  · have hseeds := get_seeds hdescribes k
    have hseeds' := get_seeds hdescribes' k
    rw [hgrids] at hseeds'
    refine ⟨firstSample (f.planes.get k) (c.grids.channels.get k).blocks[i], ?_, ?_⟩
    · rw [hseeds]
      simp [hi']
    · rw [hseeds']
      simp [hi', firstSample, hcrop]
  · intro x y hin
    have hin' := (hcovers x y).mpr hin
    have hblock : c.predictor.codeBlock (f.planes.get k) (c.grids.channels.get k).blocks[i] =
        c.predictor.codeBlock (f'.planes.get k) (c.grids.channels.get k).blocks[i] := by
      rw [Predictor.codeBlock, Predictor.codeBlock, hcrop]
    have hshown := c'.get_reconstruction hs he' k (i := i) (x := x) (y := y)
    simp only [hgrids, hpredictor] at hshown
    rw [c.get_reconstruction hs he k hi' hin', hshown hi' hin', hblock]

end Coding

namespace Codec

/-- Blocks are coded independently.  Unless a mesh is estimated, two frames of one format and size
that agree on a block of a channel are coded with the same seed and the same reconstruction there.
A stream that decodes decodes with any other seed for a block, too, and only pixels of that block
may change. -/
theorem blocks_independent (c : Codec) :
    (∀ f f' : Frame, f.chroma = f'.chroma → f.width = f'.width → f.height = f'.height →
      ∀ e e' : CodedFrame,
        ((c.settings.mode ≠ .advanced ∧ c.encode f = .ok e ∧ c.encode f' = .ok e') ∨
          ∃ mesh, c.encodeWithMesh f mesh = .ok e ∧ c.encodeWithMesh f' mesh = .ok e') →
        ∃ g p p' n n', e.header.grids = .ok g ∧ e'.header = e.header ∧
          Prologue.inspect c.model.pow e.bytes = .ok (p, n) ∧
          Prologue.inspect c.model.pow e'.bytes = .ok (p', n') ∧
          ∀ k i (hi : i < (g.channels.get k).blocks.size),
            (f.planes.get k).AgreeOn (g.channels.get k).blocks[i] (f'.planes.get k) →
              (∃ seed, (p.seeds.get k)[i]? = some seed ∧ (p'.seeds.get k)[i]? = some seed) ∧
              (e.reconstruction.planes.get k).AgreeOn (g.channels.get k).blocks[i]
                (e'.reconstruction.planes.get k)) ∧
    ∀ data d, c.decode data = .ok d → ∃ g, d.header.grids = .ok g ∧
      ∀ k i (hi : i < (g.channels.get k).blocks.size) (seed : UInt8), ∃ p n d',
        Prologue.inspect c.model.pow data = .ok (p, n) ∧
        (p.seeds.get k)[i]? = data[d.header.seedPlace k i]? ∧
        Prologue.inspect c.model.pow (data.setIfInBounds (d.header.seedPlace k i) seed) =
          .ok (p.withSeed k i seed, n) ∧
        c.decode (data.setIfInBounds (d.header.seedPlace k i) seed) = .ok d' ∧
        d'.header = d.header ∧ d'.consumed = d.consumed ∧
        d.frame.DiffersWithin d'.frame k (g.channels.get k).blocks[i] := by
  constructor
  · intro f f' hchroma hwidth hheight e e' hcoded
    have hshape : f.SameShape f' := ⟨hchroma, hwidth, hheight⟩
    rcases hcoded with ⟨hmode, he, he'⟩ | ⟨mesh, he, he'⟩
    · exact Coding.block_eq c.valid hshape (fun hadvanced => absurd hadvanced hmode) he he'
    · obtain ⟨-, he⟩ := c.encodeWithMesh_eq_ok_iff.mp he
      obtain ⟨-, he'⟩ := c.encodeWithMesh_eq_ok_iff.mp he'
      exact Coding.block_eq c.valid hshape (fun _ => rfl) he he'
  · intro data d hd
    obtain ⟨r, hread⟩ := Model.readFrame_of_decodeFrame hd
    obtain ⟨p, _, _, _, _, hprologue, hheader, -⟩ := Model.hops_of_readFrame hread
    obtain ⟨-, g, hg⟩ := (FrameHeader.validate_eq_ok_iff _).mp
      (Prologue.received_of_read hprologue).valid
    rw [hheader] at hg
    exact ⟨g, hg, fun k i hi seed => Model.decodeFrame_reseeded hd hg k hi seed⟩

/-- Two pixels in two blocks, each for itself. -/
def twoBlocks : Codec :=
  ⟨.standard, { blocksW := 2, blocksH := 1 }, rfl⟩

theorem exists_encode_twoBlocks (pixels : Bytes)
    (hok : (twoBlocks.encode (.ofRow pixels)).isOk = true) :
    ∃ e, twoBlocks.encode (.ofRow pixels) = .ok e := by
  cases he : twoBlocks.encode (.ofRow pixels) with
  | error fault =>
      rw [he] at hok
      cases hok
  | ok e => exact ⟨e, rfl⟩

/-- Frames that differ in the second of two pixels alone, and the first of them with another seed
for its first block. -/
theorem blocks_independent_twoBlocks :
    ∃ e e', twoBlocks.encode (.ofRow #[200, 10]) = .ok e ∧
      twoBlocks.encode (.ofRow #[200, 77]) = .ok e' ∧
      e.reconstruction.planes.luma.get 0 0 = e'.reconstruction.planes.luma.get 0 0 ∧
      ∀ seed, ∃ d b, (∀ x y, b.Covers x y ↔ x = 0 ∧ y = 0) ∧
        twoBlocks.decode (e.bytes.setIfInBounds (e.header.seedPlace .luma 0) seed) = .ok d ∧
        e.reconstruction.DiffersWithin d.frame .luma b := by
  obtain ⟨e, he⟩ := exists_encode_twoBlocks #[200, 10] (by decide +kernel)
  obtain ⟨e', he'⟩ := exists_encode_twoBlocks #[200, 77] (by decide +kernel)
  obtain ⟨hcoded, hdecoded⟩ := blocks_independent twoBlocks
  obtain ⟨g, p, p', n, n', hg, -, -, -, hagree⟩ := hcoded (.ofRow #[200, 10]) (.ofRow #[200, 77])
    rfl rfl rfl e e' (.inl ⟨by decide, he, he'⟩)
  obtain ⟨n, hdecode⟩ := decode_of_encodeFrame twoBlocks.valid he
  obtain ⟨g', hg', hreseed⟩ := hdecoded e.bytes _ hdecode
  obtain rfl := Except.ok.inj (hg.symm.trans hg')
  obtain ⟨coding⟩ := Model.coding_of_encodeFrame twoBlocks.valid he
  have hheader :=
    (coding.yields he).header_eq.trans (Model.headerOf_eq_ok_iff.mp coding.header_eq).2.1
  have hshape : (e.header.grids.toOption.map fun g => g.luma.blocks.map
      fun b => (b.x.start, b.x.stop, b.y.start, b.y.stop)) =
        some #[(0, 1, 0, 1), (1, 2, 0, 1)] := by
    rw [hheader]
    decide +kernel
  rw [hg] at hshape
  have hblocks := Option.some.inj hshape
  have hsize : g.luma.blocks.size = 2 := by simpa using congrArg Array.size hblocks
  have hfirst : g.luma.blocks[0].x.start = 0 ∧ g.luma.blocks[0].x.stop = 1 ∧
      g.luma.blocks[0].y.start = 0 ∧ g.luma.blocks[0].y.stop = 1 := by
    have hget := congrArg (·[0]?) hblocks
    simpa [hsize] using hget
  obtain ⟨hleft, hright, htop, hbottom⟩ := hfirst
  have hcovers : ∀ x y, g.luma.blocks[0].Covers x y ↔ x = 0 ∧ y = 0 := by
    intro x y
    rw [Block.Covers, hleft, hright, htop, hbottom]
    omega
  have hpos : 0 < (g.channels.get .luma).blocks.size := show 0 < g.luma.blocks.size by omega
  refine ⟨e, e', he, he', ?_, fun seed => ?_⟩
  · refine (hagree .luma 0 hpos fun x y hin => ?_).2 0 0 ((hcovers 0 0).mpr ⟨rfl, rfl⟩)
    obtain ⟨rfl, rfl⟩ := (hcovers x y).mp hin
    rfl
  · obtain ⟨p, n, d, -, -, -, hd, -, -, hwithin⟩ := hreseed .luma 0 hpos seed
    exact ⟨d, _, hcovers, hd, hwithin⟩

end Codec

end HopCodec
