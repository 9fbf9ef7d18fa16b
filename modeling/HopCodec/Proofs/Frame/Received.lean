/-
What is known of a prologue that was read.  The bytes may come from anywhere: once they are read
as a prologue, its header is valid, its tables tell their codewords apart, and the grids tile the
planes with one seed for each block.
-/
import HopCodec.Frame.Decoded
import HopCodec.Proofs.Frame.Coded

namespace HopCodec

open Reading

/-- A header that was read is valid. -/
theorem FrameHeader.valid_of_read {h : FrameHeader} {r r' : BitReader}
    (hread : read.run r = .ok h r') : h.validate = .ok () := by
  obtain ⟨h', s, -, hread⟩ := run_bind_eq_ok_iff.mp hread
  obtain ⟨_, s', hvalid, hread⟩ := run_bind_eq_ok_iff.mp hread
  obtain ⟨hok, -⟩ := run_lift_eq_ok_iff.mp hvalid
  cases hread
  exact hok

/-- A table that was read is sound. -/
theorem CodeTable.sound_of_read {t : CodeTable} {r r' : BitReader}
    (hread : read.run r = .ok t r') : t.Sound := by
  obtain ⟨lengths, s, -, hread⟩ := run_bind_eq_ok_iff.mp hread
  exact sound_of_canonical (run_lift_mapError_eq_ok_iff.mp hread).1

/-- A mesh that was read has the blocks asked for. -/
theorem RelevanceMesh.blocks_of_read {blocksW blocksH : Nat} {m : RelevanceMesh}
    {r r' : BitReader} (hread : (read blocksW blocksH).run r = .ok m r') :
    m.blocksW = blocksW ∧ m.blocksH = blocksH := by
  obtain ⟨corners, s, -, hread⟩ := run_bind_eq_ok_iff.mp hread
  cases hread
  exact ⟨rfl, rfl⟩

namespace Prologue

/-- What is known of a prologue that was read, and of the grids read with it. -/
structure Received (p : Prologue) (grids : FrameGrids) : Prop where
  valid : p.header.validate = .ok ()
  fit : grids.Fit p.header
  luma_seeds : p.seeds.luma.length = grids.luma.blocks.size
  chromaA_seeds : p.seeds.chromaA.length = grids.chroma.blocks.size
  chromaB_seeds : p.seeds.chromaB.length = grids.chroma.blocks.size
  chroma_table : p.chromaTable.Sound
  luma_table : p.lumaTable.Sound
  sampling : SamplingFits p.header p.sampling

/-- Quality and mesh are read in advanced mode and nothing is read in the others. -/
theorem sampling_of_read {h : FrameHeader} {sampling : Option Sampling} {r r' : BitReader}
    (hread : (readSampling h).run r = .ok sampling r') :
    (h.mode = .advanced ∧ ∃ quality s mesh, Reading.byte.run r = .ok quality s ∧
      quality ≤ Sampling.qualityMax ∧
      (RelevanceMesh.read h.blocksW.toNat h.blocksH.toNat).run s = .ok mesh r' ∧
      sampling = some ⟨quality, mesh⟩) ∨
    (h.mode ≠ .advanced ∧ sampling = none ∧ r = r') := by
  unfold readSampling at hread
  by_cases hmode : h.mode = .advanced
  · rw [if_pos hmode] at hread
    obtain ⟨quality, s, hbyte, hread⟩ := run_bind_eq_ok_iff.mp hread
    by_cases hquality : Sampling.qualityMax < quality
    · rw [if_pos hquality] at hread
      cases hread
    · rw [if_neg hquality] at hread
      obtain ⟨mesh, s', hmesh, hread⟩ := run_bind_eq_ok_iff.mp hread
      cases hread
      exact .inl ⟨hmode, quality, s, mesh, hbyte, UInt8.not_lt.mp hquality, hmesh, rfl⟩
  · rw [if_neg hmode] at hread
    cases hread
    exact .inr ⟨hmode, rfl, rfl⟩

theorem samplingFits_of_read {h : FrameHeader} {sampling : Option Sampling} {r r' : BitReader}
    (hread : (readSampling h).run r = .ok sampling r') : SamplingFits h sampling := by
  rcases sampling_of_read hread with
    ⟨hmode, quality, s, mesh, -, hquality, hmesh, rfl⟩ | ⟨hmode, rfl, -⟩
  · obtain ⟨hblocksW, hblocksH⟩ := RelevanceMesh.blocks_of_read hmesh
    exact ⟨hmode, hquality, hblocksW, hblocksH⟩
  · exact hmode

/-- The grids of a prologue fit its header if its sampling belongs to it. -/
theorem fit_of_grids {pow : Power} {p : Prologue} {full grids : FrameGrids}
    (hfull : p.header.grids = .ok full) (hsampling : SamplingFits p.header p.sampling)
    (hgrids : p.grids pow = .ok grids) : grids.Fit p.header := by
  have fit := FrameHeader.fit_of_grids hfull
  unfold Prologue.grids at hgrids
  rw [hfull] at hgrids
  rcases hs : p.sampling with - | s
  · simp only [hs] at hgrids
    cases hgrids
    exact fit
  · simp only [hs] at hgrids
    rw [hs] at hsampling
    obtain ⟨hmode, -, hblocksW, hblocksH⟩ := hsampling
    obtain ⟨sampled, hsampled, hfit⟩ := FrameGrids.exists_sample hfull hmode
      ⟨hblocksW.trans fit.luma_blocks.1.symm, hblocksH.trans fit.luma_blocks.2.symm⟩ pow
    have hequal : full.sample pow p.header.chroma s = .ok grids := hgrids
    rw [hsampled] at hequal
    obtain rfl := Except.ok.inj hequal
    exact hfit

/-- A prologue that was read was read part by part. -/
theorem parts_of_read {pow : Power} {p : Prologue} {grids : FrameGrids} {r r' : BitReader}
    (hread : (Prologue.read pow).run r = .ok (p, grids) r') :
    ∃ full s₁ s₂ s₃ s₄ s₅ s₆, FrameHeader.read.run r = .ok p.header s₁ ∧
      p.header.grids = .ok full ∧
      (Reading.list Reading.byte full.luma.blocks.size).run s₁ = .ok p.seeds.luma s₂ ∧
      (Reading.list Reading.byte full.chroma.blocks.size).run s₂ = .ok p.seeds.chromaA s₃ ∧
      (Reading.list Reading.byte full.chroma.blocks.size).run s₃ = .ok p.seeds.chromaB s₄ ∧
      CodeTable.read.run s₄ = .ok p.chromaTable s₅ ∧
      CodeTable.read.run s₅ = .ok p.lumaTable s₆ ∧
      (readSampling p.header).run s₆ = .ok p.sampling r' ∧ p.grids pow = .ok grids := by
  obtain ⟨h, s₁, hheader, hread⟩ := run_bind_eq_ok_iff.mp hread
  obtain ⟨full, s, hfull, hread⟩ := run_bind_eq_ok_iff.mp hread
  obtain ⟨luma, s₂, hluma, hread⟩ := run_bind_eq_ok_iff.mp hread
  obtain ⟨chromaA, s₃, hchromaA, hread⟩ := run_bind_eq_ok_iff.mp hread
  obtain ⟨chromaB, s₄, hchromaB, hread⟩ := run_bind_eq_ok_iff.mp hread
  obtain ⟨chromaTable, s₅, hchromaTable, hread⟩ := run_bind_eq_ok_iff.mp hread
  obtain ⟨lumaTable, s₆, hlumaTable, hread⟩ := run_bind_eq_ok_iff.mp hread
  obtain ⟨sampling, s', hsampling, hread⟩ := run_bind_eq_ok_iff.mp hread
  obtain ⟨grids', s'', hgrids, hread⟩ := run_bind_eq_ok_iff.mp hread
  obtain ⟨hwhole, rfl⟩ := run_lift_eq_ok_iff.mp hfull
  obtain ⟨hsampled, rfl⟩ := run_lift_eq_ok_iff.mp hgrids
  cases hread
  exact ⟨full, s₁, s₂, s₃, s₄, s₅, s₆, hheader, hwhole, hluma, hchromaA, hchromaB, hchromaTable,
    hlumaTable, hsampling, hsampled⟩

theorem received_of_read {pow : Power} {p : Prologue} {grids : FrameGrids} {r r' : BitReader}
    (hread : (Prologue.read pow).run r = .ok (p, grids) r') : p.Received grids := by
  obtain ⟨full, s₁, s₂, s₃, s₄, s₅, s₆, hheader, hfull, hluma, hchromaA, hchromaB, hchromaTable,
    hlumaTable, hsampling, hgrids⟩ := parts_of_read hread
  have hfits := samplingFits_of_read hsampling
  have hfit : grids.Fit p.header := fit_of_grids hfull hfits hgrids
  have fit := FrameHeader.fit_of_grids hfull
  have hsizeL : grids.luma.blocks.size = full.luma.blocks.size :=
    hfit.size_luma.trans fit.size_luma.symm
  have hsizeC : grids.chroma.blocks.size = full.chroma.blocks.size :=
    hfit.size_chroma.trans fit.size_chroma.symm
  exact ⟨FrameHeader.valid_of_read hheader, hfit, (length_of_list hluma).trans hsizeL.symm,
    (length_of_list hchromaA).trans hsizeC.symm, (length_of_list hchromaB).trans hsizeC.symm,
    CodeTable.sound_of_read hchromaTable, CodeTable.sound_of_read hlumaTable, hfits⟩

end Prologue

end HopCodec
