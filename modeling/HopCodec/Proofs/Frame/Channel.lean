/-
The three planes of a frame by name.  What holds of the luma plane on the luma grid holds of each
chroma plane on the chroma grid, so that a statement about any one of them is made once.
-/
import HopCodec.Proofs.Frame.Mosaic

namespace HopCodec

/-- The planes of a frame in stream order. -/
inductive Channel
  | luma
  | chromaA
  | chromaB
deriving DecidableEq, Repr

def Channel.index : Channel → Nat
  | luma => 0
  | chromaA => 1
  | chromaB => 2

namespace Channels

variable {α β : Type}

def get (c : Channels α) : Channel → α
  | .luma => c.luma
  | .chromaA => c.chromaA
  | .chromaB => c.chromaB

def set (c : Channels α) (k : Channel) (a : α) : Channels α :=
  match k with
  | .luma => { c with luma := a }
  | .chromaA => { c with chromaA := a }
  | .chromaB => { c with chromaB := a }

theorem ext_get {a b : Channels α} (h : ∀ k, a.get k = b.get k) : a = b := by
  obtain ⟨luma, chromaA, chromaB⟩ := a
  obtain ⟨luma', chromaA', chromaB'⟩ := b
  exact congr (congr (congrArg mk (h .luma)) (h .chromaA)) (h .chromaB)

@[simp] theorem get_map (f : α → β) (c : Channels α) (k : Channel) :
    (c.map f).get k = f (c.get k) := by
  cases k <;> rfl

@[simp] theorem get_set_self (c : Channels α) (k : Channel) (a : α) : (c.set k a).get k = a := by
  cases k <;> rfl

theorem get_set_of_ne (c : Channels α) {k k' : Channel} (h : k' ≠ k) (a : α) :
    (c.set k a).get k' = c.get k' := by
  cases k <;> cases k' <;> first | rfl | exact absurd rfl h

end Channels

def FrameHeader.planeSize (h : FrameHeader) : Channel → Nat × Nat
  | .luma => h.lumaSize
  | .chromaA => h.chromaSize
  | .chromaB => h.chromaSize

namespace FrameGrids

variable {g : FrameGrids} {h : FrameHeader}

theorem Fit.tiles (fit : g.Fit h) (k : Channel) :
    (g.channels.get k).Tiles (h.planeSize k).1 (h.planeSize k).2 := by
  cases k
  · exact fit.luma
  · exact fit.chroma
  · exact fit.chroma

theorem Fit.size_blocks (fit : g.Fit h) (k : Channel) :
    (g.channels.get k).blocks.size = h.blocksW.toNat * h.blocksH.toNat := by
  cases k
  · exact fit.size_luma
  · exact fit.size_chroma
  · exact fit.size_chroma

theorem plane_of_assemble {pixels : Channels (List Bytes)} {frame : Frame}
    (hframe : g.assemble h pixels = .ok frame) (k : Channel) :
    (g.channels.get k).assemble (h.planeSize k).1 (h.planeSize k).2 (pixels.get k) =
      .ok (frame.planes.get k) := by
  obtain ⟨hluma, hchromaA, hchromaB, -⟩ := assemble_eq_ok_iff.mp hframe
  cases k
  · exact hluma
  · exact hchromaA
  · exact hchromaB

end FrameGrids

namespace BlockGrid

/-- Two grids that cut a plane at the same boundaries, whatever samples their blocks keep. -/
structure CutAlike (g g' : BlockGrid) : Prop where
  blocksW : g'.blocksW = g.blocksW
  blocksH : g'.blocksH = g.blocksH
  xBounds : g'.xBounds = g.xBounds
  yBounds : g'.yBounds = g.yBounds

theorem CutAlike.refl (g : BlockGrid) : g.CutAlike g :=
  ⟨rfl, rfl, rfl, rfl⟩

/-- Blocks at the same place of grids that are cut alike lie over the same pixels. -/
theorem CutAlike.covers_iff {g g' : BlockGrid} (halike : g.CutAlike g') {width height : Nat}
    (h : g.Tiles width height) (h' : g'.Tiles width height) {i x y : Nat}
    (hi : i < g.blocks.size) (hi' : i < g'.blocks.size) :
    g'.blocks[i].Covers x y ↔ g.blocks[i].Covers x y := by
  have hplaced := h.placed i hi
  have hplaced' := h'.placed i hi'
  unfold Block.Covers
  rw [hplaced.x.start_eq, hplaced.x.stop_eq, hplaced.y.start_eq, hplaced.y.stop_eq,
    hplaced'.x.start_eq, hplaced'.x.stop_eq, hplaced'.y.start_eq, hplaced'.y.stop_eq,
    halike.blocksW, halike.xBounds, halike.yBounds]

theorem cutAlike_applyMesh {pow : Power} {g g' : BlockGrid} {mesh : RelevanceMesh} {quality : Nat}
    (hg : g.applyMesh pow mesh quality = .ok g') : g.CutAlike g' := by
  obtain ⟨-, -, rfl⟩ := applyMesh_eq_ok_iff.mp hg
  exact ⟨rfl, rfl, rfl, rfl⟩

theorem CutAlike.image_eq {g g' : BlockGrid} (halike : g.CutAlike g') (factorX factorY : Nat) :
    g'.image factorX factorY = g.image factorX factorY := by
  unfold image
  rw [halike.blocksW, halike.blocksH, halike.xBounds, halike.yBounds]

theorem CutAlike.subsample {g g' s s' : BlockGrid} (halike : g.CutAlike g')
    {factorX factorY : Nat} (hs : g.subsample factorX factorY = .ok s)
    (hs' : g'.subsample factorX factorY = .ok s') : s.CutAlike s' := by
  obtain ⟨i, hi, rfl⟩ := subsample_eq_ok_iff.mp hs
  obtain ⟨i', hi', rfl⟩ := subsample_eq_ok_iff.mp hs'
  rw [halike.image_eq, hi] at hi'
  obtain rfl := Except.ok.inj hi'
  exact ⟨rfl, rfl, rfl, rfl⟩

end BlockGrid

namespace Model

/-- Sampling leaves the boundaries of a header's grids where they are. -/
theorem cutAlike_sampledGrids (m : Model) {h : FrameHeader} {full g : FrameGrids}
    (hfull : h.grids = .ok full) (sampling : Option Sampling)
    (hg : m.sampledGrids h.chroma full sampling = .ok g) (k : Channel) :
    (full.channels.get k).CutAlike (g.channels.get k) := by
  rcases sampling with - | s
  · cases hg
    exact .refl _
  · obtain ⟨-, hchroma, -⟩ := FrameHeader.grids_eq_ok_iff.mp hfull
    obtain ⟨hluma, hsampled⟩ := FrameGrids.sample_eq_ok_iff.mp hg
    have halike := BlockGrid.cutAlike_applyMesh hluma
    cases k
    · exact halike
    · exact halike.subsample hchroma hsampled
    · exact halike.subsample hchroma hsampled

end Model

/-- The grids of a prologue are cut like those of its header. -/
theorem Prologue.cutAlike_grids {m : Model} {p : Prologue} {full g : FrameGrids}
    (hfull : p.header.grids = .ok full) (hg : p.grids m.pow = .ok g) (k : Channel) :
    (full.channels.get k).CutAlike (g.channels.get k) := by
  refine Model.cutAlike_sampledGrids m hfull p.sampling ?_ k
  unfold Prologue.grids at hg
  rw [hfull] at hg
  cases hsampling : p.sampling with
  | none =>
      rw [hsampling] at hg
      exact hg
  | some sampling =>
      rw [hsampling] at hg
      exact hg

theorem Coding.get_blocks {m : Model} {s : Settings} {f : Frame} {mesh : Option RelevanceMesh}
    (c : Coding m s f mesh) (k : Channel) :
    c.blocks.get k =
      (c.grids.channels.get k).blocks.toList.map (c.predictor.codeBlock (f.planes.get k)) := by
  cases k <;> rfl

end HopCodec
