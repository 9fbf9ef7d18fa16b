/-
Relevance meshes and block shapes on the machine.  Every clamp has its bounds in order, since the
largest density of a side is never below one, and every corner of a block is a corner of the mesh.
-/
import HopCodec.Machine.Shape
import HopCodec.Proofs.Machine.Cursor
import HopCodec.Proofs.Machine.Grid

namespace HopCodec

open Single

/-- A maximum with one is at least one, whatever the other operand is. -/
theorem densityMin_le_larger (x : Float32) : densityMin ≤ larger x densityMin := by
  unfold larger
  rw [if_neg (by decide)]
  split
  · next hle => exact hle
  · decide

namespace Machine

theorem mapCorners_eq {α β : Type} {f : α → Run β} {g : α → β} (h : ∀ a, f a = .ok (g a))
    (c : Corners α) : mapCorners f c = .ok (c.map g) := by
  rw [mapCorners, h, ok_bind, h, ok_bind, h, ok_bind, h]
  rfl

namespace Mesh

theorem cornerCount_eq_of_lt {blocksW blocksH : Nat}
    (h : RelevanceMesh.cornerCount blocksW blocksH < wordSize) :
    cornerCount blocksW blocksH = .ok (RelevanceMesh.cornerCount blocksW blocksH) := by
  rw [RelevanceMesh.cornerCount] at h
  have hW := Nat.le_mul_of_pos_right (blocksW + 1) (Nat.succ_pos blocksH)
  have hH := Nat.le_mul_of_pos_left (blocksH + 1) (Nat.succ_pos blocksW)
  rw [cornerCount, add_eq (Nat.lt_of_le_of_lt hW h), ok_bind, add_eq (Nat.lt_of_le_of_lt hH h),
    ok_bind, mul_eq h]
  rfl

theorem cornerCount_eq {blocksW blocksH : Nat} (hW : blocksW < 256) (hH : blocksH < 256) :
    cornerCount blocksW blocksH = .ok (RelevanceMesh.cornerCount blocksW blocksH) :=
  cornerCount_eq_of_lt (Nat.lt_of_le_of_lt (Nat.mul_le_mul hW hH) (by decide))

variable {m : RelevanceMesh}

theorem get_eq (hW : m.blocksW < 256) (hH : m.blocksH < 256) {x y : Nat} (hx : x ≤ m.blocksW)
    (hy : y ≤ m.blocksH) : get m x y = .ok (m.get x y) := by
  have hword : (0x10000 : Nat) < wordSize := by decide
  have hproduct : (m.blocksW + 1) * (m.blocksH + 1) ≤ 256 * 256 := Nat.mul_le_mul hW hH
  have hrow : (y + 1) * (m.blocksW + 1) ≤ (m.blocksH + 1) * (m.blocksW + 1) :=
    Nat.mul_le_mul_right _ (Nat.succ_le_succ hy)
  rw [Nat.mul_comm (m.blocksH + 1), Nat.succ_mul] at hrow
  have hplace : place m x y = .ok (m.place x y) := by
    rw [place, add_eq (by omega), ok_bind, mul_eq (by omega), ok_bind, add_eq (by omega)]
    rfl
  have hlt : m.place x y < m.corners.size := by
    rw [m.size_corners]
    unfold RelevanceMesh.place
    omega
  rw [get, hplace, ok_bind, fetch_eq_getD hlt default]
  rfl

theorem blockCorners_eq (hW : m.blocksW < 256) (hH : m.blocksH < 256) {column row : Nat}
    (hcolumn : column < m.blocksW) (hrow : row < m.blocksH) :
    blockCorners m column row = .ok (m.blockCorners column row) := by
  have hword : (256 : Nat) < wordSize := by decide
  have hright : add column 1 = .ok (column + 1) := add_eq (by omega)
  have hbelow : add row 1 = .ok (row + 1) := add_eq (by omega)
  simp only [blockCorners, hright, hbelow, ok_bind, get_eq hW hH (Nat.le_of_lt hcolumn)
    (Nat.le_of_lt hrow), get_eq hW hH hcolumn (Nat.le_of_lt hrow),
    get_eq hW hH (Nat.le_of_lt hcolumn) hrow, get_eq hW hH hcolumn hrow]
  rfl

open Scanner

theorem follows_readCorner : Follows readCorner RelevanceMesh.readCorner := by
  refine (follows_bits (by decide)).bind fun x => (follows_bits (by decide)).bind fun y => ?_
  rcases RelevanceLevel.ofIndex? x with - | x
  · exact .refuse _
  · rcases RelevanceLevel.ofIndex? y with - | y
    · exact .refuse _
    · exact .pure _

theorem follows_read {blocksW blocksH : Nat} (hW : blocksW < 256) (hH : blocksH < 256) :
    Follows (read blocksW blocksH) (RelevanceMesh.read blocksW blocksH) :=
  .step (cornerCount_eq hW hH) ((follows_readCorner.list _).bind fun _ => .pure _)

end Mesh

theorem relevanceDensity_eq (relevance factor : Float32) {most : Float32}
    (hmost : densityMin ≤ most) :
    relevanceDensity relevance most factor =
      .ok (HopCodec.relevanceDensity relevance most factor) := by
  rw [relevanceDensity, clamp_eq (by decide), ok_bind, clamp_eq hmost]
  rfl

theorem elasticFit_eq (density : Corners Float32) (len samples : Nat) (most : Float32) :
    elasticFit density len samples most = .ok (HopCodec.elasticFit density len samples most) := by
  unfold elasticFit HopCodec.elasticFit
  simp only
  split
  · rfl
  · exact mapCorners_eq (fun _ => clamp_eq (densityMin_le_larger most)) density

theorem shapeAxis_eq {a : Axis} (h : a.start ≤ a.stop) (direction : Direction)
    (relevance : Corners RelevanceLevel) (factor : Float32) :
    shapeAxis a direction relevance factor = .ok (a.shape direction relevance factor) := by
  have hmost : densityMin ≤ densityMax a.length := densityMin_le_larger _
  simp only [shapeAxis, axisLength_eq h, ok_bind, elasticFit_eq,
    mapCorners_eq fun level : RelevanceLevel => relevanceDensity_eq level.value factor hmost]
  rfl

theorem shapeBlock_eq {b : Block} {width height : Nat} (h : b.Within width height)
    (corners : Corners RelevanceCorner) (factor : Float32) :
    shapeBlock b corners factor = .ok (b.shape corners factor) := by
  rw [shapeBlock, shapeAxis_eq h.x.start_le, ok_bind, shapeAxis_eq h.y.start_le]
  rfl

variable {g : BlockGrid} {width height : Nat}

/-- Shaping the blocks one by one shapes them all. -/
theorem shapeAt_loop_eq (h : g.Tiles width height) (hW : g.blocksW < 256) (hH : g.blocksH < 256)
    {mesh : RelevanceMesh} (hmesh : mesh.blocksW = g.blocksW ∧ mesh.blocksH = g.blocksH)
    (factor : Float32) :
    loop (fun row => loop (fun column => shapeAt mesh factor g.blocksW column row) g.blocksW)
        g.blocksH g.blocks =
      .ok (g.mapBlocks fun column row b => b.shape (mesh.blockCorners column row) factor).blocks := by
  have hword : (0x10000 : Nat) < wordSize := by decide
  have hsize : g.blocksH * g.blocksW = g.blocks.size := by
    rw [h.size_blocks, Nat.mul_comm]
  rw [loop_grid fun column row => shapeAt mesh factor g.blocksW column row, hsize]
  refine loop_update
    (g := fun i (b : Block) => b.shape (mesh.blockCorners (i % g.blocksW) (i / g.blocksW)) factor)
    fun i hi blocks hblocks hget => ?_
  have hcolumn := h.column_lt hi
  have hrow := h.row_lt hi
  have hwithin := h.within (Array.mem_toList_iff.mpr (Array.getElem_mem hi))
  have hplace : i / g.blocksW * g.blocksW + i % g.blocksW = i := Nat.div_add_mod' i g.blocksW
  have hcount : g.blocks.size ≤ 256 * 256 := by
    rw [h.size_blocks]
    exact Nat.mul_le_mul (Nat.le_of_lt hW) (Nat.le_of_lt hH)
  have hproduct : i / g.blocksW * g.blocksW < wordSize := by omega
  have hsum : i / g.blocksW * g.blocksW + i % g.blocksW < wordSize := by omega
  have hfetch : fetch blocks i = .ok g.blocks[i] := by
    rw [fetch, hget]
  rw [shapeAt, Mesh.blockCorners_eq (hmesh.1 ▸ hW) (hmesh.2 ▸ hH) (hmesh.1 ▸ hcolumn)
    (hmesh.2 ▸ hrow), ok_bind, mul_eq hproduct, ok_bind, add_eq hsum, ok_bind, hplace, hfetch,
    ok_bind, shapeBlock_eq hwithin, ok_bind, store_eq (hblocks ▸ hi)]

theorem applyMesh_eq (h : g.Tiles width height) (hW : g.blocksW < 256) (hH : g.blocksH < 256)
    (pow : Power) (mesh : RelevanceMesh) (quality : Nat) :
    applyMesh pow g mesh quality = lift (g.applyMesh pow mesh quality) := by
  unfold applyMesh BlockGrid.applyMesh
  by_cases hmesh : mesh.blocksW = g.blocksW ∧ mesh.blocksH = g.blocksH
  · have hfits : ¬ (mesh.blocksW ≠ g.blocksW ∨ mesh.blocksH ≠ g.blocksH) := by omega
    rw [if_neg hfits, if_neg hfits, Grid.requireSide_eq h, lift_bind]
    beta_reduce
    congr 1
    funext _
    simp only [shapeAt_loop_eq h hW hH hmesh]
    rfl
  · have hother : mesh.blocksW ≠ g.blocksW ∨ mesh.blocksH ≠ g.blocksH := by omega
    rw [if_pos hother, if_pos hother]
    rfl

end Machine

end HopCodec
