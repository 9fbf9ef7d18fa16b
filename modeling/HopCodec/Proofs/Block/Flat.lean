/-
Flat samples.  Pixels of one value leave no room: the means of their cells have that value, and so
has everything that samples of it are stretched to.
-/
import HopCodec.Proofs.Block.Resample

namespace HopCodec

namespace BlockCells

variable {c : BlockCells} {width height columns rows : Nat}

/-- The samples of flat pixels. -/
theorem downsample_replicate (hx : Cuts c.x.toArray width columns)
    (hy : Cuts c.y.toArray height rows) (v : UInt8) :
    c.downsample (Array.replicate (width * height) v) width =
      Array.replicate (columns * rows) v := by
  apply Array.ext (by simp [downsample, columns_eq hx, rows_eq hy])
  intro k hk _
  have hk' : k < c.columns * c.rows := by simpa [downsample] using hk
  have hcolumn : k % c.columns < columns := columns_eq hx ▸ BlockGrid.mod_lt_of_lt_mul hk'
  have hrow : k / c.columns < rows := rows_eq hy ▸ BlockGrid.div_lt_of_lt_mul hk'
  rw [Array.getElem_replicate]
  simp only [downsample, Array.getElem_ofFn]
  refine eq_of_within (cellMean_within (hx.rising _ hcolumn) (hy.rising _ hrow)
    fun x _ hx' y _ hy' => ?_)
  have hxlt := Nat.lt_of_lt_of_le hx' (hx.le_len hcolumn)
  have hylt := Nat.lt_of_lt_of_le hy' (hy.le_len hrow)
  rw [getD_replicate (raster_index hxlt hylt).1]
  exact ⟨UInt8.le_refl v, UInt8.le_refl v⟩

/-- The pixels of flat samples. -/
theorem upsample_replicate (hx : Cuts c.x.toArray width columns)
    (hy : Cuts c.y.toArray height rows) (hwidth : width < 2 ^ 16) (hheight : height < 2 ^ 16)
    (v : UInt8) :
    c.upsample (Array.replicate (columns * rows) v) = Array.replicate (width * height) v := by
  refine Array.eq_replicate_iff.mpr ⟨size_upsample hx hy _, fun pixel hpixel => ?_⟩
  obtain ⟨x, hx', y, hy', rfl⟩ := exists_of_mem_upsample hx hy hpixel
  refine eq_of_within (pixel_within hx hy hwidth hheight hx' hy' fun i hi j hj => ?_)
  rw [getD_replicate (raster_index hi hj).1]
  exact ⟨UInt8.le_refl v, UInt8.le_refl v⟩

end BlockCells

end HopCodec
