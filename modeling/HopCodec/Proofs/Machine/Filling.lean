/-
The table of nearest hops, filled and read back.  The columns are filled one after another, each
at places of its own, so that in the end every place holds what the sweep over its ladder answers.
-/
import HopCodec.Machine.Filling
import HopCodec.Proofs.Ladder.Around
import HopCodec.Proofs.Machine.Ladders
import HopCodec.Proofs.Machine.Sweep
import HopCodec.Proofs.Plane

namespace HopCodec

namespace Machine

namespace Ladders

/-- Columns in the order of filling: sheet by sheet, by rising predicted value. -/
def columnCount : Nat := ratioCount * stepCount * 256

def columnLadder (rungs : Bytes) (c : Nat) : Ladder :=
  ladderOf rungs (Predictor.ratioMin + c / 256 / stepCount) (1 + c / 256 % stepCount)
    (UInt8.ofNat (c % 256))

def columnPlace (c target : Nat) : Nat :=
  c / 256 * sheetSize + (target * 256 + c % 256)

def columnByte (rungs : Bytes) (c target : Nat) : UInt8 :=
  UInt8.ofNat ((columnLadder rungs c).swept (UInt8.ofNat target)).index

variable {rungs : Bytes} (hrungs : rungs.size = 256 * ladderSpan)

include hrungs

/-- Cutting out a ladder reads its nine rungs. -/
theorem exists_ladder {ratio step : Nat} (hratio : RatioCovered ratio) (hstep : StepCovered step)
    (predicted : UInt8) :
    ∃ values, ladder rungs ratio step predicted = .ok values ∧ values.size = 9 ∧
      Ladder.ofBytes values = ladderOf rungs ratio step predicted := by
  have hword : (0x1000000 : Nat) < wordSize := by decide
  have hvalue := UInt8.toNat_lt predicted
  have hplace := sheetPlace_lt hratio hstep
  have hsheet := sheet_eq hratio hstep
  simp only [ratioCount, stepCount] at hplace
  let start := predicted.toNat * ladderSpan + sheetPlace ratio step * 9
  have hcut : ladder rungs ratio step predicted = slice rungs start (start + 9) := by
    simp only [start, ladderSpan]
    generalize sheetPlace ratio step = place at hplace hsheet
    rw [ladder, ladderSpan, mul_eq (by omega), ok_bind, hsheet, ok_bind, mul_eq (by omega), ok_bind,
      add_eq (by omega), ok_bind, add_eq (by omega), ok_bind]
  have hstop : start + 9 ≤ rungs.size := by
    rw [hrungs]
    exact rungPlace_lt hratio hstep predicted .pos4
  refine ⟨_, hcut.trans (slice_eq (Nat.le_add_right start 9) hstop), ?_,
    HopMap.ext fun hop => ?_⟩
  · rw [Array.size_extract]
    omega
  · have hindex : hop.index.val < min (start + 9) rungs.size - start := by
      have hlt := hop.index.isLt
      omega
    rw [Ladder.get_ofBytes, get_ladderOf, Array.getD_eq_getD_getElem?, Array.getElem?_extract,
      if_pos hindex, ← Array.getD_eq_getD_getElem?]
    rfl

variable (hordered : ∀ {ratio step : Nat}, RatioCovered ratio → StepCovered step →
  ∀ predicted, (ladderOf rungs ratio step predicted).Ordered)

include hordered

/-- Filling a column stores what the sweep answers, each target at its place. -/
theorem fillColumn_eq {c : Nat} (hc : c < columnCount) (nearest : Bytes) :
    fillColumn rungs (c / 256 / stepCount) (c / 256 % stepCount) (c % 256) nearest =
      loop (fun target s => store s (columnPlace c target) (columnByte rungs c target)) 256
        nearest := by
  have hword : (0x10000000 : Nat) < wordSize := by decide
  have hsheet : c / 256 < 399 := Nat.div_lt_of_lt_mul hc
  have hcolumn : c % 256 < 256 := Nat.mod_lt c (by decide)
  have hratio : RatioCovered (Predictor.ratioMin + c / 256 / stepCount) := by
    simp only [RatioCovered, Predictor.ratioMin, Predictor.ratioMax, stepCount]
    omega
  have hstep : StepCovered (1 + c / 256 % stepCount) := by
    simp only [StepCovered, stepCount]
    omega
  obtain ⟨values, hladder, hsize, hvalues⟩ :=
    exists_ladder hrungs hratio hstep (UInt8.ofNat (c % 256))
  obtain ⟨calls, hsweep, hcalls⟩ :=
    fillBestHops_eq hsize (hvalues ▸ hordered hratio hstep (UInt8.ofNat (c % 256)))
  rw [hvalues] at hcalls
  simp only [Predictor.ratioMin, stepCount] at hladder
  rw [fillColumn]
  simp only [Predictor.ratioMin, stepCount, ratioSize, sheetSize]
  rw [add_eq (by omega), ok_bind, add_eq (by omega), ok_bind, hladder, ok_bind, hsweep, ok_bind,
    mul_eq (by omega), ok_bind, mul_eq (by omega), ok_bind, add_eq (by omega), ok_bind,
    ← Array.foldlM_toList, hcalls, List.foldlM_map,
    foldlM_range fun target s => storeCall _ _ s (target, _)]
  refine loop_congr fun target htarget s => ?_
  have hplace : c / 256 / 19 * 1245184 + c / 256 % 19 * 65536 + (target * 256 + c % 256) =
      columnPlace c target := by
    simp only [columnPlace, sheetSize]
    omega
  rw [storeCall, mul_eq (by omega), ok_bind, add_eq (by omega), ok_bind, add_eq (by omega), ok_bind,
    hplace, columnByte, columnLadder]

omit hrungs hordered in
/-- Columns and targets are told by their places. -/
theorem columnPlace_inj {c d t u : Nat} (ht : t < 256) (hu : u < 256)
    (h : columnPlace c t = columnPlace d u) : c = d ∧ t = u := by
  have hc : c % 256 < 256 := Nat.mod_lt c (by decide)
  have hd : d % 256 < 256 := Nat.mod_lt d (by decide)
  simp only [columnPlace, sheetSize] at h
  omega

omit hrungs hordered in
theorem columnPlace_lt {c t : Nat} (hc : c < columnCount) (ht : t < 256) :
    columnPlace c t < ratioCount * stepCount * 256 * 256 := by
  have hsheet : c / 256 < 399 := Nat.div_lt_of_lt_mul hc
  have hcolumn : c % 256 < 256 := Nat.mod_lt c (by decide)
  simp only [columnPlace, sheetSize, ratioCount, stepCount]
  omega

/-- Filling goes through all columns and leaves the answers of each at its places. -/
theorem exists_fill : ∃ nearest, fill rungs = .ok nearest ∧
    nearest.size = ratioCount * stepCount * 256 * 256 ∧
    ∀ c, c < columnCount → ∀ t, t < 256 →
      nearest[columnPlace c t]? = some (columnByte rungs c t) := by
  rw [fill, loop_grid fun s r => loop (fun predicted => fillColumn rungs r s predicted) 256,
    loop_grid fun predicted i => fillColumn rungs (i / stepCount) (i % stepCount) predicted]
  refine exists_loop (fun c (a : Bytes) => a.size = ratioCount * stepCount * 256 * 256 ∧
    ∀ d, d < c → ∀ t, t < 256 → a[columnPlace d t]? = some (columnByte rungs d t)) ?_ ?_
  · exact ⟨Array.size_replicate, fun d hd => absurd hd (Nat.not_lt_zero d)⟩
  · rintro c hc a ⟨hsize, hbefore⟩
    obtain ⟨b, hloop, hsize', hstored, hframe⟩ := exists_loop_store
      (fun t ht => hsize ▸ columnPlace_lt hc ht)
      (fun t u ht hu h => (columnPlace_inj ht hu h).2)
    refine ⟨b, (fillColumn_eq hrungs hordered hc a).trans hloop, hsize'.trans hsize,
      fun d hd t ht => ?_⟩
    rcases Nat.lt_succ_iff_lt_or_eq.mp hd with hlt | rfl
    · have hapart : ∀ u, u < 256 → columnPlace c u ≠ columnPlace d t := fun u hu h =>
        Nat.ne_of_gt hlt (columnPlace_inj hu ht h).1
      rw [hframe _ hapart]
      exact hbefore d hlt t ht
    · exact hstored t ht

/-- A filled table is looked up where the answer was stored. -/
theorem getD_fill {nearest : Bytes} (hfill : fill rungs = .ok nearest) :
    nearest.size = ratioCount * stepCount * 256 * 256 ∧
      ∀ {ratio step : Nat}, RatioCovered ratio → StepCovered step → ∀ target predicted,
        nearest.getD (nearestPlace ratio step target predicted) 0 =
          UInt8.ofNat ((ladderOf rungs ratio step predicted).swept target).index := by
  obtain ⟨filled, hfilled, hsize, hstored⟩ := exists_fill hrungs hordered
  obtain rfl : filled = nearest := Except.ok.inj (hfilled.symm.trans hfill)
  refine ⟨hsize, fun {ratio step} hratio hstep target predicted => ?_⟩
  obtain ⟨hratio', hstep'⟩ := sheetPlace_split hratio hstep
  have hvalue : predicted.toNat < 256 := predicted.toNat_lt
  obtain ⟨hc, hcolumn, hsheet⟩ := raster_index hvalue (sheetPlace_lt hratio hstep)
  rw [Nat.mul_comm 256] at hc
  let c := sheetPlace ratio step * 256 + predicted.toNat
  have hnearest : nearestPlace ratio step target predicted = columnPlace c target.toNat := by
    simp only [nearestPlace, columnPlace, sheetSize]
    omega
  have hladder : columnLadder rungs c = ladderOf rungs ratio step predicted := by
    rw [columnLadder, hsheet, hcolumn, hratio', hstep', UInt8.ofNat_toNat]
  rw [hnearest, Array.getD_eq_getD_getElem?, hstored c hc _ target.toNat_lt, Option.getD_some,
    columnByte, hladder, UInt8.ofNat_toNat]

omit hrungs hordered in
/-- Every place of the table is looked up somewhere. -/
theorem exists_nearestPlace {k : Nat} (hk : k < ratioCount * stepCount * 256 * 256) :
    ∃ ratio step target predicted, RatioCovered ratio ∧ StepCovered step ∧
      nearestPlace ratio step target predicted = k := by
  refine ⟨20 + k / 256 / 256 / 19, 1 + k / 256 / 256 % 19, UInt8.ofNat (k / 256 % 256),
    UInt8.ofNat (k % 256), ?_, ?_, ?_⟩
  · simp only [RatioCovered, Predictor.ratioMin, Predictor.ratioMax, ratioCount, stepCount] at *
    omega
  · simp only [StepCovered, stepCount]
    omega
  · have hrow : (UInt8.ofNat (k / 256 % 256)).toNat = k / 256 % 256 :=
      UInt8.toNat_ofNat_of_lt' (Nat.mod_lt _ (by decide))
    have hcolumn : (UInt8.ofNat (k % 256)).toNat = k % 256 :=
      UInt8.toNat_ofNat_of_lt' (Nat.mod_lt _ (by decide))
    simp only [nearestPlace, sheetPlace, hrow, hcolumn, Predictor.ratioMin, stepCount]
    omega

omit hrungs hordered in
/-- Only what the tables cover can be cut out. -/
theorem covered_of_ladder {ratio step : Nat} {predicted : UInt8} {values : Bytes}
    (h : ladder rungs ratio step predicted = .ok values) : RatioCovered ratio ∧ StepCovered step := by
  have hvalue := predicted.toNat_lt
  have hword : (0x1000000 : Nat) < wordSize := by decide
  rw [ladder, ladderSpan, mul_eq (by omega), ok_bind, sheet] at h
  by_cases hratio : Predictor.ratioMin ≤ ratio ∧ ratio ≤ Predictor.ratioMax
  · by_cases hstep : 1 ≤ step ∧ step ≤ stepCount
    · exact ⟨hratio, hstep⟩
    · rw [ensure_eq hratio, ok_bind, ensure, if_neg hstep] at h
      cases h
  · rw [ensure, if_neg hratio] at h
    cases h

end Ladders

/-- Buffers of ordered ladders and of the nearest hops filled from them. -/
structure Ladders.Filled (l : Ladders) : Prop where
  rungs : l.rungs.size = 256 * ladderSpan
  ordered : ∀ ratio step predicted values,
    Ladders.ladder l.rungs ratio step predicted = .ok values → (Ladder.ofBytes values).Ordered
  fill : Ladders.fill l.rungs = .ok l.nearest

namespace Ladders

theorem Filled.ordered_ladderOf {l : Ladders} (h : l.Filled) {ratio step : Nat}
    (hratio : RatioCovered ratio) (hstep : StepCovered step) (predicted : UInt8) :
    (ladderOf l.rungs ratio step predicted).Ordered := by
  obtain ⟨values, hladder, -, hvalues⟩ := exists_ladder h.rungs hratio hstep predicted
  exact hvalues ▸ h.ordered ratio step predicted values hladder

/-- Looking up a filled table gives what the sweep answers. -/
theorem Filled.getD_nearest {l : Ladders} (h : l.Filled) :
    l.nearest.size = ratioCount * stepCount * 256 * 256 ∧
      ∀ {ratio step : Nat}, RatioCovered ratio → StepCovered step → ∀ target predicted,
        l.nearest.getD (nearestPlace ratio step target predicted) 0 =
          UInt8.ofNat ((ladderOf l.rungs ratio step predicted).swept target).index :=
  getD_fill h.rungs h.ordered_ladderOf h.fill

theorem Filled.sized {l : Ladders} (h : l.Filled) : l.Sized :=
  ⟨h.rungs, h.getD_nearest.1⟩

/-- The buffers made from swept tables are what filling leads to. -/
theorem filled_ofTables {t : Tables} (h : t.Swept) : (ofTables t).Filled := by
  have hsized := sized_ofTables t
  have hladder {ratio step : Nat} (hratio : RatioCovered ratio) (hstep : StepCovered step)
      (predicted : UInt8) :
      ladderOf (ofTables t).rungs ratio step predicted = t.ladder ratio step predicted := by
    refine HopMap.ext fun hop => ?_
    rw [get_ladderOf, getD_rungs_ofTables t hratio hstep]
  have hswept {ratio step : Nat} (hratio : RatioCovered ratio) (hstep : StepCovered step)
      (predicted : UInt8) := h ratio step predicted hratio.1 hratio.2 hstep.1
        (Nat.lt_succ_of_le hstep.2)
  have hordered {ratio step : Nat} (hratio : RatioCovered ratio) (hstep : StepCovered step)
      (predicted : UInt8) : (ladderOf (ofTables t).rungs ratio step predicted).Ordered :=
    hladder hratio hstep predicted ▸ (hswept hratio hstep predicted).1
  refine ⟨hsized.rungs, fun ratio step predicted values hcut => ?_, ?_⟩
  · obtain ⟨hratio, hstep⟩ := covered_of_ladder hcut
    obtain ⟨values', hcut', -, hvalues⟩ := exists_ladder hsized.rungs hratio hstep predicted
    obtain rfl := Except.ok.inj (hcut'.symm.trans hcut)
    exact hvalues ▸ hordered hratio hstep predicted
  · obtain ⟨nearest, hfill, -, -⟩ := exists_fill hsized.rungs hordered
    obtain ⟨hsize, hread⟩ := getD_fill hsized.rungs hordered hfill
    rw [hfill]
    refine congrArg Except.ok (bytes_ext (hsize.trans hsized.nearest.symm) fun k hk => ?_)
    obtain ⟨ratio, step, target, predicted, hratio, hstep, rfl⟩ :=
      exists_nearestPlace (hsize ▸ hk)
    rw [hread hratio hstep, getD_nearest_ofTables t hratio hstep, hladder hratio hstep,
      (hswept hratio hstep predicted).2 target]

/-- So are those of the codec, whatever the power function. -/
theorem filled_build (pow : Power) : (ofTables (Tables.build pow)).Filled :=
  filled_ofTables (Tables.swept_build pow)

end Ladders

end Machine

end HopCodec
