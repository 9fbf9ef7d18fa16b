/-
The tables of a predictor in their buffers.  A rung and a nearest hop each have a place of their
own, the two places are computed within the word, and buffers of the right size read as tables
whatever bytes they hold.
-/
import HopCodec.Machine.Scan
import HopCodec.Proofs.Machine.Word

namespace HopCodec.Machine

def RatioCovered (ratio : Nat) : Prop :=
  Predictor.ratioMin ≤ ratio ∧ ratio ≤ Predictor.ratioMax

def StepCovered (step : Nat) : Prop :=
  1 ≤ step ∧ step ≤ stepCount

namespace Ladders

/-- The place of a ratio and a step among all of them. -/
def sheetPlace (ratio step : Nat) : Nat :=
  (ratio - Predictor.ratioMin) * stepCount + (step - 1)

def rungPlace (ratio step : Nat) (predicted : UInt8) (hop : Hop) : Nat :=
  predicted.toNat * ladderSpan + sheetPlace ratio step * 9 + hop.index

/-- Where the hop that comes closest to a target stands. -/
def nearestPlace (ratio step : Nat) (target predicted : UInt8) : Nat :=
  sheetPlace ratio step * 256 * 256 + target.toNat * 256 + predicted.toNat

def hopOf (byte : UInt8) : Hop :=
  (Hop.ofIndex? byte.toNat).getD .null

theorem hopOf_index (hop : Hop) : hopOf (UInt8.ofNat hop.index) = hop := by
  cases hop <;> rfl

structure Sized (l : Ladders) : Prop where
  rungs : l.rungs.size = 256 * ladderSpan
  nearest : l.nearest.size = ratioCount * stepCount * 256 * 256

/-- The ladder that the rungs hold around a predicted value. -/
def ladderOf (rungs : Bytes) (ratio step : Nat) (predicted : UInt8) : Ladder :=
  HopMap.ofFn fun hop => rungs.getD (rungPlace ratio step predicted hop) 0

theorem get_ladderOf (rungs : Bytes) (ratio step : Nat) (predicted : UInt8) (hop : Hop) :
    (ladderOf rungs ratio step predicted).get hop =
      rungs.getD (rungPlace ratio step predicted hop) 0 :=
  HopMap.get_ofFn _ hop

def tables (l : Ladders) : Tables where
  ladder := ladderOf l.rungs
  nearest ratio step target predicted :=
    hopOf (l.nearest.getD (nearestPlace ratio step target predicted) 0)

/-- Wherever the tables are looked up, the buffers answer. -/
structure Reads (l : Ladders) (t : Tables) : Prop where
  value : ∀ {ratio step : Nat}, RatioCovered ratio → StepCovered step →
    ∀ predicted hop, l.value ratio step predicted hop = .ok (t.ladder ratio step predicted hop)
  hop : ∀ {ratio step : Nat}, RatioCovered ratio → StepCovered step →
    ∀ target predicted,
      l.hop ratio step target predicted = .ok (t.nearest ratio step target predicted)

section Places

variable {l : Ladders} {ratio step : Nat} (hratio : RatioCovered ratio)
  (hstep : StepCovered step)

include hratio hstep

theorem sheetPlace_lt : sheetPlace ratio step < ratioCount * stepCount := by
  obtain ⟨hmin, hmax⟩ := hratio
  obtain ⟨hpos, hlast⟩ := hstep
  simp only [Predictor.ratioMin, Predictor.ratioMax, stepCount] at *
  simp only [sheetPlace, ratioCount, stepCount, Predictor.ratioMin]
  omega

/-- A place among the sheets tells the ratio and the step. -/
theorem sheetPlace_split :
    Predictor.ratioMin + sheetPlace ratio step / stepCount = ratio ∧
      1 + sheetPlace ratio step % stepCount = step := by
  obtain ⟨hmin, hmax⟩ := hratio
  obtain ⟨hpos, hlast⟩ := hstep
  simp only [Predictor.ratioMin, Predictor.ratioMax, stepCount] at *
  simp only [sheetPlace, stepCount, Predictor.ratioMin]
  omega

theorem sheet_eq : sheet ratio step = .ok (sheetPlace ratio step) := by
  have hword : (0x10000 : Nat) < wordSize := by decide
  have hplace := sheetPlace_lt hratio hstep
  obtain ⟨hmin, hmax⟩ := hratio
  obtain ⟨hpos, hlast⟩ := hstep
  simp only [sheetPlace, ratioCount, stepCount] at hplace
  rw [sheet, ensure_eq ⟨hmin, hmax⟩, ok_bind, ensure_eq ⟨hpos, hlast⟩, ok_bind, sub_eq hmin,
    ok_bind, stepCount, mul_eq (by omega), ok_bind, sub_eq hpos, ok_bind, add_eq (by omega)]
  rfl

theorem rungPlace_lt (predicted : UInt8) (hop : Hop) :
    rungPlace ratio step predicted hop < 256 * ladderSpan := by
  have hplace := sheetPlace_lt hratio hstep
  have hvalue := UInt8.toNat_lt predicted
  have hindex := hop.index.isLt
  simp only [ratioCount, stepCount] at hplace
  simp only [rungPlace, ladderSpan]
  omega

theorem nearestPlace_lt (target predicted : UInt8) :
    nearestPlace ratio step target predicted < ratioCount * stepCount * 256 * 256 := by
  have hplace := sheetPlace_lt hratio hstep
  have htarget := UInt8.toNat_lt target
  have hvalue := UInt8.toNat_lt predicted
  simp only [ratioCount, stepCount] at hplace
  simp only [nearestPlace, ratioCount, stepCount]
  omega

/-- Looking up a value reads the byte at its place. -/
theorem value_eq (hrungs : l.rungs.size = 256 * ladderSpan) (predicted : UInt8) (hop : Hop) :
    l.value ratio step predicted hop =
      .ok (l.rungs.getD (rungPlace ratio step predicted hop) 0) := by
  have hword : (0x1000000 : Nat) < wordSize := by decide
  have hvalue := UInt8.toNat_lt predicted
  have hindex := hop.index.isLt
  have hplace := sheetPlace_lt hratio hstep
  have hfetch := fetch_eq_getD (hrungs ▸ rungPlace_lt hratio hstep predicted hop) 0
  have hsheet := sheet_eq hratio hstep
  simp only [rungPlace, ladderSpan, ratioCount, stepCount] at hplace hfetch ⊢
  generalize sheetPlace ratio step = place at hplace hfetch hsheet ⊢
  rw [value, ladderSpan, mul_eq (by omega), ok_bind, hsheet, ok_bind, mul_eq (by omega), ok_bind,
    add_eq (by omega), ok_bind, add_eq (by omega), ok_bind, hfetch]

/-- Looking up a nearest hop reads the byte at its place. -/
theorem hop_eq (hnearest : l.nearest.size = ratioCount * stepCount * 256 * 256)
    (target predicted : UInt8) :
    l.hop ratio step target predicted =
      .ok (hopOf (l.nearest.getD (nearestPlace ratio step target predicted) 0)) := by
  have hword : (0x10000000 : Nat) < wordSize := by decide
  have htarget := UInt8.toNat_lt target
  have hvalue := UInt8.toNat_lt predicted
  have hplace := sheetPlace_lt hratio hstep
  have hfetch := fetch_eq_getD (hnearest ▸ nearestPlace_lt hratio hstep target predicted) 0
  have hsheet := sheet_eq hratio hstep
  simp only [nearestPlace, ratioCount, stepCount] at hplace hfetch ⊢
  generalize sheetPlace ratio step = place at hplace hfetch hsheet ⊢
  rw [hop, hsheet, ok_bind, mul_eq (by omega), ok_bind, mul_eq (by omega), ok_bind,
    mul_eq (by omega), ok_bind, add_eq (by omega), ok_bind, add_eq (by omega), ok_bind, hfetch]
  rfl

end Places

/-- Buffers of the right size can be looked up, whatever they hold. -/
theorem Sized.reads {l : Ladders} (h : l.Sized) : l.Reads l.tables where
  value hratio hstep predicted hop := by
    rw [value_eq hratio hstep h.rungs, tables, get_ladderOf]
  hop hratio hstep target predicted := hop_eq hratio hstep h.nearest target predicted

section OfTables

variable (t : Tables)

theorem sized_ofTables : (ofTables t).Sized where
  rungs := by rw [ofTables, Array.size_ofFn]
  nearest := by rw [ofTables, Array.size_ofFn]

variable {ratio step : Nat} (hratio : RatioCovered ratio) (hstep : StepCovered step)

include hratio hstep

theorem getD_rungs_ofTables (predicted : UInt8) (hop : Hop) :
    (ofTables t).rungs.getD (rungPlace ratio step predicted hop) 0 =
      t.ladder ratio step predicted hop := by
  have hplace := rungPlace_lt hratio hstep predicted hop
  have hsheet := sheetPlace_lt hratio hstep
  obtain ⟨hratio', hstep'⟩ := sheetPlace_split hratio hstep
  have hindex := hop.index.isLt
  let place := rungPlace ratio step predicted hop
  have hladder : place / 9 % (ratioCount * stepCount) = sheetPlace ratio step := by
    simp only [ratioCount, stepCount, place, rungPlace, ladderSpan] at *
    omega
  have hpredicted : place / 9 / (ratioCount * stepCount) = predicted.toNat := by
    simp only [ratioCount, stepCount, place, rungPlace, ladderSpan] at *
    omega
  have hhop : place % 9 = hop.index.val := by
    simp only [place, rungPlace, ladderSpan]
    omega
  simp only [place] at hladder hpredicted hhop
  simp only [ofTables, Array.getD_eq_getD_getElem?, Array.getElem?_ofFn, hplace, dif_pos,
    Option.getD_some, hladder, hpredicted, hhop, hratio', hstep', UInt8.ofNat_toNat]
  exact congrArg (fun h => (t.ladder ratio step predicted).get h) (Hop.ofIndex_index hop)

theorem getD_nearest_ofTables (target predicted : UInt8) :
    (ofTables t).nearest.getD (nearestPlace ratio step target predicted) 0 =
      UInt8.ofNat (t.nearest ratio step target predicted).index := by
  have hplace := nearestPlace_lt hratio hstep target predicted
  obtain ⟨hratio', hstep'⟩ := sheetPlace_split hratio hstep
  have htarget := UInt8.toNat_lt target
  have hvalue := UInt8.toNat_lt predicted
  let place := nearestPlace ratio step target predicted
  have hsheet : place / 256 / 256 = sheetPlace ratio step := by
    simp only [place, nearestPlace]
    omega
  have hrow : UInt8.ofNat (place / 256) = target := by
    apply UInt8.toNat_inj.mp
    rw [UInt8.toNat_ofNat']
    simp only [place, nearestPlace]
    omega
  have hcolumn : UInt8.ofNat place = predicted := by
    apply UInt8.toNat_inj.mp
    rw [UInt8.toNat_ofNat']
    simp only [place, nearestPlace]
    omega
  simp only [place] at hsheet hrow hcolumn
  simp only [ofTables, Array.getD_eq_getD_getElem?, Array.getElem?_ofFn, hplace, dif_pos,
    Option.getD_some, hsheet, hrow, hcolumn, hratio', hstep']

end OfTables

/-- The buffers made from tables read as these tables. -/
theorem reads_ofTables (t : Tables) : (ofTables t).Reads t where
  value hratio hstep predicted hop := by
    rw [value_eq hratio hstep (sized_ofTables t).rungs, getD_rungs_ofTables t hratio hstep]
  hop hratio hstep target predicted := by
    rw [hop_eq hratio hstep (sized_ofTables t).nearest, getD_nearest_ofTables t hratio hstep,
      hopOf_index]

end Ladders

end HopCodec.Machine
