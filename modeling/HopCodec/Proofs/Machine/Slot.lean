/-
Finding codewords in sorted slots.  Distinct codewords rise strictly once they are sorted, and in a
slot that rises halving keeps the stretch in which a codeword stands, so that every codeword of the
slot is found and no other one is.
-/
import HopCodec.Machine.Slot

namespace HopCodec.Machine.Slot

def Rising (slot : Slot) : Prop :=
  slot.toList.Pairwise fun a b => a.1 < b.1

variable {slot : Slot} {code : Nat}

theorem mem_sorted {e : Nat × Hop} : e ∈ slot.sorted ↔ e ∈ slot := by
  rw [sorted, List.mem_toArray, List.mem_mergeSort, Array.mem_toList_iff]

/-- Sorting distinct codewords makes them rise. -/
theorem rising_sorted (h : slot.toList.Pairwise fun a b => a.1 ≠ b.1) : slot.sorted.Rising := by
  have hsorted : slot.sorted.toList.Pairwise fun a b => a.1 ≤ b.1 := by
    refine (List.pairwise_mergeSort ?_ ?_ slot.toList).imp fun hab => of_decide_eq_true hab
    · intro a b c hab hbc
      rw [decide_eq_true_eq] at hab hbc ⊢
      exact Nat.le_trans hab hbc
    · intro a b
      rw [Bool.or_eq_true, decide_eq_true_eq, decide_eq_true_eq]
      exact Nat.le_total a.1 b.1
  have hdistinct : slot.sorted.toList.Pairwise fun a b => a.1 ≠ b.1 :=
    (List.mergeSort_perm slot.toList _).symm.pairwise h fun hne => hne.symm
  exact (hsorted.and hdistinct).imp fun hab => Nat.lt_of_le_of_ne hab.1 hab.2

section Rising

variable (hrising : slot.Rising)

include hrising

theorem Rising.lt {i j : Nat} (hij : i < j) (hj : j < slot.size) : slot[i].1 < slot[j].1 := by
  have hlt := List.pairwise_iff_getElem.mp hrising i j (by simpa using Nat.lt_trans hij hj)
    (by simpa using hj) hij
  simpa using hlt

/-- Codewords stand in the order of their places. -/
theorem Rising.le_iff {i j : Nat} (hi : i < slot.size) (hj : j < slot.size) :
    slot[i].1 ≤ slot[j].1 ↔ i ≤ j := by
  constructor
  · intro hle
    refine Nat.le_of_not_lt fun hlt => ?_
    exact Nat.not_lt.mpr hle (hrising.lt hlt hi)
  · intro hle
    rcases Nat.lt_or_eq_of_le hle with hlt | rfl
    · exact Nat.le_of_lt (hrising.lt hlt hj)
    · exact Nat.le_refl _

/-- Halving never loses a codeword that stands in the stretch. -/
theorem Rising.narrow_eq {start size : Nat} (hpos : 0 < size) (hstop : start + size ≤ slot.size)
    {i : Nat} (hi : i < slot.size) (hcode : slot[i].1 = code) (hlow : start ≤ i)
    (hhigh : i < start + size) : (slot.narrow code start size hpos hstop).val = i := by
  fun_induction narrow slot code start size hpos hstop with
  | case1 start size hpos hstop hmany half hbelow ih =>
      have hlt : i < start + half := by
        refine Nat.lt_of_not_le fun hle => Nat.not_le.mpr hbelow ?_
        rw [← hcode]
        exact (hrising.le_iff _ hi).mpr hle
      exact ih hlow (by omega)
  | case2 start size hpos hstop hmany half habove ih =>
      have hle : start + half ≤ i := by
        rw [← hcode] at habove
        exact (hrising.le_iff _ hi).mp (Nat.not_lt.mp habove)
      exact ih hle (by omega)
  | case3 start size hpos hstop hsingle => exact (by omega : start = i)

/-- A search finds the place of a codeword if it has one. -/
theorem Rising.place?_eq_some_iff {i : Nat} :
    slot.place? code = some i ↔ ∃ h : i < slot.size, slot[i].1 = code := by
  rw [place?]
  constructor
  · intro hfound
    split at hfound
    · next hpos =>
        obtain ⟨hcode, hplace⟩ := Option.ite_some_none_eq_some.mp hfound
        exact ⟨hplace ▸ Fin.isLt _, by simpa [← hplace] using hcode⟩
    · cases hfound
  · rintro ⟨hi, hcode⟩
    have hpos : 0 < slot.size := Nat.zero_lt_of_lt hi
    have hplace := hrising.narrow_eq hpos (Nat.le_of_eq (Nat.zero_add _)) hi hcode
      (Nat.zero_le i) (by omega)
    rw [dif_pos hpos]
    simp only [Fin.getElem_fin, hplace, hcode, if_pos]

theorem Rising.place?_eq_none_iff : slot.place? code = none ↔ ∀ e ∈ slot, e.1 ≠ code := by
  constructor
  · intro hnone e he hcode
    obtain ⟨i, hi, rfl⟩ := Array.mem_iff_getElem.mp he
    rw [hrising.place?_eq_some_iff.mpr ⟨hi, hcode⟩] at hnone
    cases hnone
  · intro hnone
    cases hfound : slot.place? code with
    | none => rfl
    | some i =>
        obtain ⟨hi, hcode⟩ := hrising.place?_eq_some_iff.mp hfound
        exact absurd hcode (hnone _ (Array.getElem_mem hi))

end Rising

end HopCodec.Machine.Slot
