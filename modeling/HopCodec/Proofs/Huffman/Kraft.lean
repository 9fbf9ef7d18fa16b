/-
Where canonical codewords lie.  Read as binary fractions, they follow one another in canonical
order without a gap: each begins where the shares of those before it end.  So there are codewords
of given lengths exactly if their shares add up to one at most.
-/
import Mathlib.Algebra.Order.Field.Basic
import Mathlib.Algebra.Order.Field.Rat
import Mathlib.Tactic.FieldSimp
import HopCodec.Proofs.Huffman.Symbols

namespace HopCodec

namespace Codeword

/-- The codeword as a binary fraction, its bits behind the point. -/
def fraction (c : Codeword) : ℚ :=
  c.value / 2 ^ c.length

theorem half_pow_eq {l : Nat} (h : l ≤ maxCodeLength) :
    (1 / 2 : ℚ) ^ l = share l / 2 ^ maxCodeLength := by
  have hfull : (2 : ℚ) ^ l * share l = 2 ^ maxCodeLength := by
    exact_mod_cast two_pow_mul_share h
  rw [← hfull, one_div, inv_pow]
  have hpos : (share l : ℚ) ≠ 0 := by exact_mod_cast Nat.ne_of_gt (share_pos l)
  field_simp

theorem fraction_eq {c : Codeword} (h : c.length ≤ maxCodeLength) :
    c.fraction = c.low / 2 ^ maxCodeLength := by
  rw [fraction, low, Nat.cast_mul, mul_div_assoc, ← half_pow_eq h, one_div, inv_pow]
  rfl

end Codeword

namespace CodeTable

open Codeword

def Precedes (lengths : HopMap Nat) (g h : Hop) : Prop :=
  lengths g < lengths h ∨ lengths g = lengths h ∧ g.rank < h.rank

instance (lengths : HopMap Nat) (g h : Hop) : Decidable (Precedes lengths g h) :=
  inferInstanceAs (Decidable (_ ∨ _))

theorem Precedes.asymm {lengths : HopMap Nat} {g h : Hop} (hgh : Precedes lengths g h) :
    ¬ Precedes lengths h g := by
  unfold Precedes at *
  omega

theorem precedes_irrefl (lengths : HopMap Nat) (h : Hop) : ¬ Precedes lengths h h :=
  fun hself => hself.asymm hself

/-- The share of all bit strings that begin with the codeword of one of the hops. -/
def measureOf (lengths : HopMap Nat) (hops : List Hop) : ℚ :=
  (hops.map fun h => (1 / 2 : ℚ) ^ lengths h).sum

/-- The share of all bit strings that the codewords of given lengths take. -/
def kraft (lengths : HopMap Nat) : ℚ :=
  measureOf lengths (usedHops lengths)

/-- The share taken by the codewords that stand before that of a hop. -/
def kraftBefore (lengths : HopMap Nat) (h : Hop) : ℚ :=
  measureOf lengths ((usedHops lengths).filter fun g => Precedes lengths g h)

theorem measureOf_eq {lengths : HopMap Nat} {hops : List Hop}
    (h : ∀ hop ∈ hops, lengths hop ≤ maxCodeLength) :
    measureOf lengths hops =
      ((hops.map fun hop => share (lengths hop)).sum : Nat) / 2 ^ maxCodeLength := by
  induction hops with
  | nil => simp [measureOf]
  | cons hop rest ih =>
      have hrest := ih fun g hg => h g (List.mem_cons_of_mem hop hg)
      have hhop := half_pow_eq (h hop List.mem_cons_self)
      unfold measureOf at hrest ⊢
      rw [List.map_cons, List.sum_cons, hrest, hhop, List.map_cons, List.sum_cons, Nat.cast_add,
        add_div]

theorem kraft_eq {lengths : HopMap Nat}
    (h : ∀ hop, lengths hop ≠ unusedLength → LegalLength (lengths hop)) :
    kraft lengths = kraftSum lengths / 2 ^ maxCodeLength :=
  measureOf_eq fun hop hused => (h hop (mem_usedHops.mp hused)).2

/-- A table can be built from lengths exactly if they are legal, one of them is used, and the
Kraft inequality holds. -/
theorem feasible_iff {lengths : HopMap Nat} :
    Feasible lengths ↔
      (∀ hop, lengths hop = unusedLength ∨ LegalLength (lengths hop)) ∧
        (∃ hop, lengths hop ≠ unusedLength) ∧ kraft lengths ≤ 1 := by
  have hlegal : (∀ hop, lengths hop = unusedLength ∨ LegalLength (lengths hop)) ↔
      ∀ hop, lengths hop ≠ unusedLength → LegalLength (lengths hop) :=
    forall_congr' fun hop => or_iff_not_imp_left
  have hroom (h : ∀ hop, lengths hop ≠ unusedLength → LegalLength (lengths hop)) :
      kraftSum lengths ≤ 2 ^ maxCodeLength ↔ kraft lengths ≤ 1 := by
    rw [kraft_eq h, div_le_one (pow_pos two_pos _)]
    exact_mod_cast Iff.rfl
  rw [hlegal]
  constructor
  · intro h
    exact ⟨h.legal, h.used, (hroom h.legal).mp h.room⟩
  · rintro ⟨h, hused, hkraft⟩
    exact ⟨h, hused, (hroom h).mpr hkraft⟩

theorem eq_lengths_of_mem_ranked {lengths : HopMap Nat} {e : Hop × Nat}
    (h : e ∈ ranked lengths) : e.2 = lengths e.1 := by
  obtain ⟨hop, -, rfl⟩ := List.mem_map.mp ((ranked_perm lengths).mem_iff.mp h)
  rfl

/-- No hop stands before one that is ranked ahead of it. -/
theorem ranked_precedes (lengths : HopMap Nat) :
    (ranked lengths).Pairwise fun a b => Precedes lengths a.1 b.1 := by
  have hsorted : (ranked lengths).Pairwise fun a b => canonicalLe a b = true :=
    List.pairwise_mergeSort canonicalLe_trans canonicalLe_total _
  have hnodup : ((ranked lengths).map Prod.fst).Nodup := by
    rw [((ranked_perm lengths).map Prod.fst).nodup_iff, List.map_map]
    simpa [Function.comp_def] using usedHops_nodup lengths
  refine (hsorted.and (List.pairwise_map.mp hnodup)).imp_of_mem ?_
  rintro a b ha hb ⟨hle, hne⟩
  have hrank : a.1.rank ≠ b.1.rank := fun heq => hne (Hop.rank_injective heq)
  simp only [canonicalLe, Bool.or_eq_true, Bool.and_eq_true, decide_eq_true_eq] at hle
  rw [Precedes, ← eq_lengths_of_mem_ranked ha, ← eq_lengths_of_mem_ranked hb]
  omega

/-- Codewords given out in order lie side by side: each begins behind the shares of those before
it. -/
theorem low_of_assign {lengths : HopMap Nat} {next length : Nat} {list : List (Hop × Nat)}
    {coded : List (Hop × Codeword)} (hassign : assign next length list = .ok coded)
    (hrange : ∀ e ∈ list, length ≤ e.2 ∧ e.2 ≤ maxCodeLength)
    (hsorted : list.Pairwise fun a b => a.2 ≤ b.2)
    (horder : list.Pairwise fun a b => Precedes lengths a.1 b.1) :
    ∀ e ∈ coded, e.2.low = next * share length +
      ((list.filter fun d => Precedes lengths d.1 e.1).map fun d => share d.2).sum := by
  induction list generalizing next length coded with
  | nil =>
      cases hassign
      simp
  | cons d rest ih =>
      obtain ⟨h, l⟩ := d
      obtain ⟨hle, hmax⟩ := hrange (h, l) List.mem_cons_self
      rw [List.pairwise_cons] at hsorted horder
      obtain ⟨-, more, hrest, rfl⟩ := assign_cons_eq_ok_iff.mp hassign
      have hrange' : ∀ e ∈ rest, l ≤ e.2 ∧ e.2 ≤ maxCodeLength :=
        fun e he => ⟨hsorted.1 e he, (hrange e (List.mem_cons_of_mem _ he)).2⟩
      have hstart : next <<< (l - length) * share l = next * share length :=
        shiftLeft_sub_mul_share hle hmax
      rw [List.forall_mem_cons]
      constructor
      · have hfirst : ((h, l) :: rest).filter (fun d => Precedes lengths d.1 h) = [] := by
          rw [List.filter_eq_nil_iff]
          intro e he
          rw [decide_eq_true_eq]
          rcases List.mem_cons.mp he with rfl | he
          · exact precedes_irrefl lengths h
          · exact (horder.1 e he).asymm
        rw [hfirst, List.map_nil, List.sum_nil, Nat.add_zero]
        exact hstart
      · intro e he
        have hmem : (e.1, e.2.length) ∈ rest := by
          rw [← (assigned_of_assign hrest hrange' hsorted.2).lengths]
          exact List.mem_map_of_mem he
        have hbehind : decide (Precedes lengths h e.1) = true :=
          decide_eq_true (horder.1 _ hmem)
        rw [ih hrest hrange' hsorted.2 horder.2 e he, List.filter_cons, if_pos hbehind,
          List.map_cons, List.sum_cons, Nat.add_mul, hstart, Nat.one_mul, Nat.add_assoc]

/-- The codewords of a table are the canonical ones for given lengths. -/
structure Consecutive (lengths : HopMap Nat) (t : CodeTable) : Prop where
  lengths_eq : t.lengths = lengths
  fits : ∀ h c, t.code? h = some c → c.value < 2 ^ c.length
  prefixFree : ∀ g h a b, t.code? g = some a → t.code? h = some b → a.bits <+: b.bits → g = h
  fraction_eq : ∀ h c, t.code? h = some c → c.fraction = kraftBefore lengths h

/-- Every table built from lengths gives out their codewords one behind the other. -/
theorem consecutive_of_canonical {lengths counts : HopMap Nat} {t : CodeTable}
    (ht : canonical lengths counts = .ok t) : t.Consecutive lengths := by
  have hfeasible := feasible_of_canonical ht
  have hsound := sound_of_canonical ht
  refine ⟨lengths_canonical hfeasible ht, hsound.fits, hsound.prefixFree, fun h c hc => ?_⟩
  obtain ⟨coded, t', hcoded, -, ht', hcode⟩ := hfeasible.exists_canonical counts
  obtain rfl : t' = t := Except.ok.inj (ht'.symm.trans ht)
  have hlow := low_of_assign hcoded (fun e he => ⟨Nat.zero_le _, (hfeasible.ranked_legal e he).2⟩)
    (ranked_sorted lengths) (ranked_precedes lengths) (h, c) ((hcode h c).mp hc)
  have hshares : (((ranked lengths).filter fun d => Precedes lengths d.1 h).map
      fun d => share d.2).sum =
        (((usedHops lengths).filter fun g => Precedes lengths g h).map
          fun g => share (lengths g)).sum := by
    rw [(((ranked_perm lengths).filter _).map _).sum_eq, List.filter_map, List.map_map]
    rfl
  rw [Nat.zero_mul, Nat.zero_add, hshares] at hlow
  rw [Codeword.fraction_eq (hsound.length_le h c hc), hlow, kraftBefore, measureOf_eq]
  intro g hg
  exact (hfeasible.legal g (mem_usedHops.mp (List.mem_of_mem_filter hg))).2

end CodeTable

end HopCodec
