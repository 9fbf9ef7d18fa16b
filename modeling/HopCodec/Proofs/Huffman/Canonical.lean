/-
Canonical codes.  Giving out codewords in order of length lays them side by side on the interval
of all bit strings of the greatest length: each codeword covers the strings it begins.  The
construction therefore succeeds whenever the codewords have room, and its codes are prefix codes.
-/
import Mathlib.Algebra.BigOperators.Group.List.Basic
import Mathlib.Data.List.Nodup
import Mathlib.Tactic.Ring
import HopCodec.Proofs.Huffman.Codeword

namespace HopCodec

namespace Codeword

/-- The share of all bit strings of the greatest length that a codeword of length `l` begins. -/
def share (l : Nat) : Nat :=
  2 ^ (maxCodeLength - l)

/-- The first bit string of the greatest length that the codeword begins. -/
def low (c : Codeword) : Nat :=
  c.value * share c.length

/-- The bit string behind the last one that the codeword begins. -/
def high (c : Codeword) : Nat :=
  (c.value + 1) * share c.length

theorem share_pos (l : Nat) : 0 < share l :=
  Nat.two_pow_pos _

theorem two_pow_mul_share {l : Nat} (h : l ≤ maxCodeLength) :
    2 ^ l * share l = 2 ^ maxCodeLength := by
  rw [share, ← Nat.pow_add, Nat.add_sub_cancel' h]

theorem two_pow_sub_mul_share {k l : Nat} (hkl : k ≤ l) (hl : l ≤ maxCodeLength) :
    2 ^ (l - k) * share l = share k := by
  rw [share, share, ← Nat.pow_add]
  congr 1
  omega

theorem shiftLeft_sub_mul_share {k l next : Nat} (hkl : k ≤ l) (hl : l ≤ maxCodeLength) :
    next <<< (l - k) * share l = next * share k := by
  rw [Nat.shiftLeft_eq, Nat.mul_assoc, two_pow_sub_mul_share hkl hl]

theorem high_eq (c : Codeword) : c.high = c.low + share c.length := by
  unfold high low
  ring

/-- Codewords side by side do not overlap. -/
theorem overlaps_eq_false {a b : Codeword} (hle : a.length ≤ b.length)
    (hb : b.length ≤ maxCodeLength) (hside : a.high ≤ b.low) : a.overlaps b = false := by
  simp only [overlaps, hle, if_true, decide_eq_false_iff_not]
  intro hvalue
  have hlt : b.value < (a.value + 1) * 2 ^ (b.length - a.length) := by
    rw [← hvalue, Nat.shiftRight_eq_div_pow, Nat.mul_comm]
    exact Nat.lt_mul_div_succ _ (Nat.two_pow_pos _)
  have hlow : b.low < a.high := by
    unfold low high
    calc b.value * share b.length
        < (a.value + 1) * 2 ^ (b.length - a.length) * share b.length :=
          Nat.mul_lt_mul_of_pos_right hlt (share_pos _)
      _ = (a.value + 1) * share a.length := by
          rw [Nat.mul_assoc, two_pow_sub_mul_share hle hb]
  omega

end Codeword

namespace CodeTable

open Codeword

def LegalLength (l : Nat) : Prop :=
  0 < l ∧ l ≤ maxCodeLength

def usedHops (lengths : HopMap Nat) : List Hop :=
  Hop.all.filter fun h => lengths h ≠ unusedLength

/-- The room that codewords of the given lengths take. -/
def kraftSum (lengths : HopMap Nat) : Nat :=
  ((usedHops lengths).map fun h => share (lengths h)).sum

theorem mem_usedHops {lengths : HopMap Nat} {h : Hop} :
    h ∈ usedHops lengths ↔ lengths h ≠ unusedLength := by
  simp [usedHops, Hop.mem_all]

theorem usedHops_nodup (lengths : HopMap Nat) : (usedHops lengths).Nodup := by
  have hall : Hop.all.Nodup := by decide
  exact hall.filter _

theorem lengthened_eq_ok_iff {lengths : HopMap Nat} {hops : List Hop} {used : List (Hop × Nat)} :
    lengthened lengths hops = .ok used ↔
      (∀ h ∈ hops, lengths h ≠ unusedLength → LegalLength (lengths h)) ∧
        used = (hops.filter fun h => lengths h ≠ unusedLength).map fun h => (h, lengths h) := by
  induction hops generalizing used with
  | nil => simp [lengthened, eq_comm]
  | cons h rest ih =>
      by_cases hunused : lengths h = unusedLength
      · simp [lengthened, hunused, ih]
      · have hrange : LegalLength (lengths h) ↔ ¬ (lengths h = 0 ∨ maxCodeLength < lengths h) := by
          unfold LegalLength
          omega
        rw [lengthened, if_neg hunused]
        by_cases hlegal : LegalLength (lengths h)
        · rw [if_neg (hrange.mp hlegal)]
          simp only [bind_eq_ok_iff, pure_eq_ok_iff, ih, List.forall_mem_cons, hlegal,
            implies_true, true_and]
          constructor
          · rintro ⟨more, ⟨hall, rfl⟩, rfl⟩
            exact ⟨hall, by simp [hunused]⟩
          · rintro ⟨hall, rfl⟩
            exact ⟨_, ⟨hall, rfl⟩, by simp [hunused]⟩
        · rw [if_pos (by rwa [hrange, not_not] at hlegal)]
          simp [hunused, hlegal]

theorem canonicalLe_trans (a b c : Hop × Nat) (hab : canonicalLe a b = true)
    (hbc : canonicalLe b c = true) : canonicalLe a c = true := by
  simp only [canonicalLe, Bool.or_eq_true, Bool.and_eq_true, decide_eq_true_eq] at *
  omega

theorem canonicalLe_total (a b : Hop × Nat) : (canonicalLe a b || canonicalLe b a) = true := by
  simp only [canonicalLe, Bool.or_eq_true, Bool.and_eq_true, decide_eq_true_eq]
  omega

def ranked (lengths : HopMap Nat) : List (Hop × Nat) :=
  ((usedHops lengths).map fun h => (h, lengths h)).mergeSort canonicalLe

theorem ranked_perm (lengths : HopMap Nat) :
    (ranked lengths).Perm ((usedHops lengths).map fun h => (h, lengths h)) :=
  List.mergeSort_perm _ _

theorem ranked_sorted (lengths : HopMap Nat) :
    (ranked lengths).Pairwise fun a b => a.2 ≤ b.2 := by
  have hsorted := List.pairwise_mergeSort canonicalLe_trans canonicalLe_total
    ((usedHops lengths).map fun h => (h, lengths h))
  apply hsorted.imp
  intro a b hab
  simp only [canonicalLe, Bool.or_eq_true, Bool.and_eq_true, decide_eq_true_eq] at hab
  omega

/-- Codewords given out in order from `start` on: each hop gets its length, and every codeword
lies behind the ones before it. -/
structure Assigned (start : Nat) (list : List (Hop × Nat)) (coded : List (Hop × Codeword)) :
    Prop where
  lengths : coded.map (fun e => (e.1, e.2.length)) = list
  fits : ∀ e ∈ coded, e.2.Fits
  start_le : ∀ e ∈ coded, start ≤ e.2.low
  sideBySide : coded.Pairwise fun a b => a.2.high ≤ b.2.low

theorem assign_cons_eq_ok_iff {next length l : Nat} {h : Hop} {rest : List (Hop × Nat)}
    {coded : List (Hop × Codeword)} :
    assign next length ((h, l) :: rest) = .ok coded ↔ next <<< (l - length) < 2 ^ l ∧
      ∃ more, assign (next <<< (l - length) + 1) l rest = .ok more ∧
        coded = (h, ⟨l, next <<< (l - length)⟩) :: more := by
  simp only [assign, Nat.one_shiftLeft]
  by_cases hroom : 2 ^ l ≤ next <<< (l - length)
  · simp [hroom, Nat.not_lt.mpr hroom]
  · rw [if_neg hroom]
    simp only [bind_eq_ok_iff, pure_eq_ok_iff, Nat.not_le.mp hroom, true_and,
      eq_comm (a := coded)]

theorem assigned_of_assign {next length : Nat} {list : List (Hop × Nat)}
    {coded : List (Hop × Codeword)} (hassign : assign next length list = .ok coded)
    (hrange : ∀ e ∈ list, length ≤ e.2 ∧ e.2 ≤ maxCodeLength)
    (hsorted : list.Pairwise fun a b => a.2 ≤ b.2) :
    Assigned (next * share length) list coded := by
  induction list generalizing next length coded with
  | nil =>
      cases hassign
      exact ⟨rfl, by simp, by simp, .nil⟩
  | cons e rest ih =>
      obtain ⟨h, l⟩ := e
      obtain ⟨hle, hmax⟩ := hrange (h, l) List.mem_cons_self
      rw [List.pairwise_cons] at hsorted
      obtain ⟨hroom, more, hrest, rfl⟩ := assign_cons_eq_ok_iff.mp hassign
      have hmore := ih hrest
        (fun d hd => ⟨hsorted.1 d hd, (hrange d (List.mem_cons_of_mem _ hd)).2⟩) hsorted.2
      have hlow : (Codeword.mk l (next <<< (l - length))).low = next * share length := by
        rw [low, shiftLeft_sub_mul_share hle hmax]
      have hhigh : (Codeword.mk l (next <<< (l - length))).high =
          (next <<< (l - length) + 1) * share l := rfl
      have hbehind : next * share length ≤ (next <<< (l - length) + 1) * share l := by
        rw [← hhigh, high_eq, hlow]
        exact Nat.le_add_right _ _
      refine ⟨by simp [hmore.lengths], ?_, ?_, ?_⟩
      · rw [List.forall_mem_cons]
        exact ⟨hroom, hmore.fits⟩
      · rw [List.forall_mem_cons]
        exact ⟨Nat.le_of_eq hlow.symm,
          fun d hd => Nat.le_trans hbehind (hmore.start_le d hd)⟩
      · rw [List.pairwise_cons]
        exact ⟨fun d hd => hmore.start_le d hd, hmore.sideBySide⟩

/-- There are codewords for all as long as there is room for them. -/
theorem exists_assign {next length : Nat} {list : List (Hop × Nat)}
    (hrange : ∀ e ∈ list, length ≤ e.2 ∧ e.2 ≤ maxCodeLength)
    (hsorted : list.Pairwise fun a b => a.2 ≤ b.2)
    (hroom : next * share length + (list.map fun e => share e.2).sum ≤ 2 ^ maxCodeLength) :
    ∃ coded, assign next length list = .ok coded := by
  induction list generalizing next length with
  | nil => exact ⟨[], rfl⟩
  | cons e rest ih =>
      obtain ⟨h, l⟩ := e
      obtain ⟨hle, hmax⟩ := hrange (h, l) List.mem_cons_self
      rw [List.pairwise_cons] at hsorted
      have hlow : next <<< (l - length) * share l = next * share length :=
        shiftLeft_sub_mul_share hle hmax
      simp only [List.map_cons, List.sum_cons] at hroom
      have hfits : next <<< (l - length) < 2 ^ l := by
        by_contra hbeyond
        have hfull := Nat.mul_le_mul_right (share l) (Nat.not_lt.mp hbeyond)
        rw [two_pow_mul_share hmax, hlow] at hfull
        have hpos := share_pos l
        omega
      have hrest : (next <<< (l - length) + 1) * share l +
          (rest.map fun e => share e.2).sum ≤ 2 ^ maxCodeLength := by
        rw [Nat.add_mul, hlow]
        omega
      obtain ⟨more, hmore⟩ := ih
        (fun d hd => ⟨hsorted.1 d hd, (hrange d (List.mem_cons_of_mem _ hd)).2⟩) hsorted.2 hrest
      exact ⟨_, assign_cons_eq_ok_iff.mpr ⟨hfits, more, hmore, rfl⟩⟩

/-- Codewords that were given out have room. -/
theorem room_of_assign {next length : Nat} {list : List (Hop × Nat)}
    {coded : List (Hop × Codeword)} (hassign : assign next length list = .ok coded)
    (hrange : ∀ e ∈ list, length ≤ e.2 ∧ e.2 ≤ maxCodeLength)
    (hsorted : list.Pairwise fun a b => a.2 ≤ b.2) (hlength : length ≤ maxCodeLength)
    (hnext : next ≤ 2 ^ length) :
    next * share length + (list.map fun e => share e.2).sum ≤ 2 ^ maxCodeLength := by
  induction list generalizing next length coded with
  | nil =>
      rw [List.map_nil, List.sum_nil, Nat.add_zero, ← two_pow_mul_share hlength]
      exact Nat.mul_le_mul_right _ hnext
  | cons e rest ih =>
      obtain ⟨h, l⟩ := e
      obtain ⟨hle, hmax⟩ := hrange (h, l) List.mem_cons_self
      rw [List.pairwise_cons] at hsorted
      obtain ⟨hroom, more, hrest, -⟩ := assign_cons_eq_ok_iff.mp hassign
      have hmore := ih hrest
        (fun d hd => ⟨hsorted.1 d hd, (hrange d (List.mem_cons_of_mem _ hd)).2⟩)
        hsorted.2 hmax hroom
      rw [Nat.add_mul, shiftLeft_sub_mul_share hle hmax, Nat.one_mul] at hmore
      rw [List.map_cons, List.sum_cons, ← Nat.add_assoc]
      exact hmore

/-- Entering distinct faultless entries fills their slots and no others. -/
theorem exists_enter {slots : HopMap (Option CodeEntry)} {list : List (Hop × CodeEntry)}
    (hnew : ∀ e ∈ list, slots e.1 = none) (hnodup : (list.map Prod.fst).Nodup)
    (hfault : ∀ e ∈ list, e.2.fault? = none) :
    ∃ filled, enter slots list = .ok filled ∧ (∀ e ∈ list, filled e.1 = some e.2) ∧
      ∀ h, h ∉ list.map Prod.fst → filled h = slots h := by
  induction list generalizing slots with
  | nil => exact ⟨slots, rfl, by simp, by simp⟩
  | cons e rest ih =>
      obtain ⟨h, e⟩ := e
      simp only [List.map_cons, List.nodup_cons] at hnodup
      have hfresh : ∀ d ∈ rest, (slots.set h (some e)) d.1 = none := by
        intro d hd
        have hne : h ≠ d.1 := fun heq => hnodup.1 (heq ▸ List.mem_map_of_mem hd)
        rw [HopMap.get_set, if_neg hne]
        exact hnew d (List.mem_cons_of_mem _ hd)
      obtain ⟨filled, henter, hlisted, hother⟩ :=
        ih hfresh hnodup.2 fun d hd => hfault d (List.mem_cons_of_mem _ hd)
      have hslot : slots h = none := hnew (h, e) List.mem_cons_self
      have hgood : e.fault? = none := hfault (h, e) List.mem_cons_self
      refine ⟨filled, by simp [enter, hslot, hgood, henter], ?_, ?_⟩
      · rw [List.forall_mem_cons]
        refine ⟨?_, hlisted⟩
        rw [hother h hnodup.1, HopMap.get_set, if_pos rfl]
      · intro g hg
        simp only [List.map_cons, List.mem_cons, not_or] at hg
        rw [hother g hg.2, HopMap.get_set, if_neg (Ne.symm hg.1)]

/-- The slots filled by a list of codewords, read as a table, hold just these codewords. -/
theorem code?_filled {coded : List (Hop × Codeword)} {counts : Hop → Nat}
    {filled : HopMap (Option CodeEntry)} (hnodup : (coded.map Prod.fst).Nodup)
    (hlisted : ∀ e ∈ coded, filled e.1 = some ⟨some e.2, counts e.1⟩)
    (hother : ∀ h, h ∉ coded.map Prod.fst → filled h = none) (h : Hop) (c : Codeword) :
    (ofSlots filled).code? h = some c ↔ (h, c) ∈ coded := by
  by_cases hmem : h ∈ coded.map Prod.fst
  · obtain ⟨⟨g, d⟩, hd, rfl⟩ := List.mem_map.mp hmem
    simp only [code?, ofSlots, HopMap.map, HopMap.get_ofFn, hlisted (g, d) hd, Option.getD_some,
      Option.some.injEq]
    constructor
    · rintro rfl
      exact hd
    · intro hc
      have heq := List.inj_on_of_nodup_map hnodup hd hc rfl
      exact congrArg Prod.snd heq
  · simp only [code?, ofSlots, HopMap.map, HopMap.get_ofFn, hother h hmem, Option.getD_none,
      CodeEntry.unused, reduceCtorEq, false_iff]
    exact fun hc => hmem (List.mem_map.mpr ⟨(h, c), hc, rfl⟩)

/-- Sorted codewords side by side have no conflict. -/
theorem firstConflict?_eq_none {t : CodeTable} {coded : List (Hop × Codeword)}
    (hcode : ∀ h c, t.code? h = some c ↔ (h, c) ∈ coded)
    (hlegal : ∀ e ∈ coded, LegalLength e.2.length)
    (hsorted : coded.Pairwise fun a b => a.2.length ≤ b.2.length)
    (hside : coded.Pairwise fun a b => a.2.high ≤ b.2.low) :
    firstConflict? t.codewords = none := by
  have hfree : coded.Pairwise fun a b => a.2.overlaps b.2 = false := by
    apply (hsorted.and hside).imp_of_mem
    intro a b _ hb hab
    exact overlaps_eq_false hab.1 (hlegal b hb).2 hab.2
  have hsymm : Std.Symm fun a b : Hop × Codeword => a.2.overlaps b.2 = false :=
    ⟨fun a b hab => by rw [overlaps_comm]; exact hab⟩
  rw [firstConflict?_codewords_eq_none_iff]
  intro g h a b ha hb hne
  exact hfree.forall ((hcode g a).mp ha) ((hcode h b).mp hb) fun heq => hne (congrArg Prod.fst heq)

/-- A list of legal codewords side by side makes a table that holds just these. -/
theorem exists_ofEntries {coded : List (Hop × Codeword)} (counts : Hop → Nat)
    (hnonempty : coded ≠ []) (hnodup : (coded.map Prod.fst).Nodup)
    (hlegal : ∀ e ∈ coded, LegalLength e.2.length) (hfits : ∀ e ∈ coded, e.2.Fits)
    (hsorted : coded.Pairwise fun a b => a.2.length ≤ b.2.length)
    (hside : coded.Pairwise fun a b => a.2.high ≤ b.2.low) :
    ∃ t, ofEntries (coded.map fun (h, c) => (h, ⟨some c, counts h⟩)) = .ok t ∧
      ∀ h c, t.code? h = some c ↔ (h, c) ∈ coded := by
  let entries : List (Hop × CodeEntry) := coded.map fun (h, c) => (h, ⟨some c, counts h⟩)
  have hfst : entries.map Prod.fst = coded.map Prod.fst := by
    simp [entries, Function.comp_def]
  have hfault : ∀ e ∈ entries, e.2.fault? = none := by
    intro e he
    simp only [entries, List.mem_map] at he
    obtain ⟨⟨h, c⟩, hmem, rfl⟩ := he
    have hlength : LegalLength c.length := hlegal _ hmem
    have hfit : c.value < 2 ^ c.length := hfits _ hmem
    have hroom : ¬ 1 <<< c.length ≤ c.value := by
      rw [Nat.one_shiftLeft]
      exact Nat.not_le.mpr hfit
    have hrange : ¬ (c.length = 0 ∨ maxCodeLength < c.length) := by
      unfold LegalLength at hlength
      omega
    simp [CodeEntry.fault?, hrange, hroom]
  have hempty : ∀ e ∈ entries, (HopMap.const none : HopMap (Option CodeEntry)) e.1 = none := by
    simp
  obtain ⟨filled, henter, hlisted, hother⟩ := exists_enter hempty (hfst ▸ hnodup) hfault
  have hcode : ∀ h c, (ofSlots filled).code? h = some c ↔ (h, c) ∈ coded := by
    have hfilled : ∀ e ∈ coded, filled e.1 = some ⟨some e.2, counts e.1⟩ := fun e he =>
      hlisted (e.1, ⟨some e.2, counts e.1⟩) (List.mem_map.mpr ⟨e, he, rfl⟩)
    refine code?_filled hnodup hfilled ?_
    intro h hmem
    rw [hother h (hfst ▸ hmem)]
    simp
  have hconflict := firstConflict?_eq_none hcode hlegal hsorted hside
  have hused : (ofSlots filled).codewords ≠ [] := by
    obtain ⟨⟨h, c⟩, hmem⟩ := List.exists_mem_of_ne_nil coded hnonempty
    exact List.ne_nil_of_mem (mem_codewords.mpr ⟨h, (hcode h c).mpr hmem⟩)
  exact ⟨ofSlots filled, ofEntries_eq_ok_iff.mpr ⟨filled, henter, rfl, hused, hconflict⟩, hcode⟩

def canonicalCodes (lengths : HopMap Nat) : Except TableFault (List (Hop × Codeword)) :=
  assign 0 0 (ranked lengths)

/-- A canonical table lists the canonical codewords of legal lengths. -/
theorem codes_of_canonical {lengths counts : HopMap Nat} {t : CodeTable}
    (ht : canonical lengths counts = .ok t) :
    (∀ h, lengths h ≠ unusedLength → LegalLength (lengths h)) ∧
      ∃ coded, canonicalCodes lengths = .ok coded ∧
        ofEntries (coded.map fun (h, c) => (h, ⟨some c, counts h⟩)) = .ok t := by
  obtain ⟨used, hused, hrest⟩ := bind_eq_ok_iff.mp ht
  obtain ⟨coded, hcoded, hentries⟩ := bind_eq_ok_iff.mp hrest
  obtain ⟨hlegal, rfl⟩ := lengthened_eq_ok_iff.mp hused
  exact ⟨fun h => hlegal h (Hop.mem_all h), coded, hcoded, hentries⟩

theorem sound_of_canonical {lengths counts : HopMap Nat} {t : CodeTable}
    (ht : canonical lengths counts = .ok t) : t.Sound := by
  obtain ⟨-, coded, -, hentries⟩ := codes_of_canonical ht
  exact sound_of_ofEntries hentries

/-- Lengths that a table can be built from: legal ones, at least one, and with room for all. -/
structure Feasible (lengths : HopMap Nat) : Prop where
  legal : ∀ h, lengths h ≠ unusedLength → LegalLength (lengths h)
  used : ∃ h, lengths h ≠ unusedLength
  room : kraftSum lengths ≤ 2 ^ maxCodeLength

theorem Feasible.ranked_legal {lengths : HopMap Nat} (h : Feasible lengths) :
    ∀ e ∈ ranked lengths, LegalLength e.2 := by
  intro e he
  rw [(ranked_perm lengths).mem_iff, List.mem_map] at he
  obtain ⟨hop, hmem, rfl⟩ := he
  exact h.legal hop (mem_usedHops.mp hmem)

theorem sum_share_ranked (lengths : HopMap Nat) :
    ((ranked lengths).map fun e => share e.2).sum = kraftSum lengths := by
  rw [((ranked_perm lengths).map fun e => share e.2).sum_eq, List.map_map]
  rfl

/-- Only feasible lengths make a table. -/
theorem feasible_of_canonical {lengths counts : HopMap Nat} {t : CodeTable}
    (ht : canonical lengths counts = .ok t) : Feasible lengths := by
  obtain ⟨hlegal, coded, hcoded, hentries⟩ := codes_of_canonical ht
  have hrange : ∀ e ∈ ranked lengths, 0 ≤ e.2 ∧ e.2 ≤ maxCodeLength := by
    intro e he
    rw [(ranked_perm lengths).mem_iff, List.mem_map] at he
    obtain ⟨h, hmem, rfl⟩ := he
    exact ⟨Nat.zero_le _, (hlegal h (mem_usedHops.mp hmem)).2⟩
  refine ⟨hlegal, ?_, ?_⟩
  · by_contra hunused
    have hnone : usedHops lengths = [] := by
      rw [List.eq_nil_iff_forall_not_mem]
      exact fun h hmem => hunused ⟨h, mem_usedHops.mp hmem⟩
    have hempty : coded = [] := by
      simpa [canonicalCodes, ranked, hnone, assign, eq_comm] using hcoded
    rw [hempty] at hentries
    cases hentries
  · have hroom := room_of_assign hcoded hrange (ranked_sorted lengths) (Nat.zero_le _)
      (Nat.zero_le _)
    rwa [Nat.zero_mul, Nat.zero_add, sum_share_ranked] at hroom

/-- Feasible lengths have canonical codewords. -/
theorem Feasible.exists_codes {lengths : HopMap Nat} (h : Feasible lengths) :
    ∃ coded, canonicalCodes lengths = .ok coded ∧ Assigned 0 (ranked lengths) coded := by
  have hrange : ∀ e ∈ ranked lengths, 0 ≤ e.2 ∧ e.2 ≤ maxCodeLength :=
    fun e he => ⟨Nat.zero_le _, (h.ranked_legal e he).2⟩
  have hroom : 0 * share 0 + ((ranked lengths).map fun e => share e.2).sum ≤
      2 ^ maxCodeLength := by
    rw [sum_share_ranked, Nat.zero_mul, Nat.zero_add]
    exact h.room
  obtain ⟨coded, hcoded⟩ := exists_assign hrange (ranked_sorted lengths) hroom
  refine ⟨coded, hcoded, ?_⟩
  have hassigned := assigned_of_assign hcoded hrange (ranked_sorted lengths)
  rwa [Nat.zero_mul] at hassigned

/-- Feasible lengths make a table, and its codewords are the canonical ones whatever the counts. -/
theorem Feasible.exists_canonical {lengths : HopMap Nat} (h : Feasible lengths)
    (counts : HopMap Nat) :
    ∃ coded t, canonicalCodes lengths = .ok coded ∧ Assigned 0 (ranked lengths) coded ∧
      canonical lengths counts = .ok t ∧ ∀ hop c, t.code? hop = some c ↔ (hop, c) ∈ coded := by
  obtain ⟨coded, hcoded, hassigned⟩ := h.exists_codes
  have hlengths := hassigned.lengths
  have hnonempty : coded ≠ [] := by
    rintro rfl
    obtain ⟨hop, hused⟩ := h.used
    have hmem : (hop, lengths hop) ∈ ranked lengths := by
      rw [(ranked_perm lengths).mem_iff]
      exact List.mem_map_of_mem (mem_usedHops.mpr hused)
    rw [← hlengths] at hmem
    simp at hmem
  have hnodup : (coded.map Prod.fst).Nodup := by
    have hfst : coded.map Prod.fst = (ranked lengths).map Prod.fst := by
      rw [← hlengths, List.map_map]
      rfl
    rw [hfst, ((ranked_perm lengths).map Prod.fst).nodup_iff, List.map_map]
    simpa [Function.comp_def] using usedHops_nodup lengths
  have hlegal : ∀ e ∈ coded, LegalLength e.2.length := by
    intro e he
    have hmem : (e.1, e.2.length) ∈ ranked lengths := by
      rw [← hlengths]
      exact List.mem_map_of_mem he
    exact h.ranked_legal _ hmem
  have hsorted : coded.Pairwise fun a b => a.2.length ≤ b.2.length := by
    have hranked := ranked_sorted lengths
    rw [← hlengths, List.pairwise_map] at hranked
    exact hranked
  obtain ⟨t, ht, hcode⟩ := exists_ofEntries counts.get hnonempty hnodup hlegal hassigned.fits
    hsorted hassigned.sideBySide
  refine ⟨coded, t, hcoded, hassigned, ?_, hcode⟩
  have hused : lengthened lengths Hop.all = .ok ((usedHops lengths).map fun h => (h, lengths h)) :=
    lengthened_eq_ok_iff.mpr ⟨fun hop _ => h.legal hop, rfl⟩
  have hassign : assign 0 0 (((usedHops lengths).map fun h => (h, lengths h)).mergeSort
      canonicalLe) = .ok coded := hcoded
  simp only [canonical, hused, bind, Except.bind, hassign]
  exact ht

/-- The table of feasible lengths has just these lengths. -/
theorem Feasible.code?_canonical {lengths counts : HopMap Nat} (h : Feasible lengths)
    {t : CodeTable} (ht : canonical lengths counts = .ok t) (hop : Hop) :
    (lengths hop = unusedLength → t.code? hop = none) ∧
      (lengths hop ≠ unusedLength → ∃ c, t.code? hop = some c ∧ c.length = lengths hop) := by
  obtain ⟨coded, t', -, hassigned, ht', hcode⟩ := h.exists_canonical counts
  obtain rfl : t' = t := by
    rw [ht] at ht'
    cases ht'
    rfl
  have hmem : ∀ l, (hop, l) ∈ ranked lengths ↔ lengths hop ≠ unusedLength ∧ l = lengths hop := by
    intro l
    rw [(ranked_perm lengths).mem_iff]
    simp only [List.mem_map, mem_usedHops, Prod.mk.injEq]
    constructor
    · rintro ⟨_, hused, rfl, rfl⟩
      exact ⟨hused, rfl⟩
    · rintro ⟨hused, rfl⟩
      exact ⟨hop, hused, rfl, rfl⟩
  constructor
  · intro hunused
    by_contra hsome
    obtain ⟨c, hc⟩ := Option.ne_none_iff_exists'.mp hsome
    have hlisted : (hop, c.length) ∈ ranked lengths := by
      rw [← hassigned.lengths]
      exact List.mem_map_of_mem ((hcode hop c).mp hc)
    exact ((hmem c.length).mp hlisted).1 hunused
  · intro hused
    have hlisted := (hmem (lengths hop)).mpr ⟨hused, rfl⟩
    rw [← hassigned.lengths, List.mem_map] at hlisted
    obtain ⟨⟨g, c⟩, hc, heq⟩ := hlisted
    obtain ⟨rfl, hlength⟩ := Prod.mk.inj heq
    exact ⟨c, (hcode g c).mpr hc, hlength⟩

end CodeTable

end HopCodec
