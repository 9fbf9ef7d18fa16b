/-
Codewords as bit strings.  The numeric overlap test decides whether one codeword begins another,
and the tables that pass it are prefix codes.
-/
import Mathlib.Data.List.Pairwise
import HopCodec.Huffman.CodeTable
import HopCodec.Proofs.Bits.Stream
import HopCodec.Proofs.Results

namespace HopCodec

theorem spell_injective {a b n : Nat} (ha : a < 2 ^ n) (hb : b < 2 ^ n)
    (h : spell a n = spell b n) : a = b := by
  rw [← bitsValue_spell a n ha, h, bitsValue_spell b n hb]

namespace Codeword

@[simp] theorem length_bits (c : Codeword) : c.bits.length = c.length := by
  simp [bits]

/-- The value of a codeword has no bits beyond its length. -/
def Fits (c : Codeword) : Prop :=
  c.value < 2 ^ c.length

def take (c : Codeword) (n : Nat) : Codeword :=
  ⟨n, c.value >>> (c.length - n)⟩

theorem take_fits {c : Codeword} (h : c.Fits) {n : Nat} (hn : n ≤ c.length) : (c.take n).Fits := by
  unfold Fits take at *
  rw [Nat.shiftRight_eq_div_pow, Nat.div_lt_iff_lt_mul (Nat.two_pow_pos _), ← Nat.pow_add,
    Nat.add_sub_cancel' hn]
  exact h

theorem take_length (c : Codeword) : c.take c.length = c := by
  simp [take]

theorem bits_take (c : Codeword) {n : Nat} (hn : n ≤ c.length) :
    c.bits = (c.take n).bits ++ spell c.value (c.length - n) := by
  have hsplit := spell_add c.value n (c.length - n)
  rw [Nat.add_sub_cancel' hn, ← Nat.shiftRight_eq_div_pow] at hsplit
  exact hsplit

/-- A codeword that begins another one is the first part of it. -/
theorem prefix_iff {a b : Codeword} (ha : a.Fits) (hb : b.Fits) (hle : a.length ≤ b.length) :
    a.bits <+: b.bits ↔ b.value >>> (b.length - a.length) = a.value := by
  have htake := bits_take b hle
  constructor
  · intro hfront
    rw [htake] at hfront
    have heq : a.bits = (b.take a.length).bits := by
      have hboth := List.prefix_of_prefix_length_le hfront
        (List.prefix_append (b.take a.length).bits _) (by simp [take])
      exact hboth.eq_of_length (by simp [take])
    exact (spell_injective ha (take_fits hb hle) heq).symm
  · intro hvalue
    rw [htake]
    have heq : b.take a.length = a := by
      cases a
      simp only [take, mk.injEq, true_and]
      exact hvalue
    rw [heq]
    exact List.prefix_append _ _

theorem overlaps_of_prefix {a b : Codeword} (ha : a.Fits) (hb : b.Fits)
    (hfront : a.bits <+: b.bits) : a.overlaps b = true := by
  have hle : a.length ≤ b.length := by simpa using hfront.length_le
  simp [overlaps, hle, (prefix_iff ha hb hle).mp hfront]

theorem overlaps_comm (a b : Codeword) : a.overlaps b = b.overlaps a := by
  unfold overlaps
  rcases Nat.lt_trichotomy a.length b.length with hlt | heq | hgt
  · rw [if_pos (Nat.le_of_lt hlt), if_neg (Nat.not_le.mpr hlt)]
  · rw [if_pos (Nat.le_of_eq heq), if_pos (Nat.le_of_eq heq.symm), heq]
    simp [eq_comm]
  · rw [if_neg (Nat.not_le.mpr hgt), if_pos (Nat.le_of_lt hgt)]

theorem firstConflict?_eq_none_iff (codes : List Codeword) :
    firstConflict? codes = none ↔ codes.Pairwise fun a b => a.overlaps b = false := by
  induction codes with
  | nil => simp [firstConflict?]
  | cons c rest ih =>
      rw [List.pairwise_cons, ← ih]
      have hhead : rest.findSome? c.conflict? = none ↔ ∀ d ∈ rest, c.overlaps d = false := by
        rw [List.findSome?_eq_none_iff]
        refine forall₂_congr fun d _ => ?_
        cases hoverlap : c.overlaps d <;> simp [conflict?, hoverlap]
      cases hfind : rest.findSome? c.conflict? with
      | none =>
          have hfree := hhead.mp hfind
          simp only [firstConflict?, hfind]
          exact ⟨fun hrest => ⟨hfree, hrest⟩, fun hboth => hboth.2⟩
      | some fault =>
          have hnot : ¬ ∀ d ∈ rest, c.overlaps d = false := by
            rw [← hhead, hfind]
            exact Option.some_ne_none fault
          simp [firstConflict?, hfind, hnot]

end Codeword

namespace CodeTable

/-- What every accepted table satisfies: codewords of legal length that no other codeword
begins, for at least one hop. -/
structure Sound (t : CodeTable) : Prop where
  length_pos : ∀ h c, t.code? h = some c → 0 < c.length
  length_le : ∀ h c, t.code? h = some c → c.length ≤ maxCodeLength
  fits : ∀ h c, t.code? h = some c → c.Fits
  prefixFree : ∀ g h a b, t.code? g = some a → t.code? h = some b → a.bits <+: b.bits → g = h
  used : ∃ h c, t.code? h = some c

theorem mem_codewords {t : CodeTable} {c : Codeword} :
    c ∈ t.codewords ↔ ∃ h, t.code? h = some c := by
  simp [codewords, Hop.mem_all]

/-- No two hops have overlapping codewords exactly if the list of codewords has no conflict. -/
theorem firstConflict?_codewords_eq_none_iff (t : CodeTable) :
    Codeword.firstConflict? t.codewords = none ↔
      ∀ g h a b, t.code? g = some a → t.code? h = some b → g ≠ h → a.overlaps b = false := by
  rw [Codeword.firstConflict?_eq_none_iff, codewords, List.pairwise_filterMap]
  constructor
  · intro hpairwise g h a b ha hb hne
    have hsymm : Std.Symm fun g h : Hop =>
        ∀ a, t.code? g = some a → ∀ b, t.code? h = some b → a.overlaps b = false := by
      constructor
      intro g h hgh b hb a ha
      rw [Codeword.overlaps_comm]
      exact hgh a ha b hb
    exact hpairwise.forall (Hop.mem_all g) (Hop.mem_all h) hne a ha b hb
  · intro hall
    have hnodup : Hop.all.Nodup := by decide
    exact hnodup.imp fun hne a ha b hb => hall _ _ a b ha hb hne

/-- Entering keeps the slots free of faulty entries. -/
theorem faultless_of_enter {slots filled : HopMap (Option CodeEntry)}
    {list : List (Hop × CodeEntry)} (henter : enter slots list = .ok filled)
    (hslots : ∀ h e, slots h = some e → e.fault? = none) :
    ∀ h e, filled h = some e → e.fault? = none := by
  induction list generalizing slots with
  | nil =>
      cases henter
      exact hslots
  | cons head rest ih =>
      obtain ⟨g, entry⟩ := head
      simp only [enter] at henter
      split at henter
      · cases henter
      · split at henter
        · cases henter
        · next hgood =>
            apply ih henter
            intro h e he
            rw [HopMap.get_set] at he
            split at he
            · cases he
              exact hgood
            · exact hslots h e he

/-- The slots as a table: hops that were not listed are unused. -/
def ofSlots (slots : HopMap (Option CodeEntry)) : CodeTable :=
  ⟨slots.map fun slot => slot.getD .unused⟩

theorem ofEntries_eq_ok_iff {list : List (Hop × CodeEntry)} {t : CodeTable} :
    ofEntries list = .ok t ↔
      ∃ filled, enter (HopMap.const none) list = .ok filled ∧ t = ofSlots filled ∧
        t.codewords ≠ [] ∧ Codeword.firstConflict? t.codewords = none := by
  have hslots (filled : HopMap (Option CodeEntry)) :
      (⟨filled.map fun slot => slot.getD .unused⟩ : CodeTable) = ofSlots filled := rfl
  simp only [ofEntries, bind_eq_ok_iff, ite_throw_eq_ok_iff, hslots, List.isEmpty_iff]
  refine exists_congr fun filled => and_congr_right fun _ => ?_
  cases hconflict : Codeword.firstConflict? (ofSlots filled).codewords with
  | some fault =>
      constructor
      · rintro ⟨-, h⟩
        cases h
      · rintro ⟨rfl, -, h⟩
        rw [hconflict] at h
        cases h
  | none =>
      rw [pure_eq_ok_iff]
      constructor
      · rintro ⟨hne, rfl⟩
        exact ⟨rfl, hne, hconflict⟩
      · rintro ⟨rfl, hne, -⟩
        exact ⟨hne, rfl⟩

theorem legal_of_fault?_eq_none {e : CodeEntry} {c : Codeword} (hgood : e.fault? = none)
    (hcode : e.code = some c) : 0 < c.length ∧ c.length ≤ maxCodeLength ∧ c.Fits := by
  unfold CodeEntry.fault? at hgood
  rw [hcode] at hgood
  simp only at hgood
  split at hgood
  · cases hgood
  · split at hgood
    · cases hgood
    · unfold Codeword.Fits
      omega

/-- Entered codewords are legal. -/
theorem legal_of_enter {list : List (Hop × CodeEntry)} {filled : HopMap (Option CodeEntry)}
    (henter : enter (HopMap.const none) list = .ok filled) (h : Hop) (c : Codeword)
    (hcode : (ofSlots filled).code? h = some c) :
    0 < c.length ∧ c.length ≤ maxCodeLength ∧ c.Fits := by
  simp only [code?, ofSlots, HopMap.map, HopMap.get_ofFn] at hcode
  cases hslot : filled h with
  | none => simp [hslot, CodeEntry.unused] at hcode
  | some e =>
      have hgood := faultless_of_enter henter (by simp) h e hslot
      rw [hslot] at hcode
      exact legal_of_fault?_eq_none hgood hcode

/-- Every accepted table is sound. -/
theorem sound_of_ofEntries {list : List (Hop × CodeEntry)} {t : CodeTable}
    (hok : ofEntries list = .ok t) : t.Sound := by
  obtain ⟨filled, henter, rfl, hused, hconflict⟩ := ofEntries_eq_ok_iff.mp hok
  have hlegal := legal_of_enter henter
  refine ⟨fun h c hc => (hlegal h c hc).1, fun h c hc => (hlegal h c hc).2.1,
    fun h c hc => (hlegal h c hc).2.2, ?_, ?_⟩
  · intro g h a b ha hb hfront
    by_contra hne
    have hapart := (firstConflict?_codewords_eq_none_iff _).mp hconflict g h a b ha hb hne
    rw [Codeword.overlaps_of_prefix (hlegal g a ha).2.2 (hlegal h b hb).2.2 hfront] at hapart
    cases hapart
  · obtain ⟨c, hmem⟩ := List.exists_mem_of_ne_nil _ hused
    obtain ⟨h, hcode⟩ := mem_codewords.mp hmem
    exact ⟨h, c, hcode⟩

end CodeTable

end HopCodec
