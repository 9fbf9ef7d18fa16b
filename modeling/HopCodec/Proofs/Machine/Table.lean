/-
Code tables on the machine.  The checks on entries and lengths keep every shift below the word and
every slot within the table, so that tables are built, read and used as the plain ones are.
-/
import HopCodec.Machine.Table
import HopCodec.Proofs.Huffman.Symbols
import HopCodec.Proofs.Machine.Cursor
import HopCodec.Proofs.Machine.Packer
import HopCodec.Proofs.Machine.Slot

namespace HopCodec.Machine

/-- A check that finds at most one fault. -/
def verdict : Option TableFault → Run Unit
  | none => .ok ()
  | some fault => refuseTable fault

namespace Table

theorem shiftRight_eq_zero_iff (value l : Nat) : value >>> l = 0 ↔ value < 1 <<< l := by
  rw [Nat.shiftRight_eq_div_pow, Nat.one_shiftLeft,
    Nat.div_eq_zero_iff_lt (Nat.two_pow_pos l)]

theorem checkEntry_eq (e : CodeEntry) : checkEntry e = verdict e.fault? := by
  rcases e with ⟨code, count⟩
  rcases code with - | c
  · rfl
  · rw [checkEntry, CodeEntry.fault?]
    simp only
    by_cases hrange : c.length = 0 ∨ maxCodeLength < c.length
    · rw [if_pos hrange, if_pos hrange]
      rfl
    · have hshift : c.length < 32 := by
        unfold maxCodeLength at hrange
        omega
      rw [if_neg hrange, if_neg hrange, shiftRight_eq hshift, ok_bind]
      by_cases hwide : 1 <<< c.length ≤ c.value
      · have hne : c.value >>> c.length ≠ 0 := fun hzero =>
          Nat.not_lt.mpr hwide ((shiftRight_eq_zero_iff _ _).mp hzero)
        rw [if_pos hwide, if_pos hne]
        rfl
      · have hzero : ¬ c.value >>> c.length ≠ 0 :=
          not_not.mpr ((shiftRight_eq_zero_iff _ _).mpr (Nat.not_le.mp hwide))
        rw [if_neg hwide, if_neg hzero]
        rfl

theorem enter_eq (entered : HopMap (Option CodeEntry)) (list : List (Hop × CodeEntry)) :
    enter entered list = lift ((CodeTable.enter entered list).mapError Fault.table) := by
  induction list generalizing entered with
  | nil => rfl
  | cons e rest ih =>
      rcases e with ⟨h, e⟩
      rw [enter, CodeTable.enter]
      by_cases htwice : (entered h).isSome
      · rw [if_pos htwice, if_pos htwice]
        rfl
      · rw [if_neg htwice, if_neg htwice, checkEntry_eq]
        cases e.fault? with
        | some fault => rfl
        | none => exact ih _

def Short (codes : List Codeword) : Prop :=
  ∀ c ∈ codes, c.length ≤ maxCodeLength

theorem overlaps_eq {a b : Codeword} (ha : a.length ≤ maxCodeLength)
    (hb : b.length ≤ maxCodeLength) : overlaps a b = .ok (a.overlaps b) := by
  unfold maxCodeLength at ha hb
  rw [overlaps, Codeword.overlaps]
  by_cases hle : a.length ≤ b.length
  · rw [if_pos hle, if_pos hle, sub_eq hle, ok_bind, shiftRight_eq (by omega), ok_bind]
    rfl
  · rw [if_neg hle, if_neg hle, sub_eq (Nat.le_of_not_le hle), ok_bind, shiftRight_eq (by omega),
      ok_bind]
    rfl

theorem separate_eq {a b : Codeword} (ha : a.length ≤ maxCodeLength)
    (hb : b.length ≤ maxCodeLength) : separate a b = verdict (a.conflict? b) := by
  rw [separate, overlaps_eq ha hb, ok_bind, Codeword.conflict?]
  cases a.overlaps b <;> rfl

theorem forM_separate_eq {c : Codeword} (hc : c.length ≤ maxCodeLength) {codes : List Codeword}
    (hcodes : Short codes) : codes.forM (separate c) = verdict (codes.findSome? c.conflict?) := by
  induction codes with
  | nil => rfl
  | cons d rest ih =>
      have hd := hcodes d List.mem_cons_self
      rw [List.forM_eq_forM, List.forM_cons, separate_eq hc hd, List.findSome?_cons]
      cases c.conflict? d with
      | some fault => rfl
      | none => exact ih fun e he => hcodes e (List.mem_cons_of_mem d he)

theorem separateAll_eq {codes : List Codeword} (hcodes : Short codes) :
    separateAll codes = verdict (Codeword.firstConflict? codes) := by
  induction codes with
  | nil => rfl
  | cons c rest ih =>
      have hrest : Short rest := fun d hd => hcodes d (List.mem_cons_of_mem c hd)
      rw [separateAll, forM_separate_eq (hcodes c List.mem_cons_self) hrest,
        Codeword.firstConflict?]
      cases rest.findSome? c.conflict? with
      | some fault => rfl
      | none => exact ih hrest

/-- The codewords of one length among filed ones. -/
def slotOf (entries : List (Hop × Codeword)) (length : Nat) : Slot :=
  ((entries.filter fun e => e.2.length = length).map fun e => (e.2.value, e.1)).toArray

theorem file_eq {slots : Array Slot} {e : Hop × Codeword} (hsize : slots.size = maxCodeLength + 1)
    (he : e.2.length ≤ maxCodeLength) :
    file slots e = .ok (slots.mapIdx fun length slot => slot ++ slotOf [e] length) := by
  have hlt : e.2.length < slots.size := by
    rw [hsize]
    exact Nat.lt_succ_of_le he
  rw [file, fetch_eq hlt, ok_bind, store_eq hlt]
  congr 1
  apply Array.ext
  · simp
  · intro i hi _
    rw [Array.size_setIfInBounds] at hi
    rw [Array.getElem_setIfInBounds hi, Array.getElem_mapIdx]
    by_cases heq : e.2.length = i
    · subst heq
      simp [slotOf]
    · simp [slotOf, heq]

theorem foldlM_file_eq {entries : List (Hop × Codeword)}
    (hentries : ∀ e ∈ entries, e.2.length ≤ maxCodeLength) {slots : Array Slot}
    (hsize : slots.size = maxCodeLength + 1) :
    entries.foldlM file slots =
      .ok (slots.mapIdx fun length slot => slot ++ slotOf entries length) := by
  induction entries generalizing slots with
  | nil =>
      rw [List.foldlM_nil, pure_eq_ok]
      congr 1
      apply Array.ext <;> simp [slotOf]
  | cons e rest ih =>
      have hsize' : (slots.mapIdx fun length slot => slot ++ slotOf [e] length).size =
          maxCodeLength + 1 := by simpa using hsize
      have hrest := ih (fun g hg => hentries g (List.mem_cons_of_mem e hg)) hsize'
      rw [List.foldlM_cons, file_eq hsize (hentries e List.mem_cons_self), ok_bind, hrest]
      congr 1
      apply Array.ext
      · simp
      · intro i hi _
        by_cases heq : e.2.length = i <;> simp [slotOf, heq]

def ofPlain (t : CodeTable) : Table :=
  ⟨t, Array.ofFn fun length : Fin (maxCodeLength + 1) => (slotOf (filed t) length).sorted,
    t.maxLength⟩

theorem mem_filed {t : CodeTable} {e : Hop × Codeword} : e ∈ filed t ↔ t.code? e.1 = some e.2 := by
  rcases e with ⟨h, c⟩
  simp [filed, Hop.mem_all]

theorem ofEntries_of_enter {list : List (Hop × CodeEntry)} {entered : HopMap (Option CodeEntry)}
    (henter : CodeTable.enter (HopMap.const none) list = .ok entered) :
    CodeTable.ofEntries list =
      if (CodeTable.ofSlots entered).codewords.isEmpty then .error .noUsedSymbol
      else (Codeword.firstConflict? (CodeTable.ofSlots entered).codewords).elim
        (.ok (CodeTable.ofSlots entered)) .error := by
  have hslots : (⟨entered.map fun slot => slot.getD .unused⟩ : CodeTable) =
      CodeTable.ofSlots entered := rfl
  rw [CodeTable.ofEntries, henter]
  simp only [bind, Except.bind, hslots]
  by_cases hempty : (CodeTable.ofSlots entered).codewords.isEmpty = true
  · rw [if_pos hempty, if_pos hempty]
    rfl
  · rw [if_neg hempty, if_neg hempty]
    cases Codeword.firstConflict? (CodeTable.ofSlots entered).codewords <;> rfl

/-- Codewords filed into empty slots make the slots of the table. -/
theorem exists_slots {t : CodeTable} (hfiled : ∀ e ∈ filed t, e.2.length ≤ maxCodeLength) :
    ∃ slots, (filed t).foldlM file (Array.replicate (maxCodeLength + 1) #[]) = .ok slots ∧
      ofPlain t = ⟨t, slots.map Slot.sorted, t.maxLength⟩ := by
  refine ⟨_, foldlM_file_eq hfiled Array.size_replicate, ?_⟩
  rw [ofPlain, Table.mk.injEq]
  refine ⟨rfl, ?_, rfl⟩
  apply Array.ext <;> simp

/-- Accepted entries make the plain table, filed. -/
theorem ofEntries_eq (list : List (Hop × CodeEntry)) :
    ofEntries list = lift (((CodeTable.ofEntries list).mapError Fault.table).map ofPlain) := by
  rw [ofEntries, enter_eq]
  cases henter : CodeTable.enter (HopMap.const none) list with
  | error fault =>
      have hfault : CodeTable.ofEntries list = .error fault := by
        rw [CodeTable.ofEntries, henter]
        rfl
      rw [hfault]
      rfl
  | ok entered =>
      let t := CodeTable.ofSlots entered
      have hlegal := CodeTable.legal_of_enter henter
      have hshort : Short t.codewords := by
        intro c hc
        obtain ⟨h, hcode⟩ := CodeTable.mem_codewords.mp hc
        exact (hlegal h c hcode).2.1
      obtain ⟨slots, hfile, hplain⟩ := exists_slots (t := t) fun e he =>
        (hlegal e.1 e.2 (mem_filed.mp he)).2.1
      have hslots : (⟨entered.map fun slot => slot.getD .unused⟩ : CodeTable) = t := rfl
      rw [ofEntries_of_enter henter]
      simp only [Except.mapError, lift_ok, ok_bind, hslots]
      by_cases hempty : t.codewords.isEmpty = true
      · rw [if_pos hempty, if_pos hempty]
        rfl
      · rw [if_neg hempty, if_neg hempty, separateAll_eq hshort, hfile]
        cases Codeword.firstConflict? t.codewords with
        | some fault => rfl
        | none =>
            rw [verdict, ok_bind, ok_bind, pure_eq_ok, ← hplain]
            rfl

theorem shiftLeft_le {next length l : Nat} (hnext : next ≤ 1 <<< length) (hle : length ≤ l) :
    next <<< (l - length) ≤ 1 <<< l := by
  rw [Nat.shiftLeft_eq, Nat.shiftLeft_eq, Nat.one_mul]
  rw [Nat.shiftLeft_eq, Nat.one_mul] at hnext
  calc next * 2 ^ (l - length) ≤ 2 ^ length * 2 ^ (l - length) := Nat.mul_le_mul_right _ hnext
    _ = 2 ^ l := by rw [← Nat.pow_add, Nat.add_sub_cancel' hle]

/-- Codewords given out in order stay below one bit more than their length, so that no shift loses
a bit. -/
theorem assign_eq {list : List (Hop × Nat)} {next length : Nat} (hnext : next ≤ 1 <<< length)
    (hrange : ∀ e ∈ list, length ≤ e.2 ∧ e.2 ≤ maxCodeLength)
    (hsorted : list.Pairwise fun a b => a.2 ≤ b.2) :
    assign next length list =
      lift ((CodeTable.assign next length list).mapError Fault.table) := by
  induction list generalizing next length with
  | nil => rfl
  | cons e rest ih =>
      rcases e with ⟨h, l⟩
      obtain ⟨hle, hmax⟩ := hrange (h, l) List.mem_cons_self
      rw [List.pairwise_cons] at hsorted
      have hvalue : next <<< (l - length) ≤ 1 <<< l := shiftLeft_le hnext hle
      have hword : 1 <<< l ≤ 0x4000 := by
        rw [Nat.one_shiftLeft]
        exact Nat.pow_le_pow_right (by decide) hmax
      have hkept : next <<< (l - length) % (1 <<< 32) = next <<< (l - length) :=
        Nat.mod_eq_of_lt (by omega)
      have hhalf : (0x8000 : Nat) < halfSize := by decide
      have hshift : l < 32 := by
        unfold maxCodeLength at hmax
        omega
      rw [assign, sub_eq hle, ok_bind, shiftLeft_eq (by omega), ok_bind, hkept,
        shiftRight_eq hshift, ok_bind, CodeTable.assign]
      by_cases hwide : 1 <<< l ≤ next <<< (l - length)
      · have hne : next <<< (l - length) >>> l ≠ 0 := fun hzero =>
          Nat.not_lt.mpr hwide ((shiftRight_eq_zero_iff _ _).mp hzero)
        simp only [if_pos hwide, if_pos hne]
        rfl
      · have hzero : ¬ next <<< (l - length) >>> l ≠ 0 :=
          not_not.mpr ((shiftRight_eq_zero_iff _ _).mpr (Nat.not_le.mp hwide))
        have hroom : next <<< (l - length) + 1 ≤ 1 <<< l := Nat.not_le.mp hwide
        have hrest := ih hroom (fun g hg =>
          ⟨hsorted.1 g hg, (hrange g (List.mem_cons_of_mem _ hg)).2⟩) hsorted.2
        simp only [if_neg hwide, if_neg hzero]
        rw [fit_eq (by omega), ok_bind, hrest]
        cases CodeTable.assign (next <<< (l - length) + 1) l rest <;> rfl

theorem assign_from_head (list : List (Hop × Nat)) :
    CodeTable.assign 0 ((list.head?.map Prod.snd).getD 0) list = CodeTable.assign 0 0 list := by
  cases list with
  | nil => rfl
  | cons e rest =>
      rcases e with ⟨h, l⟩
      simp only [CodeTable.assign, Nat.zero_shiftLeft]

theorem head_le {list : List (Hop × Nat)} (hsorted : list.Pairwise fun a b => a.2 ≤ b.2)
    {e : Hop × Nat} (he : e ∈ list) : (list.head?.map Prod.snd).getD 0 ≤ e.2 := by
  cases list with
  | nil => exact Nat.zero_le _
  | cons head rest =>
      rcases List.mem_cons.mp he with rfl | he
      · exact Nat.le_refl _
      · exact (List.pairwise_cons.mp hsorted).1 e he

/-- Canonical tables are the plain ones, filed. -/
theorem canonical_eq (lengths counts : HopMap Nat) :
    canonical lengths counts =
      lift (((CodeTable.canonical lengths counts).mapError Fault.table).map ofPlain) := by
  rw [canonical, CodeTable.canonical]
  cases hused : CodeTable.lengthened lengths Hop.all with
  | error fault => rfl
  | ok used =>
      obtain ⟨hlegal, rfl⟩ := CodeTable.lengthened_eq_ok_iff.mp hused
      let ranked := CodeTable.ranked lengths
      have hsorted : ranked.Pairwise fun a b => a.2 ≤ b.2 := CodeTable.ranked_sorted lengths
      have hrange : ∀ e ∈ ranked, ((ranked.head?.map Prod.snd).getD 0) ≤ e.2 ∧
          e.2 ≤ maxCodeLength := by
        intro e he
        refine ⟨head_le hsorted he, ?_⟩
        rw [(CodeTable.ranked_perm lengths).mem_iff, List.mem_map] at he
        obtain ⟨h, hmem, rfl⟩ := he
        exact (hlegal h (Hop.mem_all h) (CodeTable.mem_usedHops.mp hmem)).2
      have hassign : assign 0 ((ranked.head?.map Prod.snd).getD 0) ranked =
          lift ((CodeTable.assign 0 0 ranked).mapError Fault.table) := by
        rw [assign_eq (Nat.zero_le _) hrange hsorted, assign_from_head]
      have hranked : ((Hop.all.filter fun h => lengths h ≠ unusedLength).map fun h =>
          (h, lengths h)).mergeSort CodeTable.canonicalLe = ranked := rfl
      simp only [bind, Except.bind, hranked]
      cases hcoded : CodeTable.assign 0 0 ranked with
      | error fault =>
          rw [hcoded] at hassign
          simp only [Except.mapError, lift_ok, hranked, hassign]
          rfl
      | ok coded =>
          rw [hcoded] at hassign
          simp only [Except.mapError, lift_ok, hranked, hassign]
          exact ofEntries_eq _

section Reading

open Scanner

theorem follows_read : Follows read (ofPlain <$> CodeTable.read) := by
  rw [CodeTable.read, map_bind]
  refine ((follows_bits (by decide)).list 9).bind fun lengths => ?_
  rw [map_lift]
  exact .lift (canonical_eq _ _)

theorem mem_slotOf {t : CodeTable} {length value : Nat} {h : Hop} :
    (value, h) ∈ slotOf (filed t) length ↔ t.code? h = some ⟨length, value⟩ := by
  rw [slotOf, List.mem_toArray, List.mem_map]
  constructor
  · rintro ⟨⟨g, c⟩, hmem, heq⟩
    rw [List.mem_filter, mem_filed, decide_eq_true_eq] at hmem
    obtain ⟨hcode, hlength⟩ := hmem
    obtain ⟨rfl, rfl⟩ := Prod.mk.inj heq
    rw [hcode, ← hlength]
  · intro hcode
    refine ⟨(h, ⟨length, value⟩), ?_, rfl⟩
    rw [List.mem_filter, mem_filed, decide_eq_true_eq]
    exact ⟨hcode, rfl⟩

/-- In a prefix code no two hops are filed with the same codeword. -/
theorem pairwise_filed {t : CodeTable} (ht : t.Sound) :
    (filed t).Pairwise fun a b => a.2 ≠ b.2 := by
  have hall : Hop.all.Nodup := by decide
  rw [filed, List.pairwise_filterMap]
  refine hall.imp fun {g h} hne a ha b hb heq => hne ?_
  obtain ⟨c, hc, rfl⟩ := Option.map_eq_some_iff.mp ha
  obtain ⟨d, hd, rfl⟩ := Option.map_eq_some_iff.mp hb
  exact ht.prefixFree g h c d hc hd (congrArg Codeword.bits heq ▸ List.prefix_refl _)

section Search

variable {t : CodeTable} (ht : t.Sound) {length value : Nat}

include ht

theorem rising_slot (length : Nat) : (slotOf (filed t) length).sorted.Rising := by
  apply Slot.rising_sorted
  rw [slotOf, List.pairwise_map]
  refine ((pairwise_filed ht).filter _).imp_of_mem fun {a b} ha hb hne heq => hne ?_
  have hlength : a.2.length = b.2.length := by
    rw [List.mem_filter, decide_eq_true_eq] at ha hb
    exact ha.2.trans hb.2.symm
  have hvalue : a.2.value = b.2.value := heq
  calc a.2 = ⟨b.2.length, b.2.value⟩ := by rw [← hlength, ← hvalue]
    _ = b.2 := rfl

/-- A search of the slot of its length finds a codeword with its hop. -/
theorem exists_place {h : Hop} (hfound : t.symbol? ⟨length, value⟩ = some h) :
    ∃ i, (slotOf (filed t) length).sorted.place? value = some i ∧
      fetch (slotOf (filed t) length).sorted i = .ok (value, h) := by
  have hcode : t.code? h = some ⟨length, value⟩ := by simpa using List.find?_some hfound
  obtain ⟨i, hi, hget⟩ := Array.mem_iff_getElem.mp (Slot.mem_sorted.mpr (mem_slotOf.mpr hcode))
  refine ⟨i, (rising_slot ht length).place?_eq_some_iff.mpr ⟨hi, by rw [hget]⟩, ?_⟩
  rw [fetch_eq hi, hget]

/-- Bits that are no codeword are not found. -/
theorem place?_eq_none (hnone : t.symbol? ⟨length, value⟩ = none) :
    (slotOf (filed t) length).sorted.place? value = none := by
  rw [(rising_slot ht length).place?_eq_none_iff]
  rintro ⟨value', h⟩ hmem rfl
  rw [CodeTable.symbol?_eq_some ht (mem_slotOf.mp (Slot.mem_sorted.mp hmem))] at hnone
  cases hnone

end Search

theorem maxLength_le {t : CodeTable} (ht : t.Sound) : t.maxLength ≤ maxCodeLength := by
  have hbound : ∀ (lengths : List Nat) (start : Nat), start ≤ maxCodeLength →
      (∀ l ∈ lengths, l ≤ maxCodeLength) → lengths.foldl max start ≤ maxCodeLength := by
    intro lengths
    induction lengths with
    | nil => exact fun start hstart _ => hstart
    | cons l rest ih =>
        intro start hstart hall
        exact ih (max start l) (Nat.max_le.mpr ⟨hstart, hall l List.mem_cons_self⟩)
          fun m hm => hall m (List.mem_cons_of_mem l hm)
  refine hbound _ 0 (Nat.zero_le _) fun l hl => ?_
  obtain ⟨c, hc, rfl⟩ := List.mem_map.mp hl
  obtain ⟨h, hcode⟩ := CodeTable.mem_codewords.mp hc
  exact ht.length_le h c hcode

theorem fetch_slots (t : CodeTable) {n : Nat} (hn : n ≤ maxCodeLength) :
    fetch (ofPlain t).slots n = .ok (slotOf (filed t) n).sorted := by
  have hlt : n < (ofPlain t).slots.size := by
    rw [ofPlain, Array.size_ofFn]
    exact Nat.lt_succ_of_le hn
  rw [fetch_eq hlt]
  simp [ofPlain]

theorem or_bit_eq (code : Nat) (bit : Bool) : 2 * code ||| bit.toNat = 2 * code + bit.toNat := by
  have hor := Nat.shiftLeft_add_eq_or_of_lt (a := code) (show bit.toNat < 2 ^ 1 by
    cases bit <;> decide)
  rw [Nat.shiftLeft_succ, Nat.shiftLeft_zero] at hor
  exact hor.symm

theorem follows_extendSymbol {t : CodeTable} (ht : t.Sound) {fuel n code : Nat}
    (hcode : code < 1 <<< n) (hfuel : n + fuel ≤ maxCodeLength) :
    Follows ((ofPlain t).extendSymbol code (n + 1) fuel) (t.extendSymbol ⟨n, code⟩ fuel) := by
  induction fuel generalizing n code with
  | zero => exact .refuse _
  | succ fuel ih =>
      have hn : n ≤ 13 := by
        unfold maxCodeLength at hfuel
        omega
      have hword : 1 <<< n ≤ 0x2000 := by
        rw [Nat.one_shiftLeft]
        exact Nat.pow_le_pow_right (by decide) hn
      have hdouble : 1 <<< (n + 1) = 2 * (1 <<< n) := by
        rw [Nat.shiftLeft_succ]
      have hshift : shiftLeft 32 code 1 = .ok (2 * code) := by
        rw [shiftLeft_eq (by decide), Nat.shiftLeft_succ, Nat.shiftLeft_zero,
          Nat.mod_eq_of_lt (by omega)]
      rw [extendSymbol, CodeTable.extendSymbol]
      refine .step hshift (follows_bit.bind fun bit => .step (fetch_slots t (by omega)) ?_)
      have hlt : 2 * code + bit.toNat < 1 <<< (n + 1) := by
        have hbit : bit.toNat ≤ 1 := by cases bit <;> decide
        omega
      rw [or_bit_eq]
      cases hfound : t.symbol? ⟨n + 1, 2 * code + bit.toNat⟩ with
      | some h =>
          obtain ⟨i, hplace, hfetch⟩ := exists_place ht hfound
          simp only [hplace, hfound]
          exact .step hfetch (.pure h)
      | none =>
          simp only [place?_eq_none ht hfound, hfound]
          exact ih hlt (by omega)

theorem follows_readSymbol {t : CodeTable} (ht : t.Sound) :
    Follows (ofPlain t).readSymbol t.readSymbol := by
  have hfuel : 0 + t.maxLength ≤ maxCodeLength := by
    rw [Nat.zero_add]
    exact maxLength_le ht
  exact follows_extendSymbol ht (by decide) hfuel

theorem follows_readSymbols {t : CodeTable} (ht : t.Sound) (n : Nat) :
    Follows ((ofPlain t).readSymbols n) (t.readSymbols n) := by
  rw [CodeTable.readSymbols_eq]
  exact (Follows.lift rfl).bind fun _ => ((follows_readSymbol ht).list n).bind fun _ => .pure _

end Reading

section Writing

open Packer

theorem appends_writeLengths {t : CodeTable} (ht : t.Sound) :
    Appends (ofPlain t).writeLengths t.headerBits := by
  refine Appends.writeAll _ fun length hmem => appends_writeBits (by decide) ?_
  rw [HopMap.toList, List.mem_map] at hmem
  obtain ⟨h, -, rfl⟩ := hmem
  have hlength : t.lengths h = (t.code? h).elim unusedLength Codeword.length :=
    CodeTable.length_entry t h
  have hlimit : maxCodeLength < 2 ^ lengthBits := by decide
  cases hcode : t.code? h with
  | none =>
      rw [hcode] at hlength
      exact Nat.lt_of_le_of_lt (Nat.le_of_eq hlength) (by decide)
  | some c =>
      rw [hcode] at hlength
      exact Nat.lt_of_le_of_lt (Nat.le_trans (Nat.le_of_eq hlength) (ht.length_le h c hcode)) hlimit

theorem appends_writeSymbol {t : CodeTable} (ht : t.Sound) {h : Hop} {c : Codeword}
    (hc : t.code? h = some c) : Appends ((ofPlain t).writeSymbol h) (t.symbolBits h) := by
  have hwrite : (ofPlain t).writeSymbol h = writeBits c.value c.length := by
    funext p
    simp [writeSymbol, ofPlain, hc]
  rw [hwrite, CodeTable.symbolBits_eq hc]
  exact appends_writeBits (Nat.le_trans (ht.length_le h c hc) (by decide)) (ht.fits h c hc)

/-- Covered hops are written as their codewords. -/
theorem appends_writeSymbols {t : CodeTable} (ht : t.Sound) {hops : List Hop}
    (hcovers : t.Covers hops) :
    Appends (Packer.writeAll (ofPlain t).writeSymbol hops) (hops.flatMap t.symbolBits) :=
  .writeAll hops fun h hmem => by
    obtain ⟨c, hc⟩ := hcovers h hmem
    exact appends_writeSymbol ht hc

end Writing

end Table

end HopCodec.Machine
