/-
Where the operations of the machine have results.  One equation for each operation states its
result under the condition that keeps it from trapping; loops run through once every step does.
-/
import Mathlib.Algebra.GroupWithZero.Nat
import HopCodec.Machine.Word
import HopCodec.Proofs.Results

namespace HopCodec.Machine

universe u v

variable {α : Type u} {β : Type u} {σ : Type v}

@[simp] theorem ok_bind (a : α) (f : α → Run β) : (Except.ok a >>= f) = f a :=
  rfl

@[simp] theorem pure_eq_ok (a : α) : (pure a : Run α) = .ok a :=
  rfl

@[simp] theorem lift_ok (a : α) : lift (.ok a) = .ok a :=
  rfl

@[simp] theorem lift_pure (a : α) : lift (pure a) = .ok a :=
  rfl

/-- What cannot trap can be continued by what cannot trap. -/
theorem lift_bind (x : Except Fault α) (f : α → Except Fault β) :
    lift (x >>= f) = lift x >>= fun a => lift (f a) := by
  cases x <;> rfl

theorem lift_ne_trap (x : Except Fault α) (trap : Trap) : lift x ≠ .error (.trap trap) := by
  rcases x with fault | a
  · intro h
    cases h
  · intro h
    cases h

theorem lift_map_eq_ok_iff {x : Except Fault α} {f : α → β} {b : β} :
    lift (x.map f) = .ok b ↔ ∃ a, x = .ok a ∧ f a = b := by
  rcases x with fault | a
  · constructor
    · intro h
      cases h
    · rintro ⟨a, h, -⟩
      cases h
  · constructor
    · intro h
      exact ⟨a, rfl, Except.ok.inj h⟩
    · rintro ⟨a, h, rfl⟩
      cases h
      rfl

theorem fit_eq {limit n : Nat} (h : n < limit) : fit limit n = .ok n :=
  if_pos h

theorem fit_eq_ok_iff {limit n m : Nat} : fit limit n = .ok m ↔ n < limit ∧ n = m := by
  unfold fit
  split
  · next h => simp [h]
  · next h => simp [h]

theorem add_eq {a b : Nat} (h : a + b < wordSize) : add a b = .ok (a + b) :=
  fit_eq h

theorem mul_eq {a b : Nat} (h : a * b < wordSize) : mul a b = .ok (a * b) :=
  fit_eq h

theorem sub_eq {a b : Nat} (h : b ≤ a) : sub a b = .ok (a - b) :=
  if_pos h

theorem div_eq {a b : Nat} (h : 0 < b) : div a b = .ok (a / b) :=
  if_neg (Nat.ne_of_gt h)

theorem rem_eq {a b : Nat} (h : 0 < b) : rem a b = .ok (a % b) :=
  if_neg (Nat.ne_of_gt h)

theorem shiftLeft_eq {width a n : Nat} (h : n < width) :
    shiftLeft width a n = .ok ((a <<< n) % (1 <<< width)) :=
  if_pos h

theorem shiftRight_eq {width a n : Nat} (h : n < width) : shiftRight width a n = .ok (a >>> n) :=
  if_pos h

theorem ensure_eq {p : Prop} [Decidable p] (h : p) : ensure p = .ok () :=
  if_pos h

theorem clamp_eq {x lo hi : Float32} (h : lo ≤ hi) : clamp x lo hi = .ok (Single.clamp x lo hi) :=
  if_pos h

theorem fetch_eq {a : Array α} {i : Nat} (h : i < a.size) : fetch a i = .ok a[i] := by
  simp [fetch, h]

theorem fetch_eq_getD {a : Array α} {i : Nat} (h : i < a.size) (default : α) :
    fetch a i = .ok (a.getD i default) := by
  rw [fetch_eq h, Array.getD_eq_getD_getElem?, Array.getElem?_eq_getElem h, Option.getD_some]

theorem store_eq {a : Array α} {i : Nat} (h : i < a.size) (x : α) :
    store a i x = .ok (a.setIfInBounds i x) :=
  if_pos h

theorem slice_eq {a : Array α} {start stop : Nat} (hle : start ≤ stop) (hstop : stop ≤ a.size) :
    slice a start stop = .ok (a.extract start stop) :=
  if_pos ⟨hle, hstop⟩

theorem allocate_eq {size : Nat} (h : size < allocationLimit) :
    allocate size = .ok (Array.replicate size 0) := by
  simp [allocate, reserve, h]

theorem allocate_of_le {size : Nat} (h : allocationLimit ≤ size) :
    allocate size = refuse (.allocation size) := by
  rw [allocate, reserve, if_neg (Nat.not_lt.mpr h)]
  rfl

variable {step step' : Nat → σ → Run σ}

@[simp] theorem loop_zero (s : σ) : loop step 0 s = .ok s :=
  rfl

theorem loop_succ (n : Nat) (s : σ) : loop step (n + 1) s = loop step n s >>= step n :=
  rfl

/-- A loop goes through the numbers below `n`. -/
theorem foldlM_range (step : Nat → σ → Run σ) (n : Nat) (s : σ) :
    (List.range n).foldlM (fun s i => step i s) s = loop step n s := by
  induction n with
  | zero => rfl
  | succ n ih =>
      rw [List.range_succ, List.foldlM_append, ih]
      simp only [List.foldlM_cons, List.foldlM_nil, bind_pure, loop_succ]

/-- A loop that reaches the expected state in each step ends in the last one of them. -/
theorem loop_eq {f : Nat → σ} {n : Nat} (h : ∀ i, i < n → step i (f i) = .ok (f (i + 1))) :
    loop step n (f 0) = .ok (f n) := by
  induction n with
  | zero => rfl
  | succ n ih =>
      rw [loop_succ, ih fun i hi => h i (Nat.lt_succ_of_lt hi), ok_bind]
      exact h n (Nat.lt_succ_self n)

theorem loop_congr {n : Nat} {s : σ} (h : ∀ i, i < n → ∀ s, step i s = step' i s) :
    loop step n s = loop step' n s := by
  induction n with
  | zero => rfl
  | succ n ih =>
      rw [loop_succ, loop_succ, ih fun i hi => h i (Nat.lt_succ_of_lt hi)]
      congr 1
      funext t
      exact h n (Nat.lt_succ_self n) t

theorem loop_add (m n : Nat) (s : σ) :
    loop step (m + n) s = loop step m s >>= loop (fun i => step (m + i)) n := by
  induction n with
  | zero =>
      cases loop step m s <;> rfl
  | succ n ih =>
      rw [← Nat.add_assoc, loop_succ, ih]
      cases loop step m s <;> rfl

/-- Rows of columns are one run through all cells in raster order. -/
theorem loop_grid (body : Nat → Nat → σ → Run σ) (width height : Nat) (s : σ) :
    loop (fun y => loop (fun x => body x y) width) height s =
      loop (fun i => body (i % width) (i / width)) (height * width) s := by
  induction height with
  | zero => simp
  | succ height ih =>
      rw [loop_succ, ih, Nat.succ_mul, loop_add]
      congr 1
      funext t
      apply loop_congr
      intro x hx t
      have hpos : 0 < width := Nat.zero_lt_of_lt hx
      have hrow : (height * width + x) / width = height := by
        rw [Nat.mul_comm, Nat.mul_add_div hpos, Nat.div_eq_of_lt hx, Nat.add_zero]
      have hcolumn : (height * width + x) % width = x := by
        rw [Nat.mul_comm, Nat.mul_add_mod, Nat.mod_eq_of_lt hx]
      rw [hrow, hcolumn]

/-- Collecting one value per step. -/
theorem loop_push {f : Nat → Run α} {g : Nat → α} {n : Nat} (h : ∀ i, i < n → f i = .ok (g i)) :
    loop (fun i (acc : Array α) => do return acc.push (← f i)) n #[] =
      .ok (Array.ofFn fun i : Fin n => g i) := by
  refine loop_eq (f := fun k => Array.ofFn fun i : Fin k => g i) fun i hi => ?_
  rw [h i hi, ok_bind, Array.ofFn_succ]
  rfl

/-- What holds before a loop and is kept by each of its steps holds behind it. -/
theorem exists_loop (inv : Nat → σ → Prop) {n : Nat} {s : σ} (hstart : inv 0 s)
    (hstep : ∀ i, i < n → ∀ t, inv i t → ∃ t', step i t = .ok t' ∧ inv (i + 1) t') :
    ∃ t, loop step n s = .ok t ∧ inv n t := by
  induction n with
  | zero => exact ⟨s, rfl, hstart⟩
  | succ n ih =>
      obtain ⟨t, hloop, hinv⟩ := ih fun i hi => hstep i (Nat.lt_succ_of_lt hi)
      rw [loop_succ, hloop]
      exact hstep n (Nat.lt_succ_self n) t hinv

/-- Storing at places that are all different leaves each value at its place, and all other items
alone. -/
theorem exists_loop_store {place : Nat → Nat} {value : Nat → α} {n : Nat} {a : Array α}
    (hplace : ∀ i, i < n → place i < a.size)
    (hinj : ∀ i j, i < n → j < n → place i = place j → i = j) :
    ∃ b, loop (fun i s => store s (place i) (value i)) n a = .ok b ∧ b.size = a.size ∧
      (∀ i, i < n → b[place i]? = some (value i)) ∧
      ∀ k, (∀ i, i < n → place i ≠ k) → b[k]? = a[k]? := by
  refine exists_loop (fun m (b : Array α) => b.size = a.size ∧
    (∀ i, i < m → b[place i]? = some (value i)) ∧
      ∀ k, (∀ i, i < m → place i ≠ k) → b[k]? = a[k]?) ?_ ?_
  · exact ⟨rfl, fun i hi => absurd hi (Nat.not_lt_zero i), fun _ _ => rfl⟩
  · rintro m hm b ⟨hsize, hstored, hframe⟩
    have hroom : place m < b.size := hsize ▸ hplace m hm
    refine ⟨b.setIfInBounds (place m) (value m), store_eq hroom _, ?_, ?_, ?_⟩
    · rw [Array.size_setIfInBounds, hsize]
    · intro i hi
      rcases Nat.lt_succ_iff_lt_or_eq.mp hi with hbefore | rfl
      · have hne : place m ≠ place i := fun heq =>
          Nat.ne_of_gt hbefore (hinj m i hm (Nat.lt_trans hbefore hm) heq)
        rw [Array.getElem?_setIfInBounds, if_neg hne]
        exact hstored i hbefore
      · rw [Array.getElem?_setIfInBounds, if_pos rfl, if_pos hroom]
    · intro k hk
      rw [Array.getElem?_setIfInBounds, if_neg (hk m (Nat.lt_succ_self m))]
      exact hframe k fun i hi => hk i (Nat.lt_succ_of_lt hi)

/-- The items of an array with those before the `k`-th one replaced. -/
def updated (a : Array α) (g : Nat → α → α) (k : Nat) : Array α :=
  a.mapIdx fun i x => if i < k then g i x else x

@[simp] theorem updated_zero (a : Array α) (g : Nat → α → α) : updated a g 0 = a := by
  apply Array.ext <;> simp [updated]

@[simp] theorem size_updated (a : Array α) (g : Nat → α → α) (k : Nat) :
    (updated a g k).size = a.size := by
  simp [updated]

theorem updated_size (a : Array α) (g : Nat → α → α) : updated a g a.size = a.mapIdx g := by
  apply Array.ext
  · simp [updated]
  · intro i hi _
    have hlt : i < a.size := by simpa using hi
    simp [updated, hlt]

theorem getElem?_updated (a : Array α) (g : Nat → α → α) {k : Nat} (h : k < a.size) :
    (updated a g k)[k]? = some a[k] := by
  simp [updated, h]

theorem updated_succ (a : Array α) (g : Nat → α → α) {k : Nat} (h : k < a.size) :
    (updated a g k).setIfInBounds k (g k a[k]) = updated a g (k + 1) := by
  apply Array.ext_getElem?
  intro i
  have hget (j : Nat) : (updated a g j)[i]? = a[i]?.map fun x => if i < j then g i x else x := by
    simp [updated]
  rw [Array.getElem?_setIfInBounds, hget, hget]
  rcases Nat.lt_trichotomy i k with hbelow | rfl | habove
  · rw [if_neg (Nat.ne_of_gt hbelow)]
    simp [hbelow, Nat.lt_succ_of_lt hbelow]
  · simp [h]
  · rw [if_neg (Nat.ne_of_lt habove)]
    have hnot : ¬ i < k + 1 := Nat.not_lt.mpr habove
    simp [Nat.not_lt.mpr (Nat.le_of_lt habove), hnot]

section Update

variable {step : Nat → Array α → Run (Array α)} {a : Array α} {g : Nat → α → α}

/-- Replacing one item per step, from the first to the last one. -/
theorem loop_update
    (h : ∀ i (hi : i < a.size) (s : Array α), s.size = a.size → s[i]? = some a[i] →
      step i s = .ok (s.setIfInBounds i (g i a[i]))) :
    loop step a.size a = .ok (a.mapIdx g) := by
  have hloop : loop step a.size (updated a g 0) = .ok (updated a g a.size) :=
    loop_eq fun i hi => by
      rw [h i hi _ (size_updated a g i) (getElem?_updated a g hi), updated_succ a g hi]
  rwa [updated_zero, updated_size] at hloop

/-- Replacing the items row by row, from the left to the right. -/
theorem loop_rows {f : Nat → Nat → Array α → Run (Array α)} {width height : Nat}
    (hsize : a.size = height * width)
    (hrow : ∀ y, y < height → ∀ s : Array α, s.size = a.size →
      step y s = loop (fun x => f x y) width s)
    (hcell : ∀ i (hi : i < a.size) (s : Array α), s.size = a.size → s[i]? = some a[i] →
      f (i % width) (i / width) s = .ok (s.setIfInBounds i (g i a[i]))) :
    loop step height a = .ok (a.mapIdx g) := by
  have hline : ∀ y, y < height →
      step y (updated a g (y * width)) = .ok (updated a g ((y + 1) * width)) := by
    intro y hy
    have hinner : loop (fun x => f x y) width (updated a g (y * width + 0)) =
        .ok (updated a g (y * width + width)) := by
      refine loop_eq (f := fun x => updated a g (y * width + x)) fun x hx => ?_
      have hlt : y * width + x < a.size := by
        have hle := Nat.mul_le_mul_right width (Nat.succ_le_of_lt hy)
        rw [Nat.succ_mul] at hle
        rw [hsize]
        omega
      have hpos : 0 < width := Nat.zero_lt_of_lt hx
      have hcolumn : (y * width + x) % width = x := by
        rw [Nat.mul_comm, Nat.mul_add_mod, Nat.mod_eq_of_lt hx]
      have hline : (y * width + x) / width = y := by
        rw [Nat.mul_comm, Nat.mul_add_div hpos, Nat.div_eq_of_lt hx, Nat.add_zero]
      have hstep := hcell _ hlt (updated a g (y * width + x)) (size_updated a g _)
        (getElem?_updated a g hlt)
      rw [hcolumn, hline, updated_succ a g hlt] at hstep
      exact hstep
    rw [hrow y hy _ (size_updated a g _), Nat.succ_mul]
    exact hinner
  have hloop := loop_eq (f := fun y => updated a g (y * width)) hline
  rwa [Nat.zero_mul, updated_zero, ← hsize, updated_size] at hloop

end Update

theorem mapM_eq {f : α → Run β} {g : α → β} {items : List α}
    (h : ∀ a, a ∈ items → f a = .ok (g a)) : items.mapM f = .ok (items.map g) := by
  induction items with
  | nil => rfl
  | cons a rest ih =>
      rw [List.mapM_cons, h a List.mem_cons_self, ok_bind,
        ih fun b hb => h b (List.mem_cons_of_mem a hb)]
      rfl

/-- Programs for the items of a list that agree with what cannot trap. -/
theorem mapM_eq_lift {α β γ : Type} {f : α → Run γ} {g : α → Except Fault β} {view : β → γ}
    {items : List α} (h : ∀ a, a ∈ items → f a = lift ((g a).map view)) :
    items.mapM f = lift ((items.mapM g).map (List.map view)) := by
  induction items with
  | nil => rfl
  | cons a rest ih =>
      rw [List.mapM_cons, List.mapM_cons, h a List.mem_cons_self,
        ih fun b hb => h b (List.mem_cons_of_mem a hb)]
      cases g a with
      | error fault => rfl
      | ok b => cases rest.mapM g <;> rfl

theorem anyM_eq {α : Type} {f : α → Run Bool} {g : α → Bool} {items : List α}
    (h : ∀ a, a ∈ items → f a = .ok (g a)) : items.anyM f = .ok (items.any g) := by
  induction items with
  | nil => rfl
  | cons a rest ih =>
      rw [List.anyM, h a List.mem_cons_self, ok_bind, List.any_cons]
      cases g a with
      | true => rfl
      | false => exact ih fun b hb => h b (List.mem_cons_of_mem a hb)

theorem sum_map_le {f : α → Nat} {items : List α} {most : Nat} (h : ∀ a ∈ items, f a ≤ most) :
    (items.map f).sum ≤ items.length * most := by
  induction items with
  | nil => simp
  | cons a rest ih =>
      have ha := h a List.mem_cons_self
      have hrest := ih fun b hb => h b (List.mem_cons_of_mem a hb)
      rw [List.map_cons, List.sum_cons, List.length_cons, Nat.succ_mul]
      omega

/-- Adding up numbers whose sum stays below the word. -/
theorem foldlM_add_eq {g : α → Run Nat} {f : α → Nat} {items : List α}
    (hitems : ∀ a, a ∈ items → g a = .ok (f a)) {start : Nat}
    (h : start + (items.map f).sum < wordSize) :
    items.foldlM (fun sum a => do add sum (← g a)) start = .ok (start + (items.map f).sum) := by
  induction items generalizing start with
  | nil => rfl
  | cons a rest ih =>
      rw [List.map_cons, List.sum_cons, ← Nat.add_assoc] at h ⊢
      rw [List.foldlM_cons, hitems a List.mem_cons_self, ok_bind,
        add_eq (Nat.lt_of_le_of_lt (Nat.le_add_right _ _) h), ok_bind,
        ih (fun b hb => hitems b (List.mem_cons_of_mem a hb)) h]

theorem foldlM_add {f : α → Nat} {items : List α} {start : Nat}
    (h : start + (items.map f).sum < wordSize) :
    items.foldlM (fun sum a => add sum (f a)) start = .ok (start + (items.map f).sum) :=
  foldlM_add_eq (g := fun a => .ok (f a)) (fun _ _ => rfl) h

end HopCodec.Machine
