/-
File trees under a change to one file.  A path leads through directories only, so putting a file
where there is no directory leaves every path leading to where it led; what is read there is what
was put, and what is read anywhere else stays.
-/
import HopCodec.FileTree
import HopCodec.Proofs.Results

namespace HopCodec

namespace FileTree

variable {t : FileTree} {p q : Place} {path : String}

theorem lookup_filter_of_ne (h : q ≠ p) (entries : List (Place × FileNode)) :
    (entries.filter fun entry => entry.1 ≠ p).lookup q = entries.lookup q := by
  induction entries with
  | nil => rfl
  | cons entry rest ih =>
      obtain ⟨place, node⟩ := entry
      by_cases hplace : place = p
      · have hother : (q == place) = false := by
          rw [hplace]
          exact beq_false_of_ne h
        rw [List.filter_cons_of_neg (by simpa using hplace), ih, List.lookup_cons, hother]
      · rw [List.filter_cons_of_pos (by simpa using hplace), List.lookup_cons, List.lookup_cons, ih]

/-- Places that are directories in every tree are found as directories. -/
theorem isBase_eq_false (h : t.node? p ≠ some .directory) : isBase p = false := by
  cases hbase : isBase p with
  | false => rfl
  | true => exact absurd (if_pos hbase) h

theorem node?_put_self (h : isBase p = false) (node : FileNode) :
    (t.put p node).node? p = some node := by
  simp [node?, put, h]

theorem node?_put_of_ne (h : q ≠ p) (node : FileNode) : (t.put p node).node? q = t.node? q := by
  have hother : (q == p) = false := beq_false_of_ne h
  have hlookup : (t.put p node).nodes.lookup q = t.nodes.lookup q := by
    rw [put, List.lookup_cons, hother]
    exact lookup_filter_of_ne h t.nodes
  rw [node?, node?, hlookup]

/-- Of two nodes put at a place, the later one counts. -/
theorem put_put (t : FileTree) (p : Place) (first node : FileNode) :
    (t.put p first).put p node = t.put p node := by
  simp [put, List.filter_filter]

theorem append_put (h : isBase p = false) (t : FileTree) (before data : Bytes) :
    (t.put p (.file before)).append p data = t.put p (.file (before ++ data)) := by
  rw [append, node?_put_self h]
  exact put_put t p _ _

section File

variable (hp : t.node? p ≠ some .directory) (data : Bytes)

include hp

/-- No names lead through a file, nor through a place with nothing there. -/
theorem follow_put_file (names : List String) (start : Place) :
    (t.put p (.file data)).follow start names = .ok q ↔ t.follow start names = .ok q := by
  induction names generalizing start with
  | nil => rfl
  | cons name rest ih =>
      by_cases hstart : start = p
      · subst hstart
        rw [follow, follow, node?_put_self (isBase_eq_false hp)]
        cases hnode : t.node? start with
        | none => simp
        | some node =>
            cases node with
            | file before => rfl
            | directory => exact absurd hnode hp
            | barred text => simp
      · rw [follow, follow, node?_put_of_ne hstart]
        cases t.node? start with
        | none => rfl
        | some node =>
            cases node with
            | file before => rfl
            | barred text => rfl
            | directory =>
                simp only
                split
                · rfl
                · exact ih (enter start name)

/-- A file that is put where there is no directory leaves all paths as they are. -/
theorem resolve_put_file :
    (t.put p (.file data)).resolve path = .ok q ↔ t.resolve path = .ok q := by
  unfold resolve
  split
  · rfl
  split
  · rfl
  split
  · rfl
  split
  · exact follow_put_file hp data _ _
  · exact follow_put_file hp data _ _

end File

/-- What is read is the file that the path leads to. -/
theorem read_eq_ok_iff {data : Bytes} :
    t.read path = .ok data ↔
      ∃ p, t.resolve path = .ok p ∧ t.node? p = some (.file data) ∧ Path.ending path = .name := by
  simp only [FileTree.read, FileTree.find, bind_eq_ok_iff]
  constructor
  · rintro ⟨node, ⟨p, hp, hnode⟩, hdata⟩
    refine ⟨p, hp, ?_⟩
    rcases node with found | _ | text
    · obtain rfl := pure_eq_ok_iff.mp hdata
      split at hnode
      · cases hnode
      · next found' hfound =>
        split at hnode
        · next hending =>
          cases pure_eq_ok_iff.mp hnode
          exact ⟨hfound, hending⟩
        · cases hnode
      · next node hfound hne =>
        obtain rfl := pure_eq_ok_iff.mp hnode
        exact absurd rfl (hfound _)
    · cases hdata
    · cases hdata
  · rintro ⟨p, hp, hnode, hending⟩
    refine ⟨.file data, ⟨p, hp, ?_⟩, rfl⟩
    rw [hnode]
    exact if_pos hending

/-- A file is created where a path that ends in a name leads, if there is no directory. -/
theorem resolve_of_outputPlace (h : t.outputPlace path = .ok p) :
    t.resolve path = .ok p ∧ t.node? p ≠ some .directory ∧ Path.ending path = .name := by
  unfold outputPlace at h
  cases hresolve : t.resolve path with
  | error fault =>
      rw [hresolve] at h
      cases h
  | ok place =>
      rw [hresolve] at h
      simp only [bind, Except.bind, throw, throwThe, MonadExceptOf.throw, pure, Except.pure] at h
      cases hending : Path.ending path with
      | slash =>
          rcases hnode : t.node? place with _ | ⟨_ | _ | _⟩ <;> simp [hnode, hending] at h
      | dot =>
          rcases hnode : t.node? place with _ | ⟨_ | _ | _⟩ <;> simp [hnode, hending] at h
      | name =>
          rcases hnode : t.node? place with _ | ⟨_ | _ | _⟩ <;> simp [hnode, hending] at h
          all_goals
            subst h
            simp [hnode]

/-- Trees that differ at most in the file at a place. -/
structure SameBut (t u : FileTree) (p : Place) : Prop where
  node : ∀ q, q ≠ p → u.node? q = t.node? q
  read : ∀ path, t.resolve path ≠ .ok p → ∀ data, u.read path = .ok data ↔ t.read path = .ok data

theorem isBase_of_outputPlace (h : t.outputPlace path = .ok p) : isBase p = false :=
  isBase_eq_false (resolve_of_outputPlace h).2.1

section Output

variable (h : t.outputPlace path = .ok p) (data : Bytes)

include h

/-- A created file is read back. -/
theorem read_put_self : (t.put p (.file data)).read path = .ok data := by
  obtain ⟨hresolve, hp, hending⟩ := resolve_of_outputPlace h
  exact read_eq_ok_iff.mpr ⟨p, (resolve_put_file hp data).mpr hresolve,
    node?_put_self (isBase_eq_false hp) _, hending⟩

/-- Creating a file changes nothing but what the place holds. -/
theorem sameBut_put_file : t.SameBut (t.put p (.file data)) p := by
  obtain ⟨-, hp, -⟩ := resolve_of_outputPlace h
  refine ⟨fun q hq => node?_put_of_ne hq _, fun other hother found => ?_⟩
  rw [read_eq_ok_iff, read_eq_ok_iff]
  refine exists_congr fun q => ?_
  rw [resolve_put_file hp data]
  refine and_congr_right fun hresolve => ?_
  have hq : q ≠ p := fun heq => hother (heq ▸ hresolve)
  rw [node?_put_of_ne hq]

end Output

end FileTree

end HopCodec
