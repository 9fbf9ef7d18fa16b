/-
Jobs and their files.  A job that only reads ends as a computation on the file tree does and leaves
every file alone; opening an output either fails and changes nothing or leaves an empty file, and
what is written goes behind what the file holds.
-/
import HopCodec.Session
import HopCodec.Proofs.FileTree

namespace HopCodec

/-- A file may be created or replaced under a path. -/
def FileTree.Writable (t : FileTree) (path : String) (overwrite : Bool) : Prop :=
  (∃ p, t.outputPlace path = .ok p) ∧ (overwrite = true ∨ t.hasPath path = false)

def Session.withTree (s : Session) (t : FileTree) : Session :=
  { s with tree := t }

namespace Job

variable {α β : Type}

/-- A job ends with what a computation gives. -/
def ended (x : Except Fault α) (s : Session) : EStateM.Result Fault Session α :=
  match x with
  | .ok a => .ok a s
  | .error fault => .error fault s

theorem run_bind_ok {job : Job α} {s t : Session} {a : α} (h : job.run s = .ok a t)
    (next : α → Job β) : (job >>= next).run s = (next a).run t := by
  rw [EStateM.run_bind, h]

theorem run_bind_error {job : Job α} {s t : Session} {fault : Fault}
    (h : job.run s = .error fault t) (next : α → Job β) :
    (job >>= next).run s = .error fault t := by
  rw [EStateM.run_bind, h]

/-- A job that ends as a computation on the file tree does and leaves every file alone.  It may
print. -/
def Observes (job : Job α) (x : FileTree → Except Fault α) : Prop :=
  ∀ s, ∃ t : Session, t.tree = s.tree ∧ job.run s = ended (x s.tree) t

theorem observes_pure (a : α) : Observes (pure a) fun _ => .ok a :=
  fun s => ⟨s, rfl, rfl⟩

theorem observes_throw (fault : Fault) : Observes (throw fault : Job α) fun _ => .error fault :=
  fun s => ⟨s, rfl, rfl⟩

theorem observes_lift (x : Except Fault α) : Observes (lift x) fun _ => x := by
  intro s
  cases x with
  | error fault => exact ⟨s, rfl, rfl⟩
  | ok a => exact ⟨s, rfl, rfl⟩

theorem observes_note (level : Nat) (text : String) :
    Observes (note level text) fun _ => .ok () := by
  intro s
  by_cases hlevel : level ≤ s.level
  · exact ⟨{ s with stderr := s.stderr ++ text }, rfl, by simp [note, hlevel, ended]⟩
  · exact ⟨s, rfl, by simp [note, hlevel, ended]⟩

/-- What follows a job that observes starts from the same files, unless nothing follows. -/
theorem Observes.bind_cases {job : Job α} {x : FileTree → Except Fault α} (h : Observes job x)
    (next : α → Job β) (s : Session) :
    ∃ t : Session, t.tree = s.tree ∧
      ((∃ fault, x s.tree = .error fault ∧ (job >>= next).run s = .error fault t) ∨
        ∃ a, x s.tree = .ok a ∧ (job >>= next).run s = (next a).run t) := by
  obtain ⟨t, htree, hrun⟩ := h s
  refine ⟨t, htree, ?_⟩
  cases hx : x s.tree with
  | error fault =>
      rw [hx] at hrun
      exact .inl ⟨fault, rfl, run_bind_error hrun next⟩
  | ok a =>
      rw [hx] at hrun
      exact .inr ⟨a, rfl, run_bind_ok hrun next⟩

/-- Jobs one after another observe what their computations give one after another. -/
theorem Observes.bind {job : Job α} {next : α → Job β} {x : FileTree → Except Fault α}
    {y : α → FileTree → Except Fault β} (h : Observes job x)
    (hnext : ∀ a, Observes (next a) (y a)) :
    Observes (job >>= next) fun tree => x tree >>= fun a => y a tree := by
  intro s
  obtain ⟨t, htree, ⟨fault, hx, hrun⟩ | ⟨a, hx, hrun⟩⟩ := h.bind_cases next s
  · exact ⟨t, htree, by simp only [hrun, hx]; rfl⟩
  · obtain ⟨u, htree', hrun'⟩ := hnext a t
    exact ⟨u, htree'.trans htree, by simp only [hrun, hrun', hx, htree]; rfl⟩

theorem Observes.congr {job : Job α} {x y : FileTree → Except Fault α} (h : Observes job x)
    (heq : ∀ tree, x tree = y tree) : Observes job y := by
  rwa [← funext heq]

/-- A message in front makes no difference to what a job observes. -/
theorem Observes.afterNote {job : Job α} {x : FileTree → Except Fault α} (h : Observes job x)
    (c : Prop) [Decidable c] (level : Nat) (text : String) :
    Observes (if c then note level text >>= fun _ => job else job) x := by
  by_cases hc : c
  · rw [if_pos hc]
    exact (observes_note level text).bind fun _ => h
  · rwa [if_neg hc]

def inputOf (path : String) (tree : FileTree) : Except Fault Bytes :=
  match tree.find path with
  | .ok .directory => .error (.argument .directoryInput)
  | _ => (tree.read path).mapError Fault.file

theorem observes_readInput (path : String) : Observes (readInput path) (inputOf path) := by
  intro s
  have hget : (readInput path).run s =
      ((match s.tree.find path with
        | .ok .directory => throw (.argument .directoryInput)
        | _ => lift ((s.tree.read path).mapError Fault.file) : Job Bytes)).run s := rfl
  rw [hget, inputOf]
  split
  · exact ⟨s, rfl, rfl⟩
  · exact observes_lift _ s

theorem inputOf_eq_ok_iff {path : String} {tree : FileTree} {data : Bytes} :
    inputOf path tree = .ok data ↔ tree.read path = .ok data := by
  unfold inputOf FileTree.read
  rcases tree.find path with fault | ⟨found | _ | text⟩
  · exact mapError_eq_ok_iff
  · exact mapError_eq_ok_iff
  · constructor <;> intro h <;> cases h
  · exact mapError_eq_ok_iff

/-- Opening an output fails and changes nothing, or leaves an empty file. -/
theorem openOutput_cases (path : String) (overwrite : Bool) (s : Session) :
    (¬ s.tree.Writable path overwrite ∧
      ∃ fault, (openOutput path overwrite).run s = .error fault s) ∨
    ∃ p, s.tree.outputPlace path = .ok p ∧
      (openOutput path overwrite).run s = .ok p (s.withTree (s.tree.put p (.file #[]))) := by
  unfold openOutput
  rw [EStateM.run_bind, EStateM.run_get]
  by_cases hexists : (!overwrite && s.tree.hasPath path) = true
  · refine .inl ⟨fun hwritable => ?_, .file (.alreadyExists path), ?_⟩
    · rw [Bool.and_eq_true, Bool.not_eq_true'] at hexists
      rcases hwritable.2 with hoverwrite | hfree
      · exact Bool.noConfusion (hexists.1.symm.trans hoverwrite)
      · exact Bool.noConfusion (hfree.symm.trans hexists.2)
    · simp only [hexists, if_true]
      rfl
  · simp only [hexists, Bool.false_eq_true, if_false]
    cases hplace : s.tree.outputPlace path with
    | error fault =>
        refine .inl ⟨?_, .file fault, rfl⟩
        rintro ⟨⟨p, hp⟩, -⟩
        cases hplace.symm.trans hp
    | ok p => exact .inr ⟨p, rfl, rfl⟩

theorem run_append {p : Place} (hp : FileTree.isBase p = false) (s : Session) (t : FileTree)
    (before data : Bytes) :
    (append p data).run (s.withTree (t.put p (.file before))) =
      .ok () (s.withTree (t.put p (.file (before ++ data)))) := by
  rw [← FileTree.append_put hp]
  rfl

/-- Writing a whole output fails and changes nothing, or leaves a file with what was written. -/
theorem writeOutput_cases (path : String) (data : Bytes) (overwrite : Bool) (s : Session) :
    (¬ s.tree.Writable path overwrite ∧
      ∃ fault, (writeOutput path data overwrite).run s = .error fault s) ∨
    ∃ p, s.tree.outputPlace path = .ok p ∧
      (writeOutput path data overwrite).run s =
        .ok () (s.withTree (s.tree.put p (.file data))) := by
  rcases openOutput_cases path overwrite s with ⟨hwritable, fault, hopen⟩ | ⟨p, hplace, hopen⟩
  · exact .inl ⟨hwritable, fault, run_bind_error hopen _⟩
  · refine .inr ⟨p, hplace, (run_bind_ok hopen _).trans ?_⟩
    simpa using run_append (FileTree.isBase_of_outputPlace hplace) s s.tree #[] data

end Job

end HopCodec
