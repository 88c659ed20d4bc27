import EntangledMPI.Shared
import Mathlib.Algebra.Order.Ring.Int
import Mathlib.Logic.Relation

/-!
# Watching the map file

A process notices a new map by its modification time alone, which counts whole seconds. The time is
recorded at another moment than the content is read: in `MPI_Init` after the parse of `init_node`,
later before the parse of `is_file_update_set`, which may also give the update up for now and step
the recorded time back by one second.

## Main result

`MapReader.pollsFresh_iff`: what makes a poll overlook a map is a write between the first parse and
`set_last_file_update`, or a write in the very second that has been recorded; and nothing else.
-/

namespace EntangledMPI

/-- A file, as `stat` and `fopen` find it. -/
structure FileState (α : Type*) where
  content : α
  mtime : ℤ

/-- `is_file_modified`, with the time it leaves in `*last_update`. -/
def isFileModified {α : Type*} (file : FileState α) (lastUpdate : ℤ) (ckptRestore : CkptRestore) :
    Bool × ℤ :=
  if ckptRestore = .yes then (true, lastUpdate)
  else if file.mtime > lastUpdate then (true, file.mtime)
  else (false, lastUpdate)

/-- `set_last_file_update`. -/
def setLastFileUpdate {α : Type*} (file : FileState α) : ℤ := file.mtime

section

variable {α : Type*} {file : FileState α} {lastUpdate : ℤ}

theorem isFileModified_of_lt (h : lastUpdate < file.mtime) :
    isFileModified file lastUpdate .no = (true, file.mtime) := by
  rw [isFileModified, if_neg (by decide), if_pos h]

theorem isFileModified_of_le (h : file.mtime ≤ lastUpdate) :
    isFileModified file lastUpdate .no = (false, lastUpdate) := by
  rw [isFileModified, if_neg (by decide), if_neg (not_lt.mpr h)]

/-- Without a restore, the file counts as unmodified until its time passes the recorded one. -/
theorem isFileModified_eq_false_iff :
    (isFileModified file lastUpdate .no).1 = false ↔ file.mtime ≤ lastUpdate := by
  rcases lt_or_ge lastUpdate file.mtime with h | h
  · rw [isFileModified_of_lt h]
    exact iff_of_false (fun htrue ↦ nomatch htrue) (not_le.mpr h)
  · rw [isFileModified_of_le h]
    exact iff_of_true rfl h

end

/-! ## One process and the writers of the map -/

/-- Where a process stands with the map: it has not parsed any, it has but has not recorded a time,
it is between polls, or a poll has found an update. -/
inductive PollPc
  | entering
  | entered
  | polling
  | updating
  deriving DecidableEq

/-- A process without a checkpoint to restore, the map file and the clock. `parsed` is the content
the process has parsed last. -/
structure MapReader (α : Type*) where
  file : FileState α
  now : ℤ
  pc : PollPc
  lastFileUpdate : ℤ
  parsed : Option α

inductive MapEvent (α : Type*)
  | tick (now : ℤ)
  | write (content : α)
  | initNode
  | setLast
  | poll
  | giveUp
  | parse

namespace MapReader

variable {α : Type*}

/-- A process that has just been started, with some map on disk. -/
def start (file : FileState α) : MapReader α := ⟨file, file.mtime, .entering, 0, none⟩

/-- The call of `is_file_modified` in `is_file_update_set`. -/
def poll (s : MapReader α) : MapReader α :=
  let modified := isFileModified s.file s.lastFileUpdate .no
  { s with pc := if modified.1 then .updating else .polling, lastFileUpdate := modified.2 }

/-- What can happen next, at the process or elsewhere. -/
inductive Step (s : MapReader α) : MapEvent α → MapReader α → Prop
  | tick {now : ℤ} (h : s.now ≤ now) : Step s (.tick now) { s with now := now }
  | write (content : α) : Step s (.write content) { s with file := ⟨content, s.now⟩ }
  | initNode (h : s.pc = .entering) :
      Step s .initNode { s with pc := .entered, parsed := some s.file.content }
  | setLast (h : s.pc = .entered) :
      Step s .setLast { s with pc := .polling, lastFileUpdate := setLastFileUpdate s.file }
  | poll (h : s.pc = .polling) : Step s .poll s.poll
  /-- Some process holds a request: `last_file_update--`. -/
  | giveUp (h : s.pc = .updating) :
      Step s .giveUp { s with pc := .polling, lastFileUpdate := s.lastFileUpdate - 1 }
  | parse (h : s.pc = .updating) :
      Step s .parse { s with pc := .polling, parsed := some s.file.content }

/-- A poll that would report the map as not modified would be right. -/
def PollsFresh (s : MapReader α) : Prop :=
  s.pc = .polling → (isFileModified s.file s.lastFileUpdate .no).1 = false →
    s.parsed = some s.file.content

/-- The time is recorded while the map parsed first is still on disk, and between two polls nothing
new is written in the second that is recorded. -/
def NoBlindWrite (s : MapReader α) : MapEvent α → Prop
  | .setLast => s.parsed = some s.file.content
  | .write content => s.pc = .polling → s.now ≤ s.lastFileUpdate → s.parsed = some content
  | _ => True

/-- A run of steps that all meet a condition. -/
def Run (condition : MapReader α → MapEvent α → Prop) : MapReader α → MapReader α → Prop :=
  Relation.ReflTransGen fun s s' ↦ ∃ e, s.Step e s' ∧ condition s e

/-! ## The invariant -/

/-- What every run keeps, blind writes or not. -/
structure Invariant (s : MapReader α) : Prop where
  mtime_le : s.file.mtime ≤ s.now
  /-- An update that has been found is not older than the file. -/
  updating : s.pc = .updating → s.lastFileUpdate ≤ s.file.mtime

theorem invariant_start (file : FileState α) : (start file).Invariant :=
  ⟨le_refl _, fun h ↦ nomatch h⟩

variable {s s' : MapReader α} {e : MapEvent α}

theorem poll_eq (h : s.pc = .polling) :
    s.file.mtime ≤ s.lastFileUpdate ∧ s.poll = s ∨
      s.lastFileUpdate < s.file.mtime ∧
        s.poll = { s with pc := .updating, lastFileUpdate := s.file.mtime } := by
  rcases le_or_gt s.file.mtime s.lastFileUpdate with hle | hlt
  · refine Or.inl ⟨hle, ?_⟩
    rw [poll, isFileModified_of_le hle, ← h]
    rfl
  · refine Or.inr ⟨hlt, ?_⟩
    rw [poll, isFileModified_of_lt hlt]
    rfl

theorem Invariant.step (h : s.Invariant) (hstep : s.Step e s') : s'.Invariant := by
  cases hstep with
  | tick hnow => exact ⟨h.mtime_le.trans hnow, h.updating⟩
  | write content => exact ⟨le_refl _, fun hpc ↦ (h.updating hpc).trans h.mtime_le⟩
  | initNode => exact ⟨h.mtime_le, fun hpc ↦ nomatch hpc⟩
  | setLast => exact ⟨h.mtime_le, fun hpc ↦ nomatch hpc⟩
  | poll hpc =>
    rcases poll_eq hpc with ⟨-, heq⟩ | ⟨-, heq⟩
    · rwa [heq]
    · rw [heq]
      exact ⟨h.mtime_le, fun _ ↦ le_refl _⟩
  | giveUp => exact ⟨h.mtime_le, fun hpc ↦ nomatch hpc⟩
  | parse => exact ⟨h.mtime_le, fun hpc ↦ nomatch hpc⟩

/-- A step keeps polls right exactly when it is not a blind write. -/
theorem Invariant.pollsFresh_step_iff (h : s.Invariant) (hfresh : s.PollsFresh)
    (hstep : s.Step e s') : s'.PollsFresh ↔ s.NoBlindWrite e := by
  cases hstep with
  | tick => exact iff_of_true hfresh trivial
  | write content =>
    rw [PollsFresh, isFileModified_eq_false_iff]
    rfl
  | initNode => exact iff_of_true (fun hpc ↦ nomatch hpc) trivial
  | setLast =>
    constructor
    · intro h'
      exact h' rfl (isFileModified_eq_false_iff.mpr (le_refl _))
    · intro heq _ _
      exact heq
  | poll hpc =>
    refine iff_of_true ?_ trivial
    rcases poll_eq hpc with ⟨-, heq⟩ | ⟨-, heq⟩
    · rwa [heq]
    · rw [heq]
      exact fun hpc' ↦ nomatch hpc'
  | giveUp hpc =>
    -- the file is now newer than the recorded time, so the next poll finds it again
    refine iff_of_true ?_ trivial
    intro _ hsame
    have hle := isFileModified_eq_false_iff.mp hsame
    have hge := h.updating hpc
    dsimp only at hle
    omega
  | parse => exact iff_of_true (fun _ _ ↦ rfl) trivial

/-- **When no map is overlooked.** In every run without a blind write every poll is right in every
state; and one more step keeps it so exactly when it is not a blind write. -/
theorem pollsFresh_iff {file : FileState α} (hrun : Run NoBlindWrite (start file) s) :
    s.PollsFresh ∧ ∀ e s', s.Step e s' → (s'.PollsFresh ↔ s.NoBlindWrite e) := by
  obtain ⟨hinv, hfresh⟩ : s.Invariant ∧ s.PollsFresh := by
    induction hrun with
    | refl => exact ⟨invariant_start file, fun hpc ↦ nomatch hpc⟩
    | tail _ hstep ih =>
      obtain ⟨e, hstep, hcond⟩ := hstep
      exact ⟨ih.1.step hstep, (ih.1.pollsFresh_step_iff ih.2 hstep).mpr hcond⟩
  exact ⟨hfresh, fun e s' hstep ↦ hinv.pollsFresh_step_iff hfresh hstep⟩

/-- A process enters, the map is rewritten a second later, and the process finds the update. -/
theorem pollsFresh_second_later :
    PollsFresh (⟨⟨1, 8⟩, 8, .polling, 8, some 1⟩ : MapReader ℕ) := by
  have hrun : Run NoBlindWrite (start ⟨0, 7⟩) (⟨⟨1, 8⟩, 8, .polling, 8, some 1⟩ : MapReader ℕ) :=
    .tail (.tail (.tail (.tail (.tail (.tail .refl
      ⟨.initNode, .initNode rfl, trivial⟩)
      ⟨.setLast, .setLast rfl, rfl⟩)
      ⟨.tick 8, .tick (by decide), trivial⟩)
      ⟨.write 1, .write 1, fun _ h ↦ absurd h (by decide)⟩)
      ⟨.poll, .poll rfl, trivial⟩)
      ⟨.parse, .parse rfl, trivial⟩
  exact (pollsFresh_iff hrun).1

/-- A write between the parse of `init_node` and `set_last_file_update` is never noticed. -/
theorem not_pollsFresh_write_entering :
    ∃ s : MapReader ℕ, Run (fun _ _ ↦ True) (start ⟨0, 7⟩) s ∧ ¬s.PollsFresh := by
  refine ⟨⟨⟨1, 7⟩, 7, .polling, 7, some 0⟩, .tail (.tail (.tail .refl
    ⟨.initNode, .initNode rfl, trivial⟩)
    ⟨.write 1, .write 1, trivial⟩)
    ⟨.setLast, .setLast rfl, trivial⟩, ?_⟩
  intro hfresh
  exact absurd (hfresh rfl (by decide)) (by decide)

end MapReader

end EntangledMPI
