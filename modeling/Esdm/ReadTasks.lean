import Esdm.Scheduler

/-!
# The tasks of a read

`esdm_scheduler_read_blocking` where the backends have threads: the caller hands out a task for each
fragment, and the threads take turns in any order.  A task's operation, its callback and the section
that holds the request's mutex are one step each.  The sequence in which a backend without threads
works is one of the schedules (`enqueueRead_schedule`).
-/

namespace Esdm

variable {V : Type}

/-- How far `backend_thread` is with a task: with the result of the operation, and with what the
copy in the callback has returned, if there was one. -/
inductive ReadStage
  | queued
  | loaded (ret : Status)
  | calledBack (ret : Status) (copied : Option Status)
  | completed (ret : Status) (copied : Option Status)
  deriving DecidableEq, Repr

def ReadStage.isCompleted : ReadStage → Bool
  | .completed _ _ => true
  | _ => false

/-- `io_work_t`; `direct` stands for the callback. -/
structure ReadTask where
  fragment : ℕ
  direct : Bool
  stage : ReadStage
  deriving DecidableEq, Repr

/-- A read that is under way, with the fragments that have no task yet. -/
structure ReadState (V : Type) where
  ds : Dataset V
  user : Mem V
  returnCode : Status
  left : List ℕ
  tasks : List ReadTask

inductive ReadAction
  | enqueue
  | load (i : ℕ)
  | callback (i : ℕ)
  | complete (i : ℕ)
  deriving DecidableEq, Repr

namespace ReadState

variable (env : Env V) (space : Dataspace)

def setStage (s : ReadState V) (i : ℕ) (task : ReadTask) (stage : ReadStage) : ReadState V :=
  { s with tasks := s.tasks.set i { task with stage := stage } }

/-- A round of `esdm_scheduler_enqueue_read`. -/
def enqueue (s : ReadState V) (r : ℕ) (left : List ℕ) : Outcome (ReadState V) := do
  let f ← s.ds.fragment r
  let (direct, f) ← Dataset.tryDirectIo f space
  let _ ← access f.backend
  return { s with
    ds := s.ds.setFragment r f
    left := left
    tasks := s.tasks ++ [⟨r, direct, .queued⟩] }

/-- The operation of a task. -/
def load (s : ReadState V) (i : ℕ) (task : ReadTask) : Outcome (ReadState V) := do
  let f ← s.ds.fragment task.fragment
  let (ret, f, user) ← f.load env s.user
  return { s.setStage i task (.loaded ret) with
    ds := s.ds.setFragment task.fragment f
    user := user }

/-- `read_copy_callback` or `buffer_cleanup_callback` -/
def callback (s : ReadState V) (i : ℕ) (task : ReadTask) (ret : Status) :
    Outcome (ReadState V) := do
  if ret ≠ .success then return s.setStage i task (.calledBack ret none)
  else
    let f ← s.ds.fragment task.fragment
    if task.direct then
      let (_, f) ← f.unload env s.user
      return { s.setStage i task (.calledBack ret none) with
        ds := s.ds.setFragment task.fragment f }
    else
      let data ← access (f.view env s.user)
      let (copied, user) ← copyData env.cast f.dataspace data space s.user
      return { s.setStage i task (.calledBack ret (some copied)) with user := user }

/-- The section of `backend_thread` that holds the mutex.  It knows what the operation has
returned. -/
def complete (s : ReadState V) (i : ℕ) (task : ReadTask) (ret : Status) (copied : Option Status) :
    ReadState V :=
  { s.setStage i task (.completed ret copied) with
    returnCode := if ret = .success then s.returnCode else ret }

/-- One step; `none` if the thread cannot take it now. -/
def act (s : ReadState V) : ReadAction → Option (Outcome (ReadState V))
  | .enqueue =>
    match s.left with
    | [] => none
    | r :: left => some (s.enqueue space r left)
  | .load i =>
    match s.tasks[i]? with
    | some task => if task.stage = .queued then some (s.load env i task) else none
    | none => none
  | .callback i =>
    match s.tasks[i]? with
    | some task =>
      match task.stage with
      | .loaded ret => some (s.callback env space i task ret)
      | _ => none
    | none => none
  | .complete i =>
    match s.tasks[i]? with
    | some task =>
      match task.stage with
      | .calledBack ret copied => some (.ok (s.complete i task ret copied))
      | _ => none
    | none => none

/-- An interleaving of the threads' steps. -/
def exec : ReadState V → List ReadAction → Option (Outcome (ReadState V))
  | s, [] => some (.ok s)
  | s, a :: actions =>
    match s.act env space a with
    | none => none
    | some (.error fault) => some (.error fault)
    | some (.ok s') => exec s' actions

/-- All tasks are done, so that `esdm_scheduler_wait` returns. -/
def finished (s : ReadState V) : Prop :=
  s.left = [] ∧ ∀ task ∈ s.tasks, task.stage.isCompleted = true

instance (s : ReadState V) : Decidable s.finished := inferInstanceAs (Decidable (_ ∧ _))

end ReadState

/-- `esdm_scheduler_read_blocking` with the steps of the threads, up to the write-back, whose status
is ignored: what it returns, and its tasks.  `none` if the threads do not take these steps, or are
not done. -/
def Dataset.readScheduled (env : Env V) (ds : Dataset V) (user : Mem V) (space : Dataspace)
    (schedule : List ReadAction) : Option (Outcome (Status × Mem V × List ReadTask)) :=
  match ds.fragmentsCoveringRegion env space.getExtends with
  | .error fault => some (.error fault)
  | .ok covering =>
    match ds.fillHoles env user space covering with
    | .error fault => some (.error fault)
    | .ok (.success, user) =>
      match ReadState.exec env space ⟨ds, user, .success, covering.fragments, []⟩ schedule with
      | some (.ok s) => if s.finished then some (.ok (s.returnCode, s.user, s.tasks)) else none
      | some (.error fault) => some (.error fault)
      | none => none
    | .ok (ret, user) => some (.ok (ret, user, []))

end Esdm
