import Mathlib.Algebra.Ring.Int.Defs
import Esdm.Status

/-!
# Requests and their tasks

A request of `esdm-scheduler.c` is split into tasks.  The caller counts them in `pending_ops` and
hands them to the backends, or runs them itself where a backend has no threads; then it waits until
they are done.  The threads take turns in any order.  Operations and callbacks of tasks do not touch
the request's status, so a task's result comes from outside; the section that does touch it holds
the mutex and is one step.
-/

namespace Esdm.Request

/-- `io_operation_t` -/
inductive IoOp
  | read
  | write
  deriving DecidableEq, Repr

/-- A task before it is handed out: its operation and its backend's `threads`. -/
structure Task where
  op : IoOp
  threads : ℕ
  deriving DecidableEq, Repr

/-- How far `backend_thread` is with a task; with the result of the operation. -/
inductive Stage
  | queued
  | operated (ret : Status)
  | calledBack (ret : Status)
  | completed (ret : Status)
  deriving DecidableEq, Repr

/-- `io_work_t` -/
structure Work extends Task where
  stage : Stage
  deriving DecidableEq, Repr

/-- A call that enqueues tasks: `esdmI_scheduler_writeFragmentNonblocking`, or
`esdm_scheduler_enqueue_read` with all of its fragments. -/
inductive Job
  | write (threads : ℕ)
  | read (threads : List ℕ)
  deriving DecidableEq, Repr

def Job.tasks : Job → List Task
  | .write threads => [⟨.write, threads⟩]
  | .read threads => threads.map fun n => ⟨.read, n⟩

/-- Where the caller is. -/
inductive Master
  /-- it enqueues, and has these calls left -/
  | enqueue (jobs : List Job)
  /-- in such a call, with tasks that are counted and not handed out yet -/
  | dispatch (left : List Task) (jobs : List Job)
  /-- in `backend_thread`, for a task of a backend without threads -/
  | inline (i : ℕ) (left : List Task) (jobs : List Job)
  /-- in `esdm_scheduler_wait`, with the mutex -/
  | locked
  /-- in `g_cond_wait`, and whether the condition has been signalled -/
  | sleeping (signalled : Bool)
  | returned
  deriving DecidableEq, Repr

/-- `g_cond_signal` -/
def Master.signal : Master → Master
  | .sleeping _ => .sleeping true
  | m => m

/-- `io_request_status_t`, with the tasks that have been handed out and the caller. -/
structure State where
  pendingOps : ℤ
  returnCode : Status
  works : List Work
  master : Master
  deriving DecidableEq, Repr

/-- `esdm_scheduler_status_init`, and what the caller is going to do -/
def State.init (jobs : List Job) : State := ⟨0, .success, [], .enqueue jobs⟩

/-- The steps of the threads. -/
inductive Action
  | master
  /-- `g_cond_wait` returns, signalled or not -/
  | wake
  | operate (i : ℕ) (ret : Status)
  | callback (i : ℕ)
  | complete (i : ℕ)
  deriving DecidableEq, Repr

namespace State

/-- The next step of the caller. -/
def masterStep (s : State) : Option State :=
  match s.master with
  | .enqueue (job :: jobs) =>
    some { s with
      pendingOps := s.pendingOps + job.tasks.length
      master := .dispatch job.tasks jobs }
  | .enqueue [] => some { s with master := .locked }
  | .dispatch (task :: left) jobs =>
    some { s with
      works := s.works ++ [⟨task, .queued⟩]
      master := if task.threads = 0 then .inline s.works.length left jobs else .dispatch left jobs }
  | .dispatch [] jobs => some { s with master := .enqueue jobs }
  | .inline i left jobs =>
    match s.works[i]? with
    | some ⟨_, .completed _⟩ => some { s with master := .dispatch left jobs }
    | _ => none
  | .locked => some { s with master := if s.pendingOps = 0 then .returned else .sleeping false }
  | .sleeping _ | .returned => none

/-- A task goes on to the next stage. -/
def setStage (s : State) (i : ℕ) (work : Work) (stage : Stage) : State :=
  { s with works := s.works.set i { work with stage := stage } }

/-- The section of `backend_thread` that holds the mutex.  The old counter is read as a `size_t`, so
the assertion lets negative numbers pass. -/
def finish (s : State) (i : ℕ) (work : Work) (ret : Status) : Outcome State := do
  eassert .pendingOps (s.pendingOps ≠ 0)
  return { s.setStage i work (.completed ret) with
    pendingOps := s.pendingOps - 1
    returnCode := if ret = .success then s.returnCode else ret
    master := if s.pendingOps = 1 then s.master.signal else s.master }

/-- One step; `none` if the thread cannot take it now. -/
def act (s : State) : Action → Option (Outcome State)
  | .master => s.masterStep.map .ok
  | .wake =>
    match s.master with
    | .sleeping _ => some (.ok { s with master := .locked })
    | _ => none
  | .operate i ret =>
    match s.works[i]? with
    | some work => if work.stage = .queued then some (.ok (s.setStage i work (.operated ret)))
      else none
    | none => none
  | .callback i =>
    match s.works[i]? with
    | some work =>
      match work.stage with
      | .operated ret => some (.ok (s.setStage i work (.calledBack ret)))
      | _ => none
    | none => none
  | .complete i =>
    match s.works[i]? with
    | some work =>
      match work.stage with
      | .calledBack ret => if s.master = .locked then none else some (s.finish i work ret)
      | _ => none
    | none => none

/-- An interleaving of the threads' steps. -/
def exec : State → List Action → Option (Outcome State)
  | s, [] => some (.ok s)
  | s, a :: actions =>
    match s.act a with
    | none => none
    | some (.error fault) => some (.error fault)
    | some (.ok s') => exec s' actions

end State

end Esdm.Request
