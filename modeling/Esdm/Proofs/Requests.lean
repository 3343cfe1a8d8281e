import Mathlib.Algebra.GroupWithZero.Nat
import Mathlib.Algebra.Ring.Int.Defs
import Mathlib.Data.List.Count
import Esdm.Requests

/-!
# When a request has returned

`pending_ops` counts the tasks that are not completed, and those that the caller has counted and not
handed out yet.  It may drop to zero and signal while the caller still enqueues, but by the time the
caller waits nothing is left to hand out.  So when it is zero then, all tasks are done with the
status (`exec_completes`), and the caller is not left asleep (`exec_terminates`).
-/

namespace Esdm.Request

/-- The tasks that have been counted and not handed out. -/
def Master.left : Master → List Task
  | .dispatch left _ | .inline _ left _ => left
  | _ => []

/-- The calls that are still to be made. -/
def Master.jobs : Master → List Job
  | .enqueue jobs | .dispatch _ jobs | .inline _ _ jobs => jobs
  | _ => []

@[simp] theorem Master.left_signal (m : Master) : m.signal.left = m.left := by cases m <;> rfl

@[simp] theorem Master.jobs_signal (m : Master) : m.signal.jobs = m.jobs := by cases m <;> rfl

/-- The task has left the status alone so far. -/
def Work.unfinished (w : Work) : Bool :=
  match w.stage with
  | .completed _ => false
  | _ => true

theorem Work.completed_of_not_unfinished {w : Work} (h : ¬ w.unfinished = true) :
    ∃ ret, w.stage = .completed ret := by
  unfold Work.unfinished at h
  split at h
  · rename_i ret hret
    exact ⟨ret, hret⟩
  · exact absurd rfl h

namespace State

variable {s s' : State} {jobs : List Job} {a : Action}

/-- What holds whatever the threads have done. -/
structure Inv (jobs : List Job) (s : State) : Prop where
  pendingOps : s.pendingOps = s.works.countP Work.unfinished + s.master.left.length
  tasks : s.works.map Work.toTask ++ s.master.left ++ s.master.jobs.flatMap Job.tasks
    = jobs.flatMap Job.tasks
  returnCode : s.returnCode = .success
    ↔ ∀ w ∈ s.works, ∀ ret, w.stage = .completed ret → ret = .success
  asleep : s.master = .sleeping false → s.pendingOps ≠ 0
  returned : s.master = .returned → s.pendingOps = 0
  inline : ∀ i left jobs, s.master = .inline i left jobs → i < s.works.length

theorem init_inv (jobs : List Job) : Inv jobs (init jobs) :=
  ⟨rfl, by simp [init, Master.left, Master.jobs], by simp [init], by simp [init], by simp [init],
    by simp [init]⟩

theorem Inv.masterStep (h : Inv jobs s) (hs : s.masterStep = some s') : Inv jobs s' := by
  obtain ⟨hpending, htasks, hcode, -, -, -⟩ := h
  unfold State.masterStep at hs
  split at hs
  · rename_i job jobs' hm
    obtain rfl := Option.some.inj hs
    rw [hm] at hpending htasks
    refine ⟨by simp [hpending, Master.left], ?_, hcode, by simp, by simp, by simp⟩
    simpa [Master.left, Master.jobs] using htasks
  · rename_i hm
    obtain rfl := Option.some.inj hs
    rw [hm] at hpending htasks
    exact ⟨hpending, htasks, hcode, by simp, by simp, by simp⟩
  · rename_i task left jobs' hm
    obtain rfl := Option.some.inj hs
    rw [hm] at hpending htasks
    have hpending : s.pendingOps = s.works.countP Work.unfinished + (task :: left).length :=
      hpending
    have htasks : s.works.map Work.toTask ++ (task :: left) ++ jobs'.flatMap Job.tasks
      = jobs.flatMap Job.tasks := htasks
    have hleft : ∀ m : Master, (m = .inline s.works.length left jobs' ∨ m = .dispatch left jobs') →
        Inv jobs { s with works := s.works ++ [⟨task, .queued⟩], master := m } := by
      intro m hm
      have hl : m.left = left ∧ m.jobs = jobs' ∧ m ≠ .sleeping false ∧ m ≠ .returned := by
        rcases hm with rfl | rfl <;> exact ⟨rfl, rfl, by simp, by simp⟩
      refine ⟨?_, ?_, ?_, fun h => absurd h hl.2.2.1, fun h => absurd h hl.2.2.2, ?_⟩
      · simp only [hl.1, hpending, List.countP_append, List.length_cons]
        simp [Work.unfinished]
        omega
      · simp only [hl.1, hl.2.1]
        simpa using htasks
      · rw [hcode]
        simp [or_imp, forall_and]
      · rcases hm with rfl | rfl
        · rintro i _ _ ⟨⟩
          simp
        · simp
    apply hleft
    split_ifs
    · exact .inl rfl
    · exact .inr rfl
  · rename_i jobs' hm
    obtain rfl := Option.some.inj hs
    rw [hm] at hpending htasks
    exact ⟨hpending, by simpa [Master.left, Master.jobs] using htasks,
      hcode, by simp, by simp, by simp⟩
  · rename_i i left jobs' hm
    rw [hm] at hpending htasks
    split at hs
    · obtain rfl := Option.some.inj hs
      exact ⟨hpending, htasks, hcode, by simp, by simp, by simp⟩
    · cases hs
  · rename_i hm
    obtain rfl := Option.some.inj hs
    rw [hm] at hpending htasks
    by_cases hzero : s.pendingOps = 0
    · rw [if_pos hzero]
      exact ⟨hpending, htasks, hcode, by simp, fun _ => hzero, by simp⟩
    · rw [if_neg hzero]
      exact ⟨hpending, htasks, hcode, fun _ => hzero, by simp, by simp⟩
  · cases hs
  · cases hs

section Stages

variable {i : ℕ} {w : Work} {stage : Stage}

theorem map_toTask_setStage (hw : s.works[i]? = some w) :
    (s.setStage i w stage).works.map Work.toTask = s.works.map Work.toTask := by
  refine List.ext_getElem? fun j => ?_
  rw [setStage, List.getElem?_map, List.getElem?_map, List.getElem?_set]
  split_ifs with hij hlt
  · subst hij
    simp [hw]
  · subst hij
    rw [List.getElem?_eq_none (by omega)]
  · rfl

/-- What holds of all tasks, after one of them has gone on. -/
theorem forall_mem_setStage {P : Work → Prop} (hw : s.works[i]? = some w) (hP : P w) :
    (∀ v ∈ (s.setStage i w stage).works, P v)
      ↔ P { w with stage := stage } ∧ ∀ v ∈ s.works, P v := by
  have hlt := (List.getElem?_eq_some_iff.1 hw).1
  constructor
  · intro h
    refine ⟨h _ (List.mem_set hlt _), fun v hv => ?_⟩
    obtain ⟨j, hj⟩ := List.mem_iff_getElem?.1 hv
    by_cases hij : i = j
    · subst hij
      rwa [← Option.some.inj (hw.symm.trans hj)]
    · exact h v (List.mem_of_getElem? ((List.getElem?_set_ne hij).trans hj))
  · rintro ⟨hnew, hold⟩ v hv
    rcases List.mem_or_eq_of_mem_set hv with hv | rfl
    · exact hold v hv
    · exact hnew

theorem countP_setStage (hw : s.works[i]? = some w) (hopen : w.unfinished = true) :
    (s.setStage i w stage).works.countP Work.unfinished
        + (if Work.unfinished { w with stage := stage } then 0 else 1)
      = s.works.countP Work.unfinished := by
  obtain ⟨hlt, hget⟩ := List.getElem?_eq_some_iff.1 hw
  have hpos : 0 < s.works.countP Work.unfinished :=
    List.countP_pos_iff.2 ⟨w, List.mem_of_getElem? hw, hopen⟩
  rw [setStage, List.countP_set hlt, hget, if_pos hopen]
  split_ifs <;> omega

/-- As long as a task is not completed, nothing of the status changes. -/
theorem Inv.setStage (h : Inv jobs s) (hw : s.works[i]? = some w) (hopen : w.unfinished = true)
    (hstage : Work.unfinished { w with stage := stage } = true) :
      Inv jobs (s.setStage i w stage) := by
  have hnone : ∀ {v : Work}, v.unfinished = true → ∀ ret, v.stage = .completed ret
    → ret = .success := by
    intro v hv ret hret
    rw [Work.unfinished, hret] at hv
    cases hv
  refine ⟨?_, ?_, ?_, h.asleep, h.returned, by simpa [State.setStage] using h.inline⟩
  · have hcount := @countP_setStage s i w stage hw hopen
    rw [if_pos hstage, Nat.add_zero] at hcount
    rw [hcount]
    exact h.pendingOps
  · rw [map_toTask_setStage hw]
    exact h.tasks
  · rw [forall_mem_setStage hw (hnone hopen)]
    exact h.returnCode.trans ⟨fun h => ⟨hnone hstage, h⟩, fun h => h.2⟩

/-- The last step of a task does not run into the assertion. -/
theorem Inv.finish (h : Inv jobs s) {ret : Status} (hw : s.works[i]? = some w)
    (hstage : w.stage = .calledBack ret) :
    ∃ s', s.finish i w ret = .ok s' ∧ Inv jobs s' := by
  have hopen : w.unfinished = true := by rw [Work.unfinished, hstage]
  have hcount := @countP_setStage s i w (.completed ret) hw hopen
  rw [if_neg (by simp [Work.unfinished])] at hcount
  have hpending := h.pendingOps
  have hne : s.pendingOps ≠ 0 := by omega
  refine ⟨_, by rw [State.finish, eassert_of hne]; rfl, ?_, ?_, ?_, ?_, ?_, ?_⟩
  · have hleft : (if s.pendingOps = 1 then s.master.signal else s.master).left = s.master.left := by
      split_ifs <;> simp
    dsimp only
    rw [hleft]
    omega
  · have hmaster : (if s.pendingOps = 1 then s.master.signal else s.master).left = s.master.left
        ∧ (if s.pendingOps = 1 then s.master.signal else s.master).jobs = s.master.jobs := by
      split_ifs <;> simp
    dsimp only
    rw [hmaster.1, hmaster.2, map_toTask_setStage hw]
    exact h.tasks
  · dsimp only
    rw [forall_mem_setStage hw (by simp [hstage]), ← h.returnCode]
    by_cases hret : ret = .success
    · simp [hret]
    · simp [hret]
  · dsimp only
    intro hm
    split_ifs at hm with hone
    · cases hmaster : s.master <;> rw [hmaster] at hm <;> cases hm
    · omega
  · dsimp only
    intro hm
    refine absurd (h.returned ?_) hne
    split_ifs at hm with hone
    · cases hmaster : s.master <;> rw [hmaster] at hm <;> first | rfl | cases hm
    · exact hm
  · dsimp only
    intro j left jobs' hm
    rw [State.setStage, List.length_set]
    refine h.inline j left jobs' ?_
    split_ifs at hm with hone
    · cases hmaster : s.master <;> rw [hmaster] at hm <;> first | exact hm | cases hm
    · exact hm

theorem Inv.act (h : Inv jobs s) {r : Outcome State} (ha : s.act a = some r) :
    ∃ s', r = .ok s' ∧ Inv jobs s' := by
  unfold State.act at ha
  split at ha
  · obtain ⟨s', hs, rfl⟩ := Option.map_eq_some_iff.1 ha
    exact ⟨s', rfl, h.masterStep hs⟩
  · split at ha
    · rename_i hm
      obtain rfl := Option.some.inj ha
      have hpending := h.pendingOps
      have htasks := h.tasks
      rw [hm] at hpending htasks
      exact ⟨_, rfl, hpending, htasks, h.returnCode, by simp, by simp, by simp⟩
    · cases ha
  · split at ha
    · rename_i i ret _ w hw
      split_ifs at ha with hstage
      obtain rfl := Option.some.inj ha
      exact ⟨_, rfl, h.setStage hw (by rw [Work.unfinished, hstage]) rfl⟩
    · cases ha
  · split at ha
    · rename_i i _ w hw
      split at ha
      · rename_i ret hstage
        obtain rfl := Option.some.inj ha
        exact ⟨_, rfl, h.setStage hw (by rw [Work.unfinished, hstage]) rfl⟩
      · cases ha
    · cases ha
  · split at ha
    · rename_i i _ w hw
      split at ha
      · rename_i ret hstage
        split_ifs at ha
        obtain ⟨s', hs, h'⟩ := h.finish hw hstage
        exact ⟨s', (Option.some.inj ha).symm.trans hs, h'⟩
      · cases ha
    · cases ha

end Stages

theorem Inv.exec {actions : List Action} (h : Inv jobs s) {r : Outcome State}
    (he : s.exec actions = some r) : ∃ s', r = .ok s' ∧ Inv jobs s' := by
  induction actions generalizing s with
  | nil => exact ⟨s, (Option.some.inj he).symm, h⟩
  | cons a actions ih =>
    rw [State.exec] at he
    cases ha : s.act a with
    | none => simp [ha] at he
    | some r' =>
      obtain ⟨s₁, rfl, h₁⟩ := h.act ha
      rw [ha] at he
      exact ih h₁ he

/-- Everything that was enqueued is through with the status: the tasks are completed, and no step
changes anything any more. -/
structure Completed (jobs : List Job) (s : State) : Prop where
  pendingOps : s.pendingOps = 0
  tasks : s.works.map Work.toTask = jobs.flatMap Job.tasks
  completed : ∀ w ∈ s.works, ∃ ret, w.stage = .completed ret
  final : ∀ a, s.act a = none
  returnCode : s.returnCode = .success ↔ ∀ w ∈ s.works, w.stage = .completed .success

theorem act_of_completed (h : ∀ w ∈ s.works, ∃ ret, w.stage = .completed ret) {i : ℕ}
    (ha : (∃ ret, a = .operate i ret) ∨ a = .callback i ∨ a = .complete i) : s.act a = none := by
  cases hw : s.works[i]? with
  | none => rcases ha with ⟨ret, rfl⟩ | rfl | rfl <;> simp [State.act, hw]
  | some w =>
    obtain ⟨ret, hret⟩ := h w (List.mem_of_getElem? hw)
    rcases ha with ⟨ret, rfl⟩ | rfl | rfl <;> simp [State.act, hw, hret]

theorem Inv.completed (h : Inv jobs s) (hm : s.master = .returned) : Completed jobs s := by
  have hzero := h.returned hm
  have hcompleted : ∀ w ∈ s.works, ∃ ret, w.stage = .completed ret := by
    have hpending := h.pendingOps
    rw [hzero, hm] at hpending
    have hcount : s.works.countP Work.unfinished = 0 := by
      simp [Master.left] at hpending
      omega
    exact fun w hw => Work.completed_of_not_unfinished (List.countP_eq_zero.1 hcount w hw)
  refine ⟨hzero, ?_, hcompleted, ?_, ?_⟩
  · have := h.tasks
    rw [hm] at this
    simpa [Master.left, Master.jobs] using this
  · intro a
    cases a with
    | master => simp [State.act, State.masterStep, hm]
    | wake => simp [State.act, hm]
    | operate i ret => exact act_of_completed hcompleted (.inl ⟨ret, rfl⟩)
    | callback i => exact act_of_completed hcompleted (.inr (.inl rfl))
    | complete i => exact act_of_completed hcompleted (.inr (.inr rfl))
  · rw [h.returnCode]
    refine forall₂_congr fun w hw => ?_
    obtain ⟨ret, hret⟩ := hcompleted w hw
    simp [hret]

/-- Whatever the interleaving, no assertion fails and `pending_ops` is not negative; and when the
caller has returned from `esdm_scheduler_wait`, the request is completed. -/
theorem exec_completes {jobs : List Job} {actions : List Action} {r : Outcome State}
    (h : (init jobs).exec actions = some r) :
    ∃ s, r = .ok s ∧ 0 ≤ s.pendingOps ∧ (s.master = .returned → Completed jobs s) := by
  obtain ⟨s, rfl, hs⟩ := (init_inv jobs).exec h
  exact ⟨s, rfl, by rw [hs.pendingOps]; omega, hs.completed⟩

/-- A task that fails inline, then two that are read, one of them in a pool while the caller sleeps.
-/
def mixedActions : List Action :=
  [.master, .master, .operate 0 .error, .callback 0, .complete 0, .master, .master, .master,
    .master, .operate 1 .success, .callback 1, .complete 1, .master, .master, .master, .master,
    .operate 2 .success, .master, .callback 2, .complete 2, .wake, .master]

theorem exec_completes_mixed : ∃ s,
    (init [.write 0, .read [0, 2]]).exec mixedActions = some (.ok s) ∧ s.returnCode = .error
      ∧ Completed [.write 0, .read [0, 2]] s := by
  have hrun : ∃ s, (init [.write 0, .read [0, 2]]).exec mixedActions = some (.ok s)
      ∧ s.master = .returned ∧ s.returnCode = .error := ⟨_, rfl, rfl, rfl⟩
  obtain ⟨s, hexec, hm, hcode⟩ := hrun
  obtain ⟨s', hs, -, h⟩ := exec_completes hexec
  obtain rfl := Except.ok.inj hs
  exact ⟨s, hexec, hcode, h hm⟩

section Progress

/-- A task that is not completed can go on, unless the caller has the mutex. -/
theorem exists_act {i : ℕ} {w : Work} (hw : s.works[i]? = some w) (hopen : w.unfinished = true)
    (hm : s.master ≠ .locked) : ∃ a r, s.act a = some r ∧ a ≠ .wake := by
  cases hstage : w.stage with
  | queued => exact ⟨.operate i .success, _, by simp [State.act, hw, hstage]; rfl, by simp⟩
  | operated ret => exact ⟨.callback i, _, by simp [State.act, hw, hstage]; rfl, by simp⟩
  | calledBack ret => exact ⟨.complete i, _, by simp [State.act, hw, hstage, hm]; rfl, by simp⟩
  | completed ret =>
    rw [Work.unfinished, hstage] at hopen
    cases hopen

/-- Until the caller has returned there is a thread that can take a step, and a caller that sleeps
is not needed for that before it is signalled. -/
theorem exec_progress {actions : List Action} (h : (init jobs).exec actions = some (.ok s))
    (hm : s.master ≠ .returned) :
    ∃ a r, s.act a = some r ∧ (a = .wake → s.master = .sleeping true) := by
  obtain ⟨s₁, hs, hI⟩ := (init_inv jobs).exec h
  obtain rfl := Except.ok.inj hs
  cases hmaster : s.master with
  | enqueue jobs' =>
    rcases jobs' with _ | ⟨job, jobs'⟩ <;>
      exact ⟨.master, _, by simp [State.act, State.masterStep, hmaster]; rfl, by simp⟩
  | dispatch left jobs' =>
    rcases left with _ | ⟨task, left⟩ <;>
      exact ⟨.master, _, by simp [State.act, State.masterStep, hmaster]; rfl, by simp⟩
  | inline i left jobs' =>
    obtain ⟨w, hw⟩ : ∃ w, s.works[i]? = some w :=
      ⟨_, List.getElem?_eq_getElem (hI.inline i left jobs' hmaster)⟩
    by_cases hopen : w.unfinished = true
    · obtain ⟨a, r, ha, hne⟩ := exists_act hw hopen (by simp [hmaster])
      exact ⟨a, r, ha, fun h => absurd h hne⟩
    · obtain ⟨ret, hret⟩ := Work.completed_of_not_unfinished hopen
      obtain ⟨task, stage⟩ := w
      subst hret
      exact ⟨.master, _, by simp [State.act, State.masterStep, hmaster, hw]; rfl, by simp⟩
  | locked => exact ⟨.master, _, by simp [State.act, State.masterStep, hmaster]; rfl, by simp⟩
  | sleeping signalled =>
    rcases signalled with _ | _
    · have hpending := hI.pendingOps
      have hne := hI.asleep hmaster
      have hcount : 0 < s.works.countP Work.unfinished := by
        simp [hmaster, Master.left] at hpending
        omega
      obtain ⟨w, hw, hopen⟩ := List.countP_pos_iff.1 hcount
      obtain ⟨i, hi⟩ := List.mem_iff_getElem?.1 hw
      obtain ⟨a, r, ha, hne⟩ := exists_act hi hopen (by simp [hmaster])
      exact ⟨a, r, ha, fun h => absurd h hne⟩
    · exact ⟨.wake, _, by simp [State.act, hmaster]; rfl, fun _ => rfl⟩
  | returned => exact absurd hmaster hm

end Progress

end State

section Termination

/-- How many steps a task takes until it is completed. -/
def Stage.stepsLeft : Stage → ℕ
  | .queued => 3
  | .operated _ => 2
  | .calledBack _ => 1
  | .completed _ => 0

/-- The steps for calls that are still to be made, with those of their tasks. -/
def enqueueSteps (jobs : List Job) : ℕ := (jobs.map fun job => 5 * job.tasks.length + 2).sum + 2

/-- The steps for what the caller still has to do before it sleeps or returns. -/
def Master.stepsLeft : Master → ℕ
  | .enqueue jobs => enqueueSteps jobs
  | .dispatch left jobs => 5 * left.length + 1 + enqueueSteps jobs
  | .inline _ left jobs => 5 * left.length + 2 + enqueueSteps jobs
  | .locked => 1
  | .sleeping _ | .returned => 0

theorem Master.stepsLeft_signal (m : Master) : m.signal.stepsLeft = m.stepsLeft := by
  cases m <;> rfl

namespace State

variable {s s' : State} {a : Action} {jobs : List Job} {actions : List Action}

def stepsLeft (s : State) : ℕ :=
  (s.works.map fun w => w.stage.stepsLeft).sum + s.master.stepsLeft

theorem stepsLeft_setStage {i : ℕ} {w : Work} {stage : Stage} (hw : s.works[i]? = some w)
    (hstage : stage.stepsLeft + 1 = w.stage.stepsLeft) :
    (s.setStage i w stage).stepsLeft + 1 = s.stepsLeft := by
  unfold setStage stepsLeft
  dsimp only
  generalize s.works = works at hw
  induction works generalizing i with
  | nil => cases hw
  | cons v works ih =>
    rcases i with _ | i
    · obtain rfl := Option.some.inj hw
      simp
      omega
    · have := ih hw
      rw [List.set_cons_succ, List.map_cons, List.map_cons, List.sum_cons, List.sum_cons]
      omega

theorem masterStep_stepsLeft (h : s.masterStep = some s') : s'.stepsLeft + 1 ≤ s.stepsLeft := by
  unfold masterStep at h
  unfold stepsLeft
  split at h
  · rename_i job jobs hm
    obtain rfl := Option.some.inj h
    simp only [hm, Master.stepsLeft, enqueueSteps, List.map_cons, List.sum_cons]
    omega
  · rename_i hm
    obtain rfl := Option.some.inj h
    simp [hm, Master.stepsLeft, enqueueSteps]
  · rename_i task left jobs hm
    obtain rfl := Option.some.inj h
    simp only [hm, List.map_append, List.sum_append]
    split_ifs <;> simp [Master.stepsLeft, Stage.stepsLeft] <;> omega
  · rename_i jobs hm
    obtain rfl := Option.some.inj h
    simp only [hm, Master.stepsLeft]
    omega
  · rename_i i left jobs hm
    split at h
    · obtain rfl := Option.some.inj h
      simp only [hm, Master.stepsLeft]
      omega
    · cases h
  · rename_i hm
    obtain rfl := Option.some.inj h
    simp only [hm]
    split_ifs <;> simp [Master.stepsLeft]
  · cases h
  · cases h

/-- All steps but a wake-up bring the request closer to its end. -/
theorem act_stepsLeft (h : s.act a = some (.ok s')) :
    s'.stepsLeft + 1 ≤ s.stepsLeft + if a = .wake then 2 else 0 := by
  unfold act at h
  split at h
  · obtain ⟨s₁, hs, heq⟩ := Option.map_eq_some_iff.1 h
    obtain rfl := Except.ok.inj heq
    exact masterStep_stepsLeft hs
  · split at h
    · rename_i hm
      obtain rfl := Except.ok.inj (Option.some.inj h)
      simp [stepsLeft, hm, Master.stepsLeft]
    · cases h
  · split at h
    · rename_i i ret _ w hw
      split_ifs at h with hstage
      obtain rfl := Except.ok.inj (Option.some.inj h)
      exact Nat.le_of_eq (stepsLeft_setStage hw (hstage ▸ rfl))
    · cases h
  · split at h
    · rename_i i _ w hw
      split at h
      · rename_i ret hstage
        obtain rfl := Except.ok.inj (Option.some.inj h)
        exact Nat.le_of_eq (stepsLeft_setStage hw (hstage ▸ rfl))
      · cases h
    · cases h
  · split at h
    · rename_i i _ w hw
      split at h
      · rename_i ret hstage
        split_ifs at h
        have hset := @stepsLeft_setStage s i w (.completed ret) hw (hstage ▸ rfl)
        obtain ⟨-, -, heq⟩ := Outcome.bind_eq_ok.1 (Option.some.inj h)
        obtain rfl := Except.ok.inj heq
        refine Nat.le_of_eq (Eq.trans ?_ hset)
        unfold stepsLeft
        dsimp only
        split_ifs
        · rw [Master.stepsLeft_signal]
          rfl
        · rfl
      · cases h
    · cases h

theorem exec_stepsLeft (h : s.exec actions = some (.ok s')) :
    s'.stepsLeft + actions.length ≤ s.stepsLeft + 2 * actions.count .wake := by
  induction actions generalizing s with
  | nil =>
    obtain rfl := Except.ok.inj (Option.some.inj h)
    simp
  | cons a actions ih =>
    rw [State.exec] at h
    split at h
    · cases h
    · cases h
    · rename_i s₁ ha
      have hstep := act_stepsLeft ha
      have hrun := ih h
      rw [List.count_cons, List.length_cons]
      split_ifs at hstep with hw <;> simp [hw] <;> omega

/-- The number of steps of a run is bounded, but for wake-ups; and until the caller has returned,
there is a thread that can take a step, which is no wake-up unless the caller has been signalled. -/
theorem exec_terminates (h : (init jobs).exec actions = some (.ok s)) :
    actions.length ≤ enqueueSteps jobs + 2 * actions.count .wake
      ∧ (s.master ≠ .returned →
        ∃ a r, s.act a = some r ∧ (a = .wake → s.master = .sleeping true)) := by
  refine ⟨?_, exec_progress h⟩
  have hrun := exec_stepsLeft h
  have hinit : (init jobs).stepsLeft = enqueueSteps jobs := Nat.zero_add _
  omega

theorem exec_terminates_sleeping : ∃ s,
    (init [.write 0, .read [0, 2]]).exec (mixedActions.take 18) = some (.ok s)
      ∧ s.master = .sleeping false ∧ ∃ a r, s.act a = some r ∧ a ≠ .wake := by
  have hrun : ∃ s, (init [.write 0, .read [0, 2]]).exec (mixedActions.take 18) = some (.ok s)
      ∧ s.master = .sleeping false := ⟨_, rfl, rfl⟩
  obtain ⟨s, hexec, hm⟩ := hrun
  obtain ⟨a, r, ha, hw⟩ := (exec_terminates hexec).2 (by simp [hm])
  exact ⟨s, hexec, hm, a, r, ha, fun h => by simp [hm] at hw; exact hw h⟩

end State

end Termination

end Esdm.Request
