import Esdm.ReadTasks
import Esdm.Proofs.Table
import Esdm.Proofs.Fragment

/-!
# Reads report what the backends return

The callback that copies a fragment's data into the user's buffer drops the status of the copy, so
only what the operations return reaches the caller.  A read that succeeds has transferred all data
exactly if there is a converter for the element type of each fragment
(`readScheduled_reported_iff`).
-/

namespace Esdm

variable {V : Type} {env : Env V} {space : Dataspace}

theorem copyData_status {source dest : Mem V} {sourceSpace : Dataspace} {status : Status}
    {dest' : Mem V}
    (h : copyData env.cast sourceSpace source space dest = .ok (status, dest')) :
    status = if converterForTypes env.cast space.type sourceSpace.type = none then .error
      else .success := by
  unfold copyData at h
  obtain ⟨_, -, h⟩ := Outcome.bind_eq_ok.1 h
  rcases hc : converterForTypes env.cast space.type sourceSpace.type with _ | convert
  · rw [hc] at h
    exact (Prod.mk.inj (Except.ok.inj h)).1.symm
  · rw [hc] at h
    obtain ⟨i, -, h⟩ := Outcome.bind_eq_ok.1 h
    rcases i with _ | i
    · cases h
    · obtain ⟨_, -, h⟩ := Outcome.bind_eq_ok.1 h
      exact (Prod.mk.inj (Except.ok.inj h)).1.symm

theorem ReadStage.eq_completed : ∀ {stage : ReadStage}, stage.isCompleted = true →
    ∃ ret copied, stage = .completed ret copied
  | .completed ret copied, _ => ⟨ret, copied, rfl⟩

namespace ReadState

variable {s s' : ReadState V} {i r : ℕ} {left : List ℕ} {task : ReadTask} {ret : Status}

section Steps

theorem enqueue_eq_ok (h : s.enqueue space r left = .ok s') : ∃ direct f f',
    s.ds.fragment r = .ok f ∧ Dataset.tryDirectIo f space = .ok (direct, f')
      ∧ s' = { s with
        ds := s.ds.setFragment r f'
        left := left
        tasks := s.tasks ++ [⟨r, direct, .queued⟩] } := by
  obtain ⟨f, hf, h⟩ := Outcome.bind_eq_ok.1 h
  obtain ⟨⟨direct, f'⟩, hd, h⟩ := Outcome.bind_eq_ok.1 h
  obtain ⟨_, -, h⟩ := Outcome.bind_eq_ok.1 h
  exact ⟨direct, f, f', hf, hd, (Except.ok.inj h).symm⟩

theorem load_eq_ok (h : s.load env i task = .ok s') : ∃ ret f f' user,
    s.ds.fragment task.fragment = .ok f ∧ f.load env s.user = .ok (ret, f', user)
      ∧ s' = { s.setStage i task (.loaded ret) with
        ds := s.ds.setFragment task.fragment f'
        user := user } := by
  obtain ⟨f, hf, h⟩ := Outcome.bind_eq_ok.1 h
  obtain ⟨⟨ret, f', user⟩, hl, h⟩ := Outcome.bind_eq_ok.1 h
  exact ⟨ret, f, f', user, hf, hl, (Except.ok.inj h).symm⟩

theorem callback_eq_ok (h : s.callback env space i task ret = .ok s') :
    (ret ≠ .success ∧ s' = s.setStage i task (.calledBack ret none))
    ∨ (ret = .success ∧ ∃ f, s.ds.fragment task.fragment = .ok f
      ∧ ((task.direct = true ∧ ∃ st f', f.unload env s.user = .ok (st, f')
          ∧ s' = { s.setStage i task (.calledBack ret none) with
            ds := s.ds.setFragment task.fragment f' })
        ∨ (task.direct = false ∧ ∃ copied data user, f.view env s.user = some data
          ∧ copyData env.cast f.dataspace data space s.user = .ok (copied, user)
          ∧ s' = { s.setStage i task (.calledBack ret (some copied)) with user := user }))) := by
  unfold callback at h
  by_cases hr : ret ≠ .success
  · rw [if_pos hr] at h
    exact .inl ⟨hr, (Except.ok.inj h).symm⟩
  rw [if_neg hr] at h
  obtain ⟨f, hf, h⟩ := Outcome.bind_eq_ok.1 h
  refine .inr ⟨not_not.1 hr, f, hf, ?_⟩
  rcases hd : task.direct with _ | _
  · rw [hd, if_neg (by simp)] at h
    obtain ⟨data, hv, h⟩ := Outcome.bind_eq_ok.1 h
    obtain ⟨⟨copied, user⟩, hc, h⟩ := Outcome.bind_eq_ok.1 h
    exact .inr ⟨rfl, copied, data, user, access_eq_ok.1 hv, hc, (Except.ok.inj h).symm⟩
  · rw [hd, if_pos rfl] at h
    obtain ⟨⟨st, f'⟩, hu, h⟩ := Outcome.bind_eq_ok.1 h
    exact .inl ⟨rfl, st, f', hu, (Except.ok.inj h).symm⟩

/-- What one step does. -/
theorem act_cases {a : ReadAction} (h : s.act env space a = some (.ok s')) :
    (∃ r left, s.left = r :: left ∧ s.enqueue space r left = .ok s')
    ∨ (∃ i task, s.tasks[i]? = some task ∧ task.stage = .queued ∧ s.load env i task = .ok s')
    ∨ (∃ i task ret, s.tasks[i]? = some task ∧ task.stage = .loaded ret
      ∧ s.callback env space i task ret = .ok s')
    ∨ (∃ i task ret copied, s.tasks[i]? = some task ∧ task.stage = .calledBack ret copied
      ∧ s' = s.complete i task ret copied) := by
  cases a with
  | enqueue =>
    rw [act] at h
    rcases hl : s.left with _ | ⟨r, left⟩
    · simp [hl] at h
    · rw [hl] at h
      exact .inl ⟨r, left, rfl, Option.some.inj h⟩
  | load i =>
    rw [act] at h
    rcases ht : s.tasks[i]? with _ | task
    · simp [ht] at h
    · rw [ht] at h
      dsimp only at h
      split_ifs at h with hq
      exact .inr (.inl ⟨i, task, ht, hq, Option.some.inj h⟩)
  | callback i =>
    rw [act] at h
    rcases ht : s.tasks[i]? with _ | task
    · simp [ht] at h
    · rw [ht] at h
      dsimp only at h
      split at h
      · rename_i ret hst
        exact .inr (.inr (.inl ⟨i, task, ret, ht, hst, Option.some.inj h⟩))
      · cases h
  | complete i =>
    rw [act] at h
    rcases ht : s.tasks[i]? with _ | task
    · simp [ht] at h
    · rw [ht] at h
      dsimp only at h
      split at h
      · rename_i ret copied hst
        exact .inr (.inr (.inr ⟨i, task, ret, copied, ht, hst,
          (Except.ok.inj (Option.some.inj h)).symm⟩))
      · cases h

theorem exec_cons {a : ReadAction} {actions : List ReadAction}
    (h : s.act env space a = some (.ok s')) :
    s.exec env space (a :: actions) = s'.exec env space actions := by
  rw [exec, h]

end Steps

section Invariant

variable {ds₀ : Dataset V} {fragments : List ℕ}

/-- What the copy of a fragment's data returns. -/
def copyStatus (env : Env V) (space : Dataspace) (f : Fragment V) : Status :=
  if converterForTypes env.cast space.type f.dataspace.type = none then .error else .success

/-- A task of the fragment: one that is direct has the type of the memspace, and the callback copies
after an operation that succeeded. -/
structure TaskOf (env : Env V) (space : Dataspace) (f : Fragment V) (task : ReadTask) : Prop where
  direct : task.direct = true → f.dataspace.type = space.type
  copied : ∀ ret copied,
    task.stage = .calledBack ret copied ∨ task.stage = .completed ret copied →
    copied = if ret = .success ∧ task.direct = false then some (copyStatus env space f) else none

/-- What holds of a read at any time. -/
structure Reading (env : Env V) (space : Dataspace) (ds₀ : Dataset V) (fragments : List ℕ)
    (s : ReadState V) : Prop where
  fragments : s.tasks.map ReadTask.fragment ++ s.left = fragments
  types : ∀ r f, s.ds.fragment r = .ok f → ∃ f₀, ds₀.fragment r = .ok f₀
    ∧ f.dataspace.type = f₀.dataspace.type
  tasks : ∀ task ∈ s.tasks, ∃ f, ds₀.fragment task.fragment = .ok f ∧ TaskOf env space f task
  failed : ∀ task ∈ s.tasks, ∀ ret copied, task.stage = .completed ret copied → ret ≠ .success →
    s.returnCode ≠ .success

theorem reading_init (ds : Dataset V) (user : Mem V) :
    Reading env space ds fragments ⟨ds, user, .success, fragments, []⟩ :=
  ⟨rfl, fun _ f hf => ⟨f, hf, rfl⟩, by simp, by simp⟩

namespace Reading

variable (h : Reading env space ds₀ fragments s)

include h

/-- Operations on fragments keep their types. -/
theorem types_setFragment {f f' : Fragment V} (hf : s.ds.fragment r = .ok f) (hk : f.Keeps f') :
    ∀ k g, (s.ds.setFragment r f').fragment k = .ok g → ∃ f₀, ds₀.fragment k = .ok f₀
      ∧ g.dataspace.type = f₀.dataspace.type := by
  intro k g hg
  obtain ⟨hg, hfr⟩ := Dataset.fragment_eq_ok.1 hg
  rw [Dataset.setFragment, List.getElem?_set] at hg
  by_cases hrk : r = k
  · subst hrk
    rw [if_pos rfl] at hg
    split_ifs at hg
    obtain rfl := Option.some.inj hg
    obtain ⟨f₀, hf₀, ht⟩ := h.types r f hf
    exact ⟨f₀, hf₀, hk.type.trans ht⟩
  · rw [if_neg hrk] at hg
    exact h.types k g (Dataset.fragment_eq_ok.2 ⟨hg, hfr⟩)

/-- A task goes on to a stage in which the invariant holds for it. -/
theorem setStage (ht : s.tasks[i]? = some task) {stage : ReadStage}
    (hs : ∀ f, TaskOf env space f task → ds₀.fragment task.fragment = .ok f →
      TaskOf env space f { task with stage := stage })
    (hf : ∀ ret copied, stage = .completed ret copied → ret ≠ .success → s.returnCode ≠ .success) :
    Reading env space ds₀ fragments (s.setStage i task stage) := by
  have hmem : ∀ {t : ReadTask}, t ∈ s.tasks.set i { task with stage := stage } →
      t = { task with stage := stage } ∨ t ∈ s.tasks := fun hm =>
    (List.mem_or_eq_of_mem_set hm).symm
  refine ⟨?_, h.types, ?_, ?_⟩
  · rw [← h.fragments, ReadState.setStage, List.map_set]
    have hget : (s.tasks.map ReadTask.fragment)[i]? = some task.fragment := by simp [ht]
    obtain ⟨hi, hself⟩ := List.getElem?_eq_some_iff.1 hget
    rw [← hself, List.set_getElem_self hi]
  · intro t hm
    rcases hmem hm with rfl | hm
    · obtain ⟨f, hf, hof⟩ := h.tasks task (List.mem_of_getElem? ht)
      exact ⟨f, hf, hs f hof hf⟩
    · exact h.tasks t hm
  · intro t hm ret copied hst
    rcases hmem hm with rfl | hm
    · exact hf ret copied hst
    · exact h.failed t hm ret copied hst

theorem enqueue (hl : s.left = r :: left) (he : s.enqueue space r left = .ok s') :
    Reading env space ds₀ fragments s' := by
  obtain ⟨direct, f, f', hf, hd, rfl⟩ := enqueue_eq_ok he
  refine ⟨?_, h.types_setFragment hf (Dataset.tryDirectIo_keeps hd), ?_, ?_⟩
  · rw [← h.fragments, hl]
    simp
  · intro t hm
    rcases List.mem_append.1 hm with hm | hm
    · exact h.tasks t hm
    · obtain rfl := List.mem_singleton.1 hm
      obtain ⟨f₀, hf₀, ht⟩ := h.types r f hf
      refine ⟨f₀, hf₀, fun hdir => ?_, by simp⟩
      obtain ⟨rfl, -⟩ | ⟨-, -, htype, -⟩ := Dataset.tryDirectIo_eq_ok hd
      · cases hdir
      · exact ht.symm.trans htype
  · intro t hm ret copied hst
    rcases List.mem_append.1 hm with hm | hm
    · exact h.failed t hm ret copied hst
    · obtain rfl := List.mem_singleton.1 hm
      cases hst

theorem load (ht : s.tasks[i]? = some task) (hl : s.load env i task = .ok s') :
    Reading env space ds₀ fragments s' := by
  obtain ⟨ret, f, f', user, hf, hload, rfl⟩ := load_eq_ok hl
  have hset : Reading env space ds₀ fragments (s.setStage i task (.loaded ret)) :=
    h.setStage ht (fun f hof _ => ⟨hof.direct, by simp⟩) (by simp)
  exact ⟨hset.fragments, h.types_setFragment hf (Fragment.load_keeps hload), hset.tasks,
    hset.failed⟩

theorem callback (ht : s.tasks[i]? = some task) (hc : s.callback env space i task ret = .ok s') :
    Reading env space ds₀ fragments s' := by
  have hset : ∀ copied : Option Status, (∀ f, TaskOf env space f task →
      ds₀.fragment task.fragment = .ok f → copied = if ret = .success ∧ task.direct = false then
        some (copyStatus env space f) else none) →
      Reading env space ds₀ fragments (s.setStage i task (.calledBack ret copied)) :=
    fun copied hcop => h.setStage ht (fun f hof hf => ⟨hof.direct, by
      rintro ret' copied' (hst | hst)
      · obtain ⟨rfl, rfl⟩ := ReadStage.calledBack.inj hst
        exact hcop f hof hf
      · cases hst⟩) (by simp)
  obtain ⟨hr, rfl⟩ | ⟨rfl, f, hf, ⟨hd, _, f', hu, rfl⟩ | ⟨hd, copied, data, user, -, hcopy, rfl⟩⟩ :=
    callback_eq_ok hc
  · exact hset none fun f _ _ => by simp [hr]
  · have := hset none fun f _ _ => by simp [hd]
    exact ⟨this.fragments, h.types_setFragment hf (Fragment.unload_keeps hu), this.tasks,
      this.failed⟩
  · have := hset (some copied) fun f₀ _ hf₀ => by
      obtain ⟨f₁, hf₁, htype⟩ := h.types _ f hf
      obtain rfl := Except.ok.inj (hf₀.symm.trans hf₁)
      have hst : copied = copyStatus env space f₀ := by
        rw [copyData_status hcopy, copyStatus, htype]
      simp [hst, hd]
    exact ⟨this.fragments, this.types, this.tasks, this.failed⟩

theorem complete {copied : Option Status} (ht : s.tasks[i]? = some task)
    (hst : task.stage = .calledBack ret copied) :
    Reading env space ds₀ fragments (s.complete i task ret copied) := by
  generalize hcode : (if ret = .success then s.returnCode else ret) = code
  have hkeep : s.returnCode ≠ .success → code ≠ .success := by
    rw [← hcode]
    split_ifs with hr
    · exact id
    · exact fun _ => hr
  have hraised : Reading env space ds₀ fragments { s with returnCode := code } :=
    ⟨h.fragments, h.types, h.tasks, fun t hm ret copied hst hr =>
      hkeep (h.failed t hm ret copied hst hr)⟩
  have heq : s.complete i task ret copied
      = ReadState.setStage { s with returnCode := code } i task (.completed ret copied) := by
    rw [ReadState.complete, hcode]
    rfl
  rw [heq]
  refine hraised.setStage ht (fun f hof _ => ⟨hof.direct, ?_⟩) ?_
  · rintro ret' copied' (hst' | hst')
    · cases hst'
    · obtain ⟨rfl, rfl⟩ := ReadStage.completed.inj hst'
      exact hof.copied ret copied (.inl hst)
  · intro ret' copied' hst' hne
    obtain ⟨rfl, rfl⟩ := ReadStage.completed.inj hst'
    rwa [← hcode, if_neg hne]

theorem act {a : ReadAction} (ha : s.act env space a = some (.ok s')) :
    Reading env space ds₀ fragments s' := by
  obtain ⟨r, left, hl, he⟩ | ⟨i, task, ht, -, hl⟩ | ⟨i, task, ret, ht, -, hc⟩
    | ⟨i, task, ret, copied, ht, hst, rfl⟩ := act_cases ha
  · exact h.enqueue hl he
  · exact h.load ht hl
  · exact h.callback ht hc
  · exact h.complete ht hst

theorem exec {actions : List ReadAction} (he : s.exec env space actions = some (.ok s')) :
    Reading env space ds₀ fragments s' := by
  induction actions generalizing s with
  | nil =>
    obtain rfl := Except.ok.inj (Option.some.inj he)
    exact h
  | cons a actions ih =>
    rw [ReadState.exec] at he
    split at he
    · cases he
    · cases Option.some.inj he
    · rename_i s₁ ha
      exact ih (h.act ha) he

end Reading

end Invariant

end ReadState

namespace Dataset

section Inline

variable {ds ds' : Dataset V} {user user' : Mem V} {f f' : Fragment V} {r : ℕ} {ret status : Status}

theorem setFragment_setFragment (ds : Dataset V) (r : ℕ) (f f' : Fragment V) :
    (ds.setFragment r f).setFragment r f' = ds.setFragment r f' := by simp [setFragment]

/-- The steps of a task that the caller runs itself. -/
def inlineSteps (i : ℕ) : List ReadAction := [.enqueue, .load i, .callback i, .complete i]

/-- A task that runs when it is enqueued is its steps in a row. -/
theorem readFragment_schedule (hf : ds.fragment r = .ok f)
    (h : readFragment env f user space = .ok (ret, f', user')) (left : List ℕ)
    (tasks : List ReadTask) (rest : List ReadAction) :
    ∃ task : ReadTask, task.stage.isCompleted = true
      ∧ ReadState.exec env space ⟨ds, user, status, r :: left, tasks⟩
          (inlineSteps tasks.length ++ rest)
        = ReadState.exec env space ⟨ds.setFragment r f', user',
          if ret = .success then status else ret, left, tasks ++ [task]⟩ rest := by
  unfold readFragment at h
  obtain ⟨⟨direct, f₁⟩, hd, h⟩ := Outcome.bind_eq_ok.1 h
  obtain ⟨backend, hb, h⟩ := Outcome.bind_eq_ok.1 h
  obtain ⟨⟨ret₁, f₂, user₂⟩, hl, h⟩ := Outcome.bind_eq_ok.1 h
  have hk₁ := tryDirectIo_keeps hd
  have hf₁ := fragment_setFragment_self hf hk₁.freed
  have hf₂ := fragment_setFragment_self hf (hk₁.trans (Fragment.load_keeps hl)).freed
  have h1 : ReadState.act env space ⟨ds, user, status, r :: left, tasks⟩ .enqueue
      = some (.ok ⟨ds.setFragment r f₁, user, status, left, tasks ++ [⟨r, direct, .queued⟩]⟩) := by
    simp [ReadState.act, ReadState.enqueue, hf, hd, hb]
  have h2 : ReadState.act env space
        ⟨ds.setFragment r f₁, user, status, left, tasks ++ [⟨r, direct, .queued⟩]⟩
          (.load tasks.length)
      = some (.ok ⟨ds.setFragment r f₂, user₂, status, left,
        tasks ++ [⟨r, direct, .loaded ret₁⟩]⟩) := by
    simp [ReadState.act, ReadState.load, ReadState.setStage, hf₁, hl, setFragment_setFragment]
  have h3 : ∃ copied, ReadState.act env space
        ⟨ds.setFragment r f₂, user₂, status, left, tasks ++ [⟨r, direct, .loaded ret₁⟩]⟩
        (.callback tasks.length)
      = some (.ok ⟨ds.setFragment r f', user', status, left,
        tasks ++ [⟨r, direct, .calledBack ret copied⟩]⟩) := by
    by_cases hr : ret₁ = .success
    · subst hr
      rcases direct with _ | _
      · obtain ⟨data, hv, h⟩ := Outcome.bind_eq_ok.1 h
        obtain ⟨⟨copied, user₃⟩, hc, h⟩ := Outcome.bind_eq_ok.1 h
        obtain ⟨rfl, rfl, rfl⟩ := Prod.mk.inj (Except.ok.inj h)
        refine ⟨some copied, ?_⟩
        simp [ReadState.act, ReadState.callback, ReadState.setStage, hf₂, hv, hc]
      · obtain ⟨⟨st, f₃⟩, hu, h⟩ := Outcome.bind_eq_ok.1 h
        obtain ⟨rfl, rfl, rfl⟩ := Prod.mk.inj (Except.ok.inj h)
        refine ⟨none, ?_⟩
        simp [ReadState.act, ReadState.callback, ReadState.setStage, hf₂, hu,
          setFragment_setFragment]
    · obtain ⟨rfl, rfl, rfl⟩ : ret₁ = ret ∧ f₂ = f' ∧ user₂ = user' := by
        split at h
        · rename_i heq
          exact absurd (Prod.mk.inj heq).1 hr
        · rename_i heq
          obtain ⟨rfl, rfl, rfl⟩ := Prod.mk.inj heq
          simpa using h
      refine ⟨none, ?_⟩
      simp [ReadState.act, ReadState.callback, ReadState.setStage, hr]
  obtain ⟨copied, h3⟩ := h3
  have h4 : ReadState.act env space ⟨ds.setFragment r f', user', status, left,
        tasks ++ [⟨r, direct, .calledBack ret copied⟩]⟩ (.complete tasks.length)
      = some (.ok ⟨ds.setFragment r f', user', if ret = .success then status else ret, left,
        tasks ++ [⟨r, direct, .completed ret copied⟩]⟩) := by
    simp [ReadState.act, ReadState.complete, ReadState.setStage]
  refine ⟨⟨r, direct, .completed ret copied⟩, rfl, ?_⟩
  rw [inlineSteps, List.cons_append, ReadState.exec_cons h1, List.cons_append,
    ReadState.exec_cons h2, List.cons_append, ReadState.exec_cons h3, List.cons_append,
    ReadState.exec_cons h4, List.nil_append]

/-- The schedule of a backend without threads. -/
def inlineSchedule : ℕ → ℕ → List ReadAction
  | _, 0 => []
  | i, n + 1 => inlineSteps i ++ inlineSchedule (i + 1) n

/-- Tasks that run when they are enqueued are one of the schedules. -/
theorem enqueueRead_schedule : ∀ {fragments : List ℕ} {status status' : Status} {user : Mem V}
    {ds : Dataset V} (tasks : List ReadTask),
    enqueueRead env space fragments status user ds = .ok (status', user', ds') →
    ∃ tasks' : List ReadTask, (∀ task ∈ tasks', task.stage.isCompleted = true)
      ∧ ReadState.exec env space ⟨ds, user, status, fragments, tasks⟩
          (inlineSchedule tasks.length fragments.length)
        = some (.ok ⟨ds', user', status', [], tasks ++ tasks'⟩)
  | [], _, _, _, _, tasks, h => by
    obtain ⟨rfl, rfl, rfl⟩ := Prod.mk.inj (Except.ok.inj h)
    exact ⟨[], by simp, by simp [inlineSchedule, ReadState.exec]⟩
  | r :: fragments, status, status', user, ds, tasks, h => by
    rw [enqueueRead] at h
    obtain ⟨f, hf, h⟩ := Outcome.bind_eq_ok.1 h
    obtain ⟨⟨ret, f', user₁⟩, hr, h⟩ := Outcome.bind_eq_ok.1 h
    obtain ⟨task, htask, hexec⟩ := readFragment_schedule hf hr fragments tasks
      (inlineSchedule (tasks.length + 1) fragments.length)
    obtain ⟨tasks', htasks, hrest⟩ := enqueueRead_schedule (tasks ++ [task]) h
    refine ⟨task :: tasks', List.forall_mem_cons.2 ⟨htask, htasks⟩, ?_⟩
    rw [List.length_append, List.length_singleton, List.append_assoc,
      List.singleton_append] at hrest
    rw [List.length_cons, inlineSchedule, hexec, hrest]

/-- A read of backends without threads is one of the schedules. -/
theorem readBlocking_schedule {allowWriteback : Bool}
    (h : ds.readBlocking env user space allowWriteback = .ok (ret, user', ds')) :
    ∃ schedule tasks, ds.readScheduled env user space schedule
      = some (.ok (ret, user', tasks)) := by
  unfold readBlocking at h
  obtain ⟨covering, hc, h⟩ := Outcome.bind_eq_ok.1 h
  obtain ⟨⟨status, user₁⟩, hfill, h⟩ := Outcome.bind_eq_ok.1 h
  unfold readScheduled
  rw [hc]
  dsimp only
  rw [hfill]
  split at h
  · rename_i heq
    obtain ⟨rfl, rfl⟩ := Prod.mk.inj heq
    obtain ⟨⟨ret₁, user₂, ds₁⟩, he, h⟩ := Outcome.bind_eq_ok.1 h
    obtain ⟨tasks, htasks, hexec⟩ := enqueueRead_schedule [] he
    obtain ⟨bytes, -, h⟩ := Outcome.bind_eq_ok.1 h
    have hres : ret₁ = ret ∧ user₂ = user' := by
      dsimp only at h
      split_ifs at h
      · obtain ⟨_, -, h⟩ := Outcome.bind_eq_ok.1 h
        obtain ⟨rfl, rfl, -⟩ := Prod.mk.inj (Except.ok.inj h)
        exact ⟨rfl, rfl⟩
      · obtain ⟨rfl, rfl, -⟩ := Prod.mk.inj (Except.ok.inj h)
        exact ⟨rfl, rfl⟩
    obtain ⟨rfl, rfl⟩ := hres
    refine ⟨inlineSchedule 0 covering.fragments.length, tasks, ?_⟩
    dsimp only
    rw [show ReadState.exec env space ⟨ds, user₁, .success, covering.fragments, []⟩
      (inlineSchedule 0 covering.fragments.length) = _ from hexec]
    exact if_pos ⟨rfl, htasks⟩
  · rename_i hne heq
    obtain ⟨rfl, rfl⟩ := Prod.mk.inj heq
    obtain ⟨rfl, rfl, -⟩ := Prod.mk.inj (Except.ok.inj h)
    refine ⟨[], [], ?_⟩
    split
    · rename_i heq
      cases heq
    · rename_i heq
      exact (hne (Prod.mk.inj (Except.ok.inj heq)).1).elim
    · rename_i heq
      obtain ⟨rfl, rfl⟩ := Prod.mk.inj (Except.ok.inj heq)
      rfl

end Inline

end Dataset

/-- The operation has succeeded, and so has the copy, if there was one. -/
def ReadTask.Transferred (task : ReadTask) : Prop :=
  ∃ copied, task.stage = .completed .success copied ∧ (copied = none ∨ copied = some .success)

namespace Dataset

variable {ds : Dataset V} {user user' : Mem V} {schedule : List ReadAction} {ret : Status}
  {tasks : List ReadTask}

/-- A read that succeeds has transferred the data of all fragments that it involves. -/
def Reported (env : Env V) (ds : Dataset V) (space : Dataspace) (ret : Status)
    (tasks : List ReadTask) : Prop :=
  ret = .success → ∃ covering, ds.fragmentsCoveringRegion env space.getExtends = .ok covering
    ∧ tasks.map ReadTask.fragment = covering.fragments ∧ ∀ task ∈ tasks, task.Transferred

/-- The element types of the fragments that the read involves can be converted into that of the
memspace. -/
def Convertible (env : Env V) (ds : Dataset V) (space : Dataspace) : Prop :=
  ∀ covering, ds.fragmentsCoveringRegion env space.getExtends = .ok covering →
    ∀ r ∈ covering.fragments, ∀ f, ds.fragment r = .ok f →
      converterForTypes env.cast space.type f.dataspace.type ≠ none

/-- What a read that has succeeded was. -/
theorem readScheduled_success
    (h : ds.readScheduled env user space schedule = some (.ok (.success, user', tasks))) :
    ∃ covering s, ds.fragmentsCoveringRegion env space.getExtends = .ok covering
      ∧ ReadState.Reading env space ds covering.fragments s ∧ s.finished
      ∧ s.returnCode = .success ∧ s.tasks = tasks := by
  unfold readScheduled at h
  split at h
  · cases Option.some.inj h
  rename_i covering hc
  refine ⟨covering, ?_⟩
  split at h
  · cases Option.some.inj h
  · split at h
    · rename_i s he
      split_ifs at h with hfin
      obtain ⟨hret, -, rfl⟩ : s.returnCode = .success ∧ s.user = user' ∧ s.tasks = tasks := by
        simpa using h
      exact ⟨s, hc, (ReadState.reading_init ds _).exec he, hfin, hret, rfl⟩
    · cases Option.some.inj h
    · cases h
  · rename_i hne _
    obtain ⟨rfl, -⟩ := Prod.mk.inj (Except.ok.inj (Option.some.inj h))
    exact (hne rfl).elim

theorem readScheduled_reported_iff
    (h : ds.readScheduled env user space schedule = some (.ok (ret, user', tasks))) :
    Reported env ds space ret tasks ↔ (ret = .success → Convertible env ds space) := by
  refine forall_congr' fun hret => ?_
  subst hret
  obtain ⟨covering, s, hc, hr, ⟨hleft, hdone⟩, hcode, rfl⟩ := readScheduled_success h
  have hfrag : s.tasks.map ReadTask.fragment = covering.fragments := by
    rw [← hr.fragments, hleft, List.append_nil]
  constructor
  · rintro ⟨-, -, -, hall⟩ covering' hc' r hm f hf
    obtain rfl := Except.ok.inj (hc.symm.trans hc')
    rw [← hfrag] at hm
    obtain ⟨task, htask, rfl⟩ := List.mem_map.1 hm
    obtain ⟨f₀, hf₀, hof⟩ := hr.tasks task htask
    obtain rfl := Except.ok.inj (hf.symm.trans hf₀)
    obtain ⟨copied, hst, hcop⟩ := hall task htask
    have heq := hof.copied _ _ (.inr hst)
    rcases hd : task.direct with _ | _
    · rw [if_pos ⟨rfl, hd⟩, ReadState.copyStatus] at heq
      split_ifs at heq with hn
      · rw [heq] at hcop
        simp at hcop
      · exact hn
    · simp [converterForTypes, hof.direct hd]
  · intro hconv
    refine ⟨covering, hc, hfrag, fun task htask => ?_⟩
    obtain ⟨f, hf, hof⟩ := hr.tasks task htask
    obtain ⟨ret, copied, hst⟩ := ReadStage.eq_completed (hdone task htask)
    have hret : ret = .success := by
      by_contra hne
      exact hr.failed task htask ret copied hst hne hcode
    subst hret
    refine ⟨copied, hst, ?_⟩
    have hconv := hconv covering hc task.fragment (hfrag ▸ List.mem_map_of_mem htask) f hf
    rw [hof.copied _ _ (.inr hst), ReadState.copyStatus, if_neg hconv]
    split_ifs <;> simp

/-- One element of a type. -/
def oneElement (type : ElemType) : Dataspace := ⟨type, [⟨0, 1⟩], none, by simp⟩

/-- The element is written, and then read as an element of a type. -/
def WriteThenRead (type : ElemType) (ds : Dataset ℕ) (ret : Status) (tasks : List ReadTask) :
    Prop :=
  (init (oneElement (.derived 0 8)) none).writeBlocking (Env.calm 0) (fun _ => 7)
      (oneElement (.derived 0 8)) = .ok (.success, ds)
    ∧ ∃ user, ds.readScheduled (Env.calm 0) (fun _ => 0) (oneElement type) (inlineSchedule 0 1)
      = some (.ok (ret, user, tasks))

theorem writeThenRead_one : ∃ ds tasks, WriteThenRead (.derived 0 8) ds .success tasks
    ∧ ∀ f ∈ ds.fragments, f.dataspace.type = .derived 0 8 := by
  refine ⟨_, _, ⟨rfl, _, rfl⟩, fun f hf => ?_⟩
  obtain rfl := List.mem_singleton.1 hf
  rfl

theorem readScheduled_reported_one : ∃ ds tasks, WriteThenRead (.derived 0 8) ds .success tasks
    ∧ Reported (Env.calm 0) ds (oneElement (.derived 0 8)) .success tasks := by
  obtain ⟨ds, tasks, ⟨hwrite, user, hread⟩, htype⟩ := writeThenRead_one
  refine ⟨ds, tasks, ⟨hwrite, user, hread⟩, (readScheduled_reported_iff hread).2 fun _ => ?_⟩
  intro covering _ r _ f hf
  simp [converterForTypes, oneElement, htype f (List.mem_of_getElem? (fragment_eq_ok.1 hf).1)]

/-- Bytes of a derived type are read as integers: nothing is transferred, and the read succeeds. -/
theorem readScheduled_not_reported : ∃ ds tasks,
    WriteThenRead (.basic .int64) ds .success tasks
      ∧ ¬ Reported (Env.calm 0) ds (oneElement (.basic .int64)) .success tasks := by
  refine ⟨_, _, ⟨rfl, _, rfl⟩, fun h => ?_⟩
  obtain ⟨-, -, -, hall⟩ := h rfl
  obtain ⟨copied, hst, hc⟩ := hall _ List.mem_cons_self
  obtain ⟨-, rfl⟩ := ReadStage.completed.inj hst
  simp at hc

end Dataset

end Esdm
