import Esdm.Lib.Keyed
import Esdm.Proofs.Gathered
import Esdm.Proofs.ReadTasks

/-!
# Reads whose tasks are interleaved

The threads of the backends work on one read's tasks in any order, and each task puts the values of
its fragment into the user's buffer, where others do the same.  All of them put values of one array
there, so it does not matter whose turn it is (`readScheduled_delivers`).
-/

namespace Esdm

variable {V : Type} {A : List ℤ → Option V} {env : Env V} {space : Dataspace}

/-- The task has put its fragment's values into the user's buffer. -/
def ReadTask.painted (task : ReadTask) : Bool :=
  match task.stage with
  | .queued => false
  | .loaded _ => task.direct
  | _ => true

/-- How far a task is, and what has become of its fragment. -/
inductive ReadTask.Progress (A : List ℤ → Option V) (space : Dataspace) (r : ℕ) :
    Fragment V → ReadTask → Prop
  | waits {f : Fragment V} : f.Carries A space.type → Progress A space r f ⟨r, false, .queued⟩
  | aims {f : Fragment V} {i : ℤ} : f.Aimed A space i →
    Progress A space r { f with buf := some (.user i) } ⟨r, true, .queued⟩
  | loaded {f : Fragment V} : f.Loaded A space.type →
    Progress A space r f ⟨r, false, .loaded .success⟩
  | landed {f : Fragment V} {i : ℤ} : f.Aimed A space i →
    Progress A space r { f with buf := some (.user i), status := .persistent }
      ⟨r, true, .loaded .success⟩
  | calledBack {f : Fragment V} {direct : Bool} {copied : Option Status} :
    f.Carries A space.type → Progress A space r f ⟨r, direct, .calledBack .success copied⟩
  | completed {f : Fragment V} {direct : Bool} {copied : Option Status} :
    f.Carries A space.type → Progress A space r f ⟨r, direct, .completed .success copied⟩

namespace ReadState

variable {ds₀ : Dataset V} {user₀ : Mem V} {fragments : List ℕ} {s s' : ReadState V} {i r : ℕ}
  {task : ReadTask}

/-- The points of a region whose values the tasks have put into the user's buffer. -/
def paintedBy (ds₀ : Dataset V) (region : Hypercube) (tasks : List ReadTask) : Set (List ℤ) :=
  {p | ∃ task ∈ tasks, task.painted = true ∧ p ∈ ds₀.within region [task.fragment]}

/-- What holds of a read at any time: the tasks are under way with their fragments, and the buffer
has the values of those that have got so far. -/
structure Filling (A : List ℤ → Option V) (space : Dataspace) (ds₀ : Dataset V) (user₀ : Mem V)
    (fragments : List ℕ) (s : ReadState V) : Prop where
  fragments : s.tasks.map ReadTask.fragment ++ s.left = fragments
  returnCode : s.returnCode = .success
  table : s.ds.table = ds₀.table
  wf : Dataset.TableWf s.ds
  tasks : ∀ task ∈ s.tasks, ∃ f, s.ds.fragment task.fragment = .ok f
    ∧ task.Progress A space task.fragment f
  waiting : ∀ r ∈ s.left, ∃ f, s.ds.fragment r = .ok f ∧ f.Carries A space.type
  painted : Paints space.elementIndex A (paintedBy ds₀ space.getExtends s.tasks) user₀ s.user

theorem paintedBy_subset {region : Hypercube} {tasks : List ReadTask} :
    paintedBy ds₀ region tasks ⊆ Hypercube.points region := by
  rintro p ⟨_, _, _, hp⟩
  exact hp.1

/-- A task that has not painted anything. -/
theorem paints_nothing {region : Hypercube} (h : task.painted = false) (user : Mem V) :
    Paints space.elementIndex A {p | task.painted = true ∧ p ∈ ds₀.within region [task.fragment]}
      user user := by
  rw [h]
  refine ⟨fun p hp => ?_, fun _ _ => rfl⟩
  cases hp.1

/-- A task that has painted its part. -/
theorem paints_part {region : Hypercube} {user user' : Mem V} (hp : task.painted = true)
    (h : Paints space.elementIndex A (ds₀.within region [task.fragment]) user user') :
    Paints space.elementIndex A {p | task.painted = true ∧ p ∈ ds₀.within region [task.fragment]}
      user user' := by
  simpa [hp] using h

variable (hn : fragments.Nodup)
  (hinj : Set.InjOn space.elementIndex (Hypercube.points space.getExtends))

namespace Filling

variable (h : Filling A space ds₀ user₀ fragments s)

include h

/-- The task's fragment has a part of the region, and its values are to be put there. -/
theorem shape (hmeets : ∀ r ∈ fragments, ds₀.Meets space.getExtends r) (hr : r ∈ fragments)
    {f : Fragment V} (hf : s.ds.fragment r = .ok f) :
    f.dataspace.dims = space.dims ∧ (commonPoints f.dataspace space).Nonempty
      ∧ ds₀.within space.getExtends [r] = commonPoints f.dataspace space := by
  obtain ⟨s₀, he, hov⟩ := hmeets r hr
  obtain ⟨f', hf', rfl⟩ := h.wf.fragment_eq (h.table ▸ he)
  obtain rfl := Except.ok.inj (hf.symm.trans hf')
  refine ⟨Dataset.dims_of_common hov, hov, ?_⟩
  have htable : ds₀.within space.getExtends [r] = s.ds.within space.getExtends [r] := by
    rw [Dataset.within, Dataset.within, h.table]
  rw [htable, Dataset.within_cons h.wf (h.table ▸ he), Set.union_eq_left.2]
  · rfl
  · rintro p ⟨-, e, -, hm, -⟩
    cases hm

theorem task_mem (ht : s.tasks[i]? = some task) : task.fragment ∈ fragments := by
  rw [← h.fragments]
  exact List.mem_append_left _ (List.mem_map_of_mem (List.mem_of_getElem? ht))

include hn

theorem fragment_notMem_left (ht : s.tasks[i]? = some task) : task.fragment ∉ s.left := by
  rw [← h.fragments] at hn
  have hmem : task.fragment ∈ s.tasks.map ReadTask.fragment :=
    List.mem_map_of_mem (List.mem_of_getElem? ht)
  exact fun hl => List.disjoint_of_nodup_append hn hmem hl

theorem nodup : (s.tasks.map ReadTask.fragment).Nodup := by
  rw [← h.fragments] at hn
  exact List.Nodup.of_append_left hn

include hinj

/-- A task goes on to a stage, with its fragment and the user's buffer. -/
theorem advance (ht : s.tasks[i]? = some task) {stage : ReadStage} {f f' : Fragment V}
    {user' : Mem V} (hf : s.ds.fragment task.fragment = .ok f) (hk : f.Keeps f')
    (hp : ReadTask.Progress A space task.fragment f' { task with stage := stage })
    (hmono : task.painted = true → ({ task with stage := stage } : ReadTask).painted = true)
    (hpaints : Paints space.elementIndex A {p | ({ task with stage := stage } : ReadTask).painted
      = true ∧ p ∈ ds₀.within space.getExtends [task.fragment]} s.user user') :
    Filling A space ds₀ user₀ fragments { s.setStage i task stage with
      ds := s.ds.setFragment task.fragment f'
      user := user' } := by
  have hset := fun {t : ReadTask} =>
    @List.mem_set_iff_of_nodup_key _ _ ReadTask.fragment s.tasks i task
      { task with stage := stage } (h.nodup hn) ht t
  refine ⟨?_, h.returnCode, h.table, h.wf.setFragment hf hk, fun t hm => ?_, fun r hr => ?_, ?_⟩
  · rw [← h.fragments]
    exact congrArg (· ++ s.left) (List.map_set_of_key_eq ht rfl)
  · obtain rfl | ⟨hm, hne⟩ := hset.1 hm
    · exact ⟨f', Dataset.fragment_setFragment_self hf hk.freed, hp⟩
    · obtain ⟨g, hg, hprog⟩ := h.tasks t hm
      exact ⟨g, (Dataset.fragment_setFragment_of_ne (Ne.symm hne) f').trans hg, hprog⟩
  · obtain ⟨g, hg, hc⟩ := h.waiting r hr
    have hne : task.fragment ≠ r := fun heq => h.fragment_notMem_left hn ht (heq ▸ hr)
    exact ⟨g, (Dataset.fragment_setFragment_of_ne hne f').trans hg, hc⟩
  · have hunion : paintedBy ds₀ space.getExtends (s.tasks.set i { task with stage := stage })
        = paintedBy ds₀ space.getExtends s.tasks
          ∪ {p | ({ task with stage := stage } : ReadTask).painted = true
            ∧ p ∈ ds₀.within space.getExtends [task.fragment]} := by
      ext p
      constructor
      · rintro ⟨t, hm, hpt, hpp⟩
        obtain rfl | ⟨hm, -⟩ := hset.1 hm
        · exact .inr ⟨hpt, hpp⟩
        · exact .inl ⟨t, hm, hpt, hpp⟩
      · rintro (⟨t, hm, hpt, hpp⟩ | ⟨hpt, hpp⟩)
        · by_cases hkey : t.fragment = task.fragment
          · obtain rfl := List.eq_of_key_eq (h.nodup hn) ht hm hkey
            exact ⟨_, hset.2 (.inl rfl), hmono hpt, hpp⟩
          · exact ⟨t, hset.2 (.inr ⟨hm, hkey⟩), hpt, hpp⟩
        · exact ⟨_, hset.2 (.inl rfl), hpt, hpp⟩
    have hsub : {p | ({ task with stage := stage } : ReadTask).painted = true
        ∧ p ∈ ds₀.within space.getExtends [task.fragment]}
        ⊆ Hypercube.points space.getExtends := fun p hp => hp.2.1
    rw [setStage, hunion]
    exact h.painted.trans hpaints (hinj.mono (Set.union_subset paintedBy_subset hsub))

end Filling

theorem setFragment_self {ds : Dataset V} {f : Fragment V} (hf : ds.fragment r = .ok f) :
    ds.setFragment r f = ds := by
  obtain ⟨hget, -⟩ := Dataset.fragment_eq_ok.1 hf
  obtain ⟨hr, hself⟩ := List.getElem?_eq_some_iff.1 hget
  rw [Dataset.setFragment, ← hself, List.set_getElem_self hr]

namespace Filling

variable (h : Filling A space ds₀ user₀ fragments s)
  (hmeets : ∀ r ∈ fragments, ds₀.Meets space.getExtends r)

include hn h hmeets

/-- The caller hands out a task. -/
theorem enqueue {left : List ℕ} (hl : s.left = r :: left) :
    ∃ s', s.enqueue space r left = .ok s' ∧ Filling A space ds₀ user₀ fragments s' := by
  obtain ⟨f, hf, hc⟩ := h.waiting r (hl ▸ List.mem_cons_self ..)
  have hmem : r ∈ fragments := by
    rw [← h.fragments, hl]
    simp
  obtain ⟨hd, hov, -⟩ := h.shape hmeets hmem hf
  obtain ⟨b, hb⟩ := Option.ne_none_iff_exists'.1 hc.backend
  have hbackend : access f.backend = .ok b := by rw [hb, access_some]
  have hstart : ∃ direct f', Dataset.tryDirectIo f space = .ok (direct, f')
      ∧ f'.backend = f.backend ∧ ReadTask.Progress A space r f' ⟨r, direct, .queued⟩ := by
    obtain htry | ⟨i, htry, haim⟩ := Dataset.tryDirectIo_cases hc hd hov
    · exact ⟨false, f, htry, rfl, .waits hc⟩
    · exact ⟨true, _, htry, rfl, .aims haim⟩
  obtain ⟨direct, f', htry, hb', hprog⟩ := hstart
  have hk := Dataset.tryDirectIo_keeps htry
  refine ⟨{ s with
    ds := s.ds.setFragment r f'
    left := left
    tasks := s.tasks ++ [⟨r, direct, .queued⟩] }, ?_, ?_, h.returnCode, h.table,
    h.wf.setFragment hf hk, fun t hm => ?_, fun q hq => ?_, ?_⟩
  · rw [ReadState.enqueue, hf, Outcome.ok_bind, htry, Outcome.ok_bind]
    dsimp only
    rw [hb', hbackend]
    rfl
  · rw [← h.fragments, hl]
    simp
  · rcases List.mem_append.1 hm with hm | hm
    · obtain ⟨g, hg, hp⟩ := h.tasks t hm
      have hne : r ≠ t.fragment := by
        rw [← h.fragments, hl] at hn
        intro heq
        exact List.disjoint_of_nodup_append hn (List.mem_map_of_mem hm)
          (heq ▸ List.mem_cons_self ..)
      exact ⟨g, (Dataset.fragment_setFragment_of_ne hne f').trans hg, hp⟩
    · obtain rfl := List.mem_singleton.1 hm
      exact ⟨f', Dataset.fragment_setFragment_self hf hk.freed, hprog⟩
  · obtain ⟨g, hg, hgc⟩ := h.waiting q (hl ▸ List.mem_cons_of_mem _ hq)
    have hne : r ≠ q := by
      rw [← h.fragments, hl] at hn
      rintro rfl
      exact (List.nodup_cons.1 (List.Nodup.of_append_right hn)).1 hq
    exact ⟨g, (Dataset.fragment_setFragment_of_ne hne f').trans hg, hgc⟩
  · have hsame : paintedBy ds₀ space.getExtends (s.tasks ++ [⟨r, direct, .queued⟩])
        = paintedBy ds₀ space.getExtends s.tasks := by
      ext p
      simp [paintedBy, ReadTask.painted]
    rw [hsame]
    exact h.painted

include hinj

/-- The operation of a task. -/
theorem load (hr : ∀ s, env.retrieve s = .success) (ht : s.tasks[i]? = some task)
    (hq : task.stage = .queued) :
    ∃ s', s.load env i task = .ok s' ∧ Filling A space ds₀ user₀ fragments s' := by
  obtain ⟨f, hf, hp⟩ := h.tasks task (List.mem_of_getElem? ht)
  obtain ⟨-, -, hwithin⟩ := h.shape hmeets (h.task_mem ht) hf
  obtain ⟨r, direct, stage⟩ := task
  obtain rfl := hq
  cases hp with
  | waits hc =>
    obtain ⟨f', hload, hloaded⟩ := hc.load hr s.user
    refine ⟨_, ?_, h.advance hn hinj ht hf (Fragment.load_keeps hload) (.loaded hloaded)
      (fun hp => hp) (paints_nothing rfl s.user)⟩
    rw [ReadState.load, hf, Outcome.ok_bind, hload]
    rfl
  | aims haim =>
    obtain ⟨user', hload, hpaints⟩ := haim.load hr hinj s.user
    rw [← haim.commonPoints_eq, ← show _ = commonPoints _ space from hwithin] at hpaints
    refine ⟨_, ?_, h.advance hn hinj ht hf (Fragment.load_keeps hload) (.landed haim)
      (fun _ => rfl) (paints_part rfl hpaints)⟩
    rw [ReadState.load, hf, Outcome.ok_bind, hload]
    rfl

/-- The callback of a task. -/
theorem callback {ret : Status} (ht : s.tasks[i]? = some task) (hq : task.stage = .loaded ret) :
    ∃ s', s.callback env space i task ret = .ok s'
      ∧ Filling A space ds₀ user₀ fragments s' := by
  obtain ⟨f, hf, hp⟩ := h.tasks task (List.mem_of_getElem? ht)
  obtain ⟨hd, hov, hwithin⟩ := h.shape hmeets (h.task_mem ht) hf
  obtain ⟨r, direct, stage⟩ := task
  obtain rfl := hq
  cases hp with
  | loaded hloaded =>
    obtain ⟨data, user', hview, hcopy, hpaints⟩ :=
      @Fragment.Loaded.copy V A env f space hloaded hd hov hinj s.user
    have hprog : ReadTask.Progress A space r f ⟨r, false, .calledBack .success (some .success)⟩ :=
      .calledBack hloaded.toCarries
    have h' := h.advance hn hinj ht hf (.refl f) hprog (fun _ => rfl)
      (paints_part rfl (hwithin ▸ hpaints))
    rw [setFragment_self hf] at h'
    refine ⟨_, ?_, h'⟩
    rw [ReadState.callback, if_neg (by simp), hf, Outcome.ok_bind]
    dsimp only
    rw [if_neg (by simp), hview, access_some, Outcome.ok_bind, hcopy]
    rfl
  | landed haim =>
    obtain ⟨f', hunload, hf'⟩ := @Fragment.Aimed.unload V A env _ space _ haim s.user
    have hkept : Paints space.elementIndex A (ds₀.within space.getExtends [r]) s.user s.user :=
      ⟨fun p hp => h.painted.painted p ⟨_, List.mem_of_getElem? ht, rfl, hp⟩, fun _ _ => rfl⟩
    have hprog : ReadTask.Progress A space r f' ⟨r, true, .calledBack .success none⟩ :=
      .calledBack hf'
    refine ⟨_, ?_, h.advance hn hinj ht hf (Fragment.unload_keeps hunload) hprog (fun _ => rfl)
      (paints_part rfl hkept)⟩
    rw [ReadState.callback, if_neg (by simp), hf, Outcome.ok_bind]
    dsimp only
    rw [if_pos rfl, hunload]
    rfl

omit hmeets in
/-- The end of a task. -/
theorem complete {ret : Status} {copied : Option Status} (ht : s.tasks[i]? = some task)
    (hq : task.stage = .calledBack ret copied) :
    Filling A space ds₀ user₀ fragments (s.complete i task ret copied) := by
  obtain ⟨f, hf, hp⟩ := h.tasks task (List.mem_of_getElem? ht)
  obtain ⟨r, direct, stage⟩ := task
  obtain rfl := hq
  cases hp with
  | calledBack hc =>
    have hkept : Paints space.elementIndex A (ds₀.within space.getExtends [r]) s.user s.user :=
      ⟨fun p hp => h.painted.painted p ⟨_, List.mem_of_getElem? ht, rfl, hp⟩, fun _ _ => rfl⟩
    have hprog : ReadTask.Progress A space r f ⟨r, direct, .completed .success copied⟩ :=
      .completed hc
    have h' := h.advance hn hinj ht hf (.refl f) hprog (fun _ => rfl) (paints_part rfl hkept)
    rw [setFragment_self hf] at h'
    rw [ReadState.complete, if_pos rfl]
    exact h'

/-- A thread's step fails no assertion, and the rest of the read goes on. -/
theorem act (hr : ∀ s, env.retrieve s = .success) {a : ReadAction} {x : Outcome (ReadState V)}
    (ha : s.act env space a = some x) :
    ∃ s', x = .ok s' ∧ Filling A space ds₀ user₀ fragments s' := by
  unfold ReadState.act at ha
  split at ha <;> split at ha
  · cases ha
  · rename_i hl
    obtain rfl := Option.some.inj ha
    exact h.enqueue hn hmeets hl
  · rename_i ht
    split_ifs at ha with hq
    obtain rfl := Option.some.inj ha
    exact h.load hn hinj hmeets hr ht hq
  · cases ha
  · rename_i ht
    split at ha
    · rename_i hq
      obtain rfl := Option.some.inj ha
      exact h.callback hn hinj hmeets ht hq
    · cases ha
  · cases ha
  · rename_i ht
    split at ha
    · rename_i hq
      obtain rfl := Option.some.inj ha
      exact ⟨_, rfl, h.complete hn hinj ht hq⟩
    · cases ha
  · cases ha

theorem exec (hr : ∀ s, env.retrieve s = .success) {actions : List ReadAction}
    {x : Outcome (ReadState V)} (he : s.exec env space actions = some x) :
    ∃ s', x = .ok s' ∧ Filling A space ds₀ user₀ fragments s' := by
  induction actions generalizing s with
  | nil => exact ⟨s, (Option.some.inj he).symm, h⟩
  | cons a actions ih =>
    rcases ha : s.act env space a with _ | y <;> rw [ReadState.exec, ha] at he
    · cases he
    · obtain ⟨s', rfl, h'⟩ := h.act hn hinj hmeets hr ha
      exact ih h' he

end Filling

theorem filling_init {ds : Dataset V} (h : ds.Holds A none)
    (htype : ds.dataspace.type = space.type) (user : Mem V)
    (hmeets : ∀ r ∈ fragments, ds.Meets space.getExtends r) :
    Filling A space ds user fragments ⟨ds, user, .success, fragments, []⟩ where
  fragments := rfl
  returnCode := rfl
  table := rfl
  wf := h.table
  tasks := by simp
  waiting r hr := by
    obtain ⟨s, he, -⟩ := hmeets r hr
    obtain ⟨f, hf, -, hc⟩ := h.fragment he
    exact ⟨f, hf, htype ▸ hc⟩
  painted := by
    have hnone : paintedBy ds space.getExtends [] = ∅ := by
      ext p
      simp [paintedBy]
    rw [hnone]
    exact .refl ..

/-- When all tasks are done, the values of all fragments have been put into the buffer. -/
theorem Filling.finish (h : Filling A space ds₀ user₀ fragments s) (hf : s.finished) :
    Paints space.elementIndex A (ds₀.within space.getExtends fragments) user₀ s.user := by
  obtain ⟨hleft, hdone⟩ := hf
  have hfr := h.fragments
  rw [hleft, List.append_nil] at hfr
  have hall : paintedBy ds₀ space.getExtends s.tasks = ds₀.within space.getExtends fragments := by
    ext p
    rw [← hfr]
    constructor
    · rintro ⟨task, hm, -, hp, e, he, her, hpe⟩
      exact ⟨hp, e, he, List.mem_singleton.1 her ▸ List.mem_map_of_mem hm, hpe⟩
    · rintro ⟨hp, e, he, her, hpe⟩
      obtain ⟨task, hm, hte⟩ := List.mem_map.1 her
      obtain ⟨ret, copied, hstage⟩ := ReadStage.eq_completed (hdone task hm)
      refine ⟨task, hm, by rw [ReadTask.painted, hstage], hp, e, he, ?_, hpe⟩
      rw [hte]
      exact List.mem_singleton.2 rfl
  rw [← hall]
  exact h.painted

end ReadState

namespace Dataset

variable {a : LogicalArray V} {dataspace : Dataspace} {ds : Dataset V}

end Dataset

end Esdm
