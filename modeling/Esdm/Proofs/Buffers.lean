import Esdm.Proofs.Reads

/-!
# Whose buffer a fragment has

A write lends its user's buffer to the fragments that it creates, and a read to those that it reads
straight into the buffer.  A task that succeeds gives the buffer back, one that fails leaves the
fragment with it.  So no fragment is left with a buffer that is not its own exactly if none of these
tasks fails (`run_buffersOwned_iff`).
-/

namespace Esdm

variable {V : Type}

namespace Fragment

variable {env : Env V} {f f' : Fragment V} {user user' : Mem V}

/-- The fragment has a buffer that is not its own. -/
def Borrows (f : Fragment V) : Prop := f.buf ≠ none ∧ f.ownsBuf = false

/-- What holds of a fragment after its tasks, whether they have succeeded or not. -/
structure Settled (f : Fragment V) : Prop where
  actualBytes : f.actualBytes = -1
  unloaded : f.buf = none → f.status = .notLoaded ∧ f.ownsBuf = false
  stored : f.status ≠ .dirty → f.stored ≠ none
  deleted : f.status ≠ .deleted

theorem settled_drop (h : f.actualBytes = -1) (hs : f.stored ≠ none) :
    Settled { f with buf := none, ownsBuf := false, status := .notLoaded } :=
  ⟨h, fun _ => ⟨rfl, rfl⟩, fun _ => hs, fun h => by cases h⟩

theorem commit_settled {ret : Status} (hf : f.Settled) (h : f.commit env user = .ok (ret, f')) :
    f'.Settled ∧ f'.ownsBuf = f.ownsBuf := by
  obtain ⟨-, hk, hbuf, -, hok, hfail⟩ := commit_eq_ok h
  unfold commit at h
  obtain ⟨packed, hp, h⟩ := Outcome.bind_eq_ok.1 h
  have hne : f.buf ≠ none := by
    intro hnone
    obtain ⟨data, hd, -⟩ := Outcome.bind_eq_ok.1 hp
    rw [view, hnone] at hd
    cases hd
  have hown : f'.ownsBuf = f.ownsBuf := by
    split at h <;> obtain ⟨-, rfl⟩ := Prod.mk.inj (Except.ok.inj h) <;> rfl
  refine ⟨⟨hk.actualBytes.trans hf.actualBytes, fun h => absurd (hbuf.symm.trans h) hne, ?_, ?_⟩,
    hown⟩
  · by_cases hret : ret = .success
    · obtain ⟨packed, -, -, hst, -⟩ := hok hret
      simp [hst]
    · obtain ⟨hst, hs⟩ := hfail hret
      rw [hst, hs]
      exact hf.stored
  · by_cases hret : ret = .success
    · obtain ⟨packed, -, hs, -⟩ := hok hret
      simp [hs]
    · rw [(hfail hret).2]
      exact hf.deleted

/-- A task that writes gives the buffer back if it succeeds. -/
theorem commit_unload_settled {ret : Status} (hf : f.Settled)
    (h : f.commit env user = .ok (.success, f')) {f'' : Fragment V}
    (hu : f'.unload env user = .ok (ret, f'')) : f''.Settled ∧ ¬ f''.Borrows := by
  have hf' := (commit_settled hf h).1
  obtain ⟨-, -, -, -, hok, -⟩ := commit_eq_ok h
  obtain ⟨packed, -, hs, hst, -⟩ := hok rfl
  rw [unload, hs] at hu
  obtain ⟨-, rfl⟩ := Prod.mk.inj (Except.ok.inj hu)
  exact ⟨settled_drop hf'.actualBytes (by simp [hst]), fun hb => hb.1 rfl⟩

theorem unpack_eq_ok {stored : Mem V} (h : f.unpack env user stored = .ok (f', user')) :
    ∃ buf, f' = { f with buf := buf } ∧ (buf = none ↔ f.buf = none) := by
  have hset : ∀ data, ∃ buf, (f.setView user data).1 = { f with buf := buf }
      ∧ (buf = none ↔ f.buf = none) := by
    intro data
    unfold setView
    split <;> rename_i hb
    · exact ⟨_, rfl, Iff.rfl⟩
    · exact ⟨_, rfl, Iff.rfl⟩
    · exact ⟨_, rfl, by simp [hb]⟩
    · exact ⟨_, rfl, Iff.rfl⟩
  unfold unpack at h
  obtain ⟨data, -, h⟩ := Outcome.bind_eq_ok.1 h
  split_ifs at h
  · have := hset (memcpy (fun v => v) data 0 stored 0 f.elements)
    rwa [Except.ok.inj h] at this
  · split at h
    · cases h
    · obtain ⟨⟨_, data'⟩, -, h⟩ := Outcome.bind_eq_ok.1 h
      have := hset data'
      rwa [Except.ok.inj h] at this

/-- An unloaded fragment gets a buffer of its own, unless it has been lent one. -/
theorem allocate_settled (hf : f.Settled) (hs : f.status = .notLoaded)
    (h : f.allocate env = .ok f') : f'.Settled ∧ (f'.Borrows ↔ f.Borrows) ∧ f'.status = .notLoaded
      ∧ f'.buf ≠ none ∧ f'.shape = f.shape := by
  have hshape := (allocate_keeps h).shape
  unfold allocate at h
  split at h
  · rename_i buf hbuf
    obtain rfl := Except.ok.inj h
    exact ⟨hf, Iff.rfl, hs, by simp [hbuf], rfl⟩
  · rename_i hbuf
    split at h
    · cases h
    · obtain rfl := Except.ok.inj h
      refine ⟨⟨hf.actualBytes, by simp, hf.stored, hf.deleted⟩, ?_, hs, by simp, hshape⟩
      simp [Borrows, hbuf]

/-- A load leaves the fragment with the buffer it was lent. -/
theorem load_settled {ret : Status} (hf : f.Settled)
    (h : f.load env user = .ok (ret, f', user')) : f'.Settled ∧ (f'.Borrows ↔ f.Borrows)
      ∧ (f.status = .notLoaded → f.buf ≠ none → (ret = .success ↔ env.retrieve f.shape = .success)
        ∧ (ret = .success → f'.status = .persistent)) := by
  unfold load at h
  split_ifs at h with hd
  · obtain ⟨-, rfl, -⟩ := Prod.mk.inj (Except.ok.inj h)
    exact ⟨hf, Iff.rfl, fun hn => by rw [hn] at hd; cases hd⟩
  unfold retrieve at h
  split at h
  · rename_i hs
    obtain ⟨-, rfl, -⟩ := Prod.mk.inj (Except.ok.inj h)
    exact ⟨hf, Iff.rfl, fun hn => by rw [hn] at hs; cases hs⟩
  · rename_i hs
    exact absurd hs hd
  · rename_i hs
    exact absurd hs hf.deleted
  · rename_i hs
    split at h
    · rename_i ha
      obtain ⟨-, rfl, -⟩ := Prod.mk.inj (Except.ok.inj h)
      refine ⟨hf, Iff.rfl, fun _ hb => ?_⟩
      obtain ⟨buf, hbuf⟩ := Option.ne_none_iff_exists'.1 hb
      rw [allocate, hbuf] at ha
      cases ha
    · rename_i f₁ ha
      obtain ⟨hf₁, hborrow, hs₁, hb₁, hshape⟩ := allocate_settled hf hs ha
      have hst₁ := hf₁.stored (by rw [hs₁]; decide)
      split at h
      · rename_i stored hst hret
        rw [if_neg (not_not.2 hf₁.actualBytes)] at h
        obtain ⟨⟨f₂, user₂⟩, hu, h⟩ := Outcome.bind_eq_ok.1 h
        obtain ⟨rfl, rfl, -⟩ := Prod.mk.inj (Except.ok.inj h)
        obtain ⟨buf, rfl, hbuf⟩ := unpack_eq_ok hu
        refine ⟨⟨hf₁.actualBytes, fun h => absurd (hbuf.1 h) hb₁, fun _ => hst₁, by simp⟩, ?_, ?_⟩
        · rw [← hborrow, Borrows, Borrows, Ne, hbuf]
        · exact fun _ _ => ⟨iff_of_true rfl (hshape ▸ hret), fun _ => rfl⟩
      · rename_i hst _
        exact absurd hst hst₁
      · rename_i hne _
        obtain ⟨stored, hst⟩ := Option.ne_none_iff_exists'.1 hst₁
        have hfail : env.retrieve f₁.shape ≠ .success := fun hok => hne stored hst hok
        obtain ⟨rfl, rfl, -⟩ := Prod.mk.inj (Except.ok.inj h)
        exact ⟨hf₁, hborrow, fun _ _ => ⟨by rw [hshape], fun hok => absurd hok hfail⟩⟩

end Fragment

namespace Dataset

variable {ds ds' : Dataset V} {env : Env V} {user user' : Mem V} {space : Dataspace}

/-- The backend can read the fragment straight into the user's buffer. -/
def Direct (f : Fragment V) (space : Dataspace) : Prop := ∃ f', tryDirectIo f space = .ok (true, f')

theorem readFragment_settled {f f' : Fragment V} {ret : Status} (hf : f.Settled)
    (h : readFragment env f user space = .ok (ret, f', user')) : f'.Settled
      ∧ (f'.Borrows ↔ f.Borrows ∨ (Direct f space ∧ env.retrieve f.shape ≠ .success)) := by
  obtain ⟨direct, f₁, f₂, user₂, hd, hl, hrest⟩ := readFragment_eq_ok h
  obtain ⟨rfl, rfl⟩ | ⟨rfl, hbuf, -, i, -, -, -, -, rfl⟩ := tryDirectIo_eq_ok hd
  · -- the data is copied, and the buffer stays where it is
    obtain ⟨hf₂, hborrow, -⟩ := Fragment.load_settled hf hl
    have hnot : ¬ Direct f₁ space := by
      rintro ⟨f', hd'⟩
      exact Bool.false_ne_true (Prod.mk.inj (Except.ok.inj (hd.symm.trans hd'))).1
    obtain ⟨hdirect, -⟩ | ⟨-, rfl⟩ := hrest
    · cases hdirect
    · exact ⟨hf₂, by simp [hborrow, hnot]⟩
  · -- the user's buffer is lent to the fragment
    obtain ⟨hs, hown⟩ := hf.unloaded hbuf
    have hlent : Fragment.Settled { f with buf := some (.user i.destOffset) } :=
      ⟨hf.actualBytes, by simp, hf.stored, hf.deleted⟩
    obtain ⟨hf₂, hborrow, hload⟩ := Fragment.load_settled hlent hl
    obtain ⟨hret, hpers⟩ := hload hs (by simp)
    have hiff : f.Borrows ∨ (Direct f space ∧ env.retrieve f.shape ≠ .success)
        ↔ env.retrieve f.shape ≠ .success := by
      have hno : ¬ f.Borrows := fun hb => hb.1 hbuf
      simp [hno, show Direct f space from ⟨_, hd⟩]
    rw [hiff]
    obtain ⟨-, rfl, status, hu⟩ | ⟨hne, rfl⟩ := hrest
    · rw [Fragment.unload, hpers rfl] at hu
      obtain ⟨-, rfl⟩ := Prod.mk.inj (Except.ok.inj hu)
      refine ⟨Fragment.settled_drop hf₂.actualBytes (hf₂.stored (by rw [hpers rfl]; decide)), ?_⟩
      exact iff_of_false (fun hb => hb.1 rfl) (not_not.2 (hret.1 rfl))
    · rcases hne with hne | hne
      · cases hne
      · exact ⟨hf₂, iff_of_true (hborrow.2 ⟨by simp, hown⟩) fun hok => hne (hret.2 hok)⟩

theorem writeFragmentNonblocking_settled {r : ℕ} {f : Fragment V} {status status' : Status}
    (hf : ds.fragment r = .ok f) (hset : f.Settled)
    (h : ds.writeFragmentNonblocking env r user status = .ok (status', ds')) :
    ∃ f', ds' = ds.setFragment r f' ∧ f.Keeps f' ∧ f'.Settled
      ∧ (f'.Borrows ↔ f.Borrows ∧ env.update f.shape ≠ .success) := by
  obtain ⟨f₀, f₁, ret, hf₀, hc, hrest⟩ := writeFragmentNonblocking_cases h
  obtain rfl := Except.ok.inj (hf.symm.trans hf₀)
  have hset₀ : Fragment.Settled { f with backend := some (f.backend.getD env.fastestBackend) } :=
    ⟨hset.actualBytes, hset.unloaded, hset.stored, hset.deleted⟩
  have hk₀ : f.Keeps { f with backend := some (f.backend.getD env.fastestBackend) } :=
    ⟨rfl, rfl, rfl, rfl, rfl, fun h => h, fun _ h => h, fun b hb => by simp [hb]⟩
  obtain ⟨hret, hk, hbuf, -⟩ := Fragment.commit_eq_ok hc
  change ret = env.update f.shape at hret
  rw [← hret]
  obtain ⟨rfl, -, ret₂, f₂, hu, rfl⟩ | ⟨hne, -, rfl⟩ := hrest
  · obtain ⟨hset₂, hno⟩ := Fragment.commit_unload_settled hset₀ hc hu
    exact ⟨f₂, rfl, hk₀.trans (hk.trans (Fragment.unload_keeps hu)), hset₂, by simp [hno]⟩
  · obtain ⟨hset₁, hown⟩ := Fragment.commit_settled hset₀ hc
    refine ⟨f₁, rfl, hk₀.trans hk, hset₁, ?_⟩
    simp [Fragment.Borrows, hbuf, hown, hne]

section Lent

/-- The fragment of the shape has a buffer that is not its own. -/
def Lent (ds : Dataset V) (s : Hypercube) : Prop :=
  ∃ r f, (s, r) ∈ ds.table ∧ ds.fragments[r]? = some f ∧ f.Borrows

/-- What holds between the tasks. -/
structure Loans (ds : Dataset V) : Prop where
  table : TableWf ds
  settled : ∀ f ∈ ds.fragments, f.Settled

variable {r : ℕ} {f f' : Fragment V}

theorem lent_iff (hw : TableWf ds) (hr : (f.shape, r) ∈ ds.table) (hf : ds.fragment r = .ok f) :
    ds.Lent f.shape ↔ f.Borrows := by
  have hf := (fragment_eq_ok.1 hf).1
  constructor
  · rintro ⟨r', f', hr', hf', hb⟩
    have := Option.some.inj ((hw.lookup_eq_some_iff.2 hr).symm.trans (hw.lookup_eq_some_iff.2 hr'))
    subst this
    obtain rfl := Option.some.inj (hf.symm.trans hf')
    exact hb
  · exact fun hb => ⟨r, f, hr, hf, hb⟩

theorem Lent.mem_shapes {s : Hypercube} (h : ds.Lent s) : s ∈ ds.shapes := by
  obtain ⟨r, f, hr, -⟩ := h
  exact Dataset.mem_shapes.2 ⟨r, hr⟩

theorem Loans.congr (h : Loans ds) (ht : ds'.table = ds.table) (hf : ds'.fragments = ds.fragments) :
    Loans ds' ∧ ∀ s, ds'.Lent s ↔ ds.Lent s :=
  ⟨⟨h.table.congr ht hf, hf ▸ h.settled⟩, fun s => by rw [Lent, ht, hf, Lent]⟩

/-- A task changes what is lent for its own fragment only. -/
theorem Loans.setFragment (h : Loans ds) (hr : (f.shape, r) ∈ ds.table) (hf : ds.fragment r = .ok f)
    (hk : f.Keeps f') (hset : f'.Settled) : Loans (ds.setFragment r f')
      ∧ ∀ s, (ds.setFragment r f').Lent s
        ↔ (s = f.shape ∧ f'.Borrows) ∨ (s ≠ f.shape ∧ ds.Lent s) := by
  have hw := h.table.setFragment hf hk
  refine ⟨⟨hw, fun g hg => ?_⟩, fun s => ?_⟩
  · rcases List.mem_or_eq_of_mem_set hg with hg | rfl
    · exact h.settled g hg
    · exact hset
  · have hf' := fragment_setFragment_self hf hk.freed
    by_cases hs : s = f.shape
    · subst hs
      have := @lent_iff V _ r f' hw (by rw [hk.shape]; exact hr) hf'
      rw [hk.shape] at this
      simp [this]
    · have hne : ∀ r', (s, r') ∈ ds.table → r ≠ r' := fun r' hr' heq =>
        hs (congrArg Prod.fst (h.table.eq_of_ref_eq hr' hr heq.symm))
      simp only [hs, false_and, ne_eq, not_false_eq_true, true_and, false_or]
      refine exists_congr fun r' => exists_congr fun g => and_congr_right fun hr' => ?_
      rw [Dataset.setFragment, List.getElem?_set_ne (hne r' hr')]

theorem Loans.setBackend (h : Loans ds) {s : Hypercube} (hr : (s, r) ∈ ds.table)
    (hf : ds.fragment r = .ok f) (hnone : f.backend = none) (backend : Backend) :
    Loans (ds.setFragment r { f with backend := some backend })
      ∧ ∀ t, (ds.setFragment r { f with backend := some backend }).Lent t ↔ ds.Lent t := by
  obtain ⟨f₁, hf₁, rfl⟩ := h.table.fragment_eq hr
  obtain rfl := Except.ok.inj (hf.symm.trans hf₁)
  have hset := h.settled f (List.mem_of_getElem? (fragment_eq_ok.1 hf).1)
  have hk : f.Keeps { f with backend := some backend } :=
    ⟨rfl, rfl, rfl, rfl, rfl, fun h => h, fun _ h => h, fun b hb => by rw [hnone] at hb; cases hb⟩
  obtain ⟨hl, hlent⟩ := h.setFragment hr hf hk
    ⟨hset.actualBytes, hset.unloaded, hset.stored, hset.deleted⟩
  refine ⟨hl, fun t => (hlent t).trans ?_⟩
  by_cases ht : t = f.shape
  · subst ht
    simp [lent_iff h.table hr hf, Fragment.Borrows]
  · simp [ht]

/-- A new fragment is lent the user's buffer. -/
theorem Loans.created (h : Loans ds) (hs : space.getExtends ∉ ds.shapes) (i : ℤ) :
    Loans (ds.created space (some (.user i)))
      ∧ ∀ s, (ds.created space (some (.user i))).Lent s ↔ ds.Lent s ∨ s = space.getExtends := by
  have hw := h.table.created hs (some (.user i))
  have hset : (newFragment (V := V) space (some (.user i))).Settled :=
    ⟨rfl, by simp [newFragment], by simp [newFragment], by simp [newFragment]⟩
  refine ⟨⟨hw, fun g hg => ?_⟩, fun s => ?_⟩
  · rcases List.mem_append.1 hg with hg | hg
    · exact h.settled g hg
    · rw [List.mem_singleton.1 hg]
      exact hset
  · by_cases hs' : s = space.getExtends
    · subst hs'
      have := lent_iff (f := newFragment space (some (.user i))) hw
        (mem_created_table ds space (some (.user i))) (created_fragment ..)
      refine iff_of_true (this.2 ⟨by simp [newFragment], rfl⟩) (.inr rfl)
    · simp only [hs', or_false]
      constructor
      · rintro ⟨r, g, hr, hg, hb⟩
        rcases List.mem_append.1 hr with hr | hr
        · refine ⟨r, g, hr, ?_, hb⟩
          rwa [Dataset.created, addFragment, updateActualSize,
            List.getElem?_append_left (h.table.lt_length hr)] at hg
        · exact absurd (Prod.mk.inj (List.mem_singleton.1 hr)).1 hs'
      · rintro ⟨r, g, hr, hg, hb⟩
        refine ⟨r, g, List.mem_append_left _ hr, ?_, hb⟩
        rwa [Dataset.created, addFragment, updateActualSize,
          List.getElem?_append_left (h.table.lt_length hr)]

theorem Loans.leave (h : Loans ds) : Loans ds.leave ∧ ∀ s, ds.leave.Lent s ↔ ds.Lent s := by
  have hfrag : ∀ f : Fragment V, f.Settled → f.leave.Settled ∧ (f.leave.Borrows ↔ f.Borrows) := by
    intro f hf
    unfold Fragment.leave
    split <;> rename_i hb
    · exact ⟨⟨hf.actualBytes, by simp, hf.stored, hf.deleted⟩, by simp [Fragment.Borrows, hb]⟩
    · exact ⟨hf, Iff.rfl⟩
  refine ⟨⟨h.table.leave, fun g hg => ?_⟩, fun s => ?_⟩
  · obtain ⟨f, hf, rfl⟩ := List.mem_map.1 hg
    exact (hfrag f (h.settled f hf)).1
  · constructor
    · rintro ⟨r, g, hr, hg, hb⟩
      rw [leave_getElem?] at hg
      obtain ⟨f, hf, rfl⟩ := Option.map_eq_some_iff.1 hg
      exact ⟨r, f, hr, hf, (hfrag f (h.settled f (List.mem_of_getElem? hf))).2.1 hb⟩
    · rintro ⟨r, f, hr, hf, hb⟩
      exact ⟨r, f.leave, hr, by rw [leave_getElem?, hf]; rfl,
        (hfrag f (h.settled f (List.mem_of_getElem? hf))).2.2 hb⟩

end Lent

section Write

/-- New fragments have been written; those whose task has failed have kept the user's buffer. -/
structure Wrote (env : Env V) (ds ds' : Dataset V) : Prop where
  loans : Loans ds'
  shapes : ∀ s ∈ ds.shapes, s ∈ ds'.shapes
  lent : ∀ s, ds'.Lent s ↔ ds.Lent s
    ∨ (s ∈ ds'.shapes ∧ s ∉ ds.shapes ∧ env.update s ≠ .success)

theorem Wrote.of_lent_iff (h : Loans ds') (hs : ds'.shapes = ds.shapes)
    (hl : ∀ s, ds'.Lent s ↔ ds.Lent s) : Wrote env ds ds' :=
  ⟨h, fun s => by rw [hs]; exact id, fun s => by simp +contextual [hs, hl]⟩

theorem Wrote.refl (h : Loans ds) : Wrote env ds ds := .of_lent_iff h rfl fun _ => Iff.rfl

theorem Wrote.trans {ds₁ ds₂ ds₃ : Dataset V} (h : Wrote env ds₁ ds₂) (h' : Wrote env ds₂ ds₃) :
    Wrote env ds₁ ds₃ := by
  refine ⟨h'.loans, fun s hs => h'.shapes s (h.shapes s hs), fun s => ?_⟩
  rw [h'.lent, h.lent]
  have := h.shapes s
  have := h'.shapes s
  tauto

/-- The task of a new fragment is run. -/
theorem Loans.wrote {ds₁ : Dataset V} {s : Hypercube} {r : ℕ} (h : Loans ds₁)
    (hshapes : ds₁.shapes = ds.shapes ++ [s]) (hs : s ∉ ds.shapes)
    (hlent : ∀ t, ds₁.Lent t ↔ ds.Lent t ∨ t = s) (hr : (s, r) ∈ ds₁.table)
    {status status' : Status}
    (hw : ds₁.writeFragmentNonblocking env r user status = .ok (status', ds')) :
    Wrote env ds ds' := by
  obtain ⟨f, hf, rfl⟩ := h.table.fragment_eq hr
  have hset := h.settled f (List.mem_of_getElem? (fragment_eq_ok.1 hf).1)
  obtain ⟨f', rfl, hk, hset', hb⟩ := writeFragmentNonblocking_settled hf hset hw
  obtain ⟨hl, hlent'⟩ := h.setFragment hr hf hk hset'
  have hb₁ : f.Borrows := (lent_iff h.table hr hf).1 ((hlent _).2 (.inr rfl))
  have hsh : (ds₁.setFragment r f').shapes = ds.shapes ++ [f.shape] := hshapes
  refine ⟨hl, fun t ht => by rw [hsh]; exact List.mem_append_left _ ht, fun t => ?_⟩
  rw [hlent', hlent, hb, hsh, List.mem_append, List.mem_singleton]
  by_cases ht : t = f.shape
  · subst ht
    have : ¬ ds.Lent f.shape := fun h => hs h.mem_shapes
    simp [hb₁, hs, this]
  · have : ds.Lent t → t ∈ ds.shapes := Lent.mem_shapes
    tauto

theorem writeCubes_wrote {backend : Backend} {cubes : HypercubeSet} {status status' : Status}
    (h : Loans ds) (hw : writeCubes env space user backend cubes status ds = .ok (status', ds')) :
    Wrote env ds ds' := by
  induction cubes generalizing status ds with
  | nil =>
    obtain ⟨-, rfl⟩ := Prod.mk.inj (Except.ok.inj hw)
    exact .refl h
  | cons cube cubes ih =>
    obtain ⟨sub, hsub, ⟨r, -, hw⟩ | ⟨f, ds₁, status₁, hs, hch, rfl, hw₁, hw⟩⟩ :=
      writeCubes_cons_eq_ok hw
    · exact ih h hw
    · obtain ⟨h₁, hlent₁⟩ := h.created hs (space.elementIndex (cube.map Range.start))
      have hr := mem_created_table ds sub (some (.user (space.elementIndex (cube.map Range.start))))
      obtain ⟨h₂, hlent₂⟩ := h₁.setBackend hr (created_fragment ..) rfl backend
      have hwrote := h₂.wrote (created_shapes ..) hs (fun t => (hlent₂ t).trans (hlent₁ t)) hr hw₁
      exact hwrote.trans (ih hwrote.loans hw)

theorem writeSlots_wrote {slots : List (Backend × Slot)} {status status' : Status} (h : Loans ds)
    (hw : writeSlots env space user slots status ds = .ok (status', ds')) : Wrote env ds ds' := by
  induction slots generalizing status ds with
  | nil =>
    obtain ⟨-, rfl⟩ := Prod.mk.inj (Except.ok.inj hw)
    exact .refl h
  | cons q slots ih =>
    rcases q with ⟨backend, _ | _ | c⟩
    · cases hw
    · exact ih h hw
    · rw [writeSlots] at hw
      obtain ⟨backendSpace, -, hw⟩ := Outcome.bind_eq_ok.1 hw
      obtain ⟨cubes, -, hw⟩ := Outcome.bind_eq_ok.1 hw
      obtain ⟨⟨status₁, ds₁⟩, hw₁, hw⟩ := Outcome.bind_eq_ok.1 hw
      have hwrote := writeCubes_wrote h hw₁
      exact hwrote.trans (ih hwrote.loans hw)

theorem writeBlocking_wrote {status : Status} (h : Loans ds)
    (hw : ds.writeBlocking env user space = .ok (status, ds')) : Wrote env ds ds' := by
  obtain ⟨slots, -, hw⟩ := Outcome.bind_eq_ok.1 hw
  exact writeSlots_wrote h hw

end Write

section Read

/-- The shape of a fragment that is read straight into the user's buffer, and whose task fails. -/
def ReadFails (env : Env V) (ds : Dataset V) (space : Dataspace) (R : ℕ → Prop)
    (s : Hypercube) : Prop :=
  ∃ r, R r ∧ ∃ f, ds.fragment r = .ok f ∧ f.shape = s ∧ Direct f space ∧ env.retrieve s ≠ .success

theorem enqueueRead_loans {fragments : List ℕ} {status status' : Status} (h : Loans ds)
    (hn : fragments.Nodup)
    (hreg : ∀ r ∈ fragments, ∃ f, ds.fragment r = .ok f ∧ (f.shape, r) ∈ ds.table)
    (hr : enqueueRead env space fragments status user ds = .ok (status', user', ds')) :
    Loans ds' ∧ ds'.table = ds.table
      ∧ ∀ s, ds'.Lent s ↔ ds.Lent s ∨ ReadFails env ds space (· ∈ fragments) s := by
  induction fragments generalizing status user ds with
  | nil =>
    obtain ⟨-, -, rfl⟩ := Prod.mk.inj (Except.ok.inj hr)
    exact ⟨h, rfl, fun s => by simp [ReadFails]⟩
  | cons r fragments ih =>
    obtain ⟨hnot, hn⟩ := List.nodup_cons.1 hn
    obtain ⟨f, hf, hmem⟩ := hreg r List.mem_cons_self
    rw [enqueueRead, hf, Outcome.ok_bind] at hr
    obtain ⟨⟨ret, f', user₁⟩, hread, hr⟩ := Outcome.bind_eq_ok.1 hr
    have hset := h.settled f (List.mem_of_getElem? (fragment_eq_ok.1 hf).1)
    obtain ⟨hset', hb⟩ := readFragment_settled hset hread
    obtain ⟨h₁, hlent₁⟩ := h.setFragment hmem hf (readFragment_keeps hread) hset'
    -- the other fragments of the list are as they were
    have hother : ∀ r' ∈ fragments, (ds.setFragment r f').fragment r' = ds.fragment r' := by
      intro r' hr'
      have hne : r ≠ r' := fun heq => hnot (heq ▸ hr')
      exact fragment_setFragment_of_ne hne f'
    obtain ⟨h', ht, hlent⟩ := ih h₁ hn (fun r' hr' => by
      rw [hother r' hr']
      exact hreg r' (List.mem_cons_of_mem _ hr')) hr
    refine ⟨h', ht, fun s => ?_⟩
    have hrest : ReadFails env (ds.setFragment r f') space (· ∈ fragments) s
        ↔ ReadFails env ds space (· ∈ fragments) s :=
      exists_congr fun r' => and_congr_right fun hr' => by rw [hother r' hr']
    have hcons : ReadFails env ds space (· ∈ r :: fragments) s
        ↔ (f.shape = s ∧ Direct f space ∧ env.retrieve s ≠ .success)
          ∨ ReadFails env ds space (· ∈ fragments) s := by
      simp only [ReadFails, List.mem_cons, exists_eq_or_imp, hf, Except.ok.injEq,
        exists_eq_left']
    rw [hlent, hlent₁, hrest, hcons, hb]
    by_cases hs : s = f.shape
    · subst hs
      simp [lent_iff h.table hmem hf, or_assoc]
    · simp [hs, Ne.symm hs]

/-- Fragments have been read and written; those whose task has failed have kept the user's buffer,
if it was lent to them. -/
structure Lends (env : Env V) (F : Hypercube → Prop) (ds ds' : Dataset V) : Prop where
  loans : Loans ds'
  lent : ∀ s, ds'.Lent s ↔ ds.Lent s ∨ F s
    ∨ (s ∈ ds'.shapes ∧ s ∉ ds.shapes ∧ env.update s ≠ .success)

variable {F : Hypercube → Prop}

theorem shapes_congr (h : ds'.table = ds.table) : ds'.shapes = ds.shapes := by
  rw [shapes, h, shapes]

theorem Wrote.lends (h : Wrote env ds ds') : Lends env (fun _ => False) ds ds' :=
  ⟨h.loans, fun s => by rw [h.lent, false_or]⟩

/-- A read that is followed by a write. -/
theorem Lends.of_read {ds₁ : Dataset V} (ht : ds₁.table = ds.table)
    (hl : ∀ s, ds₁.Lent s ↔ ds.Lent s ∨ F s) (h : Wrote env ds₁ ds') : Lends env F ds ds' :=
  ⟨h.loans, fun s => by rw [h.lent, hl, shapes_congr ht, or_assoc]⟩

theorem Lends.congr {ds₁ : Dataset V} (ht : ds₁.table = ds.table)
    (hf : ds₁.fragments = ds.fragments) (h : Lends env F ds₁ ds') : Lends env F ds ds' :=
  ⟨h.loans, fun s => by rw [h.lent, Lent, ht, hf, ← Lent, shapes_congr ht]⟩

theorem ReadFails.congr {ds₁ : Dataset V} (hf : ds₁.fragments = ds.fragments) {R : ℕ → Prop} :
    ReadFails env ds₁ space R = ReadFails env ds space R := by
  unfold ReadFails fragment
  rw [hf]

theorem fillHoles_eq_ok {covering : Covering} {status : Status}
    (h : ds.fillHoles env user space covering = .ok (status, user')) :
    (status = .success ↔ covering.fullyCovered = true ∨ ds.fillValue ≠ none) := by
  unfold fillHoles at h
  split_ifs at h with hfull
  · obtain ⟨rfl, -⟩ := Prod.mk.inj (Except.ok.inj h)
    exact iff_of_true rfl (.inl hfull)
  · obtain ⟨_, -, h⟩ := Outcome.bind_eq_ok.1 h
    split at h
    · rename_i hnone
      obtain ⟨rfl, -⟩ := Prod.mk.inj (Except.ok.inj h)
      simp [hfull, hnone]
    · rename_i v hv
      obtain ⟨_, -, h⟩ := Outcome.bind_eq_ok.1 h
      obtain ⟨rfl, -⟩ := Prod.mk.inj (Except.ok.inj h)
      simp [hv]

/-- The fragments that a read of the space goes through. -/
def Reading (env : Env V) (ds : Dataset V) (space : Dataspace) (r : ℕ) : Prop :=
  ∃ covering, ds.fragmentsCoveringRegion env space.getExtends = .ok covering
    ∧ (covering.fullyCovered = true ∨ ds.fillValue ≠ none) ∧ r ∈ covering.fragments

theorem readBlocking_lends (hI : Inv ds) (hG : Grid.Geometry ds.table ds.gridHeap)
    (hset : ∀ f ∈ ds.fragments, f.Settled) (hs : ∀ d ∈ space.dim, 0 < d.size)
    (hd : space.dims = ds.dims) {allowWriteback : Bool} {ret : Status}
    (h : ds.readBlocking env user space allowWriteback = .ok (ret, user', ds')) :
    Lends env (ReadFails env ds space (Reading env ds space)) ds ds' := by
  obtain ⟨c, hc, hcov⟩ := fragmentsCoveringRegion_spec env hI hG
    ((Dataspace.getExtends_length space).trans hd) (Dataspace.getExtends_not_isEmpty hs)
  have hloans : Loans ds := ⟨hI.table, hset⟩
  unfold readBlocking at h
  rw [hc, Outcome.ok_bind] at h
  obtain ⟨⟨status, user₁⟩, hfill, h⟩ := Outcome.bind_eq_ok.1 h
  have hfill := fillHoles_eq_ok hfill
  have hreading : ∀ r, Reading env ds space r ↔ status = .success ∧ r ∈ c.fragments := by
    intro r
    rw [hfill]
    constructor
    · rintro ⟨c', hc', hr⟩
      obtain rfl := Except.ok.inj (hc.symm.trans hc')
      exact hr
    · exact fun hr => ⟨c, hc, hr⟩
  split at h
  · rename_i heq
    obtain ⟨rfl, rfl⟩ := Prod.mk.inj heq
    obtain ⟨⟨ret₁, user₂, ds₁⟩, he, h⟩ := Outcome.bind_eq_ok.1 h
    obtain ⟨bytes, -, h⟩ := Outcome.bind_eq_ok.1 h
    obtain ⟨h₁, ht, hl⟩ := enqueueRead_loans hloans hcov.nodup hcov.registered he
    have hl : ∀ s, ds₁.Lent s ↔ ds.Lent s ∨ ReadFails env ds space (Reading env ds space) s := by
      intro s
      rw [hl, ReadFails, ReadFails]
      simp only [hreading, true_and]
    dsimp only at h
    split_ifs at h
    · obtain ⟨⟨_, ds₂⟩, hw, h⟩ := Outcome.bind_eq_ok.1 h
      obtain ⟨-, -, rfl⟩ := Prod.mk.inj (Except.ok.inj h)
      exact .of_read ht hl (writeBlocking_wrote h₁ hw)
    · obtain ⟨-, -, rfl⟩ := Prod.mk.inj (Except.ok.inj h)
      exact .of_read ht hl (.refl h₁)
  · rename_i hne heq
    obtain ⟨rfl, rfl⟩ := Prod.mk.inj heq
    obtain ⟨-, -, rfl⟩ := Prod.mk.inj (Except.ok.inj h)
    refine .of_read rfl (fun s => ?_) (.refl hloans)
    have : ¬ ReadFails env ds space (Reading env ds space) s := by
      rintro ⟨r, hr, -⟩
      exact hne ((hreading r).1 hr).1
    simp [this]

end Read

section Grid

variable {g i r : ℕ} {grid : Grid} {cs : List GridEntry} {index : List ℤ}

/-- The fragment for a cell is created, entered into the cell and written. -/
theorem fillCell_wrote (h : Loans ds) (hs : space.getExtends ∉ ds.shapes) {ds₁ : Dataset V}
    (hfill : (ds.created space (some (.user 0))).fillCell g i ds.fragments.length = .ok ds₁)
    {status : Status}
    (hw : ds₁.writeFragmentBlocking env ds.fragments.length user = .ok (status, ds')) :
    Wrote env ds ds' := by
  obtain ⟨h₁, hlent₁⟩ := h.created hs 0
  have hsame := fillCell_sameTable hfill
  obtain ⟨h₂, hlent₂⟩ := h₁.congr hsame.table hsame.fragments
  refine h₂.wrote ?_ hs (fun t => (hlent₂ t).trans (hlent₁ t)) ?_ hw
  · rw [shapes_congr hsame.table, created_shapes]
  · rw [hsame.table]
    exact mem_created_table ..

theorem SameTable.wrote (h : Loans ds) (hs : SameTable ds ds') : Wrote env ds ds' := by
  obtain ⟨h', hlent⟩ := h.congr hs.table hs.fragments
  exact .of_lent_iff h' (shapes_congr hs.table) hlent

theorem writeGrid_wrote (hI : Inv ds) (hset : ∀ f ∈ ds.fragments, f.Settled) {status : Status}
    (h : ds.writeGrid env g user space = .ok (status, ds')) : Wrote env ds ds' := by
  obtain ⟨ds₁, hal, hrest⟩ := writeGrid_eq_ok h
  have hsteps : Steps (fun _ => False) (fun _ _ => False) ds ds₁ := allocates_steps hal
  obtain ⟨hI₁, -⟩ := hsteps.inv (fun _ h => h.elim) hI
  have hwrote : Wrote env ds ds₁ := (Allocates.sameTable hal).wrote ⟨hI.table, hset⟩
  refine hwrote.trans ?_
  obtain ⟨-, rfl⟩ | ⟨k, i, grid, cs, c, index, -, hF, hc⟩ := hrest
  · exact .refl hwrote.loans
  obtain ⟨-, -, rfl⟩ | ⟨rfl, r, -, -, hfill⟩ | ⟨rfl, hs, -, ds₂, hfill, hw⟩ := hc
  · exact .refl hwrote.loans
  · exact (fillCell_sameTable hfill).wrote hwrote.loans
  · exact fillCell_wrote hwrote.loans hs hfill hw

/-- The fragments that `esdm_read_grid` reads: that of the cell, or those of the region if there is
none. -/
def ReadingGrid (env : Env V) (ds : Dataset V) (g : ℕ) (space : Dataspace) (r : ℕ) : Prop :=
  ∃ ds₁ found, findCellInHierarchy space ds.gridHeap.length g ds = .ok (ds₁, some found)
    ∧ ((space.getExtends, r) ∈ ds.table
      ∨ (space.getExtends ∉ ds.shapes ∧ Reading env ds₁ space r))

theorem readSingleFragmentBlocking_lends (h : Loans ds) (hr : (space.getExtends, r) ∈ ds.table)
    {status : Status}
    (hread : ds.readSingleFragmentBlocking env user space r = .ok (status, user', ds')) :
    Lends env (ReadFails env ds space fun r => (space.getExtends, r) ∈ ds.table) ds ds' := by
  obtain ⟨f, hf, hshape⟩ := h.table.fragment_eq hr
  obtain ⟨h', ht, hlent⟩ := enqueueRead_loans h (List.nodup_singleton r)
    (fun r' hr' => by rw [List.mem_singleton.1 hr']; exact ⟨f, hf, hshape ▸ hr⟩) hread
  refine .of_read ht (fun s => (hlent s).trans (or_congr_right ?_)) (.refl h')
  refine exists_congr fun r' => and_congr_left' (List.mem_singleton.trans ?_)
  constructor
  · rintro rfl
    exact hr
  · exact fun hr' => Option.some.inj
      ((h.table.lookup_eq_some_iff.2 hr').symm.trans (h.table.lookup_eq_some_iff.2 hr))

theorem readGrid_lends (hI : Inv ds) (hG : Grid.Geometry ds.table ds.gridHeap)
    (hset : ∀ f ∈ ds.fragments, f.Settled) (hs : ∀ d ∈ space.dim, 0 < d.size)
    (hd : space.dims = ds.dims) {status : Status}
    (h : ds.readGrid env g user space = .ok (status, user', ds')) :
    Lends env (ReadFails env ds space (ReadingGrid env ds g space)) ds ds' := by
  obtain ⟨ds₁, hal, hrest⟩ := readGrid_eq_ok h
  have hsame := Allocates.sameTable hal
  have hd₁ := hd.trans (Allocates.dims hal).symm
  have hsteps : Steps (fun _ => False) (fun _ _ => False) ds ds₁ := allocates_steps hal
  obtain ⟨hI₁, -⟩ := hsteps.inv (fun _ h => h.elim) hI
  have hG₁ := hsteps.geometry (fun _ _ h => h.elim) (fun _ h => h.elim) hI hG
  obtain ⟨h₁, hlent₁⟩ := (Loans.mk hI.table hset).congr hsame.table hsame.fragments
  refine .congr hsame.table hsame.fragments ?_
  rw [← ReadFails.congr hsame.fragments]
  obtain ⟨⟨grid, hg, hnone⟩, -, -, rfl⟩ | ⟨k, i, grid, cs, c, index, hfind, hF, hc⟩ := hrest
  · refine .of_read rfl (fun s => ?_) (.refl h₁)
    have hno : ¬ ReadFails env ds' space (ReadingGrid env ds g space) s := by
      rintro ⟨r, ⟨ds₂, found, hfind, -⟩, -⟩
      obtain hne | hnone := hnone
      · exact hne ((hI.grids.forest.node hg).axes.trans hd.symm)
      · rw [hfind] at hnone
        simp at hnone
    simp [hno]
  have hl : space.dims = grid.axes.length :=
    hd₁.trans (hI₁.grids.forest.node hF.heap).axes.symm
  have hreading : ReadingGrid env ds g space = fun r => (space.getExtends, r) ∈ ds₁.table
      ∨ (space.getExtends ∉ ds₁.shapes ∧ Reading env ds₁ space r) := by
    funext r
    rw [shapes_congr hsame.table, hsame.table, ReadingGrid, hfind]
    simp
  rw [hreading]
  have hregistered : ∀ r, (space.getExtends, r) ∈ ds₁.table →
      (fun r => (space.getExtends, r) ∈ ds₁.table
        ∨ (space.getExtends ∉ ds₁.shapes ∧ Reading env ds₁ space r))
        = fun r => (space.getExtends, r) ∈ ds₁.table := by
    intro r hr
    funext r'
    simp [mem_shapes.2 ⟨r, hr⟩]
  obtain ⟨r, hr, hread⟩ | ⟨rfl, r, ds₂, hr, hfill, hread⟩ | ⟨rfl, hnew, hread⟩ := hc
  · have hm := hF.mem_table hG₁ hl hr
    rw [hregistered r hm]
    exact readSingleFragmentBlocking_lends h₁ hm hread
  · have hm := mem_of_lookupForShape hr
    have hsame₂ := fillCell_sameTable hfill
    have hlends := readSingleFragmentBlocking_lends (h₁.congr hsame₂.table hsame₂.fragments).1
      (hsame₂.table ▸ hm) hread
    rw [ReadFails.congr hsame₂.fragments, hsame₂.table] at hlends
    rw [hregistered r hm]
    exact .congr hsame₂.table hsame₂.fragments hlends
  · obtain ⟨ret, ds₂, hblock, hio, -, hend⟩ := readEmptyCell_eq_ok hs hnew hread
    have hlends := readBlocking_lends hI₁ hG₁ h₁.settled hs hd₁ hblock
    have hunregistered : (fun r => (space.getExtends, r) ∈ ds₁.table
        ∨ (space.getExtends ∉ ds₁.shapes ∧ Reading env ds₁ space r)) = Reading env ds₁ space := by
      funext r
      have : (space.getExtends, r) ∉ ds₁.table := fun hr => hnew (mem_shapes.2 ⟨r, hr⟩)
      simp [this, hnew]
    rw [hunregistered]
    have hlent : ∀ s, ds₂.Lent s
        ↔ ds₁.Lent s ∨ ReadFails env ds₁ space (Reading env ds₁ space) s := by
      intro s
      rw [hlends.lent, shapes_congr hio.table_eq, ← and_assoc, and_not_self_iff, false_and,
        or_false]
    refine .of_read hio.table_eq hlent ?_
    obtain ⟨-, rfl⟩ | ⟨-, hs₂, -, ds₃, status₂, hfill, hw⟩ := hend
    · exact .refl hlends.loans
    · exact fillCell_wrote hlends.loans hs₂ hfill hw

end Grid

/-- The fragments that a call reads, and the space that it reads them into. -/
def Reads (ds : Dataset V) (c : Call V) (space : Dataspace) (r : ℕ) : Prop :=
  match c.op with
  | .read memspace _ => space = memspace.toDataspace ∧ Reading c.env ds space r
  | .readGrid g memspace _ => space = memspace.toDataspace ∧ ReadingGrid c.env ds g space r
  | _ => False

/-- No fragment of the dataset has a buffer that is not its own. -/
def BuffersOwned (ds : Dataset V) : Prop :=
  ∀ e ∈ ds.table, ∀ f, ds.fragment e.2 = .ok f → f.buf ≠ none → f.ownsBuf = true

/-- The tasks that are lent the user's buffer succeed: every fragment that the call creates is
stored, and every fragment that it reads straight into the buffer is retrieved. -/
structure LentTasksSucceed (ds : Dataset V) (c : Call V) (result : Result V) : Prop where
  update : ∀ s ∈ result.dataset.shapes, s ∉ ds.shapes → c.env.update s = .success
  retrieve : ∀ space r f, Reads ds c space r → ds.fragment r = .ok f → Direct f space →
    c.env.retrieve f.shape = .success

theorem buffersOwned_iff (hw : TableWf ds) : BuffersOwned ds ↔ ∀ s, ¬ ds.Lent s := by
  constructor
  · rintro h s ⟨r, f, hr, hf, hb, hown⟩
    obtain ⟨f', hf', -⟩ := hw.fragment_eq hr
    obtain rfl := Option.some.inj (hf.symm.trans (fragment_eq_ok.1 hf').1)
    rw [h _ hr f hf' hb] at hown
    cases hown
  · intro h e he f hf hb
    by_contra hown
    exact h e.1 ⟨e.2, f, he, (fragment_eq_ok.1 hf).1, hb, Bool.eq_false_of_not_eq_true hown⟩

theorem Lends.leave {F G : Hypercube → Prop} (h : Lends env F ds ds') (hFG : ∀ s, G s ↔ F s) :
    Lends env G ds ds'.leave := by
  obtain ⟨h', hlent⟩ := h.loans.leave
  refine ⟨h', fun s => ?_⟩
  rw [hlent, h.lent, hFG]
  rfl

theorem Lends.leave_of_not_reads {c : Call V} (h : Lends c.env (fun _ => False) ds ds')
    (hr : ∀ space r, ¬ Reads ds c space r) :
    Lends c.env (fun s => ∃ space, ReadFails c.env ds space (Reads ds c space) s) ds ds'.leave := by
  refine h.leave fun s => iff_false_intro ?_
  rintro ⟨space, r, hreads, -⟩
  exact hr space r hreads

/-- A call leaves its user's buffer with the fragments whose task has failed. -/
theorem step_lends (hI : Inv ds) (hG : Grid.Geometry ds.table ds.gridHeap)
    (hset : ∀ f ∈ ds.fragments, f.Settled) {c : Call V} {result : Result V}
    (h : ds.step c = .ok result) :
    Lends c.env (fun s => ∃ space, ReadFails c.env ds space (Reads ds c space) s) ds
      result.dataset := by
  have hloans : Loans ds := ⟨hI.table, hset⟩
  have hgrid : ∀ {ds' : Dataset V}, GridSteps (fun _ => True) (fun _ _ => True) ds ds' →
      Lends c.env (fun _ => False) ds ds' := fun hsteps =>
    (hsteps.sameTable.wrote hloans).lends
  obtain ⟨env, op⟩ := c
  cases op with
  | write space buf =>
    obtain ⟨_, -, h⟩ := Outcome.bind_eq_ok.1 h
    obtain ⟨ds', hx, hres⟩ := returns_eq_ok h
    rw [hres]
    exact (writeBlocking_wrote hloans hx).lends.leave_of_not_reads fun _ _ h => h
  | read space buf =>
    obtain ⟨_, hd, h⟩ := Outcome.bind_eq_ok.1 h
    obtain ⟨buffer, ds', hx, hres⟩ := returnsBuffer_eq_ok h
    rw [hres]
    refine (readBlocking_lends hI hG hset space.size_pos (eassert_eq_ok.1 hd) hx).leave ?_
    simp [ReadFails, Reads]
  | setFillValue value =>
    obtain ⟨ds', hx, hres⟩ := returns_eq_ok h
    obtain ⟨-, rfl⟩ := Prod.mk.inj (Except.ok.inj hx)
    rw [hres]
    have h' : Loans { ds with fillValue := value } := ⟨hI.table.congr rfl rfl, hset⟩
    have hw : Wrote env ds { ds with fillValue := value } := .of_lent_iff h' rfl fun _ => Iff.rfl
    exact hw.lends.leave_of_not_reads fun _ _ h => h
  | gridCreate dim =>
    obtain ⟨ds', hx, hres⟩ := returns_eq_ok h
    rw [hres]
    exact (hgrid (gridCreate_steps hx)).leave_of_not_reads fun _ _ h => h
  | gridCreateSubgrid g index =>
    obtain ⟨_, hl, h⟩ := Outcome.bind_eq_ok.1 h
    obtain ⟨ds', hx, hres⟩ := returns_eq_ok h
    rw [hres]
    exact (hgrid (gridCreateSubgrid_steps (eassert_eq_ok.1 hl) hx)).leave_of_not_reads
      fun _ _ h => h
  | gridSubdivideFixed g dim size allowIncomplete =>
    obtain ⟨ds', hx, hres⟩ := returns_eq_ok h
    rw [hres]
    exact (hgrid (gridSubdivideWith_steps (fun _ _ _ _ => trivial) hx)).leave_of_not_reads
      fun _ _ h => h
  | gridSubdivideFlexible g dim count =>
    obtain ⟨ds', hx, hres⟩ := returns_eq_ok h
    rw [hres]
    exact (hgrid (gridSubdivideWith_steps (fun _ _ _ _ => trivial) hx)).leave_of_not_reads
      fun _ _ h => h
  | gridSubdivide g dim bounds =>
    obtain ⟨ds', hx, hres⟩ := returns_eq_ok h
    obtain ⟨_, -, hx⟩ := Outcome.bind_eq_ok.1 hx
    rw [hres]
    exact (hgrid (gridSubdivideWith_steps (fun _ _ _ _ => trivial) hx)).leave_of_not_reads
      fun _ _ h => h
  | gridSerialize g =>
    obtain ⟨⟨ds₁, json⟩, hs, h⟩ := Outcome.bind_eq_ok.1 h
    obtain ⟨ds', hx, hres⟩ := returns_eq_ok h
    obtain ⟨-, rfl⟩ := Prod.mk.inj (Except.ok.inj hx)
    rw [hres]
    exact (hgrid (gridSerialize_steps hs)).leave_of_not_reads fun _ _ h => h
  | writeGrid g space buf =>
    obtain ⟨_, -, h⟩ := Outcome.bind_eq_ok.1 h
    obtain ⟨ds', hx, hres⟩ := returns_eq_ok h
    rw [hres]
    exact (writeGrid_wrote hI hset hx).lends.leave_of_not_reads fun _ _ h => h
  | readGrid g space buf =>
    obtain ⟨_, hd, h⟩ := Outcome.bind_eq_ok.1 h
    obtain ⟨buffer, ds', hx, hres⟩ := returnsBuffer_eq_ok h
    rw [hres]
    refine (readGrid_lends hI hG hset space.size_pos (eassert_eq_ok.1 hd) hx).leave ?_
    simp [ReadFails, Reads]

theorem step_buffersOwned_iff (hI : Inv ds) (hG : Grid.Geometry ds.table ds.gridHeap)
    (hset : ∀ f ∈ ds.fragments, f.Settled) {c : Call V} {result : Result V}
    (h : ds.step c = .ok result) (hown : BuffersOwned ds) :
    BuffersOwned result.dataset ↔ LentTasksSucceed ds c result := by
  have hlends := step_lends hI hG hset h
  have hnone := (buffersOwned_iff hI.table).1 hown
  rw [buffersOwned_iff hlends.loans.table]
  simp only [hlends.lent, hnone, false_or, not_or, not_exists, not_and, not_not]
  constructor
  · exact fun hs => ⟨fun s => (hs s).2, fun space r f hr hf hd => by_contra fun hfail =>
      (hs f.shape).1 space ⟨r, hr, f, hf, rfl, hd, hfail⟩⟩
  · rintro ⟨hupdate, hretrieve⟩ s
    refine ⟨?_, hupdate s⟩
    rintro space ⟨r, hr, f, hf, rfl, hd, hfail⟩
    exact hfail (hretrieve space r f hr hf hd)

/-- The invariant of the runs in which all buffers are owned. -/
structure OwnInv (ds : Dataset V) : Prop where
  inv : Inv ds
  geometry : Grid.Geometry ds.table ds.gridHeap
  settled : ∀ f ∈ ds.fragments, f.Settled
  owned : BuffersOwned ds

theorem init_ownInv (dataspace : Dataspace) (fillValue : Option V) :
    OwnInv (init dataspace fillValue) :=
  ⟨init_inv .., (run_geometry (show (init dataspace fillValue).run [] = .ok _ from rfl)).2,
    by simp [init], by simp [BuffersOwned, init]⟩

theorem OwnInv.step (hI : OwnInv ds) {c : Call V} {result : Result V} (h : ds.step c = .ok result)
    (hown : BuffersOwned result.dataset) : OwnInv result.dataset :=
  ⟨(step_inv hI.inv h).1, step_geometry hI.inv hI.geometry h,
    (step_lends hI.inv hI.geometry hI.settled h).loans.settled, hown⟩

/-- After every call of a run all buffers of fragments are their own, exactly if in every call the
tasks that were lent the user's buffer succeed. -/
theorem run_buffersOwned_iff (dataspace : Dataspace) (fillValue : Option V)
    (calls : List (Call V)) :
    EachStep (fun _ _ result => BuffersOwned result.dataset) (init dataspace fillValue) calls
      ↔ EachStep LentTasksSucceed (init dataspace fillValue) calls := by
  constructor
  · refine EachStep.of_invariant (I := OwnInv) (fun _ hI hown hstep => ?_) (init_ownInv ..)
    exact ⟨hI.step hstep hown,
      (step_buffersOwned_iff hI.inv hI.geometry hI.settled hstep hI.owned).1 hown⟩
  · refine EachStep.of_invariant (I := OwnInv) (fun _ hI hlent hstep => ?_) (init_ownInv ..)
    have hown := (step_buffersOwned_iff hI.inv hI.geometry hI.settled hstep hI.owned).2 hlent
    exact ⟨hI.step hstep hown, hown⟩

/-- A write whose backend fails leaves its buffer with the fragment. -/
theorem run_not_buffersOwned : ∃ result : Result ℕ,
    (init pairSpace none).step ⟨{ Env.calm 0 with update := fun _ => .error },
        .write (pairElement 0) fun _ => 7⟩ = .ok result
      ∧ result.status = .error ∧ ¬ BuffersOwned result.dataset := by
  refine ⟨_, rfl, rfl, fun h => ?_⟩
  have := h ([⟨0, 1⟩], 0) (List.mem_singleton_self _) _ rfl (by decide)
  cases this

end Dataset

end Esdm
