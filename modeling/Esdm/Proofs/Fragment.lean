import Esdm.Scheduler

/-!
# What the operations on a fragment leave alone

Loading, storing and unloading a fragment changes where its data is.  Its extent, its element type
and its place in the backend stay the same.
-/

namespace Esdm

variable {V : Type}

theorem Dataspace.makeContiguous_eq_ok {space space' : Dataspace}
    (h : space.makeContiguous = .ok space') :
    space'.type = space.type ∧ space'.dim = space.dim ∧ space'.stride = none := by
  unfold Dataspace.makeContiguous Dataspace.subspace at h
  split_ifs at h
  obtain rfl := Except.ok.inj h
  exact ⟨rfl, rfl, rfl⟩

namespace Fragment

variable {env : Env V} {f f' : Fragment V} {user user' : Mem V}

/-- What no operation changes about a fragment; what it has got once, it does not lose. -/
structure Keeps (f f' : Fragment V) : Prop where
  dim : f'.dataspace.dim = f.dataspace.dim
  type : f'.dataspace.type = f.dataspace.type
  freed : f'.freed = f.freed
  bytes : f'.bytes = f.bytes
  actualBytes : f'.actualBytes = f.actualBytes
  stored : f.stored ≠ none → f'.stored ≠ none
  id : ∀ i, f.id = some i → f'.id = some i
  backend : ∀ b, f.backend = some b → f'.backend = some b

namespace Keeps

theorem refl (f : Fragment V) : Keeps f f :=
  ⟨rfl, rfl, rfl, rfl, rfl, fun h => h, fun _ h => h, fun _ h => h⟩

theorem trans {f₁ f₂ f₃ : Fragment V} (h : Keeps f₁ f₂) (h' : Keeps f₂ f₃) : Keeps f₁ f₃ :=
  ⟨h'.dim.trans h.dim, h'.type.trans h.type, h'.freed.trans h.freed, h'.bytes.trans h.bytes,
    h'.actualBytes.trans h.actualBytes, fun hs => h'.stored (h.stored hs),
    fun i hi => h'.id i (h.id i hi), fun b hb => h'.backend b (h.backend b hb)⟩

theorem shape (h : Keeps f f') : f'.shape = f.shape := by
  simp only [Fragment.shape, Dataspace.getExtends, h.dim]

end Keeps

theorem setView_keeps (f : Fragment V) (user data : Mem V) : Keeps f (f.setView user data).1 := by
  unfold setView
  split
  · exact .refl f
  · exact .refl f
  · exact ⟨rfl, rfl, rfl, rfl, rfl, fun h => h, fun _ h => h, fun _ h => h⟩
  · exact .refl f

theorem unpack_keeps {stored : Mem V} (h : f.unpack env user stored = .ok (f', user')) :
    Keeps f f' := by
  unfold unpack at h
  obtain ⟨data, -, h⟩ := Outcome.bind_eq_ok.1 h
  split_ifs at h
  · have := setView_keeps f user (memcpy (fun v => v) data 0 stored 0 f.elements)
    rwa [Except.ok.inj h] at this
  · split at h
    · simp at h
    · obtain ⟨⟨status, data'⟩, -, h⟩ := Outcome.bind_eq_ok.1 h
      have := setView_keeps f user data'
      rwa [Except.ok.inj h] at this

theorem allocate_keeps (h : f.allocate env = .ok f') : Keeps f f' := by
  unfold allocate at h
  split at h
  · obtain rfl := Except.ok.inj h
    exact .refl f
  · split at h
    · cases h
    · rename_i space hs
      obtain rfl := Except.ok.inj h
      split_ifs at hs
      · obtain rfl := Except.ok.inj hs
        exact ⟨rfl, rfl, rfl, rfl, rfl, fun h => h, fun _ h => h, fun _ h => h⟩
      · obtain ⟨ht, hd, -⟩ := Dataspace.makeContiguous_eq_ok hs
        exact ⟨hd, ht, rfl, rfl, rfl, fun h => h, fun _ h => h, fun _ h => h⟩

theorem retrieve_keeps {ret : Status} (h : f.retrieve env user = .ok (ret, f', user')) :
    Keeps f f' := by
  unfold retrieve at h
  split at h
  · obtain ⟨-, rfl, -⟩ := Prod.mk.inj (Except.ok.inj h)
    exact .refl f
  · obtain ⟨-, rfl, -⟩ := Prod.mk.inj (Except.ok.inj h)
    exact .refl f
  · obtain ⟨-, rfl, -⟩ := Prod.mk.inj (Except.ok.inj h)
    exact .refl f
  · split at h
    · obtain ⟨-, rfl, -⟩ := Prod.mk.inj (Except.ok.inj h)
      exact .refl f
    · rename_i f₁ ha
      have hk := allocate_keeps ha
      split at h
      · split_ifs at h
        · obtain ⟨-, rfl, -⟩ := Prod.mk.inj (Except.ok.inj h)
          exact hk
        · obtain ⟨⟨f₂, user₂⟩, hu, h⟩ := Outcome.bind_eq_ok.1 h
          obtain ⟨-, rfl, -⟩ := Prod.mk.inj (Except.ok.inj h)
          have hk' := unpack_keeps hu
          exact hk.trans ⟨hk'.dim, hk'.type, hk'.freed, hk'.bytes, hk'.actualBytes, hk'.stored,
            hk'.id, hk'.backend⟩
      · obtain ⟨-, rfl, -⟩ := Prod.mk.inj (Except.ok.inj h)
        exact hk
      · obtain ⟨-, rfl, -⟩ := Prod.mk.inj (Except.ok.inj h)
        exact hk

theorem load_keeps {ret : Status} (h : f.load env user = .ok (ret, f', user')) : Keeps f f' := by
  unfold load at h
  split_ifs at h
  · obtain ⟨-, rfl, -⟩ := Prod.mk.inj (Except.ok.inj h)
    exact .refl f
  · exact retrieve_keeps h

/-- A commit that succeeds leaves the packed data in the backend, one that fails nothing. -/
theorem commit_eq_ok {ret : Status} (h : f.commit env user = .ok (ret, f')) :
    ret = env.update f.shape ∧ Keeps f f' ∧ f'.buf = f.buf ∧ f'.dataspace = f.dataspace
      ∧ (ret = .success → ∃ packed, f.pack env user = .ok packed ∧ f'.status = .persistent
        ∧ f'.stored = some packed ∧ f'.id ≠ none)
      ∧ (ret ≠ .success → f'.stored = f.stored ∧ f'.status = f.status) := by
  unfold commit at h
  obtain ⟨packed, hp, h⟩ := Outcome.bind_eq_ok.1 h
  split at h
  · rename_i hu
    obtain ⟨rfl, rfl⟩ := Prod.mk.inj (Except.ok.inj h)
    refine ⟨hu.symm, ⟨rfl, rfl, rfl, rfl, rfl, fun _ => by simp, fun i hi => ?_, fun _ h => h⟩,
      rfl, rfl, fun _ => ⟨packed, hp, rfl, rfl, by simp⟩, fun h => absurd rfl h⟩
    simp [hi]
  · rename_i hu
    obtain ⟨rfl, rfl⟩ := Prod.mk.inj (Except.ok.inj h)
    refine ⟨rfl, ⟨rfl, rfl, rfl, rfl, rfl, fun h => h, fun i hi => ?_, fun _ h => h⟩, rfl, rfl,
      fun h => absurd h hu, fun _ => ⟨rfl, rfl⟩⟩
    simp [hi]

theorem unload_keeps {ret : Status} (h : f.unload env user = .ok (ret, f')) : Keeps f f' := by
  have hdrop : ∀ f : Fragment V,
      Keeps f { f with buf := none, ownsBuf := false, status := .notLoaded } := fun _ =>
    ⟨rfl, rfl, rfl, rfl, rfl, fun h => h, fun _ h => h, fun _ h => h⟩
  unfold unload at h
  split at h
  · obtain ⟨-, rfl⟩ := Prod.mk.inj (Except.ok.inj h)
    exact .refl f
  · obtain ⟨-, rfl⟩ := Prod.mk.inj (Except.ok.inj h)
    exact .refl f
  · obtain ⟨-, rfl⟩ := Prod.mk.inj (Except.ok.inj h)
    exact hdrop f
  · obtain ⟨⟨status, f₁⟩, hc, h⟩ := Outcome.bind_eq_ok.1 h
    have hk := (commit_eq_ok hc).2.1
    split at h
    · rename_i heq
      obtain ⟨-, rfl⟩ := Prod.mk.inj heq
      obtain ⟨-, rfl⟩ := Prod.mk.inj (Except.ok.inj h)
      exact hk.trans (hdrop _)
    · rename_i heq
      obtain ⟨-, rfl⟩ := Prod.mk.inj heq
      obtain ⟨-, rfl⟩ := Prod.mk.inj (Except.ok.inj h)
      exact hk

end Fragment

namespace Dataset

variable {env : Env V} {f f' : Fragment V} {user user' : Mem V} {space : Dataspace}

theorem tryDirectIo_eq_ok {direct : Bool} (h : tryDirectIo f space = .ok (direct, f')) :
    (direct = false ∧ f' = f)
      ∨ (direct = true ∧ f.buf = none ∧ f.dataspace.type = space.type
        ∧ ∃ i, copyInstructions f.dataspace space = .ok (some i) ∧ i.loops = []
          ∧ f.dataspace.elementCount = i.chunkSize ∧ i.sourceOffset = 0
          ∧ f' = { f with buf := some (.user i.destOffset) }) := by
  unfold tryDirectIo at h
  by_cases ht : f.dataspace.type ≠ space.type
  · rw [if_pos ht] at h
    obtain ⟨rfl, rfl⟩ := Prod.mk.inj (Except.ok.inj h)
    exact .inl ⟨rfl, rfl⟩
  · rw [if_neg ht] at h
    obtain ⟨i, hi, h⟩ := Outcome.bind_eq_ok.1 h
    rcases i with _ | i
    · cases h
    · dsimp only at h
      split_ifs at h with h1 h2 h3
      · obtain ⟨rfl, rfl⟩ := Prod.mk.inj (Except.ok.inj h)
        exact .inl ⟨rfl, rfl⟩
      · obtain ⟨rfl, rfl⟩ := Prod.mk.inj (Except.ok.inj h)
        exact .inl ⟨rfl, rfl⟩
      · obtain ⟨rfl, rfl⟩ := Prod.mk.inj (Except.ok.inj h)
        exact .inl ⟨rfl, rfl⟩
      · obtain ⟨_, ho, h⟩ := Outcome.bind_eq_ok.1 h
        obtain ⟨rfl, rfl⟩ := Prod.mk.inj (Except.ok.inj h)
        exact .inr ⟨rfl, by simpa using h3, not_not.1 ht, i, hi, not_not.1 h1, not_not.1 h2,
          eassert_eq_ok.1 ho, rfl⟩

theorem tryDirectIo_keeps {direct : Bool} (h : tryDirectIo f space = .ok (direct, f')) :
    f.Keeps f' := by
  obtain ⟨-, rfl⟩ | ⟨-, -, -, i, -, -, -, -, rfl⟩ := tryDirectIo_eq_ok h
  · exact .refl _
  · exact ⟨rfl, rfl, rfl, rfl, rfl, fun h => h, fun _ h => h, fun _ h => h⟩

/-- A task that reads: the fragment is loaded, and unloaded again if its data is in the user's
buffer already. -/
theorem readFragment_eq_ok {ret : Status}
    (h : readFragment env f user space = .ok (ret, f', user')) :
    ∃ direct f₁ f₂ user₂, tryDirectIo f space = .ok (direct, f₁)
      ∧ f₁.load env user = .ok (ret, f₂, user₂)
      ∧ ((direct = true ∧ ret = .success ∧ ∃ status, f₂.unload env user₂ = .ok (status, f'))
        ∨ ((direct = false ∨ ret ≠ .success) ∧ f' = f₂)) := by
  unfold readFragment at h
  obtain ⟨⟨direct, f₁⟩, hd, h⟩ := Outcome.bind_eq_ok.1 h
  obtain ⟨-, -, h⟩ := Outcome.bind_eq_ok.1 h
  obtain ⟨⟨status, f₂, user₂⟩, hl, h⟩ := Outcome.bind_eq_ok.1 h
  refine ⟨direct, f₁, f₂, user₂, hd, ?_⟩
  split at h
  · rename_i heq
    obtain ⟨rfl, rfl, rfl⟩ := Prod.mk.inj heq
    split_ifs at h with hdirect
    · obtain ⟨⟨status, f₃⟩, hu, h⟩ := Outcome.bind_eq_ok.1 h
      obtain ⟨rfl, rfl, -⟩ := Prod.mk.inj (Except.ok.inj h)
      exact ⟨hl, .inl ⟨hdirect, rfl, status, hu⟩⟩
    · obtain ⟨data, -, h⟩ := Outcome.bind_eq_ok.1 h
      obtain ⟨⟨_, user₃⟩, -, h⟩ := Outcome.bind_eq_ok.1 h
      obtain ⟨rfl, rfl, -⟩ := Prod.mk.inj (Except.ok.inj h)
      exact ⟨hl, .inr ⟨.inl (Bool.eq_false_of_not_eq_true hdirect), rfl⟩⟩
  · rename_i hne heq
    obtain ⟨rfl, rfl, rfl⟩ := Prod.mk.inj heq
    obtain ⟨rfl, rfl, -⟩ := Prod.mk.inj (Except.ok.inj h)
    exact ⟨hl, .inr ⟨.inr hne, rfl⟩⟩

theorem readFragment_keeps {ret : Status}
    (h : readFragment env f user space = .ok (ret, f', user')) : f.Keeps f' := by
  obtain ⟨direct, f₁, f₂, user₂, hd, hl, ⟨-, -, _, hu⟩ | ⟨-, rfl⟩⟩ := readFragment_eq_ok h
  · exact (tryDirectIo_keeps hd).trans ((Fragment.load_keeps hl).trans (Fragment.unload_keeps hu))
  · exact (tryDirectIo_keeps hd).trans (Fragment.load_keeps hl)

end Dataset

end Esdm
