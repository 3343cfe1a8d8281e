import Esdm.Lib.Paint
import Esdm.Proofs.DirectIo
import Esdm.Proofs.Fragment

/-!
# The data of a fragment

A fragment that carries the values of an array has them in its backend, in C order, and in its own
buffer while it is loaded.  A task that reads the fragment puts them into the user's buffer,
straight or by way of a buffer of the fragment's own, and the fragment carries them still.
-/

namespace Esdm

namespace Dataspace

variable {space : Dataspace} {p : List ℤ}

/-- The position that a point has in C order. -/
def contiguousIndex (space : Dataspace) (p : List ℤ) : ℤ :=
  linearIndex space.dim (contiguousStride space.dim) p

theorem elementIndex_of_none (h : space.stride = none) (p : List ℤ) :
    space.elementIndex p = space.contiguousIndex p := by
  rw [elementIndex, getEffectiveStride, h, Option.getD_none, contiguousIndex]

theorem contiguousIndex_of_dim {other : Dataspace} (h : other.dim = space.dim) (p : List ℤ) :
    other.contiguousIndex p = space.contiguousIndex p := by
  rw [contiguousIndex, contiguousIndex, h]

theorem contiguousIndex_bounds (hp : p ∈ Hypercube.points space.getExtends) :
    0 ≤ space.contiguousIndex p ∧ space.contiguousIndex p < space.elementCount := by
  rw [contiguousIndex, linearIndex_contiguous]
  exact Radix.value_bounds (digits_relative hp)

theorem exists_relative {dim : List Dim} {is : List ℤ}
    (h : Radix.Digits is (dim.map Dim.size)) :
    ∃ p ∈ Hypercube.points (dim.map fun d => ⟨d.offset, d.offset + d.size⟩),
      relative dim p = is := by
  induction dim generalizing is with
  | nil =>
    obtain rfl := List.forall₂_nil_right_iff.1 h
    exact ⟨[], .nil, rfl⟩
  | cons d dim ih =>
    obtain ⟨i, is, hi, his, rfl⟩ := List.forall₂_cons_right_iff.1 h
    obtain ⟨p, hp, rfl⟩ := ih his
    refine ⟨(d.offset + i) :: p, .cons ⟨?_, ?_⟩ hp, ?_⟩
    · exact Int.le_add_of_nonneg_right hi.1
    · exact Int.add_lt_add_left hi.2 d.offset
    · simp [relative]

/-- All positions below the number of elements are taken. -/
theorem exists_contiguousIndex (hs : ∀ d ∈ space.dim, 0 < d.size) {q : ℤ} (h0 : 0 ≤ q)
    (h1 : q < space.elementCount) :
    ∃ p ∈ Hypercube.points space.getExtends, space.contiguousIndex p = q := by
  have hpos : ∀ n ∈ space.dim.map Dim.size, 0 < n := by
    intro n hn
    obtain ⟨d, hd, rfl⟩ := List.mem_map.1 hn
    exact hs d hd
  obtain ⟨is, hd, hv⟩ := Radix.exists_digits hpos h0 h1
  obtain ⟨p, hp, hrel⟩ := exists_relative hd
  refine ⟨p, hp, ?_⟩
  rw [contiguousIndex, linearIndex_contiguous, hrel, hv]

/-- A space that has no negative coordinates can be laid out in C order. -/
theorem exists_makeContiguous (h : ∀ d ∈ space.dim, 0 < d.size ∧ 0 ≤ d.offset) :
    ∃ contiguous, space.makeContiguous = .ok contiguous := by
  have hsub : ∀ q ∈ space.dim.zip space.dim, subspaceDim q.1 q.2 := by
    intro q hq
    obtain ⟨i, hi, hget⟩ := List.mem_iff_getElem.1 hq
    rw [List.getElem_zip] at hget
    obtain ⟨hsize, hoffset⟩ := h q.1 (hget ▸ List.getElem_mem _)
    have heq : q.2 = q.1 := by rw [← hget]
    rw [heq]
    exact ⟨by omega, by omega, by omega, by omega⟩
  exact ⟨_, if_pos ⟨rfl, hsub⟩⟩

theorem contiguousStride_pos : ∀ {dim : List Dim}, (∀ d ∈ dim, 0 < d.size) →
    ∀ s ∈ contiguousStride dim, 0 < s
  | [], _, s, hs => by simp at hs
  | d :: dim, h, s, hs => by
    rw [contiguousStride_cons, List.mem_cons] at hs
    rcases hs with rfl | hs
    · refine List.prod_pos fun n hn => ?_
      obtain ⟨e, he, rfl⟩ := List.mem_map.1 hn
      exact h e (List.mem_cons_of_mem d he)
    · exact contiguousStride_pos (fun e he => h e (List.mem_cons_of_mem d he)) s hs

/-- Strides that are absent or positive. -/
theorem getEffectiveStride_pos (hs : ∀ d ∈ space.dim, 0 < d.size)
    (h : ∀ l ∈ space.stride, ∀ s ∈ l, 0 < s) : ∀ s ∈ space.getEffectiveStride, 0 < s := by
  unfold getEffectiveStride
  rcases hst : space.stride with _ | l
  · exact contiguousStride_pos hs
  · exact h l hst

theorem not_backwards (h : ∀ s ∈ space.getEffectiveStride, 0 < s) :
    ¬ Dataset.Backwards space := by
  rintro ⟨q, hq, -, hneg⟩
  exact absurd (h q.2 (List.of_mem_zip hq).2) hneg.not_gt

end Dataspace

variable {V : Type}

section Copy

variable {cast : BasicType → BasicType → V → V} {sourceSpace destSpace : Dataspace}
  {source dest : Mem V} {A : List ℤ → Option V}

/-- A copy between spaces of one type paints the points that both have. -/
theorem copyData_paints (hd : sourceSpace.dims = destSpace.dims)
    (ht : destSpace.type = sourceSpace.type) (hov : (commonPoints sourceSpace destSpace).Nonempty)
    (hinj : Set.InjOn destSpace.elementIndex (commonPoints sourceSpace destSpace))
    (hdata : ∀ p ∈ commonPoints sourceSpace destSpace,
      A p = some (source (sourceSpace.elementIndex p))) :
    ∃ dest', copyData cast sourceSpace source destSpace dest = .ok (.success, dest')
      ∧ Paints destSpace.elementIndex A (commonPoints sourceSpace destSpace) dest dest' := by
  obtain ⟨dest', hok, hcopied⟩ := @copyData_copied V cast id sourceSpace destSpace source dest hd
    (if_pos ht) hov hinj
  refine ⟨dest', hok, fun p hp => ?_, hcopied.frame⟩
  rw [hcopied.common p hp, id, hdata p hp]

theorem commonPoints_of_dim (h : destSpace.dim = sourceSpace.dim) :
    commonPoints sourceSpace destSpace = Hypercube.points sourceSpace.getExtends := by
  rw [commonPoints, Dataspace.getExtends, Dataspace.getExtends, h, Set.inter_self]

end Copy

namespace Fragment

variable {A : List ℤ → Option V} {type : ElemType} {env : Env V} {f : Fragment V}
  {user data : Mem V}

/-- What a backend gets to store: the values in C order. -/
theorem exists_pack (hdim : ∀ d ∈ f.dataspace.dim, 0 < d.size ∧ 0 ≤ d.offset)
    (hview : f.view env user = some data)
    (hdata : ∀ p ∈ Hypercube.points f.shape, A p = some (data (f.dataspace.elementIndex p))) :
    ∃ packed, f.pack env user = .ok packed
      ∧ ∀ p ∈ Hypercube.points f.shape, A p = some (packed (f.dataspace.contiguousIndex p)) := by
  unfold pack
  rw [hview, access_some, Outcome.ok_bind]
  by_cases hstride : f.dataspace.stride = none
  · rw [if_pos hstride]
    refine ⟨data, rfl, fun p hp => ?_⟩
    rw [← Dataspace.elementIndex_of_none hstride, hdata p hp]
  · rw [if_neg hstride]
    obtain ⟨contiguous, hc⟩ := Dataspace.exists_makeContiguous hdim
    obtain ⟨ht, hcd, hcs⟩ := Dataspace.makeContiguous_eq_ok hc
    have hcommon := commonPoints_of_dim hcd
    have hne : (Hypercube.points f.shape).Nonempty :=
      Hypercube.points_nonempty_iff.2 (Dataspace.getExtends_not_isEmpty fun d hd => (hdim d hd).1)
    obtain ⟨packed, hok, hpaints⟩ := @copyData_paints V env.cast f.dataspace contiguous data
      env.garbage A (congrArg List.length hcd).symm ht (hcommon ▸ hne)
      ((Dataspace.elementIndex_injOn hcs).mono Set.inter_subset_right) (hcommon ▸ hdata)
    rw [hc]
    dsimp only
    rw [hok]
    refine ⟨packed, rfl, fun p hp => ?_⟩
    rw [hpaints.painted p (hcommon ▸ hp), Dataspace.elementIndex_of_none hcs,
      Dataspace.contiguousIndex_of_dim hcd]

theorem commit_of_pack {packed : Mem V} (hpack : f.pack env user = .ok packed)
    (hupdate : env.update f.shape = .success) :
    f.commit env user = .ok (.success, { f with
      status := .persistent
      stored := some packed
      id := some (f.id.getD (env.fragmentId f.shape)) }) := by
  rw [commit, hpack, Outcome.ok_bind, hupdate]
  rfl

/-- What a retrieve leaves behind the fragment's `buf`. -/
theorem exists_unpack {stored : Mem V}
    (hdim : ∀ d ∈ f.dataspace.dim, 0 < d.size ∧ 0 ≤ d.offset)
    (helements : f.elements = f.dataspace.elementCount) (hview : f.view env user = some data)
    (hinj : Set.InjOn f.dataspace.elementIndex (Hypercube.points f.shape))
    (hstored : ∀ p ∈ Hypercube.points f.shape,
      A p = some (stored (f.dataspace.contiguousIndex p))) :
    ∃ data', f.unpack env user stored = .ok (f.setView user data')
      ∧ Paints f.dataspace.elementIndex A (Hypercube.points f.shape) data data' := by
  have hsize : ∀ d ∈ f.dataspace.dim, 0 < d.size := fun d hd => (hdim d hd).1
  unfold unpack
  rw [hview, access_some, Outcome.ok_bind]
  by_cases hstride : f.dataspace.stride = none
  · rw [if_pos hstride]
    refine ⟨_, rfl, fun p hp => ?_, fun q hq => ?_⟩
    · obtain ⟨h0, h1⟩ := Dataspace.contiguousIndex_bounds hp
      rw [Dataspace.elementIndex_of_none hstride, memcpy, if_pos (by omega), zero_add, sub_zero,
        hstored p hp]
    · refine if_neg fun h => ?_
      obtain ⟨p, hp, hpq⟩ := Dataspace.exists_contiguousIndex hsize h.1 (by omega)
      exact hq p hp ((Dataspace.elementIndex_of_none hstride p).trans hpq)
  · rw [if_neg hstride]
    obtain ⟨contiguous, hc⟩ := Dataspace.exists_makeContiguous hdim
    obtain ⟨ht, hcd, hcs⟩ := Dataspace.makeContiguous_eq_ok hc
    have hext : contiguous.getExtends = f.shape := by
      rw [Dataspace.getExtends, hcd]
      rfl
    have hcommon : commonPoints contiguous f.dataspace = Hypercube.points f.shape := by
      rw [commonPoints_of_dim hcd.symm, hext]
    have hne : (Hypercube.points f.shape).Nonempty :=
      Hypercube.points_nonempty_iff.2 (Dataspace.getExtends_not_isEmpty hsize)
    have hindex : ∀ p ∈ Hypercube.points f.shape,
        A p = some (stored (contiguous.elementIndex p)) := by
      intro p hp
      rw [Dataspace.elementIndex_of_none hcs, hstored p hp, Dataspace.contiguousIndex_of_dim hcd]
    obtain ⟨data', hok, hpaints⟩ := @copyData_paints V env.cast contiguous f.dataspace stored
      data A (congrArg List.length hcd) ht.symm (hcommon ▸ hne) (hcommon ▸ hinj)
      (hcommon ▸ hindex)
    rw [hc]
    dsimp only
    rw [hok]
    exact ⟨data', rfl, hcommon ▸ hpaints⟩

theorem load_of_unpack {g f' : Fragment V} {user' stored : Mem V} (hs : f.status = .notLoaded)
    (hg : f.allocate env = .ok g) (hstored : g.stored = some stored)
    (hr : env.retrieve g.shape = .success) (ha : g.actualBytes = -1)
    (hu : g.unpack env user stored = .ok (f', user')) :
    f.load env user = .ok (.success, { f' with status := .persistent }, user') := by
  rw [load, if_neg (by simp [hs])]
  unfold retrieve
  rw [hs]
  dsimp only
  rw [hg]
  dsimp only
  rw [hstored, hr]
  dsimp only
  rw [if_neg (not_not.2 ha), hu]
  rfl

/-- The fragment is stored, and holds the values of `A` at its points. -/
structure Carries (A : List ℤ → Option V) (type : ElemType) (f : Fragment V) : Prop where
  type : f.dataspace.type = type
  dim : ∀ d ∈ f.dataspace.dim, 0 < d.size ∧ 0 ≤ d.offset
  stride : ∀ s ∈ f.dataspace.getEffectiveStride, 0 < s
  backend : f.backend ≠ none
  elements : f.elements = f.dataspace.elementCount
  actualBytes : f.actualBytes = -1
  stored : ∃ stored, f.stored = some stored
    ∧ ∀ p ∈ Hypercube.points f.shape, A p = some (stored (f.dataspace.contiguousIndex p))
  loaded : (f.status = .notLoaded ∧ f.buf = none)
    ∨ (f.status = .persistent ∧ ∃ data, f.buf = some (.owned data)
      ∧ ∀ p ∈ Hypercube.points f.shape, A p = some (data (f.dataspace.elementIndex p)))

/-- The fragment has its values in a buffer of its own. -/
structure Loaded (A : List ℤ → Option V) (type : ElemType) (f : Fragment V) : Prop
    extends Carries A type f where
  data : ∃ data, f.buf = some (.owned data)
    ∧ ∀ p ∈ Hypercube.points f.shape, A p = some (data (f.dataspace.elementIndex p))

/-- The fragment fits into the user's buffer as it is, from the element `i` on. -/
structure Aimed (A : List ℤ → Option V) (space : Dataspace) (i : ℤ) (f : Fragment V) : Prop
    extends Carries A space.type f where
  status : f.status = .notLoaded
  buf : f.buf = none
  place : ∀ p ∈ Hypercube.points f.shape, p ∈ Hypercube.points space.getExtends
    ∧ space.elementIndex p = i + f.dataspace.elementIndex p

namespace Carries

theorem allocate (h : f.Carries A type) (hbuf : f.buf = none) :
    ∃ space, f.allocate env
        = .ok { f with dataspace := space, buf := some (.owned env.garbage), ownsBuf := true }
      ∧ space.type = f.dataspace.type ∧ space.dim = f.dataspace.dim ∧ space.stride = none := by
  unfold Fragment.allocate
  rw [hbuf]
  dsimp only
  by_cases hstride : f.dataspace.stride = none
  · rw [if_pos hstride]
    exact ⟨_, rfl, rfl, rfl, hstride⟩
  · rw [if_neg hstride]
    obtain ⟨contiguous, hc⟩ := Dataspace.exists_makeContiguous h.dim
    rw [hc]
    exact ⟨_, rfl, Dataspace.makeContiguous_eq_ok hc⟩

/-- Loaded into a buffer of its own, or there already. -/
theorem load (h : f.Carries A type) (hr : ∀ s, env.retrieve s = .success) (user : Mem V) :
    ∃ f', f.load env user = .ok (.success, f', user) ∧ f'.Loaded A type := by
  obtain ⟨hs, hbuf⟩ | ⟨hs, data, hbuf, hdata⟩ := h.loaded
  · obtain ⟨space, ha, ht, hd, hst⟩ := @allocate V A type env f h hbuf
    obtain ⟨stored, hstored, hvalues⟩ := h.stored
    have hshape : space.getExtends = f.shape := by
      rw [Dataspace.getExtends, hd]
      rfl
    have hdim : ∀ d ∈ space.dim, 0 < d.size ∧ 0 ≤ d.offset := hd ▸ h.dim
    have hcount : f.elements = space.elementCount := by
      rw [h.elements, Dataspace.elementCount, Dataspace.elementCount, hd]
    have hcontiguous : ∀ p ∈ Hypercube.points space.getExtends,
        A p = some (stored (space.contiguousIndex p)) := by
      rw [hshape]
      intro p hp
      rw [hvalues p hp, Dataspace.contiguousIndex_of_dim hd]
    obtain ⟨data, hu, hpaints⟩ := @exists_unpack V A env
      { f with dataspace := space, buf := some (.owned env.garbage), ownsBuf := true } user
      env.garbage stored hdim hcount rfl (Dataspace.elementIndex_injOn hst) hcontiguous
    refine ⟨_, load_of_unpack hs ha hstored (hr _) h.actualBytes hu, ?_, data, rfl,
      hpaints.painted⟩
    exact ⟨ht.trans h.type, hdim, Dataspace.getEffectiveStride_pos (fun d hd => (hdim d hd).1)
      (by simp [hst]), h.backend, hcount, h.actualBytes, ⟨stored, hstored, hcontiguous⟩,
      .inr ⟨rfl, data, rfl, hpaints.painted⟩⟩
  · refine ⟨f, ?_, h, data, hbuf, hdata⟩
    rw [Fragment.load, if_neg (by simp [hs]), retrieve, hs]
    rfl

end Carries

variable {space : Dataspace} {i : ℤ}

/-- What a copy out of the buffer does. -/
theorem Loaded.copy (h : f.Loaded A space.type) (hd : f.dataspace.dims = space.dims)
    (hov : (commonPoints f.dataspace space).Nonempty)
    (hinj : Set.InjOn space.elementIndex (Hypercube.points space.getExtends)) (user : Mem V) :
    ∃ data user', f.view env user = some data
      ∧ copyData env.cast f.dataspace data space user = .ok (.success, user')
      ∧ Paints space.elementIndex A (commonPoints f.dataspace space) user user' := by
  obtain ⟨data, hbuf, hdata⟩ := h.data
  obtain ⟨user', hcopy, hpaints⟩ := @copyData_paints V env.cast f.dataspace space data user A hd
    h.type.symm hov (hinj.mono Set.inter_subset_right) fun p hp => hdata p hp.1
  exact ⟨data, user', by rw [view, hbuf], hcopy, hpaints⟩

namespace Aimed

/-- Loaded straight into the user's buffer. -/
theorem load (h : f.Aimed A space i) (hr : ∀ s, env.retrieve s = .success)
    (hinj : Set.InjOn space.elementIndex (Hypercube.points space.getExtends)) (user : Mem V) :
    ∃ user', Fragment.load env { f with buf := some (.user i) } user
        = .ok (.success, { f with buf := some (.user i), status := .persistent }, user')
      ∧ Paints space.elementIndex A (Hypercube.points f.shape) user user' := by
  have hinj' : Set.InjOn f.dataspace.elementIndex (Hypercube.points f.shape) := by
    intro p hp p' hp' heq
    refine hinj (h.place p hp).1 (h.place p' hp').1 ?_
    rw [(h.place p hp).2, (h.place p' hp').2, heq]
  obtain ⟨stored, hstored, hvalues⟩ := h.stored
  obtain ⟨data, hu, hpaints⟩ := @exists_unpack V A env { f with buf := some (.user i) } user
    (fun q => user (i + q)) stored h.dim h.elements rfl hinj' hvalues
  have hload := @load_of_unpack V env { f with buf := some (.user i) } user
    { f with buf := some (.user i) } _ _ stored h.status rfl hstored (hr _) h.actualBytes hu
  refine ⟨fun q => data (q - i), hload, fun p hp => ?_, fun q hq => ?_⟩
  · rw [(h.place p hp).2, add_sub_cancel_left]
    exact hpaints.painted p hp
  · have hkept := hpaints.kept (q - i) fun p hp he => hq p hp (by
      rw [(h.place p hp).2, he, add_sub_cancel])
    rw [hkept, add_sub_cancel]

/-- The buffer is given back to the user. -/
theorem unload (h : f.Aimed A space i) (user : Mem V) :
    ∃ f', Fragment.unload env { f with buf := some (.user i), status := .persistent } user
        = .ok (.success, f')
      ∧ f'.Carries A space.type :=
  ⟨_, rfl, h.type, h.dim, h.stride, h.backend, h.elements, h.actualBytes, h.stored,
    .inl ⟨rfl, rfl⟩⟩

theorem commonPoints_eq (h : f.Aimed A space i) :
    commonPoints f.dataspace space = Hypercube.points f.shape :=
  Set.inter_eq_left.2 fun p hp => (h.place p hp).1

end Aimed

end Fragment

namespace Dataset

variable {A : List ℤ → Option V} {env : Env V} {f : Fragment V} {space : Dataspace}

section Read

/-- A fragment that is loaded already is not loaded into the user's buffer. -/
theorem tryDirectIo_of_isSome (ht : f.dataspace.type = space.type)
    (hd : f.dataspace.dims = space.dims) (hov : (commonPoints f.dataspace space).Nonempty)
    (hbuf : f.buf.isSome) : tryDirectIo f space = .ok (false, f) := by
  obtain ⟨i, -, hi, -⟩ := copyInstructions_moved hd hov
  unfold tryDirectIo
  rw [if_neg (not_not.2 ht), hi, Outcome.ok_bind]
  dsimp only
  rw [if_pos hbuf]
  split_ifs <;> rfl

variable (h : f.Carries A space.type) (hd : f.dataspace.dims = space.dims)
  (hov : (commonPoints f.dataspace space).Nonempty)

include h hd hov

/-- Whether the fragment is loaded straight into the user's buffer. -/
theorem tryDirectIo_cases : tryDirectIo f space = .ok (false, f)
    ∨ ∃ i, tryDirectIo f space = .ok (true, { f with buf := some (.user i) })
      ∧ f.Aimed A space i := by
  obtain ⟨hs, hbuf⟩ | ⟨-, data, hbuf, -⟩ := h.loaded
  · by_cases hsingle : ∃ i, SingleChunk f.dataspace space i
    · obtain ⟨i, hi⟩ := hsingle
      obtain ⟨hoff, hpts⟩ := hi.spec hd hov
      have hzero := hoff.2 (Dataspace.not_backwards h.stride)
      refine .inr ⟨i.destOffset, ?_, h, hs, hbuf, fun p hp => ⟨(hpts p hp).1, ?_⟩⟩
      · rw [tryDirectIo_of_single hbuf h.type hi, eassert_of hzero]
        rfl
      · have := (hpts p hp).2
        omega
    · exact .inl (tryDirectIo_of_not_single h.type hd hov (not_exists.1 hsingle))
  · exact .inl (tryDirectIo_of_isSome h.type hd hov (by simp [hbuf]))

/-- A task that reads puts the values into the user's buffer. -/
theorem exists_readFragment (hr : ∀ s, env.retrieve s = .success)
    (hinj : Set.InjOn space.elementIndex (Hypercube.points space.getExtends)) (user : Mem V) :
    ∃ f' user', readFragment env f user space = .ok (.success, f', user')
      ∧ f'.Carries A space.type
      ∧ Paints space.elementIndex A (commonPoints f.dataspace space) user user' := by
  obtain ⟨b, hb⟩ := Option.ne_none_iff_exists'.1 h.backend
  have hbackend : access f.backend = .ok b := by rw [hb, access_some]
  unfold readFragment
  obtain htry | ⟨i, htry, haim⟩ := tryDirectIo_cases h hd hov
  · obtain ⟨f', hload, hloaded⟩ := h.load hr user
    have hkeeps := Fragment.load_keeps hload
    have hcommon : commonPoints f'.dataspace space = commonPoints f.dataspace space :=
      congrArg (Hypercube.points · ∩ Hypercube.points space.getExtends) hkeeps.shape
    obtain ⟨data, user', hview, hcopy, hpaints⟩ := @Fragment.Loaded.copy V A env f' space hloaded
      ((congrArg List.length hkeeps.dim).trans hd) (hcommon ▸ hov) hinj user
    refine ⟨f', user', ?_, hloaded.toCarries, hcommon ▸ hpaints⟩
    rw [htry, Outcome.ok_bind]
    dsimp only
    rw [hbackend, Outcome.ok_bind, hload, Outcome.ok_bind]
    dsimp only
    rw [if_neg (by simp), hview, access_some, Outcome.ok_bind, hcopy]
    rfl
  · obtain ⟨user', hload, hpaints⟩ := haim.load hr hinj user
    obtain ⟨f', hunload, hf'⟩ := @Fragment.Aimed.unload V A env f space i haim user'
    refine ⟨f', user', ?_, hf', haim.commonPoints_eq ▸ hpaints⟩
    rw [htry, Outcome.ok_bind]
    dsimp only
    rw [hbackend, Outcome.ok_bind, hload, Outcome.ok_bind]
    dsimp only
    rw [if_pos rfl, hunload]
    rfl

end Read

section Write

variable {ds : Dataset V} {user : Mem V} {i : ℤ} {r : ℕ}

/-- A task that writes a new fragment stores the values. -/
theorem exists_writeFragmentNonblocking (hupdate : ∀ s, env.update s = .success)
    (hdim : ∀ d ∈ space.dim, 0 < d.size ∧ 0 ≤ d.offset)
    (hstride : ∀ s ∈ space.getEffectiveStride, 0 < s)
    (hdata : ∀ p ∈ Hypercube.points space.getExtends, A p = some (user (i + space.elementIndex p)))
    {backend : Option Backend}
    (hf : ds.fragment r = .ok { newFragment space (some (.user i)) with backend := backend })
    (status : Status) :
    ∃ f', ds.writeFragmentNonblocking env r user status = .ok (status, ds.setFragment r f')
      ∧ f'.Carries A space.type
      ∧ Fragment.Keeps { newFragment space (some (.user i)) with backend := backend } f' := by
  obtain ⟨packed, hpack, hvalues⟩ := @Fragment.exists_pack V A env
    { newFragment space (some (.user i)) with
      backend := some (backend.getD env.fastestBackend) } user
    (fun q => user (i + q)) hdim rfl hdata
  have hcommit := Fragment.commit_of_pack hpack (hupdate _)
  refine ⟨_, by
    rw [writeFragmentNonblocking, hf, Outcome.ok_bind]
    dsimp only
    rw [hcommit, Outcome.ok_bind]
    rfl, ?_, ?_⟩
  · exact ⟨rfl, hdim, hstride, Option.some_ne_none _, rfl, rfl, ⟨packed, rfl, hvalues⟩,
      .inl ⟨rfl, rfl⟩⟩
  · refine ⟨rfl, rfl, rfl, rfl, rfl, fun h => absurd rfl h, fun _ h => ?_, fun b hb => ?_⟩
    · simp [newFragment] at h
    · dsimp only at hb
      rw [hb, Option.getD_some]

end Write

end Dataset

end Esdm
