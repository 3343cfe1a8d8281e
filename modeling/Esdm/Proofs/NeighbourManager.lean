import Mathlib.Data.List.Count
import Mathlib.Data.List.Forall2
import Mathlib.Data.List.Induction
import Esdm.NeighbourManager
import Esdm.Proofs.BoundTree

/-!
# The neighbour lists are exact

When a hypercube is added, the bound lists lead to another one as often as the two share a bound.
Two that touch share exactly one, so the other one is visited once, and both lists get one entry.
What the lists hold is counted: `Recorded` adds up over the dimensions.
-/

namespace Esdm

section Touches

/-- How often one of the ranges ends where the other one starts. -/
def Range.sharedBounds (r s : Range) : ℕ :=
  (if s.stop = r.start then 1 else 0) + if s.start = r.stop then 1 else 0

/-- How many bounds two hypercubes share. -/
def Hypercube.sharedBounds (a b : Hypercube) : ℕ := (List.zipWith Range.sharedBounds a b).sum

theorem Range.sharedBounds_eq {r s : Range} (hr : ¬ r.isEmpty) (hs : ¬ s.isEmpty) :
    r.sharedBounds s = if r.start = s.stop ∨ r.stop = s.start then 1 else 0 := by
  simp only [isEmpty, ge_iff_le, not_le] at hr hs
  unfold sharedBounds
  split_ifs <;> omega

theorem Range.isEmpty_intersection_comm (r s : Range) :
    (r.intersection s).isEmpty ↔ (s.intersection r).isEmpty := by
  simp only [isEmpty, intersection]
  split_ifs <;> omega

namespace Hypercube

/-- The loop finds one shared bound, if it had not found one before. -/
theorem sharedBounds_of_boundDim {a b : Hypercube} (hlen : a.length = b.length)
    (ha : ∀ r ∈ a, ¬ r.isEmpty) (hb : ∀ s ∈ b, ¬ s.isEmpty) {i dim : ℕ} {found : Option ℕ}
    (h : boundDim i found a b = some dim) :
    a.sharedBounds b = if found.isSome then 0 else 1 := by
  induction a generalizing b i found with
  | nil =>
    rw [boundDim] at h
    · simp [h, sharedBounds]
    · simp
  | cons r a ih =>
    rcases b with _ | ⟨s, b⟩
    · simp at hlen
    have hrest := fun i found => @ih b (Nat.succ.inj hlen) (fun r hr => ha r (.tail _ hr))
      (fun s hs => hb s (.tail _ hs)) i found
    rw [boundDim] at h
    rw [sharedBounds, List.zipWith_cons_cons, List.sum_cons, ← sharedBounds,
      Range.sharedBounds_eq (ha r (.head _)) (hb s (.head _))]
    by_cases hrs : r.start = s.stop ∨ r.stop = s.start
    · rw [if_pos hrs] at h ⊢
      split_ifs at h with hfound
      rw [hrest _ _ h, if_neg hfound]
      rfl
    · rw [if_neg hrs] at h ⊢
      rw [hrest _ _ h, Nat.zero_add]

/-- Two hypercubes that touch share one bound. -/
theorem sharedBounds_of_touches {a b : Hypercube} (hlen : a.length = b.length) (ha : ¬ a.isEmpty)
    (hb : ¬ b.isEmpty) (h : a.touches b = true) : a.sharedBounds b = 1 := by
  simp only [isEmpty, not_exists, not_and] at ha hb
  unfold touches at h
  cases hdim : boundDim 0 none a b with
  | none => simp [hdim] at h
  | some dim => exact sharedBounds_of_boundDim hlen ha hb hdim

theorem boundDim_comm (a b : Hypercube) (i : ℕ) (found : Option ℕ) :
    boundDim i found a b = boundDim i found b a := by
  induction a generalizing b i found with
  | nil => rcases b <;> rfl
  | cons r a ih =>
    rcases b with _ | ⟨s, b⟩
    · rfl
    · rw [boundDim, boundDim, ih, ih]
      simp only [eq_comm, or_comm]

theorem overlapElsewhere_comm (a b : Hypercube) (dim i : ℕ) :
    overlapElsewhere dim i a b = overlapElsewhere dim i b a := by
  induction a generalizing b i with
  | nil => rcases b <;> rfl
  | cons r a ih =>
    rcases b with _ | ⟨s, b⟩
    · rfl
    · simp only [overlapElsewhere, ih, r.isEmpty_intersection_comm]

theorem touches_comm (a b : Hypercube) : a.touches b = b.touches a := by
  simp only [touches, boundDim_comm a, overlapElsewhere_comm a]

end Hypercube

end Touches

namespace NeighbourManager

section Lists

/-- The list of `k` got `f j` entries `j`, and the list of each `j` as many entries `k`. -/
structure Recorded (k : ℕ) (f : ℕ → ℕ) (lists lists' : List (List ℕ)) : Prop where
  length : lists'.length = lists.length
  count : ∀ i j, (lists'.getD i []).count j
    = (lists.getD i []).count j + if i = k then f j else if j = k then f i else 0

variable {k : ℕ} {f g : ℕ → ℕ} {lists lists' lists'' : List (List ℕ)}

theorem Recorded.refl : Recorded k (fun _ => 0) lists lists := ⟨rfl, by simp⟩

theorem Recorded.trans (h : Recorded k f lists lists') (h' : Recorded k g lists' lists'') :
    Recorded k (fun j => f j + g j) lists lists'' := by
  refine ⟨h'.length.trans h.length, fun i j => ?_⟩
  rw [h'.count, h.count]
  split_ifs <;> omega

theorem neighbourListAdd_spec {i neighbour : ℕ} (hi : i < lists.length) :
    ∃ lists', neighbourListAdd lists i neighbour = .ok lists' ∧ lists'.length = lists.length
      ∧ ∀ i' j, (lists'.getD i' []).count j
        = (lists.getD i' []).count j + if i' = i ∧ j = neighbour then 1 else 0 := by
  refine ⟨lists.set i (lists[i] ++ [neighbour]), ?_, List.length_set, fun i' j => ?_⟩
  · rw [neighbourListAdd, List.getElem?_eq_getElem hi]
    rfl
  · by_cases h : i' = i
    · subst h
      by_cases hj : j = neighbour
      · simp [hi, hj]
      · simp [hi, hj, Ne.symm hj]
    · simp [h, List.getElem?_set_ne (Ne.symm h)]

/-- Two hypercubes that touch get each other's index. -/
theorem recorded_pair {j : ℕ} (hj : j ≠ k) (hjlen : j < lists.length) (hklen : k < lists.length) :
    ∃ lists₁ lists', neighbourListAdd lists k j = .ok lists₁
      ∧ neighbourListAdd lists₁ j k = .ok lists'
      ∧ Recorded k (fun x => if x = j then 1 else 0) lists lists' := by
  obtain ⟨lists₁, hadd₁, hlen₁, hcount₁⟩ := neighbourListAdd_spec hklen
  obtain ⟨lists', hadd, hlen, hcount⟩ := neighbourListAdd_spec (hlen₁.symm ▸ hjlen)
  refine ⟨lists₁, lists', hadd₁, hadd, hlen.trans hlen₁, fun i x => ?_⟩
  rw [hcount, hcount₁]
  split_ifs <;> omega

/-- The hypercube with the index touches the given one. -/
def touchesAt (cubes : List Hypercube) (cube : Hypercube) (j : ℕ) : Bool :=
  (cubes[j]?).any fun other => cube.touches other

theorem record_spec {cubes : List Hypercube} {cube : Hypercube}
    (hcubes : ∀ c ∈ cubes, cube.length = c.length) (hlen : cubes.length = lists.length)
    (hk : k < lists.length) {entries : List ℕ} (hentries : ∀ j ∈ entries, j < k) :
    ∃ lists', record cubes cube k entries lists = .ok lists'
      ∧ Recorded k (fun j => if touchesAt cubes cube j then entries.count j
        else 0) lists lists' := by
  induction entries generalizing lists with
  | nil => exact ⟨lists, rfl, by simpa using Recorded.refl⟩
  | cons j entries ih =>
    have hj := hentries j (.head _)
    have hjlen : j < cubes.length := by omega
    have hrest := fun x hx => hentries x (.tail _ hx)
    rw [record, List.getElem?_eq_getElem hjlen, access_some, Outcome.ok_bind,
      eassert_of (hcubes _ (List.getElem_mem hjlen)), Outcome.ok_bind]
    have htouch : touchesAt cubes cube j = cube.touches cubes[j] := by
      rw [touchesAt, List.getElem?_eq_getElem hjlen, Option.any_some]
    by_cases h : cube.touches cubes[j] = true
    · obtain ⟨lists₁, lists₂, hadd₁, hadd₂, hpair⟩ := recorded_pair hj.ne (by omega) hk
      rw [if_pos h, hadd₁, Outcome.ok_bind, hadd₂, Outcome.ok_bind]
      obtain ⟨lists', hrecord, hrecorded⟩ := ih (hlen.trans hpair.length.symm)
        (hpair.length.symm ▸ hk) hrest
      refine ⟨lists', hrecord, ?_⟩
      convert hpair.trans hrecorded using 2 with x
      rw [List.count_cons]
      by_cases hx : x = j
      · subst hx
        simp [htouch, h, Nat.add_comm]
      · simp [hx, Ne.symm hx]
    · obtain ⟨lists', hrecord, hrecorded⟩ := ih hlen hk hrest
      refine ⟨lists', (if_neg h).trans hrecord, ?_⟩
      convert hrecorded using 2 with x
      rw [List.count_cons]
      by_cases hx : j = x
      · subst hx
        simp [htouch, h]
      · simp [hx]

end Lists

section Bounds

/-- The entries of a bound list, for the ranges of all the hypercubes in its dimension. -/
def boundEntries (column : List Range) : List (BoundListEntry ℕ) :=
  column.zipIdx.flatMap fun p => [⟨baked p.1.start true, p.2⟩, ⟨baked p.1.stop false, p.2⟩]

theorem boundEntries_concat (column : List Range) (r : Range) : boundEntries (column ++ [r])
    = boundEntries column ++ [⟨baked r.start true, column.length⟩,
      ⟨baked r.stop false, column.length⟩] := by
  simp [boundEntries, List.zipIdx_append]

theorem length_boundEntries (column : List Range) :
    (boundEntries column).length = 2 * column.length := by
  simp [boundEntries, List.length_flatMap, Nat.mul_comm]

theorem lt_of_mem_boundEntries {column : List Range} {x : BoundListEntry ℕ}
    (hx : x ∈ boundEntries column) : x.cubeIndex < column.length := by
  simp only [boundEntries, List.mem_flatMap, List.mem_cons, List.not_mem_nil, or_false] at hx
  obtain ⟨⟨r, i⟩, hp, hx⟩ := hx
  have := List.snd_lt_of_mem_zipIdx hp
  rcases hx with rfl | rfl <;> exact this

/-- A bound leads once to each hypercube that has it. -/
theorem count_withBound (column : List Range) (x : ℤ) (isStart : Bool) (j : ℕ) :
    ((withBound (baked x isStart) (boundEntries column)).map BoundListEntry.cubeIndex).count j
      = (column[j]?).elim 0 fun r => if (if isStart then r.start else r.stop) = x then 1
        else 0 := by
  induction column using List.reverseRecOn with
  | nil => simp [boundEntries, withBound]
  | append_singleton column r ih =>
    rw [boundEntries_concat, withBound, List.filter_append, ← withBound, List.map_append,
      List.count_append, ih]
    have hnew : ((withBound (baked x isStart) [⟨baked r.start true, column.length⟩,
        ⟨baked r.stop false, column.length⟩]).map BoundListEntry.cubeIndex)
        = if (if isStart then r.start else r.stop) = x then [column.length] else [] := by
      rcases isStart <;> simp [withBound, List.filter_cons, baked_inj, apply_ite (List.map _)]
    rw [← withBound, hnew]
    rcases Nat.lt_trichotomy j column.length with hj | rfl | hj
    · rw [List.getElem?_append_left hj]
      split_ifs <;> simp [hj.ne']
    · rw [List.getElem?_concat_length, List.getElem?_eq_none le_rfl]
      simp only [Option.elim]
      split_ifs <;> simp
    · rw [List.getElem?_eq_none hj.le, List.getElem?_eq_none (by rw [List.length_append]; exact hj)]
      split_ifs <;> simp [hj.ne]

variable {vtable : BoundListVtable ℕ} {Rep : vtable.Store → List (BoundListEntry ℕ) → Prop}

/-- A bound list that has the bounds of the given ranges. -/
def Holds (Rep : vtable.Store → List (BoundListEntry ℕ) → Prop) (column : List Range)
    (boundList : vtable.Store) : Prop :=
  ∃ entries, Rep boundList entries ∧ entries.Perm (boundEntries column)

/-- How often the bounds of the ranges lead to hypercube `j`. -/
def visits (columns : List (List Range)) (ranges : Hypercube) (j : ℕ) : ℕ :=
  (List.zipWith (fun r s => s.elim 0 r.sharedBounds) ranges
    (columns.map fun column => column[j]?)).sum

theorem visits_cons {columns : List (List Range)} {ranges : Hypercube} {column : List Range}
    {r : Range} {j : ℕ} : visits (column :: columns) (r :: ranges) j
      = (column[j]?).elim 0 r.sharedBounds + visits columns ranges j := by
  simp [visits]

/-- In one dimension: the two enumerations visit the hypercubes that share a bound, and the bounds
of the new one are added. -/
theorem Holds.push (himpl : vtable.Implements Rep) {column : List Range} {boundList : vtable.Store}
    (h : Holds Rep column boundList) {r : Range} (hr : ¬ r.isEmpty) (hstart : InBounds r.start)
    (hstop : InBounds r.stop) {fuel : ℕ} (hfuel : 2 * column.length < fuel) :
    ∃ ends boundList₁ starts boundList',
      vtable.enumerate fuel boundList r.start false = .ok ends
      ∧ vtable.add boundList r.start true column.length = .ok boundList₁
      ∧ vtable.enumerate fuel boundList₁ r.stop true = .ok starts
      ∧ vtable.add boundList₁ r.stop false column.length = .ok boundList'
      ∧ Holds Rep (column ++ [r]) boundList' ∧ (∀ j ∈ ends, j < column.length)
      ∧ (∀ j ∈ starts, j < column.length)
      ∧ ∀ j, ends.count j + starts.count j = (column[j]?).elim 0 r.sharedBounds := by
  obtain ⟨entries, hrep, hperm⟩ := h
  obtain ⟨boundList₁, entries₁, hadd₁, hrep₁, hperm₁⟩ := himpl.add hrep hstart true column.length
  obtain ⟨boundList', entries', hadd, hrep', hperm'⟩ := himpl.add hrep₁ hstop false column.length
  have hends := (himpl.enumerate hrep hstart false).1 fuel
  have hstarts := (himpl.enumerate hrep₁ hstop true).1 fuel
  have hlen := hperm.length_eq.trans (length_boundEntries column)
  have hlen₁ := hperm₁.length_eq
  rw [List.length_cons] at hlen₁
  -- the start of the new range is not where it stops
  have hown : withBound (baked r.stop true) (⟨baked r.start true, column.length⟩ :: entries)
      = withBound (baked r.stop true) entries := by
    refine List.filter_cons_of_neg ?_
    simp only [Range.isEmpty] at hr
    simp [baked_inj]
    omega
  have hpermEnds := withBound_perm hperm (b := baked r.start false)
  have hpermStarts := (withBound_perm hperm₁).trans
    (.trans (.of_eq hown) (withBound_perm hperm (b := baked r.stop true)))
  have hlt : ∀ {b : ℤ} {l : List (BoundListEntry ℕ)},
      l.Perm (withBound b (boundEntries column)) → ∀ j ∈ l.map BoundListEntry.cubeIndex,
        j < column.length := by
    intro b l hl j hj
    obtain ⟨x, hx, rfl⟩ := List.mem_map.1 hj
    exact lt_of_mem_boundEntries (List.mem_of_mem_filter (hl.mem_iff.1 hx))
  refine ⟨_, boundList₁, _, boundList', hends ?_, hadd₁, hstarts ?_, hadd, ⟨entries', hrep', ?_⟩,
    hlt hpermEnds, hlt hpermStarts, fun j => ?_⟩
  · exact (length_withBound_le _ entries).trans (by omega)
  · exact (length_withBound_le _ entries₁).trans (by omega)
  · rw [boundEntries_concat]
    refine hperm'.trans (((hperm₁.trans (hperm.cons _)).cons _).trans ?_)
    exact (List.Perm.swap _ _ _).trans (@List.perm_append_comm _ [_, _] _)
  · rw [(hpermEnds.map _).count_eq, (hpermStarts.map _).count_eq, count_withBound, count_withBound]
    rcases column[j]? with _ | s
    · rfl
    · rfl

end Bounds

section Push

variable {vtable : BoundListVtable ℕ} {Rep : vtable.Store → List (BoundListEntry ℕ) → Prop}

/-- What is assumed of a hypercube. -/
structure Admissible (dims : ℕ) (cube : Hypercube) : Prop where
  length : cube.length = dims
  nonempty : ¬ cube.isEmpty
  inBounds : ∀ r ∈ cube, InBounds r.start ∧ InBounds r.stop

theorem pushBounds_spec (himpl : vtable.Implements Rep) {cubes : List Hypercube} {cube : Hypercube}
    (hcubes : ∀ c ∈ cubes, cube.length = c.length) {k : ℕ} (hk : cubes.length = k + 1)
    {ranges : Hypercube} (hranges : ∀ r ∈ ranges, ¬ r.isEmpty ∧ InBounds r.start ∧ InBounds r.stop)
    {columns : List (List Range)} {boundLists : List vtable.Store}
    (hbounds : List.Forall₂ (Holds Rep) columns boundLists) (hlen : ranges.length = columns.length)
    (hcolumns : ∀ column ∈ columns, column.length = k) {lists : List (List ℕ)}
    (hlists : lists.length = k + 1) :
    ∃ lists' boundLists', pushBounds cubes cube k (ranges.zip boundLists) lists
        = .ok (lists', boundLists')
      ∧ List.Forall₂ (Holds Rep) (List.zipWith (fun column r => column ++ [r]) columns ranges)
        boundLists'
      ∧ Recorded k (fun j => if touchesAt cubes cube j then visits columns ranges j else 0)
        lists lists' := by
  induction hbounds generalizing ranges lists with
  | nil => exact ⟨lists, [], by simp [pushBounds], by simp, by simpa [visits] using Recorded.refl⟩
  | @cons column boundList columns boundLists hhead htail ih =>
    rcases ranges with _ | ⟨r, ranges⟩
    · simp at hlen
    obtain ⟨hr, hstart, hstop⟩ := hranges r (.head _)
    have hcolumn := hcolumns column (.head _)
    subst hcolumn
    obtain ⟨ends, boundList₁, starts, boundList', hends, hadd₁, hstarts, hadd, hholds, hendsLt,
      hstartsLt, hvisits⟩ := hhead.push himpl hr hstart hstop
        (show 2 * column.length < 2 * cubes.length by omega)
    obtain ⟨lists₁, hrecord₁, hrecorded₁⟩ :=
      record_spec hcubes (hk.trans hlists.symm) (by omega) hendsLt
    obtain ⟨lists₂, hrecord₂, hrecorded₂⟩ := record_spec hcubes
      (hk.trans (hrecorded₁.length.trans hlists).symm) (by rw [hrecorded₁.length]; omega) hstartsLt
    obtain ⟨lists', boundLists', hpush, hbounds', hrecorded⟩ := ih
      (fun s hs => hranges s (.tail _ hs)) (Nat.succ.inj hlen) (fun c hc => hcolumns c (.tail _ hc))
      (hrecorded₂.length.trans (hrecorded₁.length.trans hlists))
    refine ⟨lists', boundList' :: boundLists', ?_, .cons hholds hbounds', ?_⟩
    · rw [List.zip_cons_cons, pushBounds, hends, Outcome.ok_bind, hrecord₁, Outcome.ok_bind, hadd₁,
        Outcome.ok_bind, hstarts, Outcome.ok_bind, hrecord₂, Outcome.ok_bind, hadd, Outcome.ok_bind,
        hpush]
      rfl
    · convert (hrecorded₁.trans hrecorded₂).trans hrecorded using 2 with j
      rw [visits_cons, ← hvisits j]
      split_ifs <;> rfl

/-- The ranges of the hypercubes in each dimension. -/
def columns (dims : ℕ) (cubes : List Hypercube) : List (List Range) :=
  (List.range dims).map fun dim => cubes.map fun cube => cube.getD dim ⟨0, 0⟩

theorem columns_concat {dims : ℕ} (cubes : List Hypercube) {cube : Hypercube}
    (h : cube.length = dims) :
      List.zipWith (fun column r => column ++ [r]) (columns dims cubes) cube
      = columns dims (cubes ++ [cube]) := by
  refine List.ext_getElem (by simp [columns, h]) fun i hi hi' => ?_
  have : i < cube.length := by simp [columns] at hi'; omega
  simp [columns, this]

/-- The bound lists lead to a hypercube once for each bound it shares with the new one. -/
theorem visits_columns {dims : ℕ} {cubes : List Hypercube} {cube other : Hypercube}
    (hother : other.length = dims) {j : ℕ} (hj : cubes[j]? = some other) :
    visits (columns dims cubes) cube j = cube.sharedBounds other := by
  have hcolumn : (columns dims cubes).map (fun column => column[j]?) = other.map some := by
    refine List.ext_getElem (by simp [columns, hother]) fun i hi hi' => ?_
    have : i < other.length := by simpa using hi'
    simp [columns, hj, this]
  rw [visits, hcolumn, List.zipWith_map_right]
  rfl

theorem visits_eq_zero {columns : List (List Range)} {ranges : Hypercube} {j : ℕ}
    (h : ∀ column ∈ columns, column.length ≤ j) : visits columns ranges j = 0 := by
  induction columns generalizing ranges with
  | nil => simp [visits]
  | cons column columns ih =>
    rcases ranges with _ | ⟨r, ranges⟩
    · simp [visits]
    · rw [visits_cons, ih fun c hc => h c (.tail _ hc), List.getElem?_eq_none (h column (.head _))]
      rfl

/-- Two different hypercubes that touch each other. -/
def Neighbours (cubes : List Hypercube) (i j : ℕ) : Prop :=
  i ≠ j ∧ ∃ a ∈ cubes[i]?, ∃ b ∈ cubes[j]?, a.touches b = true

instance (cubes : List Hypercube) (i j : ℕ) : Decidable (Neighbours cubes i j) :=
  inferInstanceAs (Decidable (_ ∧ ∃ a ∈ cubes[i]?, ∃ b ∈ cubes[j]?, _))

theorem Neighbours.symm {cubes : List Hypercube} {i j : ℕ} (h : Neighbours cubes i j) :
    Neighbours cubes j i := by
  obtain ⟨hne, a, ha, b, hb, h⟩ := h
  exact ⟨hne.symm, b, hb, a, ha, by rw [Hypercube.touches_comm, h]⟩

/-- The state of the manager after the hypercubes were added. -/
structure Exact (Rep : vtable.Store → List (BoundListEntry ℕ) → Prop) (dims : ℕ)
    (cubes : List Hypercube) (me : NeighbourManager vtable) : Prop where
  pushed : me.cubes = cubes
  bounds : List.Forall₂ (Holds Rep) (columns dims cubes) me.boundLists
  length : me.neighbourLists.length = cubes.length
  count : ∀ i j, (me.neighbourLists.getD i []).count j = if Neighbours cubes i j then 1 else 0

theorem Exact.make (himpl : vtable.Implements Rep) (dims : ℕ) :
    Exact Rep dims [] (make vtable dims) where
  pushed := rfl
  bounds := by
    rw [List.forall₂_iff_get]
    refine ⟨by simp [columns, NeighbourManager.make], fun i hi hi' => ?_⟩
    exact ⟨[], by simpa [NeighbourManager.make] using himpl.create, by simp [columns, boundEntries]⟩
  length := rfl
  count := by simp [NeighbourManager.make, Neighbours]

/-- A new hypercube is recorded once for each of its neighbours. -/
theorem visits_eq {dims : ℕ} {cubes : List Hypercube} (hcubes : ∀ c ∈ cubes, Admissible dims c)
    {cube : Hypercube} (hcube : Admissible dims cube) (j : ℕ) :
    (if touchesAt (cubes ++ [cube]) cube j then visits (columns dims cubes) cube j else 0)
      = if Neighbours (cubes ++ [cube]) cubes.length j then 1 else 0 := by
  rcases Nat.lt_trichotomy j cubes.length with hj | rfl | hj
  · have hother := hcubes _ (List.getElem_mem hj)
    have htouch : touchesAt (cubes ++ [cube]) cube j = cube.touches cubes[j] := by
      simp [touchesAt, List.getElem?_append_left hj, hj]
    have hiff : Neighbours (cubes ++ [cube]) cubes.length j ↔ cube.touches cubes[j] = true := by
      simp [Neighbours, List.getElem?_append_left hj, hj, hj.ne']
    simp only [htouch, hiff, visits_columns hother.length (List.getElem?_eq_getElem hj)]
    split_ifs with h
    · exact Hypercube.sharedBounds_of_touches (hcube.length.trans hother.length.symm) hcube.nonempty
        hother.nonempty h
    · rfl
  · rw [visits_eq_zero (by simp [columns]), ite_self, if_neg fun h => h.1 rfl]
  · have hnone : (cubes ++ [cube])[j]? = none :=
      List.getElem?_eq_none (by rw [List.length_append]; exact hj)
    simp [touchesAt, Neighbours, hnone]

theorem neighbours_concat {cubes : List Hypercube} {cube : Hypercube} {i j : ℕ}
    (hi : i ≠ cubes.length) (hj : j ≠ cubes.length) :
    Neighbours (cubes ++ [cube]) i j ↔ Neighbours cubes i j := by
  have hget : ∀ i ≠ cubes.length, (cubes ++ [cube])[i]? = cubes[i]? := by
    intro i hi
    rcases Nat.lt_or_gt_of_ne hi with hi | hi
    · exact List.getElem?_append_left hi
    · rw [List.getElem?_eq_none hi.le, List.getElem?_eq_none (by rw [List.length_append]; exact hi)]
  rw [Neighbours, Neighbours, hget i hi, hget j hj]

theorem Exact.pushBack (himpl : vtable.Implements Rep) {dims : ℕ} {cubes : List Hypercube}
    {me : NeighbourManager vtable} (h : Exact Rep dims cubes me)
    (hcubes : ∀ c ∈ cubes, Admissible dims c) {cube : Hypercube} (hcube : Admissible dims cube) :
    ∃ me', me.pushBack cube = .ok me' ∧ Exact Rep dims (cubes ++ [cube]) me' := by
  have hdims : cube.length = me.boundLists.length :=
    hcube.length.trans (by simpa [columns] using h.bounds.length_eq)
  have hcolumns : ∀ column ∈ columns dims cubes, column.length = cubes.length := by
    simp [columns]
  have hranges : ∀ r ∈ cube, ¬ r.isEmpty ∧ InBounds r.start ∧ InBounds r.stop :=
    fun r hr => ⟨fun hempty => hcube.nonempty ⟨r, hr, hempty⟩, hcube.inBounds r hr⟩
  have hall : ∀ c ∈ cubes ++ [cube], cube.length = c.length := by
    intro c hc
    rcases List.mem_append.1 hc with hc | hc
    · rw [hcube.length, (hcubes c hc).length]
    · rw [List.mem_singleton.1 hc]
  obtain ⟨lists', boundLists', hpush, hbounds, hrecorded⟩ := pushBounds_spec himpl hall
    (List.length_append ..) hranges h.bounds (by simp [columns, hcube.length]) hcolumns
    (by simp [h.length] : (me.neighbourLists ++ [[]]).length = cubes.length + 1)
  refine ⟨⟨cubes ++ [cube], lists', boundLists'⟩, ?_, rfl,
    columns_concat cubes hcube.length ▸ hbounds,
    by simp [hrecorded.length, h.length], fun i j => ?_⟩
  · rw [NeighbourManager.pushBack, eassert_of hdims, Outcome.ok_bind, h.pushed]
    dsimp only
    rw [hpush]
    rfl
  · have hold : (me.neighbourLists ++ [[]]).getD i [] = me.neighbourLists.getD i [] := by
      rcases Nat.lt_or_ge i me.neighbourLists.length with hi | hi
      · simp [List.getElem?_append_left hi]
      · rw [List.getD_eq_getElem?_getD, List.getElem?_append_right hi, List.getD_eq_getElem?_getD,
          List.getElem?_eq_none hi]
        rcases i - me.neighbourLists.length <;> rfl
    rw [hrecorded.count, hold, h.count, visits_eq hcubes hcube, visits_eq hcubes hcube]
    by_cases hi : i = cubes.length
    · subst hi
      simp [Neighbours]
    · by_cases hj : j = cubes.length
      · subst hj
        rw [if_neg hi, if_pos rfl, if_neg fun h => by simp [Neighbours] at h, Nat.zero_add]
        exact if_congr ⟨Neighbours.symm, Neighbours.symm⟩ rfl rfl
      · simp only [hi, hj, neighbours_concat hi hj, if_false, Nat.add_zero]

theorem Exact.pushAll (himpl : vtable.Implements Rep) {dims : ℕ} {cubes cubes' : List Hypercube}
    {me : NeighbourManager vtable} (h : Exact Rep dims cubes me)
    (hcubes : ∀ c ∈ cubes ++ cubes', Admissible dims c) :
    ∃ me', pushAll cubes' me = .ok me' ∧ Exact Rep dims (cubes ++ cubes') me' := by
  induction cubes' generalizing cubes me with
  | nil => exact ⟨me, rfl, by rwa [List.append_nil]⟩
  | cons cube cubes' ih =>
    obtain ⟨me₁, hpush, h₁⟩ := h.pushBack himpl (fun c hc => hcubes c (by simp [hc]))
      (hcubes cube (by simp))
    obtain ⟨me', hall, h'⟩ := ih h₁ (by simpa using hcubes)
    exact ⟨me', by rw [NeighbourManager.pushAll, hpush, Outcome.ok_bind, hall], by simpa using h'⟩

/-- Each neighbour list has the hypercubes that touch its own, each of them once. -/
def ListsNeighbours (cubes : List Hypercube) (me : NeighbourManager vtable) : Prop :=
  ∀ i < cubes.length, ∃ neighbours, me.getNeighbours i = .ok neighbours ∧ neighbours.Nodup
    ∧ ∀ j, j ∈ neighbours ↔ j ≠ i ∧ ∃ a ∈ cubes[i]?, ∃ b ∈ cubes[j]?, a.touches b = true

/-- The relation that the neighbour lists store. -/
def Stored (me : NeighbourManager vtable) (i j : ℕ) : Prop :=
  ∃ neighbours, me.getNeighbours i = .ok neighbours ∧ j ∈ neighbours

section Exact

variable {dims : ℕ} {cubes : List Hypercube} {me : NeighbourManager vtable}

theorem Exact.getNeighbours (h : Exact Rep dims cubes me) {i : ℕ} (hi : i < cubes.length) :
    me.getNeighbours i = .ok (me.neighbourLists.getD i []) := by
  have hlist : i < me.neighbourLists.length := by rw [h.length]; exact hi
  rw [NeighbourManager.getNeighbours, eassert_of (by rwa [h.pushed]), Outcome.ok_bind,
    List.getElem?_eq_getElem hlist, access_some]
  simp [hlist]

theorem Exact.mem_iff (h : Exact Rep dims cubes me) {i j : ℕ} :
    j ∈ me.neighbourLists.getD i [] ↔ Neighbours cubes i j := by
  rw [← List.count_pos_iff, h.count]
  split_ifs with hn <;> simp [hn]

theorem Exact.stored_iff (h : Exact Rep dims cubes me) {i j : ℕ} :
    me.Stored i j ↔ Neighbours cubes i j := by
  rw [← h.mem_iff]
  constructor
  · rintro ⟨neighbours, hget, hj⟩
    have hi : i < cubes.length := by
      obtain ⟨u, hu, -⟩ := Outcome.bind_eq_ok.1 hget
      exact h.pushed ▸ eassert_eq_ok.1 hu
    rw [h.getNeighbours hi] at hget
    cases hget
    exact hj
  · intro hj
    refine ⟨_, h.getNeighbours ?_, hj⟩
    obtain ⟨-, a, ha, -⟩ := h.mem_iff.1 hj
    exact (List.getElem?_eq_some_iff.1 ha).1

theorem Exact.listsNeighbours (h : Exact Rep dims cubes me) : ListsNeighbours cubes me := by
  intro i hi
  refine ⟨_, h.getNeighbours hi, List.nodup_iff_count_le_one.2 fun j => ?_, fun j => ?_⟩
  · rw [h.count]
    split_ifs <;> omega
  · rw [h.mem_iff, Neighbours, ne_comm]

theorem exists_pushAll (himpl : vtable.Implements Rep) (hcubes : ∀ c ∈ cubes, Admissible dims c) :
    ∃ me, pushAll cubes (make vtable dims) = .ok me ∧ ListsNeighbours cubes me
      ∧ (∀ i j, me.Stored i j → me.Stored j i) ∧ ∀ i, ¬ me.Stored i i := by
  obtain ⟨me, hpush, h⟩ := (Exact.make himpl dims).pushAll himpl hcubes
  refine ⟨me, hpush, h.listsNeighbours, fun i j hij => ?_, fun i hi => ?_⟩
  · exact h.stored_iff.2 (h.stored_iff.1 hij).symm
  · exact (h.stored_iff.1 hi).1 rfl

end Exact

/-- After any sequence of calls, over both implementations of bound lists: each hypercube has the
list of those that it touches. -/
theorem pushAll_listsNeighbours {dims : ℕ} {cubes : List Hypercube}
    (hcubes : ∀ c ∈ cubes, Admissible dims c) :
    (∃ me, pushAll cubes (make (boundArray ℕ) dims) = .ok me ∧ ListsNeighbours cubes me
      ∧ (∀ i j, me.Stored i j → me.Stored j i) ∧ ∀ i, ¬ me.Stored i i)
    ∧ ∃ me, pushAll cubes (make (boundTree ℕ) dims) = .ok me ∧ ListsNeighbours cubes me
      ∧ (∀ i j, me.Stored i j → me.Stored j i) ∧ ∀ i, ¬ me.Stored i i :=
  ⟨exists_pushAll BoundArray.implements hcubes, exists_pushAll BoundTree.implements hcubes⟩

/-- Two equal squares beside a third one. -/
theorem pushAll_listsNeighbours_three :
    let cubes : List Hypercube := [[⟨0, 2⟩, ⟨0, 2⟩], [⟨2, 4⟩, ⟨1, 3⟩], [⟨2, 4⟩, ⟨1, 3⟩]]
    ∃ me, pushAll cubes (make (boundTree ℕ) 2) = .ok me ∧ ListsNeighbours cubes me := by
  intro cubes
  have hcubes : ∀ c ∈ cubes, Admissible 2 c := by
    have hsquare : Admissible 2 [⟨2, 4⟩, ⟨1, 3⟩] := ⟨rfl, by decide, by decide⟩
    exact List.forall_mem_cons.2 ⟨⟨rfl, by decide, by decide⟩, by simpa using hsquare⟩
  obtain ⟨me, hpush, h, -⟩ := (pushAll_listsNeighbours hcubes).2
  exact ⟨me, hpush, h⟩

end Push

end NeighbourManager

end Esdm
