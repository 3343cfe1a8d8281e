import Esdm.Lib.Machine
import Esdm.Proofs.Axis

/-!
# Subdividing the axes of a grid

The three subdivisions, on an axis that encloses something.  With a positive size or count they
leave such an axis behind, with intervals of the size or of the number that was asked for; without,
they are not checked (`run_subdivides_iff`).
-/

namespace Esdm

namespace Axis

variable {axis axis' : Axis} {size count : ℤ}

/-- The lengths of the intervals. -/
def lengths (axis : Axis) : List ℤ :=
  List.zipWith (fun y z => z - y) axis.allBounds axis.allBounds.tail

/-- All intervals have the size, except that the last one may be shorter. -/
def FixedLengths (size : ℤ) (axis : Axis) : Prop :=
  ∃ n last, axis.lengths = List.replicate n size ++ [last] ∧ 0 < last ∧ last ≤ size

/-- There are `count` intervals, whose lengths differ by one at most. -/
def EvenLengths (count : ℤ) (axis : Axis) : Prop :=
  axis.intervals = count ∧ ∀ a ∈ axis.lengths, ∀ b ∈ axis.lengths, a ≤ b + 1

section Lengths

theorem lengths_map_range (f : ℕ → ℤ) (n : ℕ) :
    List.zipWith (fun y z => z - y) ((List.range (n + 1)).map f) ((List.range (n + 1)).map f).tail
      = (List.range n).map fun i => f (i + 1) - f i := by
  refine List.ext_getElem? fun i => ?_
  by_cases hi : i < n <;> simp [hi]

/-- The bounds of a subdivision by a positive size. -/
def fixedAxis (axis : Axis) (size : ℤ) : Axis :=
  { axis with
    intervals := (axis.outerStop - axis.outerStart + size - 1).tdiv size
    allBounds :=
      (List.range ((axis.outerStop - axis.outerStart + size - 1).tdiv size + 1).toNat).map
        fun i : ℕ => axis.outerStart + if size * i < axis.outerStop - axis.outerStart then size * i
          else axis.outerStop - axis.outerStart }

theorem one_le_intervals (hs : 0 < size) (hle : size ≤ axis.outerStop - axis.outerStart) :
    1 ≤ (axis.outerStop - axis.outerStart + size - 1).tdiv size := by
  rw [Int.tdiv_eq_ediv_of_nonneg (by omega)]
  exact Int.le_ediv_of_mul_le hs (by omega)

theorem fixedLengths_fixedAxis (hs : 0 < size) (hle : size ≤ axis.outerStop - axis.outerStart) :
    FixedLengths size (fixedAxis axis size) := by
  have hpos := one_le_intervals hs hle
  unfold FixedLengths lengths fixedAxis
  dsimp only
  rw [Int.tdiv_eq_ediv_of_nonneg (by omega)] at hpos ⊢
  generalize hN : axis.outerStop - axis.outerStart = N at *
  have hlo : (N + size - 1) / size * size ≤ N + size - 1 := Int.ediv_mul_le _ hs.ne'
  have hhi : N + size - 1 < ((N + size - 1) / size + 1) * size := Int.lt_ediv_add_one_mul_self _ hs
  generalize (N + size - 1) / size = q at hpos hlo hhi
  obtain ⟨n, rfl⟩ : ∃ n : ℕ, q = n + 1 := ⟨(q - 1).toNat, by omega⟩
  rw [show ((n : ℤ) + 1 + 1).toNat = n + 1 + 1 by omega, lengths_map_range, List.range_succ,
    List.map_append, List.map_singleton]
  have hmul : ∀ i : ℕ, size * ((i + 1 : ℕ) : ℤ) = size * i + size := fun i => by push_cast; ring
  have hn : size * (n : ℤ) < N ∧ N ≤ size * n + size := by
    constructor <;> nlinarith
  refine ⟨n, N - size * n, ?_, by omega, by omega⟩
  congr 1
  · rw [List.eq_replicate_iff]
    refine ⟨by simp, fun x hx => ?_⟩
    obtain ⟨i, hi, rfl⟩ := List.mem_map.1 hx
    have hin : size * ((i : ℤ) + 1) ≤ size * n :=
      Int.mul_le_mul_of_nonneg_left (by have := List.mem_range.1 hi; omega) hs.le
    rw [Int.mul_add, Int.mul_one] at hin
    rw [hmul, if_pos (by omega), if_pos (by omega)]
    omega
  · rw [hmul, if_neg (by omega), if_pos hn.1]
    simp

/-- The differences of a quotient's multiples. -/
theorem ediv_step {N : ℤ} (hc : 0 < count) (i : ℤ) :
    N / count ≤ N * (i + 1) / count - N * i / count
      ∧ N * (i + 1) / count - N * i / count ≤ N / count + 1 := by
  have h1 : N * (i + 1) = N * i + N := by ring
  have ha := Int.emod_add_mul_ediv (N * i) count
  have hb := Int.emod_add_mul_ediv N count
  have hc' := Int.emod_add_mul_ediv (N * i + N) count
  have ha0 := Int.emod_nonneg (N * i) hc.ne'
  have ha1 := Int.emod_lt_of_pos (N * i) hc
  have hb0 := Int.emod_nonneg N hc.ne'
  have hb1 := Int.emod_lt_of_pos N hc
  have hc0 := Int.emod_nonneg (N * i + N) hc.ne'
  have hc1 := Int.emod_lt_of_pos (N * i + N) hc
  rw [h1]
  constructor <;> nlinarith

end Lengths

section Good

/-- What a subdivision is to do: to fail and change nothing, or to leave an axis with the same
domain and the lengths that it was asked for. -/
structure Good (lengths : Axis → Prop) (axis : Axis) (status : Status) (axis' : Axis) : Prop where
  unchanged : status ≠ .success → axis' = axis
  proper : status = .success → axis'.Proper
  start : axis'.outerStart = axis.outerStart
  stop : axis'.outerStop = axis.outerStop
  lengths : status = .success → lengths axis'

def Subdivides (lengths : Axis → Prop) (axis : Axis) (x : Outcome (Status × Axis)) : Prop :=
  ∃ status axis', x = .ok (status, axis') ∧ Good lengths axis status axis'

theorem subdivides_of_error {lengths : Axis → Prop} {status : Status} (h : status ≠ .success) :
    Subdivides lengths axis (.ok (status, axis)) :=
  ⟨status, axis, rfl, fun _ => rfl, fun hs => absurd hs h, rfl, rfl, fun hs => absurd hs h⟩

theorem not_subdivides_of_intervals {lengths : Axis → Prop} (h : axis'.intervals < 1) :
    ¬ Subdivides lengths axis (.ok (.success, axis')) := by
  rintro ⟨status, axis'', hx, hgood⟩
  obtain ⟨rfl, rfl⟩ := Prod.mk.inj (Except.ok.inj hx)
  have := (hgood.proper rfl).intervals
  omega

theorem not_subdivides_of_fault {lengths : Axis → Prop} (f : Fault) :
    ¬ Subdivides lengths axis (.error f) := by
  rintro ⟨status, axis', hx, -⟩
  cases hx

/-- A positive size: also if there is one interval, whose bounds are the domain's. -/
theorem Proper.subdivideFixed_of_pos (hp : axis.Proper) (hs : 0 < size)
    (hle : size ≤ axis.outerStop - axis.outerStart) {allowIncomplete : Bool}
    (hdiv : ¬ (¬ allowIncomplete = true ∧ (axis.outerStop - axis.outerStart).tmod size ≠ 0)) :
    axis.subdivideFixed size allowIncomplete = .ok (.success, fixedAxis axis size) := by
  have hlt := hp.outer_lt
  have hpos := one_le_intervals hs hle
  have hq : (axis.outerStop - axis.outerStart + size - 1).tdiv size = 1 →
      size = axis.outerStop - axis.outerStart := by
    intro h1
    rw [Int.tdiv_eq_ediv_of_nonneg (by omega)] at h1
    have hhi := Int.lt_ediv_add_one_mul_self (axis.outerStop - axis.outerStart + size - 1) hs
    rw [h1] at hhi
    omega
  unfold Axis.subdivideFixed
  dsimp only
  rw [if_neg (by omega), if_neg hs.ne', if_neg hdiv, if_neg (by omega)]
  by_cases h1 : (axis.outerStop - axis.outerStart + size - 1).tdiv size = 1
  · have hsize := hq h1
    have hrange : List.range ((1 : ℤ) + 1).toNat = [0, 1] := rfl
    rw [if_pos h1, if_pos (by omega), if_neg (by omega)]
    unfold fixedAxis
    rw [h1, hrange]
    simp [hsize, hlt]
  · rw [if_neg h1]
    rfl

theorem Proper.subdivides_fixed_iff (hp : axis.Proper) (allowIncomplete : Bool) :
    Subdivides (FixedLengths size) axis (axis.subdivideFixed size allowIncomplete)
      ↔ 0 < size ∨ size < 0 ∧ allowIncomplete = false
        ∧ (axis.outerStop - axis.outerStart).tmod size ≠ 0 := by
  have hlt := hp.outer_lt
  by_cases hs : 0 < size
  · refine iff_of_true ?_ (.inl hs)
    by_cases hle : size ≤ axis.outerStop - axis.outerStart
    · by_cases hdiv : ¬ allowIncomplete = true ∧ (axis.outerStop - axis.outerStart).tmod size ≠ 0
      · unfold Axis.subdivideFixed
        dsimp only
        rw [if_neg (by omega), if_neg hs.ne', if_pos hdiv]
        exact subdivides_of_error (by simp)
      · rw [hp.subdivideFixed_of_pos hs hle hdiv]
        exact ⟨_, _, rfl, fun h => absurd rfl h,
          fun _ => fixed_proper hlt hs (one_le_intervals hs hle), rfl, rfl,
          fun _ => fixedLengths_fixedAxis hs hle⟩
    · unfold Axis.subdivideFixed
      dsimp only
      rw [if_pos (by omega)]
      exact subdivides_of_error (by simp)
  · unfold Axis.subdivideFixed
    dsimp only
    rw [if_neg (by omega)]
    by_cases h0 : size = 0
    · rw [if_pos h0]
      exact iff_of_false (not_subdivides_of_fault _) (by omega)
    rw [if_neg h0]
    by_cases hdiv : ¬ allowIncomplete = true ∧ (axis.outerStop - axis.outerStart).tmod size ≠ 0
    · rw [if_pos hdiv]
      exact iff_of_true (subdivides_of_error (by simp))
        (.inr ⟨by omega, by simpa using hdiv.1, hdiv.2⟩)
    rw [if_neg hdiv]
    have hno : ¬ (0 < size ∨ size < 0 ∧ allowIncomplete = false
        ∧ (axis.outerStop - axis.outerStart).tmod size ≠ 0) := by
      rintro (hpos | ⟨-, hallow, hmod⟩)
      · exact hs hpos
      · exact hdiv ⟨by simp [hallow], hmod⟩
    refine iff_of_false ?_ hno
    have hone := intervals_of_neg (show 0 < axis.outerStop - axis.outerStart by omega)
      (show size < 0 by omega)
    by_cases h1 : (axis.outerStop - axis.outerStart + size - 1).tdiv size < -1
    · rw [if_pos h1]
      exact not_subdivides_of_fault _
    rw [if_neg h1]
    by_cases h2 : (axis.outerStop - axis.outerStart + size - 1).tdiv size = 1
    · -- the end of the domain is written over
      rw [if_pos h2, if_pos (by omega), if_pos (by omega)]
      rintro ⟨status, axis', hx, hgood⟩
      obtain ⟨rfl, rfl⟩ := Prod.mk.inj (Except.ok.inj hx)
      have := hgood.stop
      dsimp only at this
      omega
    · rw [if_neg h2]
      exact not_subdivides_of_intervals (by dsimp only; omega)

theorem Proper.subdivides_flexible_iff (hp : axis.Proper) :
    Subdivides (EvenLengths count) axis (axis.subdivideFlexible count) ↔ 0 < count := by
  have hlt := hp.outer_lt
  unfold Axis.subdivideFlexible
  dsimp only
  by_cases hle : axis.outerStop - axis.outerStart < count
  · rw [if_pos hle]
    exact iff_of_true (subdivides_of_error (by simp)) (by omega)
  rw [if_neg hle]
  by_cases h0 : count = 0
  · rw [if_pos h0]
    exact iff_of_false (not_subdivides_of_fault _) (by omega)
  rw [if_neg h0]
  by_cases hneg : count < -1
  · rw [if_pos hneg]
    exact iff_of_false (not_subdivides_of_fault _) (by omega)
  rw [if_neg hneg]
  by_cases hpos : 0 < count
  · obtain ⟨n, rfl⟩ := Int.eq_ofNat_of_zero_le hpos.le
    rw [show ((n : ℤ) + 1).toNat = n + 1 by omega]
    refine iff_of_true ⟨_, _, rfl, fun h => absurd rfl h,
      fun _ => flexible_proper (by omega) (by omega), rfl, rfl, fun _ => ⟨rfl, ?_⟩⟩ hpos
    unfold lengths
    dsimp only
    rw [lengths_map_range]
    intro a ha b hb
    obtain ⟨i, -, rfl⟩ := List.mem_map.1 ha
    obtain ⟨j, -, rfl⟩ := List.mem_map.1 hb
    have hdiv : ∀ k : ℕ, ((axis.outerStop - axis.outerStart) * k).tdiv n
        = (axis.outerStop - axis.outerStart) * k / n := fun k =>
      Int.tdiv_eq_ediv_of_nonneg (Int.mul_nonneg (by omega) (by omega))
    have hi := ediv_step (N := axis.outerStop - axis.outerStart) hpos i
    have hj := ediv_step (N := axis.outerStop - axis.outerStart) hpos j
    simp only [hdiv]
    push_cast
    omega
  · exact iff_of_false (not_subdivides_of_intervals (by dsimp only; omega)) hpos

/-- Explicit bounds are checked. -/
theorem subdivides_bounds {bounds : List ℤ} (hb : 1 < bounds.length) :
    Subdivides (fun axis => axis.allBounds = bounds) axis (axis.subdivide bounds) := by
  unfold Axis.subdivide
  rw [eassert_of hb, Outcome.ok_bind]
  split_ifs with h1 h2 h3
  · exact subdivides_of_error (by simp)
  · exact subdivides_of_error (by simp)
  · exact subdivides_of_error (by simp)
  · refine ⟨_, _, rfl, fun h => absurd rfl h, fun _ => ?_, rfl, rfl, fun _ => rfl⟩
    exact ⟨by dsimp only; omega, by dsimp only; omega, not_not.1 h1, not_not.1 h2,
      pairwise_of_zip_tail h3⟩

end Good

end Axis

namespace Dataset

variable {V : Type} {g : ℕ} {ds ds' : Dataset V} {grid : Grid}

/-- The calls that subdivide an axis. -/
inductive Subdivision
  | fixed (dim size : ℤ) (allowIncomplete : Bool)
  | flexible (dim count : ℤ)
  | explicit (dim : ℤ) (bounds : List ℤ)

namespace Subdivision

def dim : Subdivision → ℤ
  | fixed dim _ _ => dim
  | flexible dim _ => dim
  | explicit dim _ => dim

/-- What is done to the axis. -/
def apply : Subdivision → Axis → Outcome (Status × Axis)
  | fixed _ size allowIncomplete, axis => axis.subdivideFixed size allowIncomplete
  | flexible _ count, axis => axis.subdivideFlexible count
  | explicit _ bounds, axis => axis.subdivide bounds

/-- The intervals that are asked for. -/
def Lengths : Subdivision → Axis → Prop
  | fixed _ size _ => Axis.FixedLengths size
  | flexible _ count => Axis.EvenLengths count
  | explicit _ bounds => fun axis => axis.allBounds = bounds

/-- `count > 0` in `esdm_grid_subdivide` -/
def Asserted : Subdivision → Prop
  | explicit _ bounds => 1 < bounds.length
  | _ => True

/-- The arguments for which the subdivisions are made. -/
def Suits (axis : Axis) : Subdivision → Prop
  | fixed _ size allowIncomplete => 0 < size ∨ size < 0 ∧ allowIncomplete = false
      ∧ (axis.outerStop - axis.outerStart).tmod size ≠ 0
  | flexible _ count => 0 < count
  | explicit _ _ => True

theorem subdivides_iff {axis : Axis} (hp : axis.Proper) {s : Subdivision} (hs : s.Asserted) :
    Axis.Subdivides s.Lengths axis (s.apply axis) ↔ s.Suits axis := by
  cases s with
  | fixed _ size allowIncomplete => exact hp.subdivides_fixed_iff allowIncomplete
  | flexible _ count => exact hp.subdivides_flexible_iff
  | explicit _ bounds => exact iff_of_true (Axis.subdivides_bounds hs) trivial

end Subdivision

/-- A subdivision of the grid `g`. -/
def subdivide (g : ℕ) (ds : Dataset V) : Subdivision → Outcome (Status × Dataset V)
  | .fixed dim size allowIncomplete => ds.gridSubdivideFixed g dim size allowIncomplete
  | .flexible dim count => ds.gridSubdivideFlexible g dim count
  | .explicit dim bounds => ds.gridSubdivide g dim bounds

theorem subdivide_eq {s : Subdivision} (hs : s.Asserted) :
    ds.subdivide g s = ds.gridSubdivideWith g s.dim s.apply := by
  cases s with
  | fixed => rfl
  | flexible => rfl
  | explicit dim bounds =>
    change gridSubdivide ds g dim bounds = _
    unfold gridSubdivide
    rw [eassert_of (show 1 < bounds.length from hs)]
    rfl

/-- The call returns, and either fails and changes no grid, or replaces the axis by one that is as
good as it was and has the intervals that are asked for. -/
def SubdividesAxis (g : ℕ) (ds : Dataset V) (s : Subdivision) : Prop :=
  ∃ status ds', ds.subdivide g s = .ok (status, ds')
    ∧ (status ≠ .success → ds'.gridHeap = ds.gridHeap)
    ∧ (status = .success → ∃ grid axis axis', ds.gridHeap[g]? = some grid
      ∧ grid.axes[s.dim.toNat]? = some axis ∧ Axis.Good s.Lengths axis .success axis'
      ∧ ds'.gridHeap = ds.gridHeap.set g { grid with axes := grid.axes.set s.dim.toNat axis' })

/-- Where the axis is subdivided at all, the arguments suit it. -/
def SuitsAxis (g : ℕ) (ds : Dataset V) (s : Subdivision) : Prop :=
  ∀ grid axis, ds.gridHeap[g]? = some grid → grid.cells = none → 0 ≤ s.dim →
    grid.axes[s.dim.toNat]? = some axis → s.Suits axis

/-- All axes of the grid enclose something. -/
def AxesProper (g : ℕ) (ds : Dataset V) : Prop :=
  ∃ grid, ds.gridHeap[g]? = some grid ∧ ∀ axis ∈ grid.axes, Axis.Proper axis

theorem set_self_of_getElem? {α : Type} {l : List α} {i : ℕ} {a : α} (h : l[i]? = some a) :
    l.set i a = l := by
  obtain ⟨hi, rfl⟩ := List.getElem?_eq_some_iff.1 h
  exact List.set_getElem_self hi

/-- The axis is found again in the grid that it has been put into. -/
theorem axis_of_set_eq {axis a b : Axis} {d : ℕ} (hg : ds.gridHeap[g]? = some grid)
    (ha : grid.axes[d]? = some axis)
    (h : ds.gridHeap.set g { grid with axes := grid.axes.set d a }
      = ds.gridHeap.set g { grid with axes := grid.axes.set d b }) : a = b := by
  have hlt := (List.getElem?_eq_some_iff.1 hg).1
  have hd := (List.getElem?_eq_some_iff.1 ha).1
  have hgrid := congrArg (fun l : List Grid => l[g]?) h
  simp only [List.getElem?_set_self hlt, Option.some.injEq, Grid.mk.injEq, true_and] at hgrid
  have haxis := congrArg (fun l : List Axis => l[d]?) hgrid
  simpa only [List.getElem?_set_self hd, Option.some.injEq] using haxis

/-- An axis that is put where it was. -/
theorem set_axis_self {axis : Axis} {d : ℕ} (hg : ds.gridHeap[g]? = some grid)
    (ha : grid.axes[d]? = some axis) :
    ds.gridHeap.set g { grid with axes := grid.axes.set d axis } = ds.gridHeap := by
  rw [set_self_of_getElem? ha]
  exact set_self_of_getElem? hg

theorem subdividesAxis_iff (hI : AxesProper g ds) {s : Subdivision} (hs : s.Asserted) :
    SubdividesAxis g ds s ↔ SuitsAxis g ds s := by
  obtain ⟨grid, hg, hp⟩ := hI
  have hgrid : ds.grid g = .ok grid := access_eq_ok.2 hg
  unfold SubdividesAxis SuitsAxis
  rw [subdivide_eq hs]
  unfold gridSubdivideWith
  rw [hgrid, Outcome.ok_bind]
  by_cases hdim : s.dim < 0 ∨ s.dim ≥ grid.dimCount
  · rw [if_pos hdim]
    refine iff_of_true ⟨_, _, rfl, fun _ => rfl, fun h => by cases h⟩ ?_
    intro grid' axis hg' _ hpos ha
    obtain rfl := Option.some.inj (hg.symm.trans hg')
    have := (List.getElem?_eq_some_iff.1 ha).1
    unfold Grid.dimCount at hdim
    omega
  rw [if_neg hdim]
  by_cases hcells : grid.cells ≠ none
  · rw [if_pos hcells]
    refine iff_of_true ⟨_, _, rfl, fun _ => rfl, fun h => by cases h⟩ ?_
    intro grid' axis hg' hc
    obtain rfl := Option.some.inj (hg.symm.trans hg')
    exact absurd hc hcells
  rw [if_neg hcells]
  obtain ⟨axis, ha⟩ : ∃ axis, grid.axes[s.dim.toNat]? = some axis := by
    unfold Grid.dimCount at hdim
    exact ⟨_, List.getElem?_eq_getElem (by omega)⟩
  rw [ha, access_some, Outcome.ok_bind]
  have hiff := Subdivision.subdivides_iff (hp axis (List.mem_of_getElem? ha)) hs
  constructor
  · rintro ⟨status, ds', h, herr, hok⟩ grid' axis' hg' _ _ ha'
    obtain rfl := Option.some.inj (hg.symm.trans hg')
    obtain rfl := Option.some.inj (ha.symm.trans ha')
    obtain ⟨⟨status', axis'⟩, happly, h⟩ := Outcome.bind_eq_ok.1 h
    obtain ⟨rfl, rfl⟩ := Prod.mk.inj (Except.ok.inj h)
    refine hiff.1 ⟨status', axis', happly, ?_⟩
    by_cases hstatus : status' = .success
    · obtain ⟨grid', axis, axis'', hg', ha', hgood, heap⟩ := hok hstatus
      obtain rfl := Option.some.inj (hg.symm.trans hg')
      obtain rfl := Option.some.inj (ha.symm.trans ha')
      rw [axis_of_set_eq hg ha heap, hstatus]
      exact hgood
    · have haxis := axis_of_set_eq hg ha ((herr hstatus).trans (set_axis_self hg ha).symm)
      exact ⟨fun _ => haxis, fun h => absurd h hstatus, by rw [haxis], by rw [haxis],
        fun h => absurd h hstatus⟩
  · intro h
    obtain ⟨status, axis', happly, hgood⟩ :=
      hiff.2 (h grid axis hg (not_not.1 hcells) (by omega) ha)
    rw [happly, Outcome.ok_bind]
    refine ⟨status, _, rfl, fun herr => ?_, ?_⟩
    · rw [hgood.unchanged herr]
      exact set_axis_self hg ha
    · rintro rfl
      exact ⟨grid, axis, axis', hg, ha, hgood, rfl⟩

theorem AxesProper.subdivide (hI : AxesProper g ds) {s : Subdivision} (hP : SubdividesAxis g ds s)
    {r : Status × Dataset V} (hr : ds.subdivide g s = .ok r) : AxesProper g r.2 := by
  obtain ⟨status, ds', h, herr, hok⟩ := hP
  obtain rfl := Except.ok.inj (hr.symm.trans h)
  obtain ⟨grid, hg, hp⟩ := hI
  unfold AxesProper
  by_cases hstatus : status = .success
  · obtain ⟨grid', axis, axis', hg', ha, hgood, heap⟩ := hok hstatus
    obtain rfl := Option.some.inj (hg.symm.trans hg')
    rw [heap, List.getElem?_set_self (List.getElem?_eq_some_iff.1 hg).1]
    refine ⟨_, rfl, fun a ha => ?_⟩
    obtain ha | rfl := List.mem_or_eq_of_mem_set ha
    · exact hp a ha
    · exact hgood.proper rfl
  · rw [herr hstatus]
    exact ⟨grid, hg, hp⟩

/-- The subdivisions of a grid. -/
def subdivisions (V : Type) (g : ℕ) : Machine (Dataset V) Subdivision (Status × Dataset V) Fault :=
  ⟨fun ds => ds.subdivide g, Prod.snd⟩

/-- A new grid of positive extents. -/
theorem axesProper_gridCreateInternal {parent : Option ℕ} {dim : List Dim}
    (h : ds.gridCreateInternal parent dim = .ok ds') (hpos : ∀ d ∈ dim, 0 < d.size) :
    AxesProper ds.gridHeap.length ds' := by
  unfold gridCreateInternal at h
  obtain ⟨_, -, h⟩ := Outcome.bind_eq_ok.1 h
  obtain ⟨_, -, h⟩ := Outcome.bind_eq_ok.1 h
  have hheap : ds'.gridHeap = ds.gridHeap ++ [⟨parent, none, 0, none,
      dim.map fun d => Axis.make d.offset d.size⟩] := by
    rw [← Except.ok.inj h]
    split_ifs <;> rfl
  refine ⟨_, by rw [hheap, List.getElem?_concat_length], fun axis ha => ?_⟩
  obtain ⟨d, hd, rfl⟩ := List.mem_map.1 ha
  have := hpos d hd
  exact (Axis.make_wf d.offset d.size).proper (by unfold Axis.make; dsimp only; omega) le_rfl

/-- In any sequence of subdivisions of a grid whose axes enclose something, each call subdivides its
axis as it should if and only if its arguments suit the axis. -/
theorem run_subdivides_iff (hI : AxesProper g ds) {calls : List Subdivision}
    (hs : ∀ s ∈ calls, s.Asserted) :
    (subdivisions V g).EachCall (SubdividesAxis g) ds calls
      ↔ (subdivisions V g).EachCall (SuitsAxis g) ds calls :=
  Machine.EachCall.congr (fun ha hI => subdividesAxis_iff hI (hs _ ha))
    (fun _ hI hP hr => hI.subdivide hP hr) hI

/-- Four elements, as a dataset and as a grid. -/
def fourSpace : Dataspace := Dataspace.createFull [⟨0, 4⟩] (.basic .int64)

theorem axesProper_four : ∃ ds : Dataset ℕ,
    (init fourSpace none).gridCreateInternal none fourSpace.dim = .ok ds ∧ AxesProper 0 ds
      ∧ ds.gridHeap = [⟨none, none, 0, none, [Axis.make 0 4]⟩] :=
  ⟨_, rfl, axesProper_gridCreateInternal
    (show (init fourSpace none).gridCreateInternal none fourSpace.dim = .ok _ from rfl) (by decide),
    rfl⟩

theorem run_subdivides_four : ∃ ds : Dataset ℕ,
    (init fourSpace none).gridCreateInternal none fourSpace.dim = .ok ds
      ∧ (subdivisions ℕ 0).EachCall (SubdividesAxis 0) ds
        [.fixed 0 2 false, .flexible 0 3, .explicit 0 [0, 1, 4]] := by
  obtain ⟨ds, hcreate, hI, -⟩ := axesProper_four
  refine ⟨ds, hcreate, (run_subdivides_iff hI (by simp [Subdivision.Asserted])).2 ?_⟩
  exact ⟨fun _ _ _ _ _ _ => .inl (by decide), fun _ _ =>
    ⟨fun _ _ _ _ _ _ => show (0 : ℤ) < 3 by decide, fun _ _ =>
      ⟨fun _ _ _ _ _ _ => trivial, fun _ _ => trivial⟩⟩⟩

/-- No intervals at all: the length is divided by zero. -/
theorem run_not_subdivides : ∃ ds : Dataset ℕ,
    (init fourSpace none).gridCreateInternal none fourSpace.dim = .ok ds
      ∧ ¬ (subdivisions ℕ 0).EachCall (SubdividesAxis 0) ds [.flexible 0 0] := by
  obtain ⟨ds, hcreate, hI, heap⟩ := axesProper_four
  refine ⟨ds, hcreate, ?_⟩
  rintro ⟨h, -⟩
  have hsuits := (subdividesAxis_iff (s := .flexible 0 0) hI trivial).1 h
  have : (0 : ℤ) < 0 := hsuits _ _ (by rw [heap]; rfl) rfl le_rfl rfl
  omega

end Dataset

end Esdm
