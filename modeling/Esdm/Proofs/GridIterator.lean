import Esdm.GridIterator
import Esdm.Proofs.RegionQuery

/-!
# Iterating over the cells of a grid

Advancing an iterator by one, time after time, enumerates the leaf cells of a grid that is filled,
in the order of a walk that goes into each subgrid where it finds it (`enumerates_leaves`);
advancing it by more skips cells of this enumeration (`Enumerates.advances`).
-/

namespace Esdm

variable {V : Type}

namespace Grid

section Coordinates

variable {grid : Grid} {cube : Hypercube} {i : ℕ}

theorem coordinates_eq_ok : ∀ {axes : List Axis} {v : ℤ}, (∀ axis ∈ axes, 0 < axis.intervals) →
    0 ≤ v → ∃ index rest, coordinates axes v = .ok (index, rest) ∧ 0 ≤ rest
      ∧ Radix.Digits index (sizes axes)
      ∧ v = rest * (sizes axes).prod + Radix.value (sizes axes) index
  | [], v, _, hv => ⟨[], v, rfl, hv, .nil, by simp [sizes, Radix.value]⟩
  | axis :: axes, v, hpos, hv => by
    obtain ⟨index, rest, h, hr, hd, heq⟩ :=
      coordinates_eq_ok (fun a ha => hpos a (List.mem_cons_of_mem axis ha)) hv
    have hn := hpos axis (by simp)
    have hs : sizes (axis :: axes) = axis.intervals :: sizes axes := rfl
    refine ⟨rest % axis.intervals :: index, rest / axis.intervals, ?_,
      Int.ediv_nonneg hr hn.le, .cons ⟨Int.emod_nonneg _ hn.ne', Int.emod_lt_of_pos _ hn⟩ hd, ?_⟩
    · rw [coordinates, h, Outcome.ok_bind]
      dsimp only
      rw [if_neg hn.ne', Int.tmod_eq_emod_of_nonneg hr, Int.tdiv_eq_ediv_of_nonneg hr]
      rfl
    · rw [hs, List.prod_cons, Radix.value]
      have := Int.emod_add_mul_ediv rest axis.intervals
      calc v = rest * (sizes axes).prod + Radix.value (sizes axes) index := heq
        _ = (rest % axis.intervals + axis.intervals * (rest / axis.intervals)) * (sizes axes).prod
            + Radix.value (sizes axes) index := by rw [this]
        _ = _ := by ring

/-- The coordinates of a place of the array. -/
theorem indexCoordinates_eq_ok (hp : ∀ axis ∈ grid.axes, Axis.Proper axis)
    (hc : CellAt grid.axes i cube) :
    ∃ index, grid.indexCoordinates i = .ok index ∧ IsCell grid.axes index cube := by
  obtain ⟨index, hcell, hi⟩ := hc
  obtain ⟨index', rest, h, hr, hd, heq⟩ := coordinates_eq_ok
    (fun a ha => (hp a ha).intervals) (Int.natCast_nonneg i)
  have hv := Radix.value_bounds hcell.digits
  have hv' := Radix.value_bounds hd
  rw [← hcell.linearIndexFrom_eq, hi] at hv
  have hrest : rest = 0 := by
    by_contra hne
    have : (sizes grid.axes).prod ≤ rest * (sizes grid.axes).prod :=
      le_mul_of_one_le_left (by omega) (by omega)
    omega
  subst hrest
  rw [Int.zero_mul, Int.zero_add, ← hi, hcell.linearIndexFrom_eq] at heq
  obtain rfl := Radix.value_inj hcell.digits hd heq
  refine ⟨index, ?_, hcell⟩
  rw [indexCoordinates, h, Outcome.ok_bind]
  rfl

/-- The offsets and sizes of a hypercube. -/
def dimOf (cube : Hypercube) : List Dim := cube.map fun r => ⟨r.start, r.stop - r.start⟩

theorem cubeOf_dimOf (cube : Hypercube) : cubeOf (dimOf cube) = cube := by
  unfold cubeOf dimOf
  rw [List.map_map]
  refine List.map_id'' (fun r => ?_) cube
  cases r
  simp

theorem cellSize_eq_ok : ∀ {axes : List Axis} {index : List ℤ} {cube : Hypercube},
    IsCell axes index cube → cellSize axes index = .ok (some (dimOf cube))
  | [], [], [], _ => rfl
  | axis :: axes, i :: index, r :: cube, h => by
    rw [cellSize, if_neg (by have := h.1; omega), h.1.2.2.1, h.1.2.2.2, cellSize_eq_ok h.2]
    rfl

end Coordinates

section Inside

/-- The domain of the grid lies inside the dataspace, of which a dimension may be unlimited. -/
def Inside (dim : List Dim) (axes : List Axis) : Prop :=
  List.Forall₂ (fun (d : Dim) axis => d.offset ≤ axis.outerStart
    ∧ (d.size = 0 ∨ axis.outerStop ≤ d.offset + d.size)) dim axes

/-- The cells pass the checks of `esdm_dataspace_subspace`, unless they have negative offsets. -/
theorem Inside.subspaceDim {dim : List Dim} {axes : List Axis} (h : Inside dim axes) :
    ∀ {cube : Hypercube}, (∀ axis ∈ axes, 0 ≤ axis.outerStart) →
    Hypercube.Within cube (box axes) → ¬ Hypercube.isEmpty cube →
    (dimOf cube).length = dim.length ∧ ∀ q ∈ dim.zip (dimOf cube),
      Dataspace.subspaceDim q.1 q.2 := by
  induction h with
  | nil =>
    intro cube _ hw _
    obtain rfl := List.forall₂_nil_right_iff.1 hw
    simp [dimOf]
  | @cons d axis dim axes hd _ ih =>
    intro cube hpos hw hne
    obtain ⟨r, rest, hr, hrest, rfl⟩ := List.forall₂_cons_right_iff.1 hw
    simp only [Hypercube.isEmpty, List.mem_cons, exists_eq_or_imp, not_or] at hne
    obtain ⟨hlen, hall⟩ := ih (fun a ha => hpos a (List.mem_cons_of_mem axis ha)) hrest hne.2
    refine ⟨by simpa [dimOf] using hlen, fun q hq => ?_⟩
    obtain rfl | hq := List.mem_cons.1 hq
    · have h0 := hpos axis (by simp)
      have h1 := hne.1
      unfold Range.isEmpty at h1
      unfold Dataspace.subspaceDim
      dsimp only at hr ⊢
      omega
    · exact hall q hq

end Inside

end Grid

namespace Dataset

open Grid

variable {ds : Dataset V} {dims g : ℕ} {grid : Grid} {iterator iterator' : GridIterator}

section Advance

variable {fuel : ℕ} {a b : ℤ}

/-- One round of the loop: by how much the increment gets smaller and the new iterator, or nothing
if the last cell has been passed. -/
def iteratorRound (ds : Dataset V) (level : IteratorLevel) (parents : GridIterator) :
    Outcome (Option (ℤ × GridIterator)) :=
  if level.lastIndex + 1 ≥ level.cellCount then
    .ok (if parents = [] then none else some (0, parents))
  else do
    let grid ← ds.grid level.grid
    let entry ← grid.cell (level.lastIndex + 1)
    let iterator := { level with lastIndex := level.lastIndex + 1 } :: parents
    match entry.subgrid with
    | some h =>
      let iterator ← ds.gridIteratorCreateInternal h iterator
      return some (0, iterator)
    | none => return some (1, iterator)

theorem gridIteratorAdvance_zero : ds.gridIteratorAdvance (fuel + 1) 0 iterator = .ok iterator := by
  unfold gridIteratorAdvance
  rw [if_pos rfl]
  rfl

theorem gridIteratorAdvance_succ (ha : a ≠ 0) (level : IteratorLevel) (parents : GridIterator) :
    ds.gridIteratorAdvance (fuel + 1) a (level :: parents) = ds.iteratorRound level parents >>=
      fun r => r.elim (.ok []) fun q => ds.gridIteratorAdvance fuel (a - q.1) q.2 := by
  rw [gridIteratorAdvance, if_neg ha]
  unfold iteratorRound
  dsimp only
  by_cases hend : level.lastIndex + 1 ≥ level.cellCount
  · rw [if_pos hend, if_pos hend, Outcome.ok_bind]
    by_cases hp : parents = []
    · rw [if_pos hp, if_pos hp]
      rfl
    · rw [if_neg hp, if_neg hp, Option.elim_some, Int.sub_zero]
  · rw [if_neg hend, if_neg hend, bind_assoc]
    refine congrArg _ (funext fun grid => ?_)
    rw [bind_assoc]
    refine congrArg _ (funext fun entry => ?_)
    rcases entry.subgrid with _ | h
    · rfl
    · dsimp only
      rw [bind_assoc]
      refine congrArg _ (funext fun iterator => ?_)
      rw [Outcome.pure_eq, Outcome.ok_bind, Option.elim_some, Int.sub_zero]

theorem iteratorRound_eq_some {level : IteratorLevel} {parents : GridIterator} {d : ℤ}
    (h : ds.iteratorRound level parents = .ok (some (d, iterator'))) :
    iterator' ≠ [] ∧ (d = 0 ∨ d = 1) := by
  unfold iteratorRound at h
  by_cases hend : level.lastIndex + 1 ≥ level.cellCount
  · rw [if_pos hend] at h
    by_cases hp : parents = []
    · rw [if_pos hp] at h
      cases h
    · rw [if_neg hp] at h
      obtain ⟨rfl, rfl⟩ := Prod.mk.inj (Option.some.inj (Except.ok.inj h))
      exact ⟨hp, .inl rfl⟩
  · rw [if_neg hend] at h
    obtain ⟨grid, -, h⟩ := Outcome.bind_eq_ok.1 h
    obtain ⟨entry, -, h⟩ := Outcome.bind_eq_ok.1 h
    rcases hs : entry.subgrid with _ | k
    · rw [hs] at h
      obtain ⟨rfl, rfl⟩ := Prod.mk.inj (Option.some.inj (Except.ok.inj h))
      exact ⟨by simp, .inr rfl⟩
    · rw [hs] at h
      obtain ⟨it, hit, h⟩ := Outcome.bind_eq_ok.1 h
      obtain ⟨rfl, rfl⟩ := Prod.mk.inj (Option.some.inj (Except.ok.inj h))
      obtain ⟨sub, -, hit⟩ := Outcome.bind_eq_ok.1 hit
      rw [← Except.ok.inj hit]
      exact ⟨by simp, .inl rfl⟩

theorem gridIteratorAdvance_nil (ha : a ≠ 0) :
    ds.gridIteratorAdvance (fuel + 1) a [] = .error .undefined := by
  rw [gridIteratorAdvance, if_neg ha]

/-- What one round and the rounds after it do to an iterator that gets somewhere. -/
theorem gridIteratorAdvance_eq_ok (ha : a ≠ 0)
    (h : ds.gridIteratorAdvance (fuel + 1) a iterator = .ok iterator') :
    ∃ level parents r, iterator = level :: parents ∧ ds.iteratorRound level parents = .ok r
      ∧ ((r = none ∧ iterator' = [])
        ∨ ∃ d next, r = some (d, next) ∧ next ≠ [] ∧ (d = 0 ∨ d = 1)
          ∧ ds.gridIteratorAdvance fuel (a - d) next = .ok iterator') := by
  rcases iterator with _ | ⟨level, parents⟩
  · rw [gridIteratorAdvance_nil ha] at h
    cases h
  · rw [gridIteratorAdvance_succ ha] at h
    obtain ⟨r, hr, h⟩ := Outcome.bind_eq_ok.1 h
    refine ⟨level, parents, r, rfl, hr, ?_⟩
    rcases r with _ | ⟨d, next⟩
    · exact .inl ⟨rfl, (Except.ok.inj h).symm⟩
    · obtain ⟨hnext, hd⟩ := iteratorRound_eq_some hr
      exact .inr ⟨d, next, rfl, hnext, hd, h⟩

theorem gridIteratorAdvance_of_round (ha : a ≠ 0) {level : IteratorLevel}
    {parents next : GridIterator}
    {d : ℤ} (hr : ds.iteratorRound level parents = .ok (some (d, next))) :
    ds.gridIteratorAdvance (fuel + 1) a (level :: parents)
      = ds.gridIteratorAdvance fuel (a - d) next := by
  rw [gridIteratorAdvance_succ ha, hr]
  rfl

theorem gridIteratorAdvance_of_end (ha : a ≠ 0) {level : IteratorLevel} {parents : GridIterator}
    (hr : ds.iteratorRound level parents = .ok none) :
    ds.gridIteratorAdvance (fuel + 1) a (level :: parents) = .ok [] := by
  rw [gridIteratorAdvance_succ ha, hr]
  rfl

/-- More rounds than are needed change nothing. -/
theorem gridIteratorAdvance_mono : ∀ {fuel : ℕ} {a : ℤ} {iterator : GridIterator},
    ds.gridIteratorAdvance fuel a iterator = .ok iterator' → ∀ n,
    ds.gridIteratorAdvance (fuel + n) a iterator = .ok iterator'
  | 0, _, _, h, _ => by
    rw [gridIteratorAdvance] at h
    cases h
  | fuel + 1, a, iterator, h, n => by
    rw [Nat.add_right_comm]
    by_cases ha : a = 0
    · subst ha
      rw [gridIteratorAdvance_zero] at h ⊢
      exact h
    · obtain ⟨level, parents, r, rfl, hr, ⟨rfl, rfl⟩ | ⟨d, next, rfl, -, -, h⟩⟩ :=
        gridIteratorAdvance_eq_ok ha h
      · exact gridIteratorAdvance_of_end ha hr
      · rw [gridIteratorAdvance_of_round ha hr]
        exact gridIteratorAdvance_mono h n

/-- To advance by more than what is left passes the end, too. -/
theorem gridIteratorAdvance_past : ∀ {fuel : ℕ} {a b : ℤ} {iterator : GridIterator}, 0 ≤ a → a ≤ b →
    iterator ≠ [] → ds.gridIteratorAdvance fuel a iterator = .ok [] →
    ds.gridIteratorAdvance fuel b iterator = .ok []
  | 0, _, _, _, _, _, _, h => by
    rw [gridIteratorAdvance] at h
    cases h
  | fuel + 1, a, b, iterator, ha, hab, hne, h => by
    have ha0 : a ≠ 0 := by
      rintro rfl
      rw [gridIteratorAdvance_zero] at h
      exact hne (Except.ok.inj h)
    obtain ⟨level, parents, r, rfl, hr, ⟨rfl, -⟩ | ⟨d, next, rfl, hnext, hd, h⟩⟩ :=
      gridIteratorAdvance_eq_ok ha0 h
    · exact gridIteratorAdvance_of_end (by omega) hr
    · rw [gridIteratorAdvance_of_round (by omega) hr]
      exact gridIteratorAdvance_past (by omega) (by omega) hnext h

/-- After the rounds that it takes to advance by `a`, it remains to advance by `b`. -/
theorem gridIteratorAdvance_add : ∀ {fuel : ℕ} {a : ℤ} {iterator : GridIterator}, 0 ≤ a → 0 ≤ b →
    ds.gridIteratorAdvance fuel a iterator = .ok iterator' → iterator' ≠ [] →
    ∃ n, ∀ m, ds.gridIteratorAdvance (n + m) (a + b) iterator = ds.gridIteratorAdvance m b iterator'
  | 0, _, _, _, _, h, _ => by
    rw [gridIteratorAdvance] at h
    cases h
  | fuel + 1, a, iterator, ha, hb, h, hne => by
    by_cases ha0 : a = 0
    · subst ha0
      rw [gridIteratorAdvance_zero] at h
      obtain rfl := Except.ok.inj h
      exact ⟨0, fun m => by rw [Nat.zero_add, Int.zero_add]⟩
    · obtain ⟨level, parents, r, rfl, hr, ⟨-, rfl⟩ | ⟨d, next, rfl, -, hd, h⟩⟩ :=
        gridIteratorAdvance_eq_ok ha0 h
      · exact absurd rfl hne
      · obtain ⟨n, hn⟩ := gridIteratorAdvance_add (by omega) hb h hne
        refine ⟨n + 1, fun m => ?_⟩
        rw [Nat.add_right_comm, gridIteratorAdvance_of_round (by omega) hr, ← hn m]
        congr 1
        omega

end Advance

section Advances

/-- The loop ends with the iterator. -/
def Advances (ds : Dataset V) (increment : ℤ) (iterator iterator' : GridIterator) : Prop :=
  ∃ fuel, ds.gridIteratorAdvance fuel increment iterator = .ok iterator'

theorem Advances.unique {a : ℤ} {it it' : GridIterator} (h : Advances ds a iterator it)
    (h' : Advances ds a iterator it') : it = it' := by
  obtain ⟨n, hn⟩ := h
  obtain ⟨m, hm⟩ := h'
  have h1 := gridIteratorAdvance_mono hn m
  have h2 := gridIteratorAdvance_mono hm n
  rw [Nat.add_comm m n] at h2
  exact Except.ok.inj (h1.symm.trans h2)

theorem Advances.add_iff {a b : ℤ} (ha : 0 ≤ a) (hb : 0 ≤ b) (h : Advances ds a iterator iterator')
    (hne : iterator' ≠ []) {it : GridIterator} :
    Advances ds (a + b) iterator it ↔ Advances ds b iterator' it := by
  obtain ⟨fuel, h⟩ := h
  obtain ⟨n, hn⟩ := gridIteratorAdvance_add ha hb h hne
  constructor
  · rintro ⟨m, hm⟩
    refine ⟨m, ?_⟩
    rw [← hn m, Nat.add_comm]
    exact gridIteratorAdvance_mono hm n
  · rintro ⟨m, hm⟩
    exact ⟨n + m, (hn m).trans hm⟩

theorem advances_of_round {level : IteratorLevel} {parents next : GridIterator}
    (hr : ds.iteratorRound level parents = .ok (some (0, next)))
    (h : Advances ds 1 next iterator') :
    Advances ds 1 (level :: parents) iterator' := by
  obtain ⟨fuel, h⟩ := h
  exact ⟨fuel + 1, (gridIteratorAdvance_of_round (by decide) hr).trans h⟩

end Advances

section Enumerate

/-- Advancing by one, time after time, leads to the cells of the list, and then past the end. -/
def Enumerates (ds : Dataset V) : GridIterator → List (ℕ × ℕ) → Prop
  | iterator, [] => Advances ds 1 iterator []
  | iterator, c :: cells => ∃ level parents, Advances ds 1 iterator (level :: parents)
    ∧ level.grid = c.1 ∧ level.lastIndex = c.2 ∧ Enumerates ds (level :: parents) cells

variable {cells : List (ℕ × ℕ)}

/-- A round that does not count changes nothing in what remains. -/
theorem Enumerates.of_round {level : IteratorLevel} {parents next : GridIterator}
    (hr : ds.iteratorRound level parents = .ok (some (0, next))) (h : Enumerates ds next cells) :
    Enumerates ds (level :: parents) cells := by
  rcases cells with _ | ⟨c, cells⟩
  · exact advances_of_round hr h
  · obtain ⟨level', parents', h, hc, hi, hrest⟩ := h
    exact ⟨level', parents', advances_of_round hr h, hc, hi, hrest⟩

/-- Advancing by more skips cells. -/
theorem Enumerates.advances : ∀ {cells : List (ℕ × ℕ)} {iterator : GridIterator}, iterator ≠ [] →
    Enumerates ds iterator cells → ∀ n : ℕ,
    (∀ c, cells[n]? = some c → ∃ level parents, Advances ds (n + 1) iterator (level :: parents)
      ∧ level.grid = c.1 ∧ level.lastIndex = c.2)
    ∧ (cells.length ≤ n → Advances ds (n + 1) iterator [])
  | [], iterator, hne, h, n => by
    refine ⟨by simp, fun _ => ?_⟩
    obtain ⟨fuel, h⟩ := h
    exact ⟨fuel, gridIteratorAdvance_past (by decide) (by omega) hne h⟩
  | c :: cells, iterator, hne, ⟨level, parents, h, hc, hi, hrest⟩, 0 => by
    refine ⟨fun c' hc' => ?_, by simp⟩
    obtain rfl := Option.some.inj hc'
    exact ⟨level, parents, h, hc, hi⟩
  | c :: cells, iterator, hne, ⟨level, parents, h, hc, hi, hrest⟩, n + 1 => by
    obtain ⟨h1, h2⟩ := hrest.advances (by simp) n
    have hadd : ∀ it, Advances ds (((n + 1 : ℕ) : ℤ) + 1) iterator it
        ↔ Advances ds (n + 1) (level :: parents) it := fun it => by
      rw [← h.add_iff (by decide) (by omega) (by simp)]
      push_cast
      rw [Int.add_comm]
    simp only [hadd]
    exact ⟨h1, fun hl => h2 (by simpa using hl)⟩

end Enumerate

section Hierarchy

variable {parents : GridIterator} {i : ℕ}

theorem iteratorRound_end {level : IteratorLevel} (h : level.lastIndex + 1 ≥ level.cellCount) :
    ds.iteratorRound level parents = .ok (if parents = [] then none else some (0, parents)) :=
  if_pos h

theorem iteratorRound_cell {n : ℤ} {e : GridEntry} (hg : ds.gridHeap[g]? = some grid)
    (hi : (i : ℤ) < n) (he : grid.cell i = .ok e) :
    ds.iteratorRound ⟨g, i - 1, n⟩ parents = (match e.subgrid with
      | some h => ds.gridIteratorCreateInternal h (⟨g, i, n⟩ :: parents) >>= fun iterator =>
          .ok (some (0, iterator))
      | none => .ok (some (1, ⟨g, i, n⟩ :: parents))) := by
  unfold iteratorRound
  dsimp only
  rw [if_neg (by omega), grid_eq_ok.2 hg, Outcome.ok_bind, Int.sub_add_cancel, he, Outcome.ok_bind]
  rfl

theorem Enumerates.cons_cell {cells : List (ℕ × ℕ)} {n : ℤ} {e : GridEntry}
    (hg : ds.gridHeap[g]? = some grid) (hi : (i : ℤ) < n) (he : grid.cell i = .ok e)
    (hs : e.subgrid = none) (h : Enumerates ds (⟨g, i, n⟩ :: parents) cells) :
    Enumerates ds (⟨g, i - 1, n⟩ :: parents) ((g, i) :: cells) := by
  have hr := @iteratorRound_cell V ds g grid parents i n e hg hi he
  rw [hs] at hr
  refine ⟨_, parents, ⟨2, ?_⟩, rfl, rfl, h⟩
  rw [gridIteratorAdvance_of_round (by decide) hr]
  exact gridIteratorAdvance_zero

theorem Enumerates.sub {cells : List (ℕ × ℕ)} {n : ℤ} {e : GridEntry} {k : ℕ} {sub : Grid}
    (hg : ds.gridHeap[g]? = some grid) (hi : (i : ℤ) < n) (he : grid.cell i = .ok e)
    (hs : e.subgrid = some k) (hk : ds.gridHeap[k]? = some sub)
    (h : Enumerates ds (⟨k, -1, sub.cellCount⟩ :: ⟨g, i, n⟩ :: parents) cells) :
    Enumerates ds (⟨g, i - 1, n⟩ :: parents) cells := by
  have hr := @iteratorRound_cell V ds g grid parents i n e hg hi he
  rw [hs] at hr
  dsimp only at hr
  rw [gridIteratorCreateInternal, grid_eq_ok.2 hk, Outcome.ok_bind] at hr
  exact h.of_round hr

theorem Enumerates.end {cells : List (ℕ × ℕ)} {n : ℤ} (hn : n ≤ i)
    (hnil : parents = [] → cells = []) (h : parents ≠ [] → Enumerates ds parents cells) :
    Enumerates ds (⟨g, i - 1, n⟩ :: parents) cells := by
  have hr := @iteratorRound_end V ds parents ⟨g, i - 1, n⟩ (by dsimp only; omega)
  by_cases hp : parents = []
  · rw [if_pos hp] at hr
    rw [hnil hp]
    exact ⟨1, gridIteratorAdvance_of_end (by decide) hr⟩
  · rw [if_neg hp] at hr
    exact (h hp).of_round hr

/-- From one of its cells on, the leaf cells of a grid are enumerated before those that remain in
the grids around it. -/
theorem enumerates_from_cell (h : Hierarchy ds.gridHeap dims g) : ∀ {grid : Grid},
    ds.gridHeap[g]? = some grid → Filled ds.gridHeap g → ∀ k i : ℕ, (i : ℤ) + k = grid.cellCount →
    ∃ leaves : List (ℕ × ℕ), leaves.Nodup
      ∧ (∀ c, c ∈ leaves ↔ ∃ j : ℕ, i ≤ j ∧ (j : ℤ) < grid.cellCount
        ∧ LeafIn ds.gridHeap g grid j c)
      ∧ ∀ (parents : GridIterator) (rest : List (ℕ × ℕ)), (parents = [] → rest = []) →
        (parents ≠ [] → Enumerates ds parents rest) →
        Enumerates ds (⟨g, i - 1, grid.cellCount⟩ :: parents) (leaves ++ rest) := by
  induction h with
  | @intro g grid' hg' hl hsub ih =>
    intro grid hg hf k
    obtain rfl := Option.some.inj (hg'.symm.trans hg)
    have h : Hierarchy ds.gridHeap dims g := .intro hg hl hsub
    induction k with
    | zero =>
      intro i hi
      refine ⟨[], .nil, fun c => ?_, fun parents rest hnil hrest => .end (by omega) hnil hrest⟩
      simp only [List.not_mem_nil, false_iff, not_exists, not_and]
      intro j
      omega
    | succ k ihk =>
      intro i hi
      obtain ⟨later, hn, hm, henum⟩ := ihk (i + 1) (by push_cast at hi ⊢; omega)
      have hlt : (i : ℤ) < grid'.cellCount := by omega
      obtain ⟨e, he, hes, -⟩ := hl.cell_of_filled hg hf hlt
      -- the leaf cells in this cell come before the later ones
      obtain ⟨own, hown, hmem, hfirst⟩ : ∃ own : List (ℕ × ℕ), own.Nodup
          ∧ (∀ c, c ∈ own ↔ LeafIn ds.gridHeap g grid' i c) ∧ ∀ (parents : GridIterator) rest,
            Enumerates ds (⟨g, i, grid'.cellCount⟩ :: parents) rest →
            Enumerates ds (⟨g, i - 1, grid'.cellCount⟩ :: parents) (own ++ rest) := by
        rcases hs : grid'.subgridAt i with _ | k
        · refine ⟨[(g, i)], by simp, fun c => ?_, fun parents rest hrest =>
            hrest.cons_cell hg hlt he (hes.trans hs)⟩
          simp [LeafIn, hs]
        · obtain ⟨-, sub, hk, -⟩ := hl.child i k hs
          obtain ⟨hlk, -⟩ := (hsub i k hs).level hk
          obtain ⟨leaves, hnk, hmk, henumk⟩ := ih i k hs hk (hf.sub hg hs) sub.cellCount.toNat 0
            (by have := cellCount_pos fun a ha => (hlk.proper a ha).intervals; omega)
          refine ⟨leaves, hnk, fun c => ?_, fun parents rest hrest =>
            (henumk _ rest (by simp) fun _ => hrest).sub hg hlt he (hes.trans hs) hk⟩
          rw [hmk]
          simp only [Nat.zero_le, true_and, ← leaf_iff hlk hk]
          simp [LeafIn, hs]
      refine ⟨own ++ later, List.nodup_append'.2 ⟨hown, hn, fun c hc hc' => ?_⟩, fun c => ?_,
        fun parents rest hnil hrest => ?_⟩
      · obtain ⟨j, hij, -, hj⟩ := (hm c).1 hc'
        have := h.leafIn_unique hg hlt ((hmem c).1 hc) hj
        omega
      · rw [List.mem_append, hmem, hm]
        constructor
        · rintro (hc | ⟨j, hij, hj, hc⟩)
          · exact ⟨i, le_rfl, hlt, hc⟩
          · exact ⟨j, by omega, hj, hc⟩
        · rintro ⟨j, hij, hj, hc⟩
          rcases hij.eq_or_lt with rfl | hij
          · exact .inl hc
          · exact .inr ⟨j, hij, hj, hc⟩
      · rw [List.append_assoc]
        refine hfirst parents _ ?_
        have := henum parents rest hnil hrest
        rwa [show ((i + 1 : ℕ) : ℤ) - 1 = i by push_cast; omega] at this

/-- The iterator of a filled grid enumerates its leaf cells. -/
theorem enumerates_leaves (h : Hierarchy ds.gridHeap dims g) (hg : ds.gridHeap[g]? = some grid)
    (hf : Filled ds.gridHeap g) : ∃ leaves : List (ℕ × ℕ), leaves.Nodup
      ∧ (∀ c, c ∈ leaves ↔ Leaf ds.gridHeap g c)
      ∧ Enumerates ds [⟨g, -1, grid.cellCount⟩] leaves := by
  obtain ⟨hl, -⟩ := h.level hg
  obtain ⟨leaves, hn, hm, henum⟩ := enumerates_from_cell h hg hf grid.cellCount.toNat 0
    (by have := cellCount_pos fun a ha => (hl.proper a ha).intervals; omega)
  refine ⟨leaves, hn, fun c => ?_, ?_⟩
  · rw [hm, leaf_iff hl hg]
    simp only [Nat.zero_le, true_and]
  · have := henum [] [] (fun _ => rfl) fun hne => absurd rfl hne
    rwa [List.append_nil] at this

end Hierarchy

section Next

variable {cube : Hypercube} {i : ℕ}

/-- The dataspace of the cell that has been reached. -/
theorem gridIteratorNext_eq {fuel : ℕ} {a : ℤ} {level : IteratorLevel} {parents : GridIterator}
    (hne : iterator ≠ []) (h : ds.gridIteratorAdvance fuel a iterator = .ok (level :: parents))
    (hg : ds.gridHeap[level.grid]? = some grid) (hp : ∀ axis ∈ grid.axes, Axis.Proper axis)
    (hi : level.lastIndex = i) (hc : CellAt grid.axes i cube) {space : Dataspace}
    (hs : ds.dataspace.subspace (dimOf cube) = .ok space) :
    ds.gridIteratorNext fuel iterator a = .ok (.success, level :: parents, some space) := by
  obtain ⟨index, hidx, hcell⟩ := indexCoordinates_eq_ok hp hc
  rw [gridIteratorNext, eassert_of hne, Outcome.ok_bind, h, Outcome.ok_bind]
  dsimp only
  rw [grid_eq_ok.2 hg, Outcome.ok_bind, hi, hidx, Outcome.ok_bind, cellSize_eq_ok hcell,
    Outcome.ok_bind]
  dsimp only
  rw [hs]
  rfl

/-- Calling `esdm_gridIterator_next` with the increment 1 until it yields `NULL`. -/
def Iterates (ds : Dataset V) : GridIterator → List Dataspace → Prop
  | iterator, [] => ∃ fuel, ds.gridIteratorNext fuel iterator 1 = .ok (.success, [], none)
  | iterator, space :: spaces => ∃ fuel iterator',
    ds.gridIteratorNext fuel iterator 1 = .ok (.success, iterator', some space)
      ∧ Iterates ds iterator' spaces

theorem exists_subspace (hin : Inside ds.dataspace.dim grid.axes)
    (hpos : ∀ axis ∈ grid.axes, 0 ≤ axis.outerStart) (hw : Hypercube.Within cube (box grid.axes))
    (hne : ¬ Hypercube.isEmpty cube) : ∃ space, ds.dataspace.subspace (dimOf cube) = .ok space
      ∧ space.getExtends = cube :=
  ⟨_, if_pos (hin.subspaceDim hpos hw hne), cubeOf_dimOf cube⟩

/-- The iteration returns a dataspace for each of the cells. -/
theorem Enumerates.iterates : ∀ {cells : List (ℕ × ℕ)} {iterator : GridIterator}, iterator ≠ [] →
    Enumerates ds iterator cells →
    (∀ c ∈ cells, ∃ grid cube space, ds.gridHeap[c.1]? = some grid
      ∧ (∀ axis ∈ grid.axes, Axis.Proper axis) ∧ CellAt grid.axes c.2 cube
      ∧ ds.dataspace.subspace (dimOf cube) = .ok space ∧ space.getExtends = cube) →
    ∃ spaces, Iterates ds iterator spaces
      ∧ List.Forall₂ (fun c (space : Dataspace) => Extent ds.gridHeap c space.getExtends) cells
        spaces
  | [], iterator, hne, ⟨fuel, h⟩, _ => by
    refine ⟨[], ⟨fuel, ?_⟩, .nil⟩
    rw [gridIteratorNext, eassert_of hne, Outcome.ok_bind, h]
    rfl
  | c :: cells, iterator, hne, ⟨level, parents, ⟨fuel, h⟩, hc, hi, hrest⟩, hall => by
    obtain ⟨grid, cube, space, hg, hp, hcell, hs, hext⟩ := hall c (by simp)
    obtain ⟨spaces, hit, hspaces⟩ := hrest.iterates (by simp)
      fun c' hc' => hall c' (List.mem_cons_of_mem c hc')
    refine ⟨space :: spaces, ⟨fuel, level :: parents, ?_, hit⟩, .cons ⟨grid, hg, ?_⟩ hspaces⟩
    · exact gridIteratorNext_eq hne h (hc ▸ hg) hp hi hcell hs
    · rw [hext]
      exact hcell

/-- A dataspace that is returned has passed the checks. -/
theorem offset_nonneg_of_next {fuel : ℕ} {a : ℤ} {space : Dataspace}
    (h : ds.gridIteratorNext fuel iterator a = .ok (.success, iterator', some space)) :
    ∀ d ∈ space.dim, 0 ≤ d.offset := by
  rw [gridIteratorNext] at h
  obtain ⟨_, -, h⟩ := Outcome.bind_eq_ok.1 h
  obtain ⟨it, -, h⟩ := Outcome.bind_eq_ok.1 h
  rcases it with _ | ⟨level, parents⟩
  · cases h
  dsimp only at h
  obtain ⟨grid, -, h⟩ := Outcome.bind_eq_ok.1 h
  obtain ⟨index, -, h⟩ := Outcome.bind_eq_ok.1 h
  obtain ⟨dim, -, h⟩ := Outcome.bind_eq_ok.1 h
  rcases dim with _ | dim
  · cases h
  dsimp only at h
  by_cases hs : dim.length = ds.dataspace.dims ∧ ∀ q ∈ ds.dataspace.dim.zip dim,
      Dataspace.subspaceDim q.1 q.2
  · rw [Dataspace.subspace, if_pos hs] at h
    obtain ⟨-, h⟩ := Prod.mk.inj (Except.ok.inj h)
    obtain ⟨-, h⟩ := Prod.mk.inj h
    obtain rfl := Option.some.inj h
    intro d hd
    have hzip : (ds.dataspace.dim.zip dim).map Prod.snd = dim := List.map_snd_zip hs.1.le
    dsimp only at hd
    rw [← hzip] at hd
    obtain ⟨q, hq, rfl⟩ := List.mem_map.1 hd
    exact not_lt.1 (hs.2 q hq).2.1
  · rw [Dataspace.subspace, if_neg hs] at h
    cases h

end Next

section Iteration

/-- The iterators of a process that first advances by `start`, and then by `n` each time. -/
inductive Strides (ds : Dataset V) (n start : ℤ) (iterator : GridIterator) :
    ℕ → GridIterator → Prop
  | start {next : GridIterator} : Advances ds start iterator next → next ≠ [] →
    Strides ds n start iterator 0 next
  | next {j : ℕ} {last next : GridIterator} : Strides ds n start iterator j last →
    Advances ds n last next → next ≠ [] → Strides ds n start iterator (j + 1) next

theorem Strides.advances {n start : ℤ} {j : ℕ} (hn : 0 ≤ n) (hs : 0 ≤ start)
    (h : Strides ds n start iterator j iterator') :
    Advances ds (start + j * n) iterator iterator' ∧ iterator' ≠ [] := by
  induction h with
  | start h hne => exact ⟨by simpa using h, hne⟩
  | @next j last next _ h hne ih =>
    refine ⟨?_, hne⟩
    have := (ih.1.add_iff (Int.add_nonneg hs (Int.mul_nonneg (by omega) hn)) hn ih.2).2 h
    rwa [show start + j * n + n = start + ((j + 1 : ℕ) : ℤ) * n by push_cast; ring] at this

/-- What iterating over the cells of a grid is to do. -/
structure Iteration (ds : Dataset V) (g : ℕ) (domain : Hypercube) (iterator : GridIterator)
    (leaves : List (ℕ × ℕ)) (spaces : List Dataspace) : Prop where
  created : ds.gridIteratorCreate g = .ok (.success, iterator)
  iterates : Iterates ds iterator spaces
  nodup : leaves.Nodup
  mem_iff : ∀ c, c ∈ leaves ↔ Leaf ds.gridHeap g c
  extents : List.Forall₂ (fun c (space : Dataspace) => Extent ds.gridHeap c space.getExtends)
    leaves spaces
  nonempty : ∀ space ∈ spaces, ¬ Hypercube.isEmpty space.getExtends
  disjoint : spaces.Pairwise fun s t =>
    Disjoint (Hypercube.points s.getExtends) (Hypercube.points t.getExtends)
  covers : ∀ p, p ∈ Hypercube.points domain
    ↔ ∃ space ∈ spaces, p ∈ Hypercube.points space.getExtends
  total : ∀ a : ℤ, 1 ≤ a → ∃ next, Advances ds a iterator next
  additive : ∀ (a b : ℤ) (start next last : GridIterator), 1 ≤ a → 1 ≤ b →
    Advances ds a start next → next ≠ [] →
    (Advances ds (a + b) start last ↔ Advances ds b next last)
  strides : ∀ (n s t : ℤ) (j k : ℕ) (level level' : IteratorLevel)
    (parents parents' : GridIterator),
    1 ≤ s → s < t → t ≤ n → Strides ds n s iterator j (level :: parents) →
    Strides ds n t iterator k (level' :: parents') →
    (level.grid, level.lastIndex) ≠ (level'.grid, level'.lastIndex)

/-- The cell that is reached is the one at its place in the enumeration. -/
theorem Enumerates.cell_eq {cells : List (ℕ × ℕ)} (hne : iterator ≠ [])
    (h : Enumerates ds iterator cells) {a : ℤ} (ha : 1 ≤ a) {level : IteratorLevel}
    {parents : GridIterator} (hadv : Advances ds a iterator (level :: parents)) :
    ∃ c, cells[(a - 1).toNat]? = some c ∧ level.grid = c.1 ∧ level.lastIndex = c.2 := by
  obtain ⟨h1, h2⟩ := h.advances hne (a - 1).toNat
  rw [show (((a - 1).toNat : ℕ) : ℤ) + 1 = a by omega] at h1 h2
  rcases hc : cells[(a - 1).toNat]? with _ | c
  · have := hadv.unique (h2 (List.getElem?_eq_none_iff.1 hc))
    cases this
  · obtain ⟨level', parents', hadv', hk, hi⟩ := h1 c hc
    obtain ⟨rfl, -⟩ := List.cons.inj (hadv.unique hadv')
    exact ⟨c, rfl, hk, hi⟩

theorem Enumerates.strides {cells : List (ℕ × ℕ)} (hne : iterator ≠ [])
    (h : Enumerates ds iterator cells) (hn : cells.Nodup) {n s t : ℤ} {j k : ℕ}
    {level level' : IteratorLevel} {parents parents' : GridIterator} (hs : 1 ≤ s) (hst : s < t)
    (htn : t ≤ n) (hj : Strides ds n s iterator j (level :: parents))
    (hk : Strides ds n t iterator k (level' :: parents')) :
    (level.grid, level.lastIndex) ≠ (level'.grid, level'.lastIndex) := by
  have hjn : 0 ≤ (j : ℤ) * n := Int.mul_nonneg (by omega) (by omega)
  have hkn : 0 ≤ (k : ℤ) * n := Int.mul_nonneg (by omega) (by omega)
  obtain ⟨c, hc, hg, hi⟩ := h.cell_eq hne (by omega) (hj.advances (by omega) (by omega)).1
  obtain ⟨c', hc', hg', hi'⟩ := h.cell_eq hne (by omega) (hk.advances (by omega) (by omega)).1
  intro heq
  obtain ⟨hgrid, hlast⟩ := Prod.mk.inj heq
  obtain rfl : c = c' := Prod.ext (by omega) (by omega)
  have hplace := (List.getElem?_inj (List.getElem?_eq_some_iff.1 hc).1 hn).1 (hc.trans hc'.symm)
  have hmul : t - s = ((j : ℤ) - k) * n := by
    rw [Int.sub_mul]
    omega
  -- the distance of the starts is no multiple of the stride
  rcases le_or_gt ((j : ℤ) - k) 0 with hjk | hjk
  · have := Int.mul_nonneg_of_nonpos_of_nonpos hjk (show -n ≤ 0 by omega)
    rw [Int.mul_neg] at this
    omega
  · have := Int.mul_le_mul_of_nonneg_right (show 1 ≤ (j : ℤ) - k by omega) (show 0 ≤ n by omega)
    omega

theorem mem_spaces_of_leaf {leaves : List (ℕ × ℕ)} {spaces : List Dataspace}
    (h : List.Forall₂ (fun c (space : Dataspace) => Extent ds.gridHeap c space.getExtends)
      leaves spaces) : ∀ {c : ℕ × ℕ}, c ∈ leaves →
    ∃ space ∈ spaces, Extent ds.gridHeap c space.getExtends := by
  induction h with
  | nil => simp
  | @cons c' space leaves spaces hc _ ih =>
    intro c hmem
    obtain rfl | hmem := List.mem_cons.1 hmem
    · exact ⟨space, by simp, hc⟩
    · obtain ⟨space', hs, hext⟩ := ih hmem
      exact ⟨space', List.mem_cons_of_mem space hs, hext⟩

theorem leaf_of_mem_spaces {leaves : List (ℕ × ℕ)} {spaces : List Dataspace}
    (h : List.Forall₂ (fun c (space : Dataspace) => Extent ds.gridHeap c space.getExtends)
      leaves spaces) : ∀ {space : Dataspace}, space ∈ spaces →
    ∃ c ∈ leaves, Extent ds.gridHeap c space.getExtends := by
  induction h with
  | nil => simp
  | @cons c space' leaves spaces hc _ ih =>
    intro space hmem
    obtain rfl | hmem := List.mem_cons.1 hmem
    · exact ⟨c, by simp, hc⟩
    · obtain ⟨c', hs, hext⟩ := ih hmem
      exact ⟨c', List.mem_cons_of_mem c hs, hext⟩

theorem disjoint_spaces {leaves : List (ℕ × ℕ)} {spaces : List Dataspace}
    (h : List.Forall₂ (fun c (space : Dataspace) => Extent ds.gridHeap c space.getExtends)
      leaves spaces) (hh : Hierarchy ds.gridHeap dims g) : leaves.Nodup →
    (∀ c ∈ leaves, Leaf ds.gridHeap g c) →
    spaces.Pairwise fun s t =>
      Disjoint (Hypercube.points s.getExtends) (Hypercube.points t.getExtends) := by
  induction h with
  | nil => exact fun _ _ => .nil
  | @cons c space leaves spaces hc hrest ih =>
    intro hn hleaf
    obtain ⟨hcn, hn⟩ := List.nodup_cons.1 hn
    refine .cons (fun t ht => Set.disjoint_left.2 fun p hp hp' => ?_)
      (ih hn fun c' hc' => hleaf c' (List.mem_cons_of_mem c hc'))
    obtain ⟨c', hc', hext⟩ := leaf_of_mem_spaces hrest ht
    have := hh.leaf_unique (hleaf c (by simp))
      (hleaf c' (List.mem_cons_of_mem c hc')) hc hext hp hp'
    exact hcn (this ▸ hc')

/-- All offsets are those of successful calls. -/
theorem Iterates.offset_nonneg : ∀ {spaces : List Dataspace} {iterator : GridIterator},
    Iterates ds iterator spaces → ∀ space ∈ spaces, ∀ d ∈ space.dim, 0 ≤ d.offset
  | [], _, _ => by simp
  | space :: spaces, _, ⟨_, _, h, hrest⟩ => by
    intro space' hmem
    obtain rfl | hmem := List.mem_cons.1 hmem
    · exact offset_nonneg_of_next h
    · exact hrest.offset_nonneg space' hmem

/-- The corner of the domain with the smallest coordinates. -/
theorem corner_mem_box {axes : List Axis} (hp : ∀ axis ∈ axes, Axis.Proper axis) :
    axes.map Axis.outerStart ∈ Hypercube.points (box axes) := by
  induction axes with
  | nil => exact .nil
  | cons axis axes ih =>
    exact .cons ⟨le_rfl, (hp axis (by simp)).outer_lt⟩
      (ih fun a ha => hp a (List.mem_cons_of_mem axis ha))

theorem nonneg_of_mem_points : ∀ {dim : List Dim} {p : List ℤ}, p ∈ Hypercube.points (cubeOf dim) →
    (∀ d ∈ dim, 0 ≤ d.offset) → ∀ x ∈ p, 0 ≤ x
  | [], p, h, _ => by
    obtain rfl := Hypercube.mem_points_nil.1 h
    simp
  | d :: dim, p, h, hd => by
    obtain ⟨x, q, rfl, hx, hq⟩ := Hypercube.mem_points_cons_iff.1 h
    intro y hy
    obtain rfl | hy := List.mem_cons.1 hy
    · have := hd d (by simp)
      have := hx.1
      dsimp only at this
      omega
    · exact nonneg_of_mem_points hq (fun e he => hd e (List.mem_cons_of_mem d he)) y hy

theorem Iteration.outerStart_nonneg {leaves : List (ℕ × ℕ)} {spaces : List Dataspace}
    (hit : Iteration ds g (box grid.axes) iterator leaves spaces)
    (hp : ∀ axis ∈ grid.axes, Axis.Proper axis) : ∀ axis ∈ grid.axes, 0 ≤ axis.outerStart := by
  intro axis ha
  obtain ⟨space, hs, hp⟩ := (hit.covers _).1 (corner_mem_box hp)
  exact nonneg_of_mem_points hp (hit.iterates.offset_nonneg space hs) _ (List.mem_map_of_mem ha)

/-- Iterating over a complete grid whose domain lies inside the dataspace does what it is to do, if
and only if no cell has a negative offset. -/
theorem iteration_iff (hg : ds.gridHeap[g]? = some grid) (h : Hierarchy ds.gridHeap dims g)
    (hf : Filled ds.gridHeap g) (hcomplete : grid.emptyCells = 0)
    (hin : Inside ds.dataspace.dim grid.axes) :
    (∃ iterator leaves spaces, Iteration ds g (box grid.axes) iterator leaves spaces)
      ↔ ∀ axis ∈ grid.axes, 0 ≤ axis.outerStart := by
  obtain ⟨hl, -⟩ := h.level hg
  constructor
  · rintro ⟨iterator, leaves, spaces, hit⟩
    exact hit.outerStart_nonneg hl.proper
  · intro hpos
    obtain ⟨leaves, hn, hm, henum⟩ := enumerates_leaves h hg hf
    have hne : [(⟨g, -1, grid.cellCount⟩ : IteratorLevel)] ≠ [] := by simp
    obtain ⟨spaces, hiter, hext⟩ := henum.iterates hne fun c hc => by
      have hleaf := (hm c).1 hc
      obtain ⟨grid', hg', hl'⟩ := h.leaf_level hleaf
      obtain ⟨cube, ⟨grid'', hg'', hcell⟩, hw, hempty⟩ := h.leaf_within hleaf hg
      obtain rfl := Option.some.inj (hg'.symm.trans hg'')
      obtain ⟨space, hs, hcube⟩ := exists_subspace hin hpos hw hempty
      exact ⟨grid', cube, space, hg', hl'.proper, hcell, hs, hcube⟩
    have hwithin : ∀ space ∈ spaces, Hypercube.Within space.getExtends (box grid.axes)
        ∧ ¬ Hypercube.isEmpty space.getExtends := by
      intro space hs
      obtain ⟨c, hc, hce⟩ := leaf_of_mem_spaces hext hs
      obtain ⟨cube, hcube, hw⟩ := h.leaf_within ((hm c).1 hc) hg
      obtain rfl := hce.eq hcube
      exact hw
    refine ⟨_, leaves, spaces, ?_, hiter, hn, hm, hext, fun s hs => (hwithin s hs).2,
      disjoint_spaces hext h hn fun c hc => (hm c).1 hc, fun p => ⟨fun hp => ?_, ?_⟩,
      fun a ha => ?_, ?_, ?_⟩
    · rw [gridIteratorCreate, grid_eq_ok.2 hg, Outcome.ok_bind, if_neg (not_not.2 hcomplete),
        gridIteratorCreateInternal, grid_eq_ok.2 hg]
      rfl
    · obtain ⟨c, cube, hleaf, hcube, hpc⟩ := h.exists_leaf hg hp
      obtain ⟨space, hs, hce⟩ := mem_spaces_of_leaf hext ((hm c).2 hleaf)
      obtain rfl := hce.eq hcube
      exact ⟨space, hs, hpc⟩
    · rintro ⟨space, hs, hp⟩
      exact (hwithin space hs).1.points_subset hp
    · obtain ⟨h1, h2⟩ := henum.advances hne (a - 1).toNat
      rw [show (((a - 1).toNat : ℕ) : ℤ) + 1 = a by omega] at h1 h2
      rcases hc : leaves[(a - 1).toNat]? with _ | c
      · exact ⟨[], h2 (List.getElem?_eq_none_iff.1 hc)⟩
      · obtain ⟨level, parents, hadv, -⟩ := h1 c hc
        exact ⟨_, hadv⟩
    · intro a b start next last ha hb hadv hne
      exact hadv.add_iff (by omega) (by omega) hne
    · intro n s t j k level level' parents parents' hs hst htn hj hk
      exact henum.strides hne hn hs hst htn hj hk

theorem iteration_iff_pair : ∃ ds : Dataset ℕ, (init pairSpace none).run pairGridCalls = .ok ds
    ∧ ∃ iterator leaves spaces, Iteration ds 0 [⟨0, 2⟩] iterator leaves spaces := by
  obtain ⟨ds, hrun, heap, hspace, h, hf⟩ := filled_pair
  have hg : ds.gridHeap[0]? = (pairGrids 0 0 (some 1))[0]? := by rw [heap]
  have hin : Inside ds.dataspace.dim [⟨2, 0, 2, [0, 1, 2]⟩] := by
    rw [hspace]
    exact .cons ⟨by decide, .inr (by decide)⟩ .nil
  exact ⟨ds, hrun, (iteration_iff hg h hf rfl hin).2 (by simp)⟩

/-- Two elements, the first of which has a negative coordinate. -/
def negativeSpace : Dataspace := Dataspace.createFull [⟨-1, 2⟩] (.basic .int64)

def negativeElement : Memspace := ⟨Dataspace.createFull [⟨-1, 1⟩] (.basic .int64), by decide⟩

def negativeCalls : List (Call ℕ) :=
  [.gridCreate [⟨-1, 1⟩], .writeGrid 0 negativeElement fun _ => 7].map fun op => ⟨Env.calm 0, op⟩

def negativeGrid : Grid := ⟨none, none, 0, some [⟨none, some 0⟩], [⟨1, -1, 0, [-1, 0]⟩]⟩

theorem run_negativeCalls : ∃ ds : Dataset ℕ, (init negativeSpace none).run negativeCalls = .ok ds
    ∧ ds.gridHeap[0]? = some negativeGrid ∧ ds.dims = 1 ∧ ds.dataspace = negativeSpace :=
  ⟨_, rfl, rfl, rfl, rfl⟩

/-- `esdm_dataspace_subspace` rejects the negative offset of the cell. -/
theorem not_iteration : ∃ ds : Dataset ℕ,
    (init negativeSpace none).run negativeCalls = .ok ds ∧ ds.gridHeap[0]? = some negativeGrid
      ∧ Hierarchy ds.gridHeap 1 0 ∧ Filled ds.gridHeap 0 ∧ negativeGrid.emptyCells = 0
      ∧ Inside ds.dataspace.dim negativeGrid.axes
      ∧ ¬ ∃ iterator leaves spaces,
        Iteration ds 0 (box negativeGrid.axes) iterator leaves spaces := by
  obtain ⟨ds, hrun, hg, hdims, hspace⟩ := run_negativeCalls
  obtain ⟨hI, hG⟩ := run_geometry hrun
  have hF := hI.grids.forest
  rw [hdims] at hF
  have h := hG.hierarchy_of_done hF hg rfl
  refine ⟨ds, hrun, hg, h, hF.filled (hF.leavesFilled_of_done hg rfl), rfl, ?_, ?_⟩
  · rw [hspace]
    exact .cons ⟨by decide, .inr (by decide)⟩ .nil
  · rintro ⟨iterator, leaves, spaces, hit⟩
    have := hit.outerStart_nonneg (h.level hg).1.proper ⟨1, -1, 0, [-1, 0]⟩ (by simp [negativeGrid])
    revert this
    decide

end Iteration

end Dataset

end Esdm
