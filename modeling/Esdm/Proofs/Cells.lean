import Esdm.Lib.Radix
import Esdm.Proofs.Axis

/-!
# The cells of a grid

The cells of a grid whose axes all enclose something partition its domain, and each has a place of
its own in the array of cells.  The walk over the cells that overlap a region visits just these
(`walkCells_eq`).
-/

namespace Esdm

namespace Grid

variable {grid : Grid} {axes : List Axis} {index : List ℤ} {cube : Hypercube} {p : List ℤ}

section Address

/-- The number of intervals of each axis. -/
def sizes (axes : List Axis) : List ℤ := axes.map Axis.intervals

theorem linearIndexFrom_eq : ∀ {axes : List Axis} {index : List ℤ} (result : ℤ),
    index.length = axes.length →
    (Radix.Digits index (sizes axes)
        ∧ linearIndexFrom result axes index
          = result * (sizes axes).prod + Radix.value (sizes axes) index)
      ∨ (¬ Radix.Digits index (sizes axes) ∧ linearIndexFrom result axes index = -1)
  | [], [], result, _ => .inl ⟨.nil, by simp [linearIndexFrom, sizes, Radix.value]⟩
  | axis :: axes, i :: index, result, hl => by
    have hs : sizes (axis :: axes) = axis.intervals :: sizes axes := rfl
    rw [linearIndexFrom, hs, Radix.Digits, List.forall₂_cons]
    by_cases hi : i < 0 ∨ i ≥ axis.intervals
    · exact .inr ⟨fun h => by omega, if_pos hi⟩
    · rw [if_neg hi]
      obtain ⟨hd, h⟩ | ⟨hd, h⟩ := linearIndexFrom_eq (result * axis.intervals + i)
        (show index.length = axes.length by simpa using hl)
      · refine .inl ⟨⟨by omega, hd⟩, ?_⟩
        rw [h, List.prod_cons, Radix.value]
        ring
      · exact .inr ⟨fun h' => hd h'.2, h⟩

/-- The place of a cell in the array. -/
theorem linearIndex_eq (hl : index.length = grid.axes.length)
    (h : Radix.Digits index (sizes grid.axes)) :
    grid.linearIndex index = Radix.value (sizes grid.axes) index := by
  obtain ⟨-, h'⟩ | ⟨hn, -⟩ := linearIndexFrom_eq 0 hl
  · rw [linearIndex, h']
    ring
  · exact absurd h hn

end Address

section Cell

/-- The hypercube is the cell with the given index. -/
def IsCell : List Axis → List ℤ → Hypercube → Prop
  | axis :: axes, i :: index, r :: cube =>
    (0 ≤ i ∧ i < axis.intervals ∧ axis.bound i = .ok r.start ∧ axis.bound (i + 1) = .ok r.stop)
      ∧ IsCell axes index cube
  | [], [], [] => True
  | _, _, _ => False

/-- The domain of a grid. -/
def box (axes : List Axis) : Hypercube := axes.map fun axis => ⟨axis.outerStart, axis.outerStop⟩

theorem IsCell.digits : ∀ {axes : List Axis} {index : List ℤ} {cube : Hypercube},
    IsCell axes index cube → Radix.Digits index (sizes axes)
  | [], [], [], _ => .nil
  | _ :: _, _ :: _, _ :: _, h => .cons ⟨h.1.1, h.1.2.1⟩ h.2.digits

theorem IsCell.length : ∀ {axes : List Axis} {index : List ℤ} {cube : Hypercube},
    IsCell axes index cube → index.length = axes.length ∧ cube.length = axes.length
  | [], [], [], _ => ⟨rfl, rfl⟩
  | _ :: _, _ :: _, _ :: _, h => by simpa using h.2.length

theorem IsCell.eq : ∀ {axes : List Axis} {index : List ℤ} {cube cube' : Hypercube},
    IsCell axes index cube → IsCell axes index cube' → cube = cube'
  | [], [], [], [], _, _ => rfl
  | _ :: _, _ :: _, r :: _, r' :: _, h, h' => by
    have h1 : r.start = r'.start := Except.ok.inj (h.1.2.2.1.symm.trans h'.1.2.2.1)
    have h2 : r.stop = r'.stop := Except.ok.inj (h.1.2.2.2.symm.trans h'.1.2.2.2)
    rw [h.2.eq h'.2]
    cases r
    cases r'
    simp_all

variable (hp : ∀ axis ∈ axes, Axis.Proper axis)

include hp

theorem exists_isCell (h : Radix.Digits index (sizes axes)) : ∃ cube, IsCell axes index cube := by
  induction axes generalizing index with
  | nil =>
    obtain rfl := List.forall₂_nil_right_iff.1 h
    exact ⟨[], trivial⟩
  | cons axis axes ih =>
    obtain ⟨i, index, hi, hrest, rfl⟩ := List.forall₂_cons_right_iff.1 h
    obtain ⟨cube, hcube⟩ := ih (fun a ha => hp a (by simp [ha])) hrest
    have hax := hp axis (by simp)
    obtain ⟨n, rfl⟩ := Int.eq_ofNat_of_zero_le hi.1
    obtain ⟨y, hy⟩ := hax.exists_bound (i := n) (by omega)
    obtain ⟨z, hz⟩ := hax.exists_bound (i := n + 1) (by push_cast; omega)
    refine ⟨⟨y, z⟩ :: cube, ⟨hi.1, hi.2, Axis.bound_natCast.2 hy, ?_⟩, hcube⟩
    exact_mod_cast Axis.bound_natCast.2 hz

/-- Every point of the domain lies in a cell. -/
theorem exists_mem_cell (h : p ∈ Hypercube.points (box axes)) :
    ∃ index cube, IsCell axes index cube ∧ p ∈ Hypercube.points cube := by
  induction axes generalizing p with
  | nil => exact ⟨[], [], trivial, h⟩
  | cons axis axes ih =>
    obtain ⟨x, q, rfl, hx, hq⟩ := Hypercube.mem_points_cons_iff.1 h
    obtain ⟨index, cube, hcell, hqc⟩ := ih (fun a ha => hp a (by simp [ha])) hq
    obtain ⟨i, -, hlt, y, z, hy, hz, hyx, hxz⟩ :=
      (hp axis (by simp)).findInterval_eq_ok hx.1 hx.2
    refine ⟨i :: index, ⟨y, z⟩ :: cube, ⟨⟨by omega, hlt, Axis.bound_natCast.2 hy, ?_⟩, hcell⟩,
      Hypercube.mem_points_cons.2 ⟨⟨hyx, hxz⟩, hqc⟩⟩
    exact_mod_cast Axis.bound_natCast.2 hz

omit hp in
theorem at_of_bounds {axis : Axis} {i : ℤ} {r : Range} (h : 0 ≤ i ∧ i < axis.intervals
    ∧ axis.bound i = .ok r.start ∧ axis.bound (i + 1) = .ok r.stop) :
    ∃ n : ℕ, i = n ∧ axis.allBounds[n]? = some r.start ∧ axis.allBounds[n + 1]? = some r.stop
      ∧ ∀ x, Range.Mem x r → axis.At x n := by
  obtain ⟨n, rfl⟩ := Int.eq_ofNat_of_zero_le h.1
  have hy := Axis.bound_natCast.1 h.2.2.1
  have hz : axis.allBounds[n + 1]? = some r.stop :=
    Axis.bound_natCast.1 (by exact_mod_cast h.2.2.2)
  exact ⟨n, rfl, hy, hz, fun x hx => ⟨h.2.1, _, _, hy, hz, hx.1, hx.2⟩⟩

/-- A cell lies in the domain, and has points. -/
theorem IsCell.within (h : IsCell axes index cube) :
    Hypercube.Within cube (box axes) ∧ ¬ Hypercube.isEmpty cube := by
  induction axes generalizing index cube with
  | nil =>
    rcases index with _ | _ <;> rcases cube with _ | _ <;> first | exact h.elim | skip
    exact ⟨.nil, by simp [Hypercube.isEmpty]⟩
  | cons axis axes ih =>
    rcases index with _ | ⟨i, index⟩ <;> rcases cube with _ | ⟨r, cube⟩ <;>
      first | exact h.elim | skip
    obtain ⟨ihw, ihe⟩ := ih (fun a ha => hp a (by simp [ha])) h.2
    have hax := hp axis (by simp)
    obtain ⟨n, rfl, hy, hz, -⟩ := at_of_bounds h.1
    have hpos := hax.intervals
    refine ⟨.cons ⟨?_, ?_⟩ ihw, ?_⟩
    · exact hax.bound_le (Nat.zero_le _) hax.bound_zero hy
    · exact hax.bound_le (by have := h.1.2.1; omega) hz hax.bound_last
    · have hlt := hax.bound_lt (Nat.lt_succ_self n) hy hz
      simp only [Hypercube.isEmpty, List.mem_cons, exists_eq_or_imp, not_or]
      refine ⟨?_, ihe⟩
      simp only [Range.isEmpty]
      omega

/-- Different cells are disjoint. -/
theorem IsCell.index_unique {index' : List ℤ} {cube' : Hypercube} (h : IsCell axes index cube)
    (h' : IsCell axes index' cube') (hc : p ∈ Hypercube.points cube)
    (hc' : p ∈ Hypercube.points cube') : index = index' := by
  induction axes generalizing index cube index' cube' p with
  | nil =>
    rcases index with _ | _ <;> rcases cube with _ | _ <;> first | exact h.elim | skip
    rcases index' with _ | _ <;> rcases cube' with _ | _ <;> first | exact h'.elim | skip
    rfl
  | cons axis axes ih =>
    rcases index with _ | ⟨i, index⟩ <;> rcases cube with _ | ⟨r, cube⟩ <;>
      first | exact h.elim | skip
    rcases index' with _ | ⟨i', index'⟩ <;> rcases cube' with _ | ⟨r', cube'⟩ <;>
      first | exact h'.elim | skip
    obtain ⟨x, q, rfl, hx, hq⟩ := Hypercube.mem_points_cons_iff.1 hc
    obtain ⟨hx', hq'⟩ := Hypercube.mem_points_cons.1 hc'
    obtain ⟨n, rfl, -, -, hn⟩ := at_of_bounds h.1
    obtain ⟨n', rfl, -, -, hn'⟩ := at_of_bounds h'.1
    rw [(hp axis (by simp)).at_unique (hn x hx) (hn' x hx'),
      ih (fun a ha => hp a (by simp [ha])) h.2 h'.2 hq hq']

end Cell

section Find

/-- A dataspace that is found without a smaller extent is one of the cells. -/
theorem findCell_eq_ok : ∀ {axes : List Axis} {dim : List Dim} {tooSmall : Bool} {index : List ℤ},
    (∀ axis ∈ axes, Axis.Wf axis) → dim.length = axes.length →
    findCell axes dim tooSmall = .ok (some index, false) →
    tooSmall = false ∧ (∀ axis ∈ axes, Axis.Proper axis)
      ∧ IsCell axes index (dim.map fun d => ⟨d.offset, d.offset + d.size⟩)
  | [], [], tooSmall, index, _, _, h => by
    obtain ⟨hi, hs⟩ := Prod.mk.inj (Except.ok.inj h)
    obtain rfl := Option.some.inj hi
    exact ⟨hs, by simp, trivial⟩
  | axis :: axes, d :: dim, tooSmall, index, hw, hl, h => by
    rw [findCell] at h
    obtain ⟨⟨i, small⟩, hm, h⟩ := Outcome.bind_eq_ok.1 h
    dsimp only at h
    split_ifs at h with hi
    · cases h
    · obtain ⟨⟨idx, small'⟩, hf, h⟩ := Outcome.bind_eq_ok.1 h
      obtain ⟨hidx, rfl⟩ := Prod.mk.inj (Except.ok.inj h)
      obtain ⟨idx', rfl, rfl⟩ := Option.map_eq_some_iff.1 hidx
      obtain ⟨rfl, hp, hcell⟩ := findCell_eq_ok (fun a ha => hw a (by simp [ha]))
        (by simpa using hl) hf
      obtain ⟨rfl, hax, hlt, h1, h2⟩ :=
        (hw axis (by simp)).matchInterval_eq_ok hm (by omega)
      refine ⟨rfl, ?_, ⟨⟨by omega, hlt, h1, h2⟩, hcell⟩⟩
      simpa using ⟨hax, hp⟩

/-- The hypercube with the given offsets and sizes. -/
def cubeOf (dim : List Dim) : Hypercube := dim.map fun d => ⟨d.offset, d.offset + d.size⟩

theorem isEmpty_cubeOf_cons {d : Dim} {dim : List Dim} :
    Hypercube.isEmpty (cubeOf (d :: dim)) ↔ d.size ≤ 0 ∨ Hypercube.isEmpty (cubeOf dim) := by
  simp only [cubeOf, Hypercube.isEmpty, List.map_cons, List.mem_cons, exists_eq_or_imp]
  refine or_congr ?_ .rfl
  unfold Range.isEmpty
  dsimp only
  omega

theorem IsCell.cons_iff {axis : Axis} {index : List ℤ} {cube : Hypercube} :
    IsCell (axis :: axes) index cube ↔ ∃ (n : ℕ) (rest : List ℤ) (y z : ℤ) (cube' : Hypercube),
      index = (n : ℤ) :: rest ∧ cube = ⟨y, z⟩ :: cube' ∧ (n : ℤ) < axis.intervals
        ∧ axis.allBounds[n]? = some y ∧ axis.allBounds[n + 1]? = some z
          ∧ IsCell axes rest cube' := by
  constructor
  · intro h
    rcases index with _ | ⟨i, rest⟩ <;> rcases cube with _ | ⟨r, cube'⟩ <;>
      first | exact h.elim | skip
    obtain ⟨n, rfl, hy, hz, -⟩ := at_of_bounds h.1
    exact ⟨n, rest, r.start, r.stop, cube', rfl, rfl, h.1.2.1, hy, hz, h.2⟩
  · rintro ⟨n, rest, y, z, cube', rfl, rfl, hn, hy, hz, hcell⟩
    refine ⟨⟨by omega, hn, Axis.bound_natCast.2 hy, ?_⟩, hcell⟩
    exact_mod_cast Axis.bound_natCast.2 hz

/-- The search among the cells of one grid finds the cell that encloses the dataspace, if there is
one, and whether it is bigger. -/
theorem findCell_spec : ∀ {axes : List Axis} {dim : List Dim} (tooSmall : Bool),
    (∀ axis ∈ axes, Axis.Proper axis) → dim.length = axes.length →
    (∃ index cube, findCell axes dim tooSmall
          = .ok (some index, tooSmall || decide (cube ≠ cubeOf dim))
        ∧ IsCell axes index cube ∧ Hypercube.Within (cubeOf dim) cube
        ∧ ¬ Hypercube.isEmpty (cubeOf dim))
      ∨ ((∃ small, findCell axes dim tooSmall = .ok (none, small))
        ∧ ∀ index cube, IsCell axes index cube → Hypercube.Within (cubeOf dim) cube →
          Hypercube.isEmpty (cubeOf dim))
  | [], [], tooSmall, _, _ => by
    refine .inl ⟨[], [], ?_, trivial, .nil, by simp [Hypercube.isEmpty, cubeOf]⟩
    simp [findCell, cubeOf]
  | axis :: axes, d :: dim, tooSmall, hp, hl => by
    rw [findCell]
    obtain ⟨n, y, z, hm, hn, hy, hz, hys, hlt, hsz⟩ | ⟨hm, hno⟩ :=
      (hp axis (by simp)).matchInterval_spec d.offset (d.offset + d.size) tooSmall
    · rw [hm, Outcome.ok_bind]
      dsimp only
      rw [if_neg (by omega)]
      obtain ⟨index, cube, hf, hcell, hw, hne⟩ | ⟨⟨small, hf⟩, hno⟩ := findCell_spec
        (tooSmall || decide (y < d.offset ∨ d.offset + d.size < z))
        (fun a ha => hp a (List.mem_cons_of_mem axis ha))
        (show dim.length = axes.length by simpa using hl)
      · refine .inl ⟨(n : ℤ) :: index, ⟨y, z⟩ :: cube, ?_,
          IsCell.cons_iff.2 ⟨n, index, y, z, cube, rfl, rfl, hn, hy, hz, hcell⟩,
          .cons ⟨hys, hsz⟩ hw, fun he => ?_⟩
        · have hiff : (y < d.offset ∨ d.offset + d.size < z) ∨ cube ≠ cubeOf dim
              ↔ (⟨y, z⟩ : Range) :: cube ≠ cubeOf (d :: dim) := by
            have hy : (y < d.offset ∨ d.offset + d.size < z)
                ↔ ¬ (y = d.offset ∧ z = d.offset + d.size) := by omega
            simp only [cubeOf, List.map_cons, ne_eq, List.cons.injEq, Range.mk.injEq, hy]
            tauto
          rw [hf, Outcome.ok_bind, Bool.or_assoc, ← Bool.decide_or, decide_eq_decide.2 hiff]
          rfl
        · obtain h | h := isEmpty_cubeOf_cons.1 he
          · omega
          · exact hne h
      · refine .inr ⟨⟨small, by rw [hf]; rfl⟩, fun index cube hcell hw => ?_⟩
        obtain ⟨n', rest, y', z', cube', rfl, rfl, -, -, -, hrest⟩ := IsCell.cons_iff.1 hcell
        exact isEmpty_cubeOf_cons.2 (.inr (hno _ _ hrest (List.forall₂_cons.1 hw).2))
    · rw [hm, Outcome.ok_bind]
      refine .inr ⟨⟨tooSmall, rfl⟩, fun index cube hcell hw => ?_⟩
      obtain ⟨n', rest, y', z', cube', rfl, rfl, hn', hy', hz', -⟩ := IsCell.cons_iff.1 hcell
      have hin := (List.forall₂_cons.1 hw).1
      have := hno n' y' z' hn' hy' hz'
      refine isEmpty_cubeOf_cons.2 (.inl ?_)
      dsimp only at hin
      omega

/-- The axes of a subgrid: unless they enclose nothing, they enclose the cell. -/
def ChildAxes : List Axis → List ℤ → List Axis → Prop
  | axis :: axes, i :: index, child :: children =>
    (0 ≤ i ∧ i < axis.intervals ∧ (child.outerStart < child.outerStop →
      axis.bound i = .ok child.outerStart ∧ axis.bound (i + 1) = .ok child.outerStop))
      ∧ ChildAxes axes index children
  | [], [], [] => True
  | _, _, _ => False

theorem childAxes_of_cellSize : ∀ {axes : List Axis} {index : List ℤ} {dim : List Dim},
    index.length = axes.length → cellSize axes index = .ok (some dim) →
    ChildAxes axes index (dim.map fun d => Axis.make d.offset d.size)
  | [], [], dim, _, h => by
    obtain rfl := Option.some.inj (Except.ok.inj h)
    trivial
  | axis :: axes, i :: index, dim, hl, h => by
    rw [cellSize] at h
    split_ifs at h with hi
    · cases h
    · obtain ⟨first, h1, h⟩ := Outcome.bind_eq_ok.1 h
      obtain ⟨last, h2, h⟩ := Outcome.bind_eq_ok.1 h
      obtain ⟨rest, hr, h⟩ := Outcome.bind_eq_ok.1 h
      obtain ⟨dim', rfl, rfl⟩ := Option.map_eq_some_iff.1 (Except.ok.inj h)
      refine ⟨⟨by omega, by omega, fun _ => ⟨h1, ?_⟩⟩,
        childAxes_of_cellSize (by simpa using hl) hr⟩
      rw [h2]
      simp [Axis.make]

theorem ChildAxes.length : ∀ {axes : List Axis} {index : List ℤ} {children : List Axis},
    ChildAxes axes index children → index.length = axes.length ∧ children.length = axes.length
  | [], [], [], _ => ⟨rfl, rfl⟩
  | _ :: _, _ :: _, _ :: _, h => by simpa using h.2.length

theorem ChildAxes.digits : ∀ {axes : List Axis} {index : List ℤ} {children : List Axis},
    ChildAxes axes index children → Radix.Digits index (sizes axes)
  | [], [], [], _ => .nil
  | _ :: _, _ :: _, _ :: _, h => .cons ⟨h.1.1, h.1.2.1⟩ h.2.digits

/-- Subdividing an axis of the subgrid keeps it in its cell. -/
theorem ChildAxes.set : ∀ {axes : List Axis} {index : List ℤ} {children : List Axis} {k : ℕ}
    {child child' : Axis}, ChildAxes axes index children → children[k]? = some child →
    Axis.Refines child child' → ChildAxes axes index (children.set k child')
  | [], [], [], _, _, _, _, h, _ => by simp at h
  | _ :: _, _ :: _, _ :: _, 0, child, child', hc, h, hr => by
    obtain rfl := Option.some.inj h
    refine ⟨⟨hc.1.1, hc.1.2.1, fun hlt => ?_⟩, hc.2⟩
    obtain ⟨h1, h2⟩ := hr.outer hlt
    rw [h1, h2] at hlt ⊢
    exact hc.1.2.2 hlt
  | _ :: _, _ :: _, _ :: _, _ + 1, _, _, hc, h, hr => ⟨hc.1, hc.2.set h hr⟩

/-- A subgrid that encloses something stands in a proper cell, which it fills. -/
theorem ChildAxes.proper : ∀ {axes : List Axis} {index : List ℤ} {children : List Axis},
    ChildAxes axes index children → (∀ axis ∈ axes, Axis.Wf axis) →
    (∀ child ∈ children, Axis.Proper child) →
    (∀ axis ∈ axes, Axis.Proper axis) ∧ IsCell axes index (box children)
  | [], [], [], _, _, _ => ⟨by simp, trivial⟩
  | axis :: axes, i :: index, child :: children, h, hw, hp => by
    obtain ⟨ihp, ihc⟩ := h.2.proper (fun a ha => hw a (by simp [ha]))
      (fun c hc => hp c (by simp [hc]))
    have hlt := (hp child (by simp)).outer_lt
    obtain ⟨h1, h2⟩ := h.1.2.2 hlt
    refine ⟨?_, ⟨⟨h.1.1, h.1.2.1, h1, h2⟩, ihc⟩⟩
    have hax : axis.Proper := by
      have hwf := hw axis (by simp)
      refine hwf.proper ?_ (by have := h.1.1; have := h.1.2.1; omega)
      by_contra hle
      -- the bounds of an axis that encloses nothing do not increase
      have hge := hwf.improper (by omega)
      obtain ⟨hi, h1⟩ := Axis.bound_eq_ok.1 h1
      obtain ⟨-, h2⟩ := Axis.bound_eq_ok.1 h2
      obtain ⟨hi1, e1⟩ := List.getElem?_eq_some_iff.1 h1
      obtain ⟨hi2, e2⟩ := List.getElem?_eq_some_iff.1 h2
      have := List.pairwise_iff_getElem.1 hge _ _ hi1 hi2 (by omega)
      omega
    simpa using ⟨hax, ihp⟩

end Find

section Range

/-- The walk goes over the intervals of the axis that the range overlaps. -/
def Walk (axis : Axis) (r : Range) (d : WalkDim) : Prop :=
  d.intervals = axis.intervals ∧ ∃ i j : ℕ, d.startIndex = i ∧ d.endIndex = j + 1 ∧ i ≤ j
    ∧ (∀ x k, Range.Mem x r → axis.At x k → i ≤ k ∧ k ≤ j)
    ∧ ∀ k, i ≤ k → k ≤ j → ∃ x, Range.Mem x r ∧ axis.At x k

def Walks : List Axis → Hypercube → List WalkDim → Prop
  | axis :: axes, r :: region, d :: dims => Walk axis r d ∧ Walks axes region dims
  | [], [], [] => True
  | _, _, _ => False

/-- The intervals between two locations are those that the range between them overlaps. -/
theorem walk_of_at {axis : Axis} (hax : axis.Proper) {r : Range} {a b : ℤ} {i j : ℕ}
    (ha : axis.At a i) (hb : axis.At b j) (hab : a ≤ b) (har : Range.Mem a r)
    (hbr : Range.Mem b r)
    (hcut : ∀ x, Range.Mem x r → axis.outerStart ≤ x → x < axis.outerStop → a ≤ x ∧ x ≤ b) :
    Walk axis r ⟨axis.intervals, i, (j : ℤ) + 1⟩ := by
  refine ⟨rfl, i, j, rfl, rfl, hax.at_mono ha hb hab, ?_, ?_⟩
  · intro x k hx hk
    obtain ⟨h1, h2⟩ := hax.at_mem hk
    obtain ⟨hax', hxb⟩ := hcut x hx h1 h2
    exact ⟨hax.at_mono ha hk hax', hax.at_mono hk hb hxb⟩
  · intro k hik hkj
    rcases hik.eq_or_lt with rfl | hlt
    · exact ⟨a, har, ha⟩
    · -- the first location of a later interval lies between the two
      obtain ⟨-, y, z, hy, hz, hya, haz⟩ := ha
      obtain ⟨hjn, y', z', hy', hz', hyb, hbz⟩ := hb
      obtain ⟨w, hw⟩ := hax.exists_bound (i := k) (by omega)
      obtain ⟨w', hw'⟩ := hax.exists_bound (i := k + 1) (by push_cast; omega)
      have h1 := hax.bound_le hlt hz hw
      have h2 := hax.bound_le hkj hw hy'
      have h3 := hax.bound_lt (Nat.lt_succ_self k) hw hw'
      have h4 := har.1
      have h5 := hbr.2
      exact ⟨w, ⟨by omega, by omega⟩, by omega, w, w', hw, hw', le_rfl, h3⟩

theorem indexRange_eq_ok : ∀ {axes : List Axis} {region : Hypercube} {p : List ℤ},
    (∀ axis ∈ axes, Axis.Proper axis) → p ∈ Hypercube.points region →
    p ∈ Hypercube.points (box axes) → ∃ dims, indexRange axes region = .ok dims
      ∧ Walks axes region dims
  | [], region, p, _, hr, hb => by
    obtain rfl := Hypercube.mem_points_nil.1 hb
    obtain rfl := List.forall₂_nil_left_iff.1 hr
    exact ⟨[], rfl, trivial⟩
  | axis :: axes, region, p, hp, hr, hb => by
    obtain ⟨x, q, rfl, hx, hq⟩ := Hypercube.mem_points_cons_iff.1 hb
    obtain ⟨r, region, hxr, hqr, rfl⟩ := List.forall₂_cons_left_iff.1 hr
    obtain ⟨dims, hdims, hwalks⟩ := indexRange_eq_ok (fun a ha => hp a (by simp [ha])) hqr hq
    have hax := hp axis (by simp)
    have hsize : r.start + r.size = r.stop := by
      have : ¬ r.isEmpty := fun he => Range.isEmpty_iff.1 he x hxr
      rw [Range.size_of_not_isEmpty this]
      omega
    obtain ⟨hx1, hx2⟩ := hx
    obtain ⟨hr1, hr2⟩ := hxr
    dsimp only at hx1 hx2
    obtain ⟨i, hi, hai⟩ := hax.findInterval_eq_ok
      (x := min (max r.start axis.outerStart) axis.outerStop) (by omega) (by omega)
    obtain ⟨j, hj, haj⟩ := hax.findInterval_eq_ok
      (x := min (max r.stop axis.outerStart) axis.outerStop - 1) (by omega) (by omega)
    refine ⟨⟨axis.intervals, i, (j : ℤ) + 1⟩ :: dims, ?_, ?_, hwalks⟩
    · rw [indexRange]
      simp only [hsize, hi, hj, hdims, Outcome.ok_bind, Outcome.pure_eq]
    · refine walk_of_at hax hai haj (by omega) ⟨by omega, by omega⟩ ⟨by omega, by omega⟩ ?_
      intro y hy h1 h2
      have h3 := hy.1
      have h4 := hy.2
      omega

/-- The index of a cell that the walk visits. -/
abbrev Visited (dims : List WalkDim) (index : List ℤ) : Prop :=
  List.Forall₂ (fun i (d : WalkDim) => d.startIndex ≤ i ∧ i < d.endIndex) index dims

/-- The visited cells overlap the region. -/
theorem Walks.visited_cell : ∀ {axes : List Axis} {region : Hypercube} {dims : List WalkDim}
    {index : List ℤ}, Walks axes region dims → Visited dims index →
    ∃ cube q, IsCell axes index cube ∧ q ∈ Hypercube.points cube ∧ q ∈ Hypercube.points region
  | [], [], [], index, _, hv => by
    obtain rfl := List.forall₂_nil_right_iff.1 hv
    exact ⟨[], [], trivial, by simp, by simp⟩
  | axis :: axes, r :: region, d :: dims, index, h, hv => by
    obtain ⟨n, index, hn, hrest, rfl⟩ := List.forall₂_cons_right_iff.1 hv
    obtain ⟨cube, q, hcell, hqc, hqr⟩ := h.2.visited_cell hrest
    obtain ⟨-, i, j, hi, hj, -, -, hall⟩ := h.1
    obtain ⟨k, rfl⟩ := Int.eq_ofNat_of_zero_le (show 0 ≤ n by omega)
    obtain ⟨x, hxr, hlt, y, z, hy, hz, hyx, hxz⟩ := hall k (by omega) (by omega)
    refine ⟨⟨y, z⟩ :: cube, x :: q, ⟨⟨by omega, hlt, Axis.bound_natCast.2 hy, ?_⟩, hcell⟩,
      Hypercube.mem_points_cons.2 ⟨⟨hyx, hxz⟩, hqc⟩, Hypercube.mem_points_cons.2 ⟨hxr, hqr⟩⟩
    exact_mod_cast Axis.bound_natCast.2 hz

/-- The walk visits the cell of every point of the region. -/
theorem Walks.visits : ∀ {axes : List Axis} {region : Hypercube} {dims : List WalkDim}
    {index : List ℤ} {cube : Hypercube} {p : List ℤ}, Walks axes region dims →
    IsCell axes index cube → p ∈ Hypercube.points cube → p ∈ Hypercube.points region →
    Visited dims index
  | [], [], [], [], [], _, _, _, _, _ => .nil
  | axis :: axes, r :: region, d :: dims, i :: index, s :: cube, p, h, hc, hpc, hpr => by
    obtain ⟨x, q, rfl, hx, hq⟩ := Hypercube.mem_points_cons_iff.1 hpc
    obtain ⟨hxr, hqr⟩ := Hypercube.mem_points_cons.1 hpr
    obtain ⟨n, rfl, -, -, hat⟩ := at_of_bounds hc.1
    obtain ⟨-, i', j', hi', hj', -, hin, -⟩ := h.1
    have := hin x n hxr (hat x hx)
    exact .cons ⟨by omega, by omega⟩ (h.2.visits hc.2 hq hqr)

end Range

section Walk

/-- The cell at the given counters. -/
def cursor : List WalkDim → List ℕ → List ℤ
  | d :: dims, c :: cs => (d.startIndex + c) :: cursor dims cs
  | _, _ => []

/-- How many intervals the walk goes over. -/
def extents (dims : List WalkDim) : List ℕ := dims.map fun d => (d.endIndex - d.startIndex).toNat

/-- The place of a cell in the array. -/
def address (dims : List WalkDim) (index : List ℤ) : ℤ :=
  Radix.value (dims.map WalkDim.intervals) index

theorem cursor_replicate : ∀ dims : List WalkDim,
    cursor dims (List.replicate dims.length 0) = dims.map WalkDim.startIndex
  | [] => rfl
  | d :: dims => by simp [cursor, List.replicate_succ, cursor_replicate dims]

/-- `curIndex` moves like the counters of an odometer, and the linear index keeps up with it. -/
theorem nextCell_cursor : ∀ {dims : List WalkDim} {c : List ℕ},
    List.Forall₂ (· < ·) c (extents dims) →
    (∀ c', Odometer.next (extents dims) c = some c' → ∃ n, nextCell dims (cursor dims c)
      = (true, cursor dims c', address dims (cursor dims c') - address dims (cursor dims c), n))
    ∧ (Odometer.next (extents dims) c = none → nextCell dims (cursor dims c)
      = (false, dims.map WalkDim.startIndex,
        address dims (dims.map WalkDim.startIndex) - address dims (cursor dims c),
        (dims.map WalkDim.intervals).prod))
  | [], c, h => by
    obtain rfl := List.forall₂_nil_right_iff.1 h
    simp [Odometer.next, extents, nextCell, cursor, address, Radix.value]
  | d :: dims, c, h => by
    obtain ⟨k, cs, hk, hcs, rfl⟩ := List.forall₂_cons_right_iff.1 h
    have hk : k < (d.endIndex - d.startIndex).toNat := hk
    obtain ⟨ih1, ih2⟩ := nextCell_cursor hcs
    have hext : extents (d :: dims) = (d.endIndex - d.startIndex).toNat :: extents dims := rfl
    have haddr : ∀ i index, address (d :: dims) (i :: index)
        = i * (dims.map WalkDim.intervals).prod + address dims index := fun _ _ => rfl
    rw [hext, cursor, nextCell]
    rcases hn : Odometer.next (extents dims) cs with _ | cs'
    · rw [ih2 hn, Odometer.next_cons_none hn]
      dsimp only
      by_cases hlt : k + 1 < (d.endIndex - d.startIndex).toNat
      · rw [if_pos hlt, if_pos (by omega)]
        refine ⟨fun c' hc' => ?_, by simp⟩
        obtain rfl := Option.some.inj hc'
        refine ⟨(dims.map WalkDim.intervals).prod * d.intervals, ?_⟩
        rw [cursor, show (extents dims).length = dims.length by simp [extents],
          cursor_replicate, haddr, haddr]
        simp only [Prod.mk.injEq, List.cons.injEq, true_and, and_true]
        constructor
        · push_cast
          ring
        · push_cast
          ring
      · rw [if_neg hlt, if_neg (by omega)]
        refine ⟨by simp, fun _ => ?_⟩
        rw [List.map_cons, haddr, haddr, List.map_cons, List.prod_cons]
        simp only [Prod.mk.injEq, true_and]
        constructor
        · ring
        · ring
    · obtain ⟨n, hnext⟩ := ih1 cs' hn
      rw [hnext, Odometer.next_cons_some hn]
      refine ⟨fun c' hc' => ?_, by simp⟩
      obtain rfl := Option.some.inj hc'
      refine ⟨n, ?_⟩
      rw [cursor, haddr, haddr, add_sub_add_left_eq_sub]

/-- One move of the walk. -/
def walkStep (dims : List WalkDim) (s : List ℤ × ℤ) : Option (List ℤ × ℤ) :=
  match nextCell dims s.1 with
  | (false, _, _, _) => none
  | (true, curIndex, delta, _) => some (curIndex, s.2 + delta)

theorem walkCells_eq_of_chain {visit : ℤ → Outcome (Status × List ℕ)} {found : ℤ → List ℕ}
    {dims : List WalkDim} : ∀ (l : List (List ℤ × ℤ)) (s : List ℤ × ℤ),
    Odometer.Chain (walkStep dims) none (s :: l) →
    (∀ t ∈ s :: l, visit t.2 = .ok (.success, found t.2)) →
    walkCells visit dims (l.length + 1) s.1 s.2
      = .ok (.success, (s :: l).flatMap fun t => found t.2)
  | [], s, hc, hv => by
    have hs : walkStep dims s = none := hc
    unfold walkStep at hs
    rw [List.length_nil, walkCells, hv s (by simp)]
    rcases hn : nextCell dims s.1 with ⟨_ | _, curIndex, delta, n⟩
    · simp
    · simp [hn] at hs
  | t :: l, s, hc, hv => by
    obtain ⟨hs, hc⟩ := hc
    unfold walkStep at hs
    have ih := walkCells_eq_of_chain l t hc fun u hu => hv u (List.mem_cons_of_mem _ hu)
    rw [List.length_cons, walkCells, hv s (by simp)]
    rcases hn : nextCell dims s.1 with ⟨_ | _, curIndex, delta, n⟩
    · simp [hn] at hs
    · simp only [hn, Option.some.injEq] at hs
      subst hs
      simp [ih]

/-- The indices of the cells that the walk visits, in its order. -/
def visits (dims : List WalkDim) : List (List ℤ) :=
  (Odometer.tuples (extents dims)).map (cursor dims)

theorem mem_visits {dims : List WalkDim} {index : List ℤ} :
    index ∈ visits dims ↔ Visited dims index := by
  unfold visits
  simp only [List.mem_map, Odometer.mem_tuples]
  constructor
  · rintro ⟨c, hc, rfl⟩
    induction dims generalizing c with
    | nil =>
      obtain rfl := List.forall₂_nil_right_iff.1 hc
      exact .nil
    | cons d dims ih =>
      obtain ⟨k, cs, hk, hcs, rfl⟩ := List.forall₂_cons_right_iff.1 hc
      have hk : k < (d.endIndex - d.startIndex).toNat := hk
      exact .cons ⟨by omega, by omega⟩ (ih cs hcs)
  · intro h
    induction h with
    | nil => exact ⟨[], .nil, rfl⟩
    | @cons i d index dims hi _ ih =>
      obtain ⟨cs, hcs, rfl⟩ := ih
      refine ⟨(i - d.startIndex).toNat :: cs, .cons ?_ hcs, ?_⟩
      · show _ < (d.endIndex - d.startIndex).toNat
        omega
      · rw [cursor]
        congr 1
        omega

theorem cursor_inj : ∀ {dims : List WalkDim} {c c' : List ℕ}, c.length = dims.length →
    c'.length = dims.length → cursor dims c = cursor dims c' → c = c'
  | [], [], [], _, _, _ => rfl
  | d :: dims, k :: c, k' :: c', hc, hc', h => by
    obtain ⟨h1, h2⟩ := List.cons.inj h
    rw [cursor_inj (by simpa using hc) (by simpa using hc') h2, show k = k' by omega]

theorem nodup_visits (dims : List WalkDim) : (visits dims).Nodup := by
  refine List.Nodup.map_on (fun c hc c' hc' h => ?_) (Odometer.nodup_tuples _)
  have hlen : (extents dims).length = dims.length := by simp [extents]
  exact cursor_inj ((Odometer.length_of_mem_tuples hc).trans hlen)
    ((Odometer.length_of_mem_tuples hc').trans hlen) h

/-- The walk calls `visit` for each of the cells, and collects what it finds. -/
theorem walkCells_eq {visit : ℤ → Outcome (Status × List ℕ)} {found : ℤ → List ℕ}
    {dims : List WalkDim} (hd : ∀ d ∈ dims, d.startIndex < d.endIndex)
    (hv : ∀ index ∈ visits dims, visit (address dims index)
      = .ok (.success, found (address dims index))) :
    walkCells visit dims (Odometer.count (extents dims)) (dims.map WalkDim.startIndex)
        (address dims (dims.map WalkDim.startIndex))
      = .ok (.success, (visits dims).flatMap fun index => found (address dims index)) := by
  have hpos : ∀ n ∈ extents dims, 0 < n := by
    intro n hn
    obtain ⟨d, hdm, rfl⟩ := List.mem_map.1 hn
    have := hd d hdm
    omega
  obtain ⟨l, hl⟩ := Odometer.tuples_head hpos
  have hcount : Odometer.count (extents dims) = l.length + 1 := by
    rw [Odometer.count_of_pos hpos, hl, List.length_cons]
  set m : List ℕ → List ℤ × ℤ := fun c => (cursor dims c, address dims (cursor dims c)) with hm
  have hchain : Odometer.Chain (walkStep dims) none ((Odometer.tuples (extents dims)).map m) := by
    refine (Odometer.chain_tuples hpos).map (fun c hc c' hn => ?_) fun c hc hn => ?_
    · obtain ⟨k, hk⟩ := (nextCell_cursor (Odometer.mem_tuples.1 hc)).1 c' hn
      simp [walkStep, hm, hk]
    · have hk := (nextCell_cursor (Odometer.mem_tuples.1 hc)).2 hn
      simp [walkStep, hm, hk]
  have hhead : m (List.replicate (extents dims).length 0)
      = (dims.map WalkDim.startIndex, address dims (dims.map WalkDim.startIndex)) := by
    rw [hm, show (extents dims).length = dims.length by simp [extents]]
    simp only [cursor_replicate]
  rw [hl, List.map_cons, hhead] at hchain
  rw [hcount, show l.length = (l.map m).length from (List.length_map m).symm]
  refine (@walkCells_eq_of_chain visit found dims _ _ hchain ?_).trans ?_
  · intro t ht
    rw [← hhead, ← List.map_cons, ← hl] at ht
    obtain ⟨c, hc, rfl⟩ := List.mem_map.1 ht
    exact hv _ (List.mem_map_of_mem hc)
  · rw [← hhead, ← List.map_cons, ← hl, visits, List.flatMap_map, List.flatMap_map]

end Walk

end Grid

end Esdm
