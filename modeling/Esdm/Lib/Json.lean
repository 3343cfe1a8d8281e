import Mathlib.Data.Int.Notation
import Mathlib.Data.List.Forall2
import Mathlib.Tactic.Common

/-!
# JSON values

The values a JSON text denotes, without reals.  An object is the list of its members.
-/

inductive Json
  | null
  | bool (b : Bool)
  | int (i : ℤ)
  | str (s : String)
  | arr (elements : List Json)
  | obj (members : List (String × Json))

namespace Json

/-- The value of a member. -/
def get (key : String) : Json → Option Json
  | obj members => members.lookup key
  | _ => none

def elements? : Json → Option (List Json)
  | arr l => some l
  | _ => none

def members? : Json → Option (List (String × Json))
  | obj l => some l
  | _ => none

def int? : Json → Option ℤ
  | int i => some i
  | _ => none

def str? : Json → Option String
  | str s => some s
  | _ => none

/-- An array of integers. -/
def ints (l : List ℤ) : Json := arr (l.map int)

/-- The elements of an array of integers. -/
def ints? (j : Json) : Option (List ℤ) := j.elements?.bind fun l => l.mapM int?

/-- How deep arrays and objects are nested. -/
def depth : Json → ℕ
  | arr l => go l + 1
  | obj l => goMembers l + 1
  | _ => 0
where
  go : List Json → ℕ
    | [] => 0
    | j :: l => max j.depth (go l)
  goMembers : List (String × Json) → ℕ
    | [] => 0
    | (_, j) :: l => max j.depth (goMembers l)

@[simp] theorem elements?_arr (l : List Json) : (arr l).elements? = some l := rfl

theorem elements?_eq_some : ∀ {j : Json} {l : List Json}, j.elements? = some l ↔ j = arr l
  | null, _ | bool _, _ | int _, _ | str _, _ | obj _, _ => by simp [elements?]
  | arr _, _ => by simp

@[simp] theorem members?_obj (l : List (String × Json)) : (obj l).members? = some l := rfl

@[simp] theorem int?_int (i : ℤ) : (int i).int? = some i := rfl

@[simp] theorem str?_str (s : String) : (str s).str? = some s := rfl

@[simp] theorem get_nil (key : String) : (obj []).get key = none := rfl

@[simp] theorem get_cons (key k : String) (j : Json) (l : List (String × Json)) :
    (obj ((k, j) :: l)).get key = if key = k then some j else (obj l).get key := by
  have h : (obj ((k, j) :: l)).get key = ((k, j) :: l).lookup key := rfl
  rw [h, List.lookup_cons]
  by_cases hk : key = k
  · simp [hk]
  · have hb : (key == k) = false := by simpa using hk
    rw [if_neg hk, hb]
    rfl

/-- A list is decoded element by element. -/
theorem mapM_eq_some_iff {α β : Type} {f : α → Option β} : ∀ {l : List α} {l' : List β},
    l.mapM f = some l' ↔ List.Forall₂ (fun a b => f a = some b) l l'
  | [], l' => by
    rw [List.mapM_nil, List.forall₂_nil_left_iff]
    exact ⟨fun h => (Option.some.inj h).symm, fun h => h ▸ rfl⟩
  | a :: l, l' => by
    rw [List.mapM_cons, List.forall₂_cons_left_iff]
    simp only [Option.bind_eq_bind, Option.bind_eq_some_iff, ← mapM_eq_some_iff]
    constructor
    · rintro ⟨b, hb, l'', hl, h⟩
      exact ⟨b, l'', hb, hl, (Option.some.inj h).symm⟩
    · rintro ⟨b, l'', hb, hl, rfl⟩
      exact ⟨b, hb, l'', hl, rfl⟩

@[simp] theorem ints?_ints (l : List ℤ) : (ints l).ints? = some l := by
  have h : (l.map int).mapM int? = some l :=
    mapM_eq_some_iff.2 (List.forall₂_map_left_iff.2 (List.forall₂_same.2 fun _ _ => rfl))
  simpa [ints?, ints] using h

theorem depth_lt_arr {j : Json} : ∀ {l : List Json}, j ∈ l → j.depth < (arr l).depth
  | k :: l, h => by
    rw [depth, depth.go]
    rcases List.mem_cons.1 h with rfl | h
    · omega
    · have := depth_lt_arr h
      rw [depth] at this
      omega

theorem depth_lt_obj {key : String} {j : Json} : ∀ {l : List (String × Json)}, (key, j) ∈ l →
    j.depth < (obj l).depth
  | (_, k) :: l, h => by
    rw [depth, depth.goMembers]
    rcases List.mem_cons.1 h with h | h
    · obtain ⟨-, rfl⟩ := Prod.mk.inj h
      omega
    · have := depth_lt_obj h
      rw [depth] at this
      omega

theorem depth_lt_of_get {key : String} : ∀ {j k : Json}, j.get key = some k → k.depth < j.depth
  | obj l, k, h => by
    obtain ⟨a, b, hl, -⟩ := List.lookup_eq_some_iff.1 (show l.lookup key = some k from h)
    exact depth_lt_obj (show (key, k) ∈ l by simp [hl])

end Json
