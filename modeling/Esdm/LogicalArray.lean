import Esdm.Session

/-!
# The array behind a dataset

What a dataset is for, without its fragments, backends and buffers: an array, some points of which
hold something.  A write gives contents to points, and a read shows the region that it is asked for:
the contents of its points, and the fill value at those that have none.

A user keeps to some rules: the data of a point does not change once it has been written, memspaces
are of the dataset's type and rank, and no two elements of a buffer that is read into share a place.
-/

namespace Esdm

variable {V : Type}

/-- The points that a space may have in common with the dataset; a size of zero is no limit. -/
def Dataspace.domain (space : Dataspace) : Set (List ℤ) :=
  {p | List.Forall₂ (fun x (d : Dim) => 0 ≤ x ∧ (d.size = 0 ∨ x < d.size)) p space.dim}

@[ext]
structure LogicalArray (V : Type) where
  contents : List ℤ → Option V
  fillValue : Option V

namespace LogicalArray

def empty (fillValue : Option V) : LogicalArray V := ⟨fun _ => none, fillValue⟩

/-- What a read shows of a point. -/
def lookup (a : LogicalArray V) (p : List ℤ) : Option V := (a.contents p).or a.fillValue

open Classical in
/-- The points of a region get new contents. -/
noncomputable def update (a : LogicalArray V) (region : Hypercube) (new : List ℤ → Option V) :
    LogicalArray V :=
  { a with contents := fun p => if p ∈ Hypercube.points region then new p else a.contents p }

/-- What a call that has returned a status has done to the array.  A read through a grid leaves a
fragment behind that holds what it has shown. -/
noncomputable def step (a : LogicalArray V) (op : Op V) (status : Status) : LogicalArray V :=
  match op with
  | .write space buf =>
    if status = .success then a.update space.getExtends fun p => some (buf (space.elementIndex p))
    else a
  | .writeGrid _ space buf =>
    if status = .success then a.update space.getExtends fun p => some (buf (space.elementIndex p))
    else a
  | .readGrid _ space _ => if status = .success then a.update space.getExtends a.lookup else a
  | .setFillValue value => { a with fillValue := value }
  | _ => a

/-- What the user of a read gets: the status, and the buffer `user'` for the buffer `user`. -/
structure Delivers (a : LogicalArray V) (space : Dataspace) (user : Mem V) (status : Status)
    (user' : Mem V) : Prop where
  shown : (∀ p ∈ Hypercube.points space.getExtends, a.lookup p ≠ none) →
    status = .success ∧ ∀ p ∈ Hypercube.points space.getExtends,
      a.lookup p = some (user' (space.elementIndex p))
  hidden : (∃ p ∈ Hypercube.points space.getExtends, a.lookup p = none) →
    status = .incompleteData ∧ user' = user
  frame : ∀ q, (∀ p ∈ Hypercube.points space.getExtends, space.elementIndex p ≠ q) →
    user' q = user q

/-- What a call returns. -/
def Answers (a : LogicalArray V) (op : Op V) (result : Result V) : Prop :=
  match op with
  | .write _ _ => result.status = .success
  | .setFillValue _ => result.status = .success
  | .read space buf => ∃ buf', result.buffer = some buf'
    ∧ a.Delivers space.toDataspace buf result.status buf'
  | .writeGrid _ _ _ => result.status = .success ∨ result.status = .invalidArgumentError
  | .readGrid _ space buf => ∃ buf', result.buffer = some buf'
    ∧ (a.Delivers space.toDataspace buf result.status buf'
      ∨ (result.status = .invalidArgumentError ∧ buf' = buf))
  | _ => True

end LogicalArray

/-- The configuration has a part of a written space for each of the backends, and room for an
element in each fragment. -/
structure SplitEnv.Suits (env : SplitEnv) (space : Dataspace) : Prop where
  bestBackend : env.bestBackend space < env.backends.length
  bounds : ∀ i r, bestDim 0 space.dim space.getEffectiveStride none 0 = some i →
    space.getExtends[i]? = some r → (backendBounds env space r).Pairwise (· < ·)
  room : ∀ b ∈ env.backends, space.type.sizeof ≤ b.maxFragmentSize
  edge : ∀ b ∈ env.backends, ∀ part : Dataspace, part.type = space.type →
    1 ≤ env.targetEdgeLength part b.maxFragmentSize

/-- What a call relies on: the backends do what they are asked to, and the memspace is a regular one
of the dataset's type and rank. -/
structure Call.Regular (dataspace : Dataspace) (env : Env V) (space : Memspace) : Prop where
  update : ∀ s, env.update s = .success
  retrieve : ∀ s, env.retrieve s = .success
  suits : env.toSplitEnv.Suits space.toDataspace
  type : space.type = dataspace.type
  dims : space.dims = dataspace.dims
  stride : ∀ l ∈ space.stride, ∀ s ∈ l, 0 < s

/-- The data of a space agrees with the contents that its points have already. -/
def LogicalArray.Accepts (a : LogicalArray V) (space : Dataspace) (buf : Mem V) : Prop :=
  ∀ p ∈ Hypercube.points space.getExtends, ∀ v, a.contents p = some v →
    buf (space.elementIndex p) = v

/-- The rules of the calls. -/
def Call.Admissible (dataspace : Dataspace) (a : LogicalArray V) (c : Call V) : Prop :=
  match c.op with
  | .write space buf => Regular dataspace c.env space ∧ a.Accepts space.toDataspace buf
    ∧ Hypercube.points space.getExtends ⊆ dataspace.domain
  | .writeGrid _ space buf => Regular dataspace c.env space ∧ a.Accepts space.toDataspace buf
    ∧ Hypercube.points space.getExtends ⊆ dataspace.domain
  | .read space _ => Regular dataspace c.env space
    ∧ Set.InjOn space.elementIndex (Hypercube.points space.getExtends)
  | .readGrid _ space _ => Regular dataspace c.env space
    ∧ Set.InjOn space.elementIndex (Hypercube.points space.getExtends)
    ∧ Hypercube.points space.getExtends ⊆ dataspace.domain
  | _ => True

/-- A process with the configuration `env` finds the fragments of a dataset: their backends are
configured, and have stored the data under the fragments' ids. -/
def Dataset.FoundBy (env : Env V) (ds : Dataset V) : Prop :=
  ∀ e ∈ ds.table, ∀ f, ds.fragment e.2 = .ok f → ∃ id b, f.id = some id
    ∧ f.backend = some b ∧ getBackend env b.id = some b ∧ f.stored = some (env.storage id)

/-- A loaded dataset that a process with the configuration `env` can open, and that has no complete
grid. -/
structure DatasetObject.Recovers {A : Type} (env : Env V) (d : DatasetObject V A) : Prop where
  loaded : d.attr ≠ none
  names : ∀ names, d.dimNames = some names → names.length = d.dims
  offset : ∀ i ∈ d.dataspace.dim, i.offset = 0
  stride : d.dataspace.stride = none
  grids : d.gridCount = 0
  found : d.FoundBy env

namespace LogicalArray

/-- The contents of two arrays, with the fill value of the first. -/
def join (a b : LogicalArray V) : LogicalArray V :=
  { a with contents := fun p => (a.contents p).or (b.contents p) }

/-- The contents of several arrays. -/
def joinAll (a : LogicalArray V) (arrays : List (LogicalArray V)) : LogicalArray V :=
  arrays.foldl join a

/-- Where both arrays have contents, they are the same. -/
def Agrees (a b : LogicalArray V) : Prop :=
  ∀ p v w, a.contents p = some v → b.contents p = some w → v = w

end LogicalArray

/-- The states that a new dataset gets to, and the arrays that they stand for: by calls that keep to
the rules, by being committed and opened again, maybe by another process, and by taking over the
fragments that another rank has written. -/
inductive Dataset.Reaches (dataspace : Dataspace) : LogicalArray V → Dataset V → Prop
  | init (fillValue : Option V) :
    Reaches dataspace (.empty fillValue) (.init dataspace fillValue)
  | step {a : LogicalArray V} {ds : Dataset V} {c : Call V} {result : Result V} :
    Reaches dataspace a ds → c.Admissible dataspace a → ds.step c = .ok result →
    Reaches dataspace (a.step c.op result.status) result.dataset
  | reopen {A : Type} {a : LogicalArray V} {d d₁ d₂ : DatasetObject V A} {env env' : Env V}
    {id : String} {stored : Option (Description V A)} {description : Description V A}
    {named : Bool} :
    Reaches dataspace a d.toDataset → d.Recovers env' → d.status = .dirty →
    d.commit env .success stored = .ok (.success, d₁, some description) →
    (DatasetObject.unloaded id).openMdParse env' description = .ok (.success, d₂, named) →
    Reaches dataspace a d₂.toDataset
  | receive {a b : LogicalArray V} {ds other ds' : Dataset V} {env env' : Env V}
    {fragments : List Json} :
    Reaches dataspace a ds → Reaches dataspace b other → a.Agrees b →
    List.Disjoint ds.shapes other.shapes → other.FoundBy env' →
    other.fragmentsMetadataCreate env = .ok fragments →
    receiveFragments env' fragments ds = .ok ds' → Reaches dataspace (a.join b) ds'

/-- The calls that work on the array without a grid. -/
def Op.IsPlain : Op V → Prop
  | .write _ _ => True
  | .read _ _ => True
  | .setFillValue _ => True
  | _ => False

/-- As long as the calls keep to the rules, the plain ones return, and whatever returns answers as
the array does. -/
def Dataset.Simulates (dataspace : Dataspace) : LogicalArray V → Dataset V → List (Call V) → Prop
  | _, _, [] => True
  | a, ds, c :: calls => c.Admissible dataspace a →
    (c.op.IsPlain → ∃ result, ds.step c = .ok result) ∧ ∀ result, ds.step c = .ok result →
      a.Answers c.op result ∧
        Simulates dataspace (a.step c.op result.status) result.dataset calls

end Esdm
