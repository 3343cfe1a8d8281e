import Esdm.Mpi

/-!
# The description of a dataset

`esdmI_dataset_metadata_create` and `esdm_dataset_open_md_parse`: what is stored about a dataset,
and what becomes of it when it is opened.  The members of the text that the metadata library writes
and reads itself, which are the attributes, the fill value and the element type, are modelled by
their values; the others are those of a JSON object.

The calls that change what is described set the dataset's status, or do not.
-/

namespace Esdm

section Names

/-- The characters of a name, apart from the slash. -/
def isNameChar (c : Char) : Bool :=
  ('a' ≤ c ∧ c ≤ 'z') ∨ ('A' ≤ c ∧ c ≤ 'Z') ∨ ('0' ≤ c ∧ c ≤ '9') ∨ c = '_' ∨ c = '-' ∨ c = '%'

/-- The loop of `ea_is_valid_dataset_name`: a slash stands between two other characters. -/
def isValidFrom : Option Char → List Char → Bool
  | last, [] => last ≠ some '/'
  | last, c :: cs =>
    if isNameChar c then isValidFrom (some c) cs
    else if c = '/' then
      if last = none ∨ last = some '/' then false else isValidFrom (some c) cs
    else false

/-- `ea_is_valid_dataset_name` -/
def isValidDatasetName (name : String) : Bool := name ≠ "" ∧ isValidFrom none name.toList

/-- The names behind an array of pointers, if all of them are valid; the check ends at the first one
that is not. -/
def validNames : List (Option String) → Outcome (Option (List String))
  | [] => .ok (some [])
  | name :: names => do
    let name ← access name
    if isValidDatasetName name then
      let names ← validNames names
      return names.map (name :: ·)
    else return none

end Names

/-- `esdm_dataset_t`, with the parts that only its description is about. -/
structure DatasetObject (V A : Type) extends Dataset V where
  id : String
  /-- the attributes, while the dataset is loaded -/
  attr : Option (List (String × A))
  /-- `dims_dset_id` -/
  dimNames : Option (List String)

/-- What the metadata backend stores for a dataset. -/
structure Description (V A : Type) where
  attr : List (String × A)
  fillValue : Option V
  type : ElemType
  members : Json

namespace DatasetObject

variable {V A : Type}

/-- `esdm_dataset_init`, with the id that the metadata backend gives to the dataset. -/
def init (dataspace : Dataspace) (id : String) : DatasetObject V A where
  toDataset := .init dataspace none
  id := id
  attr := some []
  dimNames := none

section Calls

/-- `esdm_dataset_link_attribute`: an attribute is replaced if `overwrite` is set. -/
def linkAttribute (d : DatasetObject V A) (overwrite : Bool) (name : String) (value : A) :
    Outcome (Status × DatasetObject V A) := do
  let attr ← access d.attr
  if attr.any fun a => a.1 = name then
    if overwrite then
      return (.success, { d with
        attr := some (attr.map fun a => if a.1 = name then (name, value) else a)
        status := .dirty })
    else return (.error, { d with status := .dirty })
  else return (.success, { d with attr := some (attr ++ [(name, value)]), status := .dirty })

/-- `esdm_dataset_delete_attribute` -/
def deleteAttribute (d : DatasetObject V A) (name : String) :
    Outcome (Status × DatasetObject V A) := do
  let attr ← access d.attr
  if attr.any fun a => a.1 = name then
    return (.success, { d with attr := some (attr.eraseP fun a => a.1 = name) })
  else return (.error, d)

/-- `esdm_dataset_set_fill_value` -/
def setFillValue (d : DatasetObject V A) (value : Option V) : DatasetObject V A :=
  { d with fillValue := value }

/-- `esdm_dataset_name_dims` -/
def nameDims (d : DatasetObject V A) (names : List (Option String)) :
    Outcome (Status × DatasetObject V A) := do
  match ← validNames ((List.range d.dims).map fun i => names[i]?.join) with
  | none => return (.error, d)
  | some names => return (.success, { d with dimNames := some names, status := .dirty })

/-- `esdm_dataset_rename_dim`: the name is put into the dataset's own array before it is checked. -/
def renameDim (d : DatasetObject V A) (name : String) (i : ℕ) :
    Outcome (Status × DatasetObject V A) := do
  eassert .dimIndex (i < d.dims)
  let names ← access d.dimNames
  nameDims { d with dimNames := some (names.set i name) } ((names.set i name).map some)

end Calls

section Create

/-- The members of a description that come before the fragments. -/
def header (d : DatasetObject V A) : Outcome (List (String × Json)) := do
  let names ← match d.dimNames with
    | none => .ok []
    | some names => do
      let names ← (List.range d.dims).mapM fun i => access names[i]?
      pure [("dims_dset_id", Json.arr (names.map .str))]
  return [("id", .str d.id), ("dims", .int d.dims)]
    ++ (if d.dims = 0 then [] else [("size", .ints (d.dataspace.dim.map Dim.size))]) ++ names

/-- `esdmI_dataset_metadata_create` -/
def metadataCreate (env : Env V) (d : DatasetObject V A) :
    Outcome (DatasetObject V A × Description V A) := do
  let attr ← access d.attr
  let header ← d.header
  let (ds, metadata) ← d.toDataset.metadataCreate env
  return ({ d with toDataset := ds },
    ⟨attr, d.fillValue, d.dataspace.type,
      .obj (header ++ [("fragments", .arr metadata.fragments), ("grids", .arr metadata.grids)])⟩)

/-- `esdm_dataset_commit`, with what is stored before and after: the backend's `dataset_commit`
returns the given status, and has stored the description if that is a success. -/
def commit (env : Env V) (ret : Status) (d : DatasetObject V A)
    (stored : Option (Description V A)) :
    Outcome (Status × DatasetObject V A × Option (Description V A)) := do
  if d.status ≠ .dirty then return (.success, d, stored)
  else
    let (d, description) ← metadataCreate env { d with status := .persistent }
    return (ret, d, if ret = .success then some description else stored)

end Create

section Open

/-- The sizes of the dimensions, `none` for `ESDM_ERROR`.  Only a dataset that has no dimensions can
do without the member. -/
def parseSizes (members : Json) (dims : ℤ) : Outcome (Option (List ℤ)) :=
  if dims < 0 then .error .undefined
  else
    match members.get "size" with
    | none => if dims = 0 then .ok (some []) else .error .undefined
    | some json =>
      let elements := json.elements?.getD []
      if (elements.length : ℤ) ≠ dims then .ok none
      else .ok (some (elements.map fun e => e.int?.getD 0))

/-- `esdm_dataset_open_md_parse`: what it returns, what it makes of the dataset, and whether it has
marked the container as dirty, which `esdm_dataset_name_dims` does.  A parse that fails leaves what
it has changed. -/
def openMdParse (env : Env V) (d : DatasetObject V A) (description : Description V A) :
    Outcome (Status × DatasetObject V A × Bool) := do
  let members := description.members
  let id ← access (members.get "id" >>= Json.str?)
  let d := { d with
    attr := some description.attr, fillValue := description.fillValue <|> d.fillValue, id := id }
  let dims := (members.get "dims" >>= Json.int?).getD 0
  match ← parseSizes members dims with
  | none => return (.error, d, false)
  | some sizes =>
    let d := { d with
      dataspace := .createFull (sizes.map fun size => ⟨0, size⟩) description.type
      actualSize := if 0 ∈ sizes then some sizes else d.actualSize }
    let names := members.get "dims_dset_id"
    let elements := (names >>= Json.elements?).getD []
    if names.isSome ∧ (elements.length : ℤ) ≠ dims then return (.error, d, false)
    else
      let (named, d) ← if names.isSome then d.nameDims (elements.map Json.str?) else .ok (.error, d)
      let named := decide (named = .success)
      match members.get "fragments" with
      | none => return (.error, d, named)
      | some fragments =>
        let ds ← Dataset.openFragments env (fragments.elements?.getD []) d.toDataset
        match members.get "grids" >>= Json.elements? with
        | none => return (.error, { d with toDataset := ds }, named)
        | some grids =>
          let (ds, opened) ← Dataset.openGrids env 0 grids
            { ds with grids := [], gridCount := 0, incompleteGridCount := 0 }
          if opened then
            return (.success, { d with toDataset := { ds with status := .persistent } }, named)
          else return (.error, { d with toDataset := ds }, named)

end Open

end DatasetObject

end Esdm
