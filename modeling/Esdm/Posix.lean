import Esdm.Lib.FileSystem
import Esdm.Container

/-!
# The POSIX backend

The backend of `posix.c` has one file for each fragment.  The ids of the dataset and of the fragment
say where it is: the first two characters of an id are directories of their own.  The ids are those
of `ea_make_id`, in which there are no slashes, and the target is the path to the backend's
directory.
-/

namespace Esdm.Posix

variable {V : Type}

/-- `id[0]`, `id[1]` and `id+2` -/
def splitId (id : String) : Option (Char × Char × String) :=
  match id.toList with
  | c₀ :: c₁ :: cs => some (c₀, c₁, .ofList cs)
  | _ => none

/-- `sprintfFragmentDir` -/
def fragmentDir (tgt : List String) (datasetId id : String) : Option (List String) := do
  let d ← splitId datasetId
  let f ← splitId id
  return tgt ++ [.singleton d.1, .singleton d.2.1, d.2.2, .singleton f.1, .singleton f.2.1]

/-- `sprintfFragmentPath` -/
def fragmentPath (tgt : List String) (datasetId id : String) : Option (List String) := do
  let dir ← fragmentDir tgt datasetId id
  let f ← splitId id
  return dir ++ [f.2.2]

/-- `fragment_delete` -/
def fragmentDelete (tgt : List String) (datasetId : String) (f : Fragment V)
    (fs : FileSystem String) : Outcome (Status × FileSystem String) :=
  match f.id with
  | none => .ok (.error, fs)
  | some id => do
    let path ← access (fragmentPath tgt datasetId id)
    match fs.unlink path with
    | none => return (.error, fs)
    | some fs =>
      let dir ← access (fragmentDir tgt datasetId id)
      match fs.rmdir dir with
      | none => return (.error, fs)
      | some fs => return (.success, fs)

/-- The loop of `esdmI_fragments_deleteAll`, for fragments on this backend. -/
def deleteFragments (tgt : List String) (datasetId : String) : List (Hypercube × ℕ) →
    FileSystem String → Dataset V → Outcome (Status × FileSystem String × Dataset V)
  | [], fs, ds => .ok (.success, fs, ds)
  | (shape, r) :: entries, fs, ds => do
    let f ← ds.fragment r
    let _ ← access f.backend
    let (status, fs) ← fragmentDelete tgt datasetId f fs
    if status = .success then
      let ds ← ds.destroyFragments [(shape, r)]
      deleteFragments tgt datasetId entries fs { ds with table := ds.table.erase (shape, r) }
    else
      let (_, fs, ds) ← deleteFragments tgt datasetId entries fs ds
      return (status, fs, ds)

/-- `esdmI_fragments_deleteAll` -/
def deleteAll (env : Env V) (tgt : List String) (datasetId : String) (fs : FileSystem String)
    (ds : Dataset V) : Outcome (Status × FileSystem String × Dataset V) :=
  deleteFragments tgt datasetId (env.order ds.table) fs ds

end Esdm.Posix
