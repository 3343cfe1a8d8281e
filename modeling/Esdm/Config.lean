import Esdm.Lib.Json
import Esdm.Split

/-!
# The configuration of the backends

`esdm_config_get_backends` of `esdm-config.c`, with those of its results that the scheduler reads.
`ESDM_ERROR` ends the process, and jansson's accessors give zero or a null pointer for a value of
another type.
-/

namespace Esdm.Config

/-- A member that has to be there. -/
def required (key : String) (j : Json) : Outcome Json := (j.get key).elim (.error .abort) .ok

/-- `json_integer_value` of a member, or the default if there is none. -/
def integer (key : String) (default : ℤ) (j : Json) : ℤ :=
  (j.get key).elim default fun e => e.int?.getD 0

/-- `strcasecmp` with the two values known. -/
def accessibility (j : Json) : Outcome Unit :=
  match j.get "accessibility" with
  | none => .ok ()
  | some e => do
    let s ← access e.str?
    if s.toLower = "global" ∨ s.toLower = "local" then .ok () else .error .abort

def fragmentationMethod (j : Json) : Outcome FragmentationMethod :=
  match (j.get "fragmentation-method").bind Json.str? with
  | none => .ok .contiguous
  | some s =>
    if s = "contiguous" then .ok .contiguous
    else if s = "equalized" then .ok .equalized
    else .error .abort

/-- A round of the loop over the backends.  An id that is no string is a null pointer, read by the
next comparison with it. -/
def getBackend (earlier : List Backend) (j : Json) : Outcome Backend := do
  let _ ← required "type" j
  let id ← required "id" j
  let id ← access id.str?
  if ∃ b ∈ earlier, b.id = id then .error .abort
  else
    let _ ← required "target" j
    accessibility j
    let method ← fragmentationMethod j
    return ⟨id, integer "max-fragment-size" (10 * 1024 * 1024) j, method⟩

/-- `esdm_config_get_backends` -/
def getBackends (root : Json) : Outcome (List Backend) := do
  let esdm ← required "esdm" root
  let backends ← required "backends" esdm
  match backends.elements? with
  | none => .error .abort
  | some l => l.foldlM (fun earlier j => do return earlier ++ [← getBackend earlier j]) []

end Esdm.Config
