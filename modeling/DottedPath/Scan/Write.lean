import DottedPath.Heap.Edit
import DottedPath.Scan.Read

/-!
# Writing at a path

`Scan.set` stores a value at a path. On the way down every missing mapping and list is created; on
the way up each container is stored under its key again, so a read-only mapping on the path stops
the write only after the containers below it have changed. A list that is too short for an index is
padded with null, and `name[]` appends.
-/

set_option autoImplicit false
set_option relaxedAutoImplicit false

namespace DottedPath

/-- Refuses an index above the limit. -/
def Step.checkLimit (step : Step) (limit : Option Nat) : Except Fault Unit :=
  match limit, step.place with
  | some limit, .item n =>
    if limit < n then .error (.path step.label step.text (.aboveLimit step.name n limit))
    else .ok ()
  | _, _ => .ok ()

namespace Scan

/-- The list under the key of a step that addresses one, made when it is missing or null. -/
def openList (limit : Option Nat) (root : Ref) (step : Step) : Scan (Option Ref) :=
  if step.place = .key then pure none
  else do
    inspect fun _ ↦ step.checkLimit limit
    match ← inspect fun h ↦ .ok ((h.field? root step.name).getD .null) with
    | .null => do
      note (.creatingList step.name step.text)
      some <$> alloc (.list [])
    | v => inspect fun h ↦ (h.asList step.name step.text .write v).map fun list ↦ some list.1

/-- The mapping that a step leads to, made when it is missing or null. -/
def openMapping (root : Ref) (step : Step) (list : Option Ref) : Scan Ref := do
  let current ← inspect fun h ↦ .ok <|
    match list, step.place with
    | some list, .item n => (h.items list)[n]?.getD .null
    | some _, _ => .null
    | none, _ => (h.field? root step.name).getD .null
  match current with
  | .null => do
    note (.creatingMapping step.label step.text)
    alloc (.mapping .plain .empty)
  | v => inspect fun h ↦ h.asMapping step.label step.text .write v

/-- Puts a value where a step leads: under its key, or into the list under its key, which is then
stored under the key again. -/
def store (root : Ref) (step : Step) (list : Option Ref) (v : Value) : Scan Unit :=
  match list with
  | none => edit fun h ↦ h.assign root (.text step.name) v
  | some list => do
    match step.place with
    | .item n =>
      let size ← inspect fun h ↦ .ok (h.items list).length
      if size ≤ n then note (.growing step.name size (n + 1))
      edit fun h ↦ h.putItem list n v
    | _ => edit fun h ↦ .ok (h.mapItems list fun items ↦ items ++ [v])
    edit fun h ↦ h.assign root (.text step.name) (.object list)

/-- Stores a value at a path below a mapping. -/
def set (limit : Option Nat) (root : Ref) (path : String) (v : Value) : Scan Unit := do
  let ⟨step, hstep⟩ ← parse path
  let list ← openList limit root step
  match hrest : step.rest with
  | none => store root step list v
  | some rest =>
    have := Step.length_rest_lt hstep hrest
    let child ← openMapping root step list
    set limit child rest v
    store root step list (.object child)
termination_by path.length

/-- The mapping at a path below a mapping, made when it is missing or null. -/
def subMapping (limit : Option Nat) (root : Ref) (path : String) : Scan Ref := do
  let v ← getAs root path (some (.shape .mapping))
  match ← inspect fun h ↦ .ok (h.node v) with
  | .mapping r _ _ => return r
  | _ => do
    let r ← alloc (.mapping .plain .empty)
    set limit root path (.object r)
    return r

end Scan

end DottedPath
