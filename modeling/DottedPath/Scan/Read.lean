import DottedPath.Scan.Basic
import DottedPath.Scan.Move

/-!
# Reading and testing a path

`Scan.get` gives the value at a path, and null when there is none; `Scan.has` tells whether the
path leads to a slot, which may hold null. Both walk one step at a time: what a step does is a
function of the heap (`Heap.readMove`, `Heap.hasMove`), and the walk goes on with the rest of the
path in the mapping that the step leads to.
-/

set_option autoImplicit false
set_option relaxedAutoImplicit false

namespace DottedPath

namespace Heap

/-- What a step does on the way to a value. -/
def readMove (h : Heap) (root : Ref) (step : Step) : Except Fault (Move step Value) :=
  match h.field? root step.name with
  | none => .ok (.done .null)
  | some v =>
    match step.place, hrest : step.rest with
    | .key, none => .ok (.done v)
    | .every, none =>
      if v = .null then .ok (.done .null)
      else (h.asList step.name step.text .read v).map fun _ ↦ .done v
    | .item n, none =>
      if v = .null then .ok (.done .null)
      else (h.asList step.name step.text .read v).map fun list ↦ .done (list.2[n]?.getD .null)
    | .every, some _ =>
      if v = .null then .ok (.done .null)
      else do
        let _ ← h.asList step.name step.text .read v
        throw (.path step.name step.text .unindexed)
    | .key, some _ => (h.descend step .read v none).map (.orElse .null hrest)
    | .item n, some _ => (h.descend step .read v (some n)).map (.orElse .null hrest)

/-- What a step does on the way to a slot. -/
def hasMove (h : Heap) (root : Ref) (step : Step) : Except Fault (Move step Bool) :=
  match h.field? root step.name with
  | none => .ok (.done false)
  | some v =>
    match step.place, hrest : step.rest with
    | .key, none => .ok (.done true)
    | .every, none => .ok (.done true)
    | .every, some _ => .error (.path step.name step.text .unindexed)
    | .item n, none =>
      if v = .null then .ok (.done false)
      else (h.asList step.name step.text .read v).map fun list ↦ .done (n < list.2.length)
    | .key, some _ => (h.descend step .read v none).map (.orElse false hrest)
    | .item n, some _ => (h.descend step .read v (some n)).map (.orElse false hrest)

end Heap

namespace Scan

/-- The value at a path below a mapping. -/
def get (root : Ref) (path : String) : Scan Value := do
  let ⟨step, hstep⟩ ← parse path
  match ← inspect fun h ↦ h.readMove root step with
  | .done v => return v
  | .enter child rest hrest =>
    have := Step.length_rest_lt hstep hrest
    get child rest
termination_by path.length

/-- Whether a path below a mapping leads to a slot. -/
def has (root : Ref) (path : String) : Scan Bool := do
  let ⟨step, hstep⟩ ← parse path
  match ← inspect fun h ↦ h.hasMove root step with
  | .done b => return b
  | .enter child rest hrest =>
    have := Step.length_rest_lt hstep hrest
    has child rest
termination_by path.length

/-- The value at a path below a mapping, which has to be null or as expected. -/
def getAs (root : Ref) (path : String) : Option Expected → Scan Value
  | none => throw (.argument .noExpectation)
  | some expected => do
    let v ← get root path
    inspect fun h ↦
      if v = .null ∨ h.fits v expected then .ok v
      else .error (.shape ⟨Text.trimmed path, Text.trimmed path, expected, v, .read⟩)

end Scan

end DottedPath
