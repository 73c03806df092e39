import DottedPath.Heap.Edit
import DottedPath.Scan.Basic
import DottedPath.Scan.Move

/-!
# Removing at a path

`Scan.remove` removes the key, the list or the list item at a path. What is not there needs no
removing, and nothing is created on the way. A step `name[]` with more steps behind it leads to
every mapping in the list, one after the other; other items cannot hold the field and are passed
over.
-/

set_option autoImplicit false
set_option relaxedAutoImplicit false

namespace DottedPath

/-- What a step does to a removal: it ends it with a changed heap, or it leads to some mappings in
each of which the removal goes on with the steps behind it. -/
inductive Removal (step : Step)
  | done (heap : Heap)
  | enter (children : List Ref) (rest : String) (hrest : step.rest = some rest)

namespace Heap

/-- The mappings among some items. -/
def mappingsAmong (h : Heap) (items : List Value) : List Ref :=
  items.filterMap fun item ↦
    match h.node item with
    | .mapping r _ _ => some r
    | _ => none

/-- What a step does to a removal. A step `name[]` with more steps behind it enters the mappings that are
in its list when the removal comes to it. -/
def removeMove (h : Heap) (root : Ref) (step : Step) : Except Fault (Removal step) :=
  match h.field? root step.name with
  | none => .ok (.done h)
  | some v =>
    match step.place, hrest : step.rest with
    | .key, none => (h.delete root (.text step.name)).map .done
    | .every, none => do
      if v ≠ .null then
        let _ ← h.asList step.name step.text .write v
      return .done (← h.delete root (.text step.name))
    | .item n, none =>
      if v = .null then .ok (.done h)
      else (h.asList step.name step.text .write v).map fun list ↦
        .done (h.mapItems list.1 fun items ↦ items.eraseIdx n)
    | .every, some rest =>
      if v = .null then .ok (.done h)
      else (h.asList step.name step.text .write v).map fun list ↦
        .enter (h.mappingsAmong list.2) rest hrest
    | .key, some rest =>
      (h.descend step .write v none).map fun child ↦ .enter child.toList rest hrest
    | .item n, some rest =>
      (h.descend step .write v (some n)).map fun child ↦ .enter child.toList rest hrest

end Heap

namespace Scan

/-- Removes what is at a path below a mapping. -/
def remove (root : Ref) (path : String) : Scan Unit := do
  let ⟨step, hstep⟩ ← parse path
  match ← inspect fun h ↦ h.removeMove root step with
  | .done heap => edit fun _ ↦ .ok heap
  | .enter children rest hrest =>
    have := Step.length_rest_lt hstep hrest
    children.forM fun child ↦ remove child rest
termination_by path.length

end Scan

end DottedPath
