import DottedPath.Heap.Shape

/-!
# Going from one mapping to the next

A step with more steps behind it leads from a mapping to another one: to the mapping under its key,
or to the mapping at its index in the list under its key. A missing key, a missing item and null
lead nowhere; anything else that is not of the shape that the step needs is a fault.
-/

set_option autoImplicit false
set_option relaxedAutoImplicit false

namespace DottedPath

namespace Heap

/-- The mapping that a step with more steps behind it leads to, given the value under the key of the
step and the index of an item if the step has one. There is none when the value or the item is null
or missing. -/
def descend (h : Heap) (step : Step) (mode : AccessMode) (v : Value) :
    Option Nat → Except Fault (Option Ref)
  | none =>
    match v with
    | .null => .ok none
    | v => (h.asMapping step.name step.text mode v).map some
  | some n =>
    match v with
    | .null => .ok none
    | v => do
      let (_, items) ← h.asList step.name step.text mode v
      match items[n]? with
      | none => return none
      | some .null => return none
      | some item => (h.asMapping step.label step.text mode item).map some

end Heap

/-- What a step does to a walk that wants a result: it ends it, or it leads to a mapping in which
the walk goes on with the steps behind it. -/
inductive Move (step : Step) (α : Type)
  | done (result : α)
  | enter (child : Ref) (rest : String) (hrest : step.rest = some rest)

/-- A walk that goes on in the mapping a step leads to, or ends with a result when the step leads
nowhere. -/
def Move.orElse {step : Step} {α : Type} (missing : α) {rest : String}
    (hrest : step.rest = some rest) : Option Ref → Move step α
  | none => .done missing
  | some child => .enter child rest hrest

end DottedPath
