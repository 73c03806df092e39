import DottedPath.Fault

/-!
# Insisting on a shape

What a value is expected to be on the way along a path, with the fault that says where it is
something else.
-/

set_option autoImplicit false
set_option relaxedAutoImplicit false

namespace DottedPath.Heap

/-- The mapping at a value, which is looked for under a field of a path. -/
def asMapping (h : Heap) (field path : String) (mode : AccessMode) (v : Value) :
    Except Fault Ref :=
  match h.node v with
  | .mapping r _ _ => .ok r
  | _ => .error (.shape ⟨field, path, .shape .mapping, v, mode⟩)

/-- The list at a value, with its items, which is looked for under a field of a path. -/
def asList (h : Heap) (field path : String) (mode : AccessMode) (v : Value) :
    Except Fault (Ref × List Value) :=
  match h.node v with
  | .list r items => .ok (r, items)
  | _ => .error (.shape ⟨field, path, .shape .list, v, mode⟩)

end DottedPath.Heap
