import DottedPath.Heap.Basic

/-!
# Deep copies

The deep copy of a value has a new plain mapping for every mapping and a new list for every list
that is reached through mappings and lists; a scalar is its own copy, tuples and handles included. A
container that is reached twice has two copies.

The copy follows references down to a depth of one more than the number of cells. A descent that
long passes through some cell twice, so the copy of a value fails exactly when the value is reached
from itself.
-/

set_option autoImplicit false
set_option relaxedAutoImplicit false

namespace DottedPath.Heap

/-- The deep copy of a value, by a descent of at most `depth` containers. -/
def cloneWithin : Nat → Value → StateT Heap Option Value
  | 0, v => fun h ↦
    match h.node v with
    | .scalar => some (v, h)
    | _ => none
  | depth + 1, v => fun h ↦
    match h.node v with
    | .scalar => some (v, h)
    | .mapping _ _ entries => do
      let (copies, h) ← entries.data.mapM (cloneWithin depth) h
      return (.object h.size, h.alloc (.mapping .plain (entries.withData copies)))
    | .list _ items => do
      let (copies, h) ← items.mapM (cloneWithin depth) h
      return (.object h.size, h.alloc (.list copies))

/-- The deep copy of a value, with the heap that holds it. -/
def clone? (h : Heap) (v : Value) : Option (Value × Heap) :=
  cloneWithin (h.size + 1) v h

end DottedPath.Heap
