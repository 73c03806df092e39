import DottedPath.Table
import DottedPath.Value

/-!
# The heap of containers

Mappings, lists, tuples and handles have an identity: they live in the cells of a heap, and a value
refers to them by number. Writing a cell shows in every place that refers to it. Cells are added and
replaced, never removed (`get?_alloc_of_lt`, `get?_write_of_ne`), and a cell keeps its sort: only
the entries of a mapping, the items of a list and the count of a handle ever change.
-/

set_option autoImplicit false
set_option relaxedAutoImplicit false

namespace DottedPath

/-- What a cell holds. A mapping of any kind has entries of its own, so no two cells show the same
entries unless they hold equal ones. A handle is a thing of the caller, with a name and a count, that
the scanner passes around and never looks into; a cell `notNumber` is the result of an undefined
calculation. -/
inductive Cell
  | mapping (kind : MappingKind) (entries : Table Key Value)
  | list (items : List Value)
  | tuple (items : List Value)
  | handle (name : String) (count : Int)
  | notNumber

/-- The cells of all containers, by number. -/
structure Heap where
  cells : Array Cell

/-- What the scanner sees at a value. -/
inductive Node
  | mapping (r : Ref) (kind : MappingKind) (entries : Table Key Value)
  | list (r : Ref) (items : List Value)
  | scalar

namespace Heap

def empty : Heap := ⟨#[]⟩

instance : Inhabited Heap := ⟨empty⟩

/-- The number of cells. -/
def size (h : Heap) : Nat := h.cells.size

/-- The cell with a number. -/
def get? (h : Heap) (r : Ref) : Option Cell := h.cells[r]?

/-- The heap with one more cell, whose number is the size of the old heap. -/
def alloc (h : Heap) (c : Cell) : Heap := ⟨h.cells.push c⟩

/-- The heap with the cell of a number replaced. -/
def write (h : Heap) (r : Ref) (c : Cell) : Heap := ⟨h.cells.setIfInBounds r c⟩

@[simp] theorem size_alloc (h : Heap) (c : Cell) : (h.alloc c).size = h.size + 1 := by
  simp [size, alloc]

@[simp] theorem size_write (h : Heap) (r : Ref) (c : Cell) : (h.write r c).size = h.size := by
  simp [size, write]

@[simp] theorem get?_alloc_self (h : Heap) (c : Cell) : (h.alloc c).get? h.size = some c := by
  simp [get?, alloc, size]

theorem get?_alloc_of_lt (h : Heap) (c : Cell) {r : Ref} (hr : r < h.size) :
    (h.alloc c).get? r = h.get? r := by
  simp only [get?, alloc, size] at *
  rw [Array.getElem?_push_lt hr, Array.getElem?_eq_getElem hr]

theorem get?_write_self (h : Heap) (c : Cell) {r : Ref} (hr : r < h.size) :
    (h.write r c).get? r = some c := by
  simp only [get?, write, size] at *
  simp [hr]

theorem get?_write_of_ne (h : Heap) (c : Cell) {r s : Ref} (hrs : r ≠ s) :
    (h.write r c).get? s = h.get? s := by
  simp [get?, write, hrs]

theorem lt_size_of_get? {h : Heap} {r : Ref} {c : Cell} (hc : h.get? r = some c) : r < h.size := by
  by_cases hr : r < h.size
  · exact hr
  · simp [get?, size] at hc hr
    simp [hr] at hc

/-! ### Looking at values -/

/-- The node at a value. -/
def node (h : Heap) : Value → Node
  | .object r =>
    match h.get? r with
    | some (.mapping kind entries) => .mapping r kind entries
    | some (.list items) => .list r items
    | _ => .scalar
  | _ => .scalar

/-- The kind of the node at a value. -/
def kindOf (h : Heap) (v : Value) : NodeKind :=
  match h.node v with
  | .mapping .. => .mapping
  | .list .. => .list
  | .scalar => .scalar

/-- The type of a value. -/
def typeOf (h : Heap) : Value → ValueType
  | .null => .nothing
  | .boolean _ => .boolean
  | .integer _ => .integer
  | .real _ => .real
  | .text _ => .text
  | .bytes _ => .bytes
  | .object r =>
    match h.get? r with
    | some (.mapping kind _) => .mapping kind
    | some (.list _) => .list
    | some (.tuple _) => .tuple
    | some (.handle _ _) => .handle
    | some .notNumber => .real
    | none => .anything

/-- The key that a value is, or the type of what cannot be a key: a container that can be changed is
none, neither by itself nor in a tuple. At most `depth` tuples are entered. -/
def keyWithin (h : Heap) : Nat → Value → Except ValueType Key
  | _, .null => .ok .null
  | _, .boolean b => .ok (.integer (if b then 1 else 0))
  | _, .integer n => .ok (.integer n)
  | _, .real x => .ok (.ofReal x)
  | _, .text s => .ok (.text s)
  | _, .bytes bs => .ok (.bytes bs)
  | 0, .object r => .error (h.typeOf (.object r))
  | depth + 1, .object r =>
    match h.get? r with
    | some (.tuple items) => (items.mapM (keyWithin h depth)).map .tuple
    | some (.handle _ _) => .ok (.handle r)
    | some .notNumber => .ok (.notNumber r)
    | _ => .error (h.typeOf (.object r))

/-- The key that a value is, or the type of what cannot be a key. -/
def keyOf (h : Heap) (v : Value) : Except ValueType Key :=
  h.keyWithin (h.size + 1) v

/-- Whether a value is as expected. -/
def fits (h : Heap) (v : Value) : Expected → Bool
  | .shape kind => h.kindOf v == kind
  | .instanceOf type => type.admits (h.typeOf v)
  | .anyOf types => types.any fun type ↦ type.admits (h.typeOf v)

/-- Whether two values are the same object. All empty tuples are one object. -/
def same (h : Heap) : Value → Value → Bool
  | .object r, .object s =>
    r == s ||
      match h.get? r, h.get? s with
      | some (.tuple []), some (.tuple []) => true
      | _, _ => false
  | v, w => v == w

/-! ### Mappings and lists -/

/-- The entries of the mapping in a cell. -/
def entries (h : Heap) (r : Ref) : Table Key Value :=
  match h.get? r with
  | some (.mapping _ entries) => entries
  | _ => .empty

/-- The value under a text key of the mapping in a cell. -/
def field? (h : Heap) (r : Ref) (name : String) : Option Value :=
  (h.entries r).find? (.text name)

/-- The items of the list in a cell. -/
def items (h : Heap) (r : Ref) : List Value :=
  match h.get? r with
  | some (.list items) => items
  | _ => []

/-- Whether the cell holds a mapping that refuses to be assigned to. -/
def isReadOnly (h : Heap) (r : Ref) : Bool :=
  match h.get? r with
  | some (.mapping .readOnly _) => true
  | _ => false

/-- The heap with the entries of a mapping changed. -/
def mapEntries (h : Heap) (r : Ref) (change : Table Key Value → Table Key Value) : Heap :=
  match h.get? r with
  | some (.mapping kind entries) => h.write r (.mapping kind (change entries))
  | _ => h

/-- The heap with the items of a list changed. -/
def mapItems (h : Heap) (r : Ref) (change : List Value → List Value) : Heap :=
  match h.get? r with
  | some (.list items) => h.write r (.list (change items))
  | _ => h

end Heap

end DottedPath
