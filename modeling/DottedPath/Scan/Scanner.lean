import DottedPath.Heap.Clone
import DottedPath.Scan.Remove
import DottedPath.Scan.Write

/-!
# Scanners

A scanner walks from a root mapping. It either owns its root, a deep copy that nobody else can
reach, or borrows it, and then its writes show wherever that mapping is in use.
-/

set_option autoImplicit false
set_option relaxedAutoImplicit false

namespace DottedPath

/-- How a scanner holds its root mapping. -/
inductive Ownership
  | owned
  | borrowed
  deriving DecidableEq, Inhabited

/-- A root mapping, and how it is held. -/
structure Scanner where
  root : Ref
  ownership : Ownership
  deriving DecidableEq, Inhabited

namespace Ownership

def label : Ownership → String
  | owned => "owned"
  | borrowed => "borrowed"

def all : List Ownership := [owned, borrowed]

end Ownership

namespace Scan

/-- The deep copy of a value. -/
def clone (v : Value) : Scan Value := fun w ↦
  match w.heap.clone? v with
  | some (copy, heap) => .ok copy { w with heap := heap }
  | none => .error .endless w

/-- A scanner over a mapping itself. -/
def borrow (data : Value) : Scan Scanner :=
  inspect fun h ↦
    match h.node data with
    | .mapping root _ _ => .ok ⟨root, .borrowed⟩
    | _ => .error (.argument (.dataNotMapping (h.typeOf data) false))

/-- A scanner over a deep copy of a mapping, or over a new mapping when the data are null. -/
def own (data : Value) : Scan Scanner := do
  match data, ← inspect fun h ↦ .ok (h.node data) with
  | .null, _ => do
    let root ← alloc (.mapping .plain .empty)
    return ⟨root, .owned⟩
  | _, .mapping .. => do
    let scanner ← borrow (← clone data)
    return { scanner with ownership := .owned }
  | _, _ => inspect fun h ↦ .error (.argument (.dataNotMapping (h.typeOf data) true))

/-- The deep copy of the root mapping of a scanner. -/
def toTree (scanner : Scanner) : Scan Value :=
  clone (.object scanner.root)

/-- The text of a scanner: how it holds its root mapping, and the keys there. -/
def render (scanner : Scanner) : Scan String :=
  inspect fun h ↦ .ok <|
    "TreeScanner(ownership=" ++ scanner.ownership.label ++ ", keys="
      ++ Literal.bracketed ((h.entries scanner.root).keys.map h.renderKey) ++ ")"

end Scan

end DottedPath
