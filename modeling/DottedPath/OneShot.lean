import DottedPath.Scan.Scanner

/-!
# Single accesses to a tree

Each of these uses a scanner and a parser of its own. Reading borrows the tree; writing and removing
work on a deep copy, and give a deep copy of the result.
-/

set_option autoImplicit false
set_option relaxedAutoImplicit false

namespace DottedPath.OneShot

/-- The value at a path of a tree, which has to be null or as expected if something is. -/
def getValue (tree : Value) (path : String) (expected : Option Expected) : Scan Value :=
  Scan.afresh {} do
    let scanner ← Scan.borrow tree
    match expected with
    | none => Scan.get scanner.root path
    | some expected => Scan.getAs scanner.root path (some expected)

/-- Whether a path of a tree leads to a slot. -/
def hasValue (tree : Value) (path : String) : Scan Bool :=
  Scan.afresh {} do
    let scanner ← Scan.borrow tree
    Scan.has scanner.root path

/-- A copy of a tree with a value stored at a path. -/
def withValue (config : Config) (tree : Value) (path : String) (v : Value) : Scan Value :=
  Scan.afresh config do
    let scanner ← Scan.own tree
    Scan.set config.maxIndex scanner.root path v
    Scan.toTree scanner

/-- A copy of a tree with what is at a path removed. -/
def withoutValue (tree : Value) (path : String) : Scan Value :=
  Scan.afresh {} do
    let scanner ← Scan.own tree
    Scan.remove scanner.root path
    Scan.toTree scanner

end DottedPath.OneShot
