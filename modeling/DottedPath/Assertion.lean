import DottedPath.Heap.Equality
import DottedPath.Scan.Scanner

/-!
# Assertions about a path

An assertion says that a path of a tree leads to a slot with a given value. It fails when there is
no such slot, and when the slot holds an unequal value.
-/

set_option autoImplicit false
set_option relaxedAutoImplicit false

namespace DottedPath

/-- Asserts that a path of a tree leads to a slot with a value equal to the expected one. -/
def assertValue (tree : Value) (path : String) (expected : Value) : Scan Unit :=
  Scan.afresh {} do
    let scanner ← Scan.borrow tree
    if ← Scan.has scanner.root path then
      let actual ← Scan.get scanner.root path
      Scan.inspect fun h ↦
        if h.equal actual expected then .ok ()
        else .error (.assertion path (.unequal actual expected))
    else throw (.assertion path (.absent expected))

end DottedPath
