import DottedPath.Scan.Scanner

/-!
# The public names

The names under which the parts of this library are known to its callers, and the words for the
values of its four enumerations.
-/

set_option autoImplicit false
set_option relaxedAutoImplicit false

namespace DottedPath

/-- A version, the public names in order, and the words of each enumeration in order. -/
structure Catalogue where
  version : String
  names : List String
  enumerations : List (String × List String)

/-- The catalogue of this library. -/
def catalogue : Catalogue where
  version := "0.1.0"
  names :=
    ["AccessMode", "InvalidArgumentError", "InvalidPathError", "NodeKind", "Ownership",
      "ScannerConfig", "ScannerError", "TreeScanner", "TypeMismatchError", "deep_clone",
      "get_value", "has_value", "with_value", "without_value"]
  enumerations :=
    [("NodeKind", NodeKind.all.map NodeKind.label),
      ("StepKind", StepKind.all.map StepKind.label),
      ("AccessMode", AccessMode.all.map AccessMode.label),
      ("Ownership", Ownership.all.map Ownership.label)]

end DottedPath
