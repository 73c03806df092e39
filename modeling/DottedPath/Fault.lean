import DottedPath.Config
import DottedPath.Literal
import DottedPath.Path.Step

/-!
# Faults

What can go wrong, by cause. A missing key, a null and an index past the end of a list are never
faults of a scanner. A fault holds what was found as a value; the wording is in `Fault.message`,
which needs the heap to name the type of that value.
-/

set_option autoImplicit false
set_option relaxedAutoImplicit false

namespace DottedPath

/-- A value that is not as an access to it expects. -/
structure ShapeFault where
  field : String
  path : String
  expected : Expected
  actual : Value
  mode : AccessMode
  deriving DecidableEq

/-- Why a path cannot be followed: it goes on behind `name[]`, or an index is above the limit, or
a reason that the caller words. -/
inductive PathReason
  | unindexed
  | aboveLimit (name : String) (index limit : Nat)
  | worded (text : String)
  deriving DecidableEq

/-- Why an argument cannot be used. -/
inductive ArgumentReason
  | noExpectation
  | dataNotMapping (type : ValueType) (nullAllowed : Bool)
  | worded (text : String)
  deriving DecidableEq

/-- What a read-only mapping refuses. -/
inductive Refusal
  | assignment
  | deletion
  deriving DecidableEq

/-- Why a list cannot be padded: there is no such size, or not the room for it. -/
inductive PaddingFault
  | noSuchSize
  | noRoom
  deriving DecidableEq

/-- How a tree differs from an assertion about one of its paths. -/
inductive Difference
  | absent (expected : Value)
  | unequal (actual expected : Value)
  deriving DecidableEq

/-- What an index is used for: to find an item of a sequence, or to change the items of a list. -/
inductive IndexUse
  | listItem
  | tupleItem
  | textItem
  | byteItem
  | listChange
  deriving DecidableEq

/-- Why a caller's own edit of a value fails: a key or an index that is not there, an index beyond
all sizes, something else in place of an index or of a key, or a value without such edits. Of the
values without deletion, those that are sequences word it differently for an index. -/
inductive EditFault
  | absentKey (key : Key)
  | outOfRange (use : IndexUse)
  | indexBeyondSizes
  | notIndex (use : IndexUse) (type : ValueType)
  | notKey (type : ValueType)
  | noItems (type : ValueType)
  | noAssignment (type : ValueType)
  | noDeletion (type : ValueType) (fromSequence : Bool)
  | noAppending (type : ValueType)
  deriving DecidableEq

/-- What can go wrong. -/
inductive Fault
  | shape (fault : ShapeFault)
  | path (field path : String) (reason : PathReason)
  | argument (reason : ArgumentReason)
  | general (text : String)
  | setting (fault : SettingFault)
  | numeral (tooLong : LongNumeral)
  | refused (refusal : Refusal)
  | padding (fault : PaddingFault)
  | assertion (path : String) (difference : Difference)
  | edit (fault : EditFault)
  | unknownName (name : String)
  | endless
  deriving DecidableEq

namespace ShapeFault

def message (h : Heap) (fault : ShapeFault) : String :=
  "Field \"" ++ fault.field ++ "\" was expected to be " ++ fault.expected.described ++ ", but got "
    ++ (h.typeOf fault.actual).label ++ " when trying to " ++ fault.mode.label ++ " a value "
    ++ fault.mode.preposition ++ " \"" ++ fault.path ++ "\""

end ShapeFault

namespace PathReason

/-- The wording of a reason. A caller's wording that is empty gives way to the usual one. -/
def message (field path : String) : PathReason → String
  | unindexed => usual
  | aboveLimit name index limit =>
    "Index " ++ toString index ++ " of field \"" ++ name ++ "\" in path \"" ++ path
      ++ "\" exceeds the maximum of " ++ toString limit
  | worded text => if text.isEmpty then usual else text
where
  usual : String :=
    "Field \"" ++ field ++ "\" in path \"" ++ path ++ "\" is an array, but the index was not "
      ++ "specified. Cannot continue through path without an index"

end PathReason

namespace ArgumentReason

def message : ArgumentReason → String
  | noExpectation => "\"expected\" argument is mandatory."
  | dataNotMapping type nullAllowed =>
    "\"data\" must be a mapping" ++ (if nullAllowed then " or None" else "") ++ ", got "
      ++ type.label
  | worded text => text

end ArgumentReason

namespace Refusal

def message : Refusal → String
  | assignment => "'mappingproxy' object does not support item assignment"
  | deletion => "'mappingproxy' object does not support item deletion"

end Refusal

namespace PaddingFault

def message : PaddingFault → String
  | noSuchSize => "cannot fit 'int' into an index-sized integer"
  | noRoom => ""

end PaddingFault

namespace Difference

def message (h : Heap) (path : String) : Difference → String
  | absent expected =>
    "Path does not exist: " ++ Text.quoted path ++ "\n  expected: " ++ h.render expected
  | unequal actual expected =>
    "Value mismatch at " ++ Text.quoted path ++ "\n  actual:   " ++ h.render actual
      ++ "\n  expected: " ++ h.render expected

end Difference

namespace EditFault

def message (h : Heap) : EditFault → String
  | absentKey key => h.renderKey key
  | outOfRange .listItem => "list index out of range"
  | outOfRange .tupleItem => "tuple index out of range"
  | outOfRange .textItem => "string index out of range"
  | outOfRange .byteItem => "index out of range"
  | outOfRange .listChange => "list assignment index out of range"
  | indexBeyondSizes => "cannot fit 'int' into an index-sized integer"
  | notIndex .tupleItem type => "tuple indices must be integers or slices, not " ++ type.label
  | notIndex .textItem type => "string indices must be integers, not '" ++ type.label ++ "'"
  | notIndex .byteItem type => "byte indices must be integers or slices, not " ++ type.label
  | notIndex _ type => "list indices must be integers or slices, not " ++ type.label
  | notKey type => "unhashable type: '" ++ type.label ++ "'"
  | noItems type => "'" ++ type.label ++ "' object is not subscriptable"
  | noAssignment type => "'" ++ type.label ++ "' object does not support item assignment"
  | noDeletion type fromSequence =>
    "'" ++ type.label ++ "' object " ++ (if fromSequence then "doesn't" else "does not")
      ++ " support item deletion"
  | noAppending type =>
    let module := if type = .mapping .ordered then "collections." else ""
    "'" ++ module ++ type.label ++ "' object has no attribute 'append'"

end EditFault

namespace LongNumeral

def message (numeral : LongNumeral) : String :=
  "Exceeds the limit (" ++ toString Step.maxDigits
    ++ " digits) for integer string conversion: value has " ++ toString numeral.digits
    ++ " digits; use sys.set_int_max_str_digits() to increase the limit"

end LongNumeral

namespace Fault

/-- The wording of a fault, in a heap that holds what was found. -/
def message (h : Heap) : Fault → String
  | shape fault => fault.message h
  | .path field text reason => reason.message field text
  | argument reason => reason.message
  | general text => text
  | setting fault => fault.message
  | numeral tooLong => tooLong.message
  | refused refusal => refusal.message
  | padding fault => fault.message
  | assertion text difference => difference.message h text
  | edit fault => fault.message h
  | unknownName name => name
  | endless => "a container holds itself"

/-- The families that a fault can belong to. Every fault of the scanner's own is in the first. -/
inductive Family
  | scanner
  | type
  | value
  deriving DecidableEq

/-- The families of the faults of the scanner's own. -/
def families : Fault → List Family
  | shape _ => [.scanner, .type]
  | path .. => [.scanner, .value]
  | argument _ => [.scanner, .value]
  | general _ => [.scanner]
  | setting _ => [.value]
  | numeral _ => [.value]
  | refused _ => [.type]
  | _ => []

end Fault

/-! ### Reports -/

/-- A fault with its wording, and with what was found written out. -/
structure Report where
  fault : Fault
  message : String
  found : Option (Literal × NodeKind)

/-- The report of a fault. -/
def Fault.report (h : Heap) (fault : Fault) : Report where
  fault := fault
  message := fault.message h
  found :=
    match fault with
    | .shape found => some (h.describe found.actual, h.kindOf found.actual)
    | _ => none

end DottedPath
