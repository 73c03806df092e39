import DottedPath.Number.Binary64

/-!
# Values, their kinds and their types

A value is either a plain datum or a reference to a cell of a heap (`DottedPath.Heap`); two
references are to the same object exactly when they are equal. The scanner tells three kinds of
node apart, mappings, lists and scalars; expectations about a value may also name one of the finer
value types.
-/

set_option autoImplicit false
set_option relaxedAutoImplicit false

namespace DottedPath

/-- The number of a cell in a heap. -/
abbrev Ref := Nat

/-- A key of a mapping. A path only ever names the text keys. Numbers that are equal are one key, so a
boolean or a real number that equals an integer is the key of this integer. A tuple is a key by its
items; a handle and not-a-number are keys by their identity. -/
inductive Key
  | null
  | integer (n : Int)
  | real (x : Binary64)
  | text (s : String)
  | bytes (bs : List UInt8)
  | tuple (items : List Key)
  | handle (r : Ref)
  | notNumber (r : Ref)
  deriving Inhabited

/-- A plain datum, or a reference to a cell. -/
inductive Value
  | null
  | boolean (b : Bool)
  | integer (n : Int)
  | real (x : Binary64)
  | text (s : String)
  | bytes (bs : List UInt8)
  | object (r : Ref)
  deriving DecidableEq, Inhabited

/-- The three sorts of mapping. A read-only mapping refuses to be assigned to. It has entries of its
own: a read-only view of a mapping that is itself in the heap, and changes with it, is not among
these. -/
inductive MappingKind
  | plain
  | ordered
  | readOnly
  deriving DecidableEq, Inhabited

/-- The three kinds of node that the scanner tells apart. -/
inductive NodeKind
  | mapping
  | list
  | scalar
  deriving DecidableEq, Inhabited

/-- The types that a value can have, and the two wider types that an expectation can name. -/
inductive ValueType
  | nothing
  | boolean
  | integer
  | real
  | text
  | bytes
  | list
  | tuple
  | mapping (kind : MappingKind)
  | handle
  | anyMapping
  | anything
  deriving DecidableEq, Inhabited

/-- Whether an access reads or writes. -/
inductive AccessMode
  | read
  | write
  deriving DecidableEq, Inhabited

/-- What a value is expected to be: a node of a kind, a value of a type, or of one of some types. -/
inductive Expected
  | shape (kind : NodeKind)
  | instanceOf (type : ValueType)
  | anyOf (types : List ValueType)
  deriving DecidableEq, Inhabited

namespace Key

mutual

/-- Equality of keys. -/
def beq : Key → Key → Bool
  | null, null => true
  | integer m, integer n => m == n
  | real x, real y => x == y
  | text s, text t => s == t
  | bytes bs, bytes cs => bs == cs
  | tuple ks, tuple ls => beqItems ks ls
  | handle r, handle s => r == s
  | notNumber r, notNumber s => r == s
  | _, _ => false

/-- Equality of the items of two tuples. -/
def beqItems : List Key → List Key → Bool
  | [], [] => true
  | k :: ks, l :: ls => beq k l && beqItems ks ls
  | _, _ => false

end

mutual

theorem eq_of_beq {k l : Key} (h : beq k l = true) : k = l := by
  cases k <;> cases l <;> simp_all [beq]
  exact eq_of_beqItems h

theorem eq_of_beqItems {ks ls : List Key} (h : beqItems ks ls = true) : ks = ls := by
  match ks, ls with
  | [], [] => rfl
  | [], _ :: _ | _ :: _, [] => simp [beqItems] at h
  | k :: ks, l :: ls =>
    simp only [beqItems, Bool.and_eq_true] at h
    rw [eq_of_beq h.1, eq_of_beqItems h.2]

end

mutual

theorem beq_self (k : Key) : beq k k = true := by
  cases k <;> simp [beq]
  exact beqItems_self _

theorem beqItems_self (ks : List Key) : beqItems ks ks = true := by
  match ks with
  | [] => rfl
  | k :: ks => simp [beqItems, beq_self k, beqItems_self ks]

end

instance : DecidableEq Key := fun k l ↦
  decidable_of_iff (beq k l = true) ⟨eq_of_beq, fun h ↦ h ▸ beq_self k⟩

/-- The key that a real number is. -/
def ofReal (x : Binary64) : Key :=
  match x.toInt? with
  | some n => integer n
  | none => real x

/-- The type of a key as a value. -/
def type : Key → ValueType
  | null => .nothing
  | integer _ => .integer
  | real _ => .real
  | text _ => .text
  | bytes _ => .bytes
  | tuple _ => .tuple
  | handle _ => .handle
  | notNumber _ => .real

end Key

namespace NodeKind

def label : NodeKind → String
  | mapping => "mapping"
  | list => "list"
  | scalar => "scalar"

/-- The kind with its article. -/
def described (kind : NodeKind) : String := "a " ++ kind.label

def all : List NodeKind := [mapping, list, scalar]

end NodeKind

namespace AccessMode

def label : AccessMode → String
  | read => "read"
  | write => "write"

/-- The preposition that goes with the access. -/
def preposition : AccessMode → String
  | read => "from"
  | write => "into"

def all : List AccessMode := [read, write]

end AccessMode

namespace ValueType

def label : ValueType → String
  | nothing => "NoneType"
  | boolean => "bool"
  | integer => "int"
  | real => "float"
  | text => "str"
  | bytes => "bytes"
  | list => "list"
  | tuple => "tuple"
  | mapping .plain => "dict"
  | mapping .ordered => "OrderedDict"
  | mapping .readOnly => "mappingproxy"
  | handle => "Opaque"
  | anyMapping => "Mapping"
  | anything => "object"

def all : List ValueType :=
  [nothing, boolean, integer, real, text, bytes, list, tuple, mapping .plain, mapping .ordered,
    mapping .readOnly, handle, anyMapping, anything]

/-- The type of a label. -/
def ofLabel? (label : String) : Option ValueType :=
  all.find? fun type ↦ type.label = label

theorem ofLabel?_label (type : ValueType) : ofLabel? type.label = some type := by
  cases type with
  | mapping kind => cases kind <;> rfl
  | _ => rfl

/-- `wide.admits type` when every value of type `type` is also one of type `wide`: a boolean is an
integer, an ordered mapping is a plain one, and the two wide types take what their names say. -/
def admits : ValueType → ValueType → Bool
  | anything, _ => true
  | anyMapping, mapping _ => true
  | integer, boolean => true
  | mapping .plain, mapping .ordered => true
  | wide, type => wide == type

end ValueType

namespace Expected

/-- An expectation as messages state it. -/
def described : Expected → String
  | shape kind => kind.described
  | instanceOf type => "an instance of " ++ type.label
  | anyOf types => "one of " ++ ", ".intercalate (types.map ValueType.label)

end Expected

end DottedPath
