import DottedPath.Heap.Basic
import DottedPath.Text.Quoted

/-!
# Written forms of values

A literal is a value written out with everything it contains. `Literal.place` builds the value of a
literal in a heap, with a new cell for each container that it mentions; a handle is one cell for
each name, however often it is mentioned, and the first mention sets its count. `Heap.describe` goes
the other way, and `Literal.render` writes a literal as text.
-/

set_option autoImplicit false
set_option relaxedAutoImplicit false

namespace DottedPath

/-- A value written out. The keys of a mapping are values too. A literal `named` stands for a value
kept under a name, and `cut` for a container inside itself. -/
inductive Literal
  | null
  | boolean (b : Bool)
  | integer (n : Int)
  | real (x : Binary64)
  | notNumber
  | text (s : String)
  | bytes (bs : List UInt8)
  | list (items : List Literal)
  | tuple (items : List Literal)
  | mapping (kind : MappingKind) (entries : List (Literal × Literal))
  | handle (name : String) (count : Int)
  | named (name : String)
  | cut
  deriving Inhabited

/-! ### Placing a literal in a heap -/

/-- A heap, with the cells of the handles made so far. -/
structure Store where
  heap : Heap
  handles : Table String Ref
  deriving Inhabited

namespace Store

def empty : Store := ⟨.empty, .empty⟩

/-- The store with one more cell, and a reference to the cell. -/
def alloc (c : Cell) (s : Store) : Value × Store :=
  (.object s.heap.size, { s with heap := s.heap.alloc c })

/-- The handle of a name, made with a count if there is none. -/
def handle (name : String) (count : Int) (s : Store) : Value × Store :=
  match s.handles.find? name with
  | some r => (.object r, s)
  | none =>
    (.object s.heap.size,
      ⟨s.heap.alloc (.handle name count), s.handles.put name s.heap.size⟩)

end Store

/-- Why a literal has no value: nothing is kept under a name, or a value cannot be a key. -/
inductive PlacingFault
  | unknownName (name : String)
  | notKey (type : ValueType)
  deriving DecidableEq

namespace Literal

mutual

/-- The value of a literal, where `kept` finds the named values. -/
def place (kept : String → Option Value) : Literal → Store → Except PlacingFault (Value × Store)
  | .null, s => .ok (.null, s)
  | .boolean b, s => .ok (.boolean b, s)
  | .integer n, s => .ok (.integer n, s)
  | .real x, s => .ok (.real x, s)
  | .notNumber, s => .ok (s.alloc .notNumber)
  | .text t, s => .ok (.text t, s)
  | .bytes bs, s => .ok (.bytes bs, s)
  | .list items, s => do
    let (values, s) ← placeItems kept items s
    return s.alloc (.list values)
  | .tuple items, s => do
    let (values, s) ← placeItems kept items s
    return s.alloc (.tuple values)
  | .mapping kind entries, s => do
    let (values, s) ← placeEntries kept entries s
    return s.alloc (.mapping kind (.ofList values))
  | .handle name count, s => .ok (s.handle name count)
  | .named name, s =>
    match kept name with
    | some v => .ok (v, s)
    | none => .error (.unknownName name)
  | .cut, s => .ok (.null, s)

/-- The values of some literals, from left to right. -/
def placeItems (kept : String → Option Value) :
    List Literal → Store → Except PlacingFault (List Value × Store)
  | [], s => .ok ([], s)
  | item :: items, s => do
    let (v, s) ← place kept item s
    let (values, s) ← placeItems kept items s
    return (v :: values, s)

/-- The entries of a mapping literal, from left to right. -/
def placeEntries (kept : String → Option Value) :
    List (Literal × Literal) → Store → Except PlacingFault (List (Key × Value) × Store)
  | [], s => .ok ([], s)
  | (key, item) :: entries, s => do
    let (k, s) ← place kept key s
    match s.heap.keyOf k with
    | .error type => .error (.notKey type)
    | .ok key => do
      let (v, s) ← place kept item s
      let (values, s) ← placeEntries kept entries s
      return ((key, v) :: values, s)

end

/-! ### Text -/

/-- Entries or items between the signs of a mapping. -/
def braced (parts : List String) : String :=
  "\x7b" ++ ", ".intercalate parts ++ "\x7d"

/-- Items between square brackets. -/
def bracketed (parts : List String) : String :=
  "[" ++ ", ".intercalate parts ++ "]"

/-- Items between round brackets, where a single one keeps its comma. -/
def parenthesized : List String → String
  | [part] => "(" ++ part ++ ",)"
  | parts => "(" ++ ", ".intercalate parts ++ ")"

/-- The texts of the entries of a mapping, given the texts of their values. -/
def renderMapping (kind : MappingKind) (parts : List (String × String)) : String :=
  match kind with
  | .plain => braced (parts.map fun part ↦ part.1 ++ ": " ++ part.2)
  | .readOnly => "mappingproxy(" ++ braced (parts.map fun part ↦ part.1 ++ ": " ++ part.2) ++ ")"
  | .ordered =>
    if parts.isEmpty then "OrderedDict()"
    else "OrderedDict(" ++ bracketed (parts.map fun part ↦ parenthesized [part.1, part.2]) ++ ")"

mutual

/-- The text of a literal. -/
def render : Literal → String
  | .null => "None"
  | .boolean b => if b then "True" else "False"
  | .integer n => toString n
  | .real x => x.render
  | .notNumber => "nan"
  | .text s => Text.quoted s
  | .bytes bs => Text.quotedBytes bs
  | .list items => bracketed (renderItems [] items)
  | .tuple items => parenthesized (renderItems [] items)
  | .mapping kind entries => renderMapping kind (renderEntries [] entries)
  | .handle name _ => "Opaque(" ++ Text.quoted name ++ ")"
  | .named name => name
  | .cut => "..."

/-- The texts of some literals, behind the texts `done` in reverse. -/
def renderItems (done : List String) : List Literal → List String
  | [] => done.reverse
  | item :: items => renderItems (render item :: done) items

/-- The texts of some entries, behind the texts `done` in reverse. -/
def renderEntries (done : List (String × String)) :
    List (Literal × Literal) → List (String × String)
  | [] => done.reverse
  | (key, item) :: entries => renderEntries ((render key, render item) :: done) entries

end

end Literal

/-! ### Describing a value -/

namespace Heap

mutual

/-- A key written out. -/
def describeKey (h : Heap) : Key → Literal
  | .null => .null
  | .integer n => .integer n
  | .real x => .real x
  | .text s => .text s
  | .bytes bs => .bytes bs
  | .tuple items => .tuple (describeKeys h items)
  | .handle r =>
    match h.get? r with
    | some (.handle name count) => .handle name count
    | _ => .cut
  | .notNumber _ => .notNumber

/-- The items of a tuple that is a key, written out. -/
def describeKeys (h : Heap) : List Key → List Literal
  | [] => []
  | item :: items => describeKey h item :: describeKeys h items

end

/-- The text of a key. -/
def renderKey (h : Heap) (k : Key) : String :=
  (h.describeKey k).render

/-- A value written out down to `depth` containers. -/
def describeWithin (h : Heap) : Nat → Value → Literal
  | _, .null => .null
  | _, .boolean b => .boolean b
  | _, .integer n => .integer n
  | _, .real x => .real x
  | _, .text s => .text s
  | _, .bytes bs => .bytes bs
  | 0, .object _ => .cut
  | depth + 1, .object r =>
    match h.get? r with
    | some (.mapping kind entries) =>
      .mapping kind <| entries.entries.map fun entry ↦
        (h.describeKey entry.1, describeWithin h depth entry.2)
    | some (.list items) => .list (items.map (describeWithin h depth))
    | some (.tuple items) => .tuple (items.map (describeWithin h depth))
    | some (.handle name count) => .handle name count
    | some .notNumber => .notNumber
    | none => .cut

/-- A value written out. -/
def describe (h : Heap) (v : Value) : Literal :=
  h.describeWithin (h.size + 1) v

/-- The text of a value. -/
def render (h : Heap) (v : Value) : String :=
  (h.describe v).render

end Heap

end DottedPath
