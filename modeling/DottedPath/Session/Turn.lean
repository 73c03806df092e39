import DottedPath.Scan.Scanner
import DottedPath.Session.Request

/-!
# The state of a session

A session has a heap with the handles made in it, the scanners and the values kept under names, and
the families of scanners. The scanners of a family come from one another and share its settings and
its parser. A turn is a piece of a session; what it has changed when a fault stops it stays changed.
-/

set_option autoImplicit false
set_option relaxedAutoImplicit false

namespace DottedPath

/-- The settings and the parser that some scanners share. -/
structure Family where
  config : Config
  parser : Parser
  deriving Inhabited

/-- A scanner with the number of its family. -/
structure Member where
  scanner : Scanner
  family : Nat
  deriving Inhabited

/-- The state of a session, with the records of the current request. All memories in it are of one
make. -/
structure Session where
  make : Nat → Memory
  store : Store
  families : Array Family
  scanners : Table String Member
  kept : Table String Value
  records : Array Record
  deriving Inhabited

/-- A piece of a session that ends with a result or is stopped by a fault. -/
abbrev Turn := EStateM Fault Session

namespace Session

def empty (make : Nat → Memory := Memory.recency) : Session :=
  ⟨make, .empty, #[], .empty, .empty, #[]⟩

/-- The heap of the session. -/
def heap (s : Session) : Heap := s.store.heap

/-- The session after some work on its heap. -/
def after (s : Session) (w : Workplace) : Session :=
  { s with store := { s.store with heap := w.heap }, records := w.records }

/-- The session with the parser of a family replaced. -/
def withParser (s : Session) (family : Nat) (parser : Parser) : Session :=
  { s with families := s.families.modify family fun shared ↦ { shared with parser := parser } }

end Session

namespace Turn

/-- Does work that reads its paths with parsers of its own. -/
def scanAlone {α : Type} (work : Scan α) : Turn α := fun s ↦
  match work ⟨s.heap, .new 0 s.make, s.records⟩ with
  | .ok a w => .ok a (s.after w)
  | .error e w => .error e (s.after w)

/-- Does work with the settings and the parser of a family. -/
def scan {α : Type} (family : Nat) (work : Config → Scan α) : Turn α := fun s ↦
  let shared := s.families[family]?.getD default
  match work shared.config ⟨s.heap, shared.parser, s.records⟩ with
  | .ok a w => .ok a ((s.after w).withParser family w.parser)
  | .error e w => .error e ((s.after w).withParser family w.parser)

/-- Looks at the heap. -/
def inspect {α : Type} (look : Heap → Except Fault α) : Turn α :=
  scanAlone (Scan.inspect look)

/-- Changes the heap. -/
def edit (change : Heap → Except Fault Heap) : Turn Unit :=
  scanAlone (Scan.edit change)

/-- Builds the value of a literal. -/
def place (literal : Literal) : Turn Value := fun s ↦
  match literal.place s.kept.find? s.store with
  | .ok (v, store) => .ok v { s with store := store }
  | .error (.unknownName name) => .error (.unknownName name) s
  | .error (.notKey type) => .error (.edit (.notKey type)) s

/-- Builds the key of a literal. -/
def placeKey (literal : Literal) : Turn Key := do
  let v ← place literal
  inspect fun h ↦ (h.keyOf v).mapError fun type ↦ .edit (.notKey type)

/-- The value kept under a name. -/
def kept (name : String) : Turn Value := fun s ↦
  match s.kept.find? name with
  | some v => .ok v s
  | none => .error (.unknownName name) s

/-- The scanner under a name. -/
def member (name : String) : Turn Member := fun s ↦
  match s.scanners.find? name with
  | some member => .ok member s
  | none => .error (.unknownName name) s

/-- Keeps a value under a name. -/
def keepAs (name : String) (v : Value) : Turn Unit :=
  modify fun s ↦ { s with kept := s.kept.put name v }

/-- Knows a scanner by a name. -/
def nameScanner (name : String) (member : Member) : Turn Unit :=
  modify fun s ↦ { s with scanners := s.scanners.put name member }

/-- Settings of a caller. -/
def config (settings : Settings) : Turn Config :=
  match Config.ofSettings settings with
  | .ok config => pure config
  | .error fault => throw (.setting fault)

/-- A value written out. -/
def describe (v : Value) : Turn Literal :=
  inspect fun h ↦ .ok (h.describe v)

/-- Answers with a value, which is kept if a name for it is given. -/
def answer (keep : Option String) (v : Value) : Turn Answer := do
  if let some name := keep then keepAs name v
  return .value (← describe v)

end Turn

end DottedPath
