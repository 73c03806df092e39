import DottedPath.Fault
import DottedPath.Path.Parser
import DottedPath.Record

/-!
# The work of a scanner

A scan works on a heap, reads the steps of its paths through a parser and notes what it does. What
it has changed when a fault stops it stays changed.

The scans of this library are built from five elements: reading a step (`Scan.parse`), looking at
the heap (`Scan.inspect`), changing it (`Scan.edit`), adding a cell (`Scan.alloc`) and writing a
record (`Scan.note`). Of these only the first uses the parser, and what it reads does not depend on
what the parser remembers (`Scan.parse_of_ok`, `Scan.parse_of_error`).
-/

set_option autoImplicit false
set_option relaxedAutoImplicit false

namespace DottedPath

/-- What a scan works on. -/
structure Workplace where
  heap : Heap
  parser : Parser
  records : Array Record
  deriving Inhabited

/-- A piece of work that ends with a result or is stopped by a fault. -/
abbrev Scan := EStateM Fault Workplace

namespace Scan

/-- Reads the first step of a path through the parser. -/
def parse (path : String) : Scan { step : Step // Step.decode path = .ok step } := fun w ↦
  match w.parser.parse path with
  | (answer, parser) =>
    let records := if answer.noted then w.records.push (.parsing path) else w.records
    match answer.reading with
    | .ok ⟨reading, hpath⟩ =>
      .ok ⟨reading.step, hpath ▸ reading.decoded⟩ { w with parser := parser, records := records }
    | .error e => .error (.numeral e) { w with parser := parser, records := records }

/-- What reading a step leaves of a workplace: the parser has been used, and has noted the path if
it has a memory and did not find the path there. -/
def afterParse (w : Workplace) (path : String) : Workplace where
  heap := w.heap
  parser := (w.parser.parse path).2
  records :=
    if (w.parser.parse path).1.noted then w.records.push (.parsing path) else w.records

/-- Whatever the parser remembers, the step read is the first step of the path. -/
theorem parse_of_ok {path : String} {step : Step} (h : Step.decode path = .ok step)
    (w : Workplace) : parse path w = .ok ⟨step, h⟩ (afterParse w path) := by
  have hstep := w.parser.map_step_parse path
  rw [h] at hstep
  simp only [parse, afterParse]
  split
  · next reading hpath heq =>
    rw [heq] at hstep
    obtain rfl : reading.step = step := Except.ok.inj hstep
    rfl
  · next e heq =>
    rw [heq] at hstep
    cases hstep

theorem parse_of_error {path : String} {e : LongNumeral} (h : Step.decode path = .error e)
    (w : Workplace) : parse path w = .error (.numeral e) (afterParse w path) := by
  have hstep := w.parser.map_step_parse path
  rw [h] at hstep
  simp only [parse, afterParse]
  split
  · next reading hpath heq =>
    rw [heq] at hstep
    cases hstep
  · next e' heq =>
    rw [heq] at hstep
    obtain rfl : e' = e := Except.error.inj hstep
    rfl

/-- Looks at the heap. -/
def inspect {α : Type} (look : Heap → Except Fault α) : Scan α := fun w ↦
  match look w.heap with
  | .ok a => .ok a w
  | .error e => .error e w

/-- Changes the heap. -/
def edit (change : Heap → Except Fault Heap) : Scan Unit := fun w ↦
  match change w.heap with
  | .ok heap => .ok () { w with heap := heap }
  | .error e => .error e w

/-- Adds a cell. -/
def alloc (c : Cell) : Scan Ref := fun w ↦
  .ok w.heap.size { w with heap := w.heap.alloc c }

/-- Writes a record. -/
def note (record : Record) : Scan Unit := fun w ↦
  .ok () { w with records := w.records.push record }

/-- Does some work with a parser of its own, whose memory is of the same make. -/
def afresh {α : Type} (config : Config) (work : Scan α) : Scan α := fun w ↦
  match work { w with parser := w.parser.fresh config.cacheSize } with
  | .ok a w' => .ok a { w' with parser := w.parser }
  | .error e w' => .error e { w' with parser := w.parser }

end Scan

end DottedPath
