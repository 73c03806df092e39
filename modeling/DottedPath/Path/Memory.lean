import DottedPath.Path.Step

/-!
# Memories for readings

A parser keeps what it has read in a memory, which is not of its own making: it looks a path up, it
stores a reading under its path, and it has everything forgotten, and how the memory goes about this
is the memory's business. So a memory is a parameter here, the functions by which it answers and
changes its state. All that reading a path takes for granted is that what a memory holds under a path
was read from this path (`Memory.path_of_get?`).

`Memory.recency` is a memory with room for some readings, in which the one that has gone unused for
longest makes way for a new one.
-/

set_option autoImplicit false
set_option relaxedAutoImplicit false

namespace DottedPath

/-- A step that was read from a path, and the time of the reading. -/
structure Reading where
  path : String
  step : Step
  time : Nat
  decoded : Step.decode path = .ok step

/-- Reads the first step of a path. -/
def Reading.anew (time : Nat) (path : String) :
    Except LongNumeral { reading : Reading // reading.path = path } :=
  match hdecode : Step.decode path with
  | .error e => .error e
  | .ok step => .ok ⟨⟨path, step, time, hdecode⟩, rfl⟩

theorem Reading.map_step_anew (time : Nat) (path : String) :
    (Reading.anew time path).map (fun reading ↦ reading.1.step) = Step.decode path := by
  unfold anew
  split
  · next e hdecode => exact hdecode.symm
  · next step hdecode => exact hdecode.symm

/-- A memory for readings under their paths. Its state is the readings in it, which it may arrange as
it likes; a new memory holds none. A function `touch` says what becomes of the state when a path is
looked up. -/
structure Memory where
  get? : List Reading → String → Option Reading
  touch : List Reading → String → List Reading
  assign : List Reading → Reading → List Reading
  clear : List Reading → List Reading
  size : List Reading → Nat
  path_of_get? : ∀ {readings : List Reading} {path : String} {reading : Reading},
    get? readings path = some reading → reading.path = path

namespace Memory

/-- The readings with a given one in front, as many as there is room for. -/
def keep (capacity : Nat) (readings : List Reading) (reading : Reading) : List Reading :=
  (reading :: readings.filter fun other ↦ other.path ≠ reading.path).take capacity

/-- The readings with the one of a path in front, if there is one. -/
def renew (capacity : Nat) (readings : List Reading) (path : String) : List Reading :=
  match readings.find? fun reading ↦ reading.path = path with
  | some reading => keep capacity readings reading
  | none => readings

/-- A memory with room for some readings, the last used one first. -/
def recency (capacity : Nat) : Memory where
  get? readings path := readings.find? fun reading ↦ reading.path = path
  touch := renew capacity
  assign := keep capacity
  clear _ := []
  size := List.length
  path_of_get? h := by simpa using List.find?_some h

instance : Inhabited Memory := ⟨recency 0⟩

end Memory

end DottedPath
