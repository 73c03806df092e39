import DottedPath.Path.Memory

/-!
# Reading steps with a memory

A parser keeps the steps that it has read in a memory, by the untrimmed texts of their paths. A path
that is not found there is read anew and stored; one whose numeral is too long is not stored. A parser
of capacity zero has no memory.

A reading carries the proof that it is of the first step of its path, so a parser answers as
`Step.decode` does whatever its memory holds (`map_step_parse`). Each step read anew is an object of
its own, told apart by the time on the parser's clock at which it was read.
-/

set_option autoImplicit false
set_option relaxedAutoImplicit false

namespace DottedPath

/-- A memory of a given make and capacity with its state, and a clock that counts the uses. -/
structure Parser where
  make : Nat → Memory
  capacity : Nat
  readings : List Reading
  clock : Nat

namespace Parser

/-- A parser that has read nothing. -/
def new (capacity : Nat) (make : Nat → Memory := Memory.recency) : Parser := ⟨make, capacity, [], 0⟩

/-- A parser that has read nothing, with a memory of the same make. -/
def fresh (p : Parser) (capacity : Nat) : Parser := new capacity p.make

/-- A parser for a memory of some size. A size below zero is as good as zero. -/
def ofSize (size : Int) : Parser := new size.toNat

instance : Inhabited Parser := ⟨new 0⟩

/-- The memory of the parser. -/
def memory? (p : Parser) : Option Memory :=
  if 0 < p.capacity then some (p.make p.capacity) else none

/-- The number of steps in the memory. -/
def size (p : Parser) : Nat :=
  match p.memory? with
  | none => 0
  | some m => m.size p.readings

/-- The remembered reading of a path. -/
def remembered? (p : Parser) (path : String) : Option Reading :=
  p.memory?.bind fun m ↦ m.get? p.readings path

/-- The parser after a use that leaves its memory in some state. -/
def used (p : Parser) (readings : List Reading) : Parser :=
  { p with readings := readings, clock := p.clock + 1 }

/-- The first step of a path, and whether the parser has a memory and did not find the path in it,
which is noted even when the numeral turns out to be too long. -/
structure Answer (path : String) where
  reading : Except LongNumeral { reading : Reading // reading.path = path }
  noted : Bool

/-- Reads the first step of a path, or finds it in the memory. -/
def parse (p : Parser) (path : String) : Answer path × Parser :=
  match p.memory? with
  | none => (⟨Reading.anew p.clock path, false⟩, p.used p.readings)
  | some m =>
    let looked := m.touch p.readings path
    match hfound : m.get? p.readings path with
    | some reading => (⟨.ok ⟨reading, m.path_of_get? hfound⟩, false⟩, p.used looked)
    | none =>
      match Reading.anew p.clock path with
      | .error e => (⟨.error e, true⟩, p.used looked)
      | .ok reading => (⟨.ok reading, true⟩, p.used (m.assign looked reading.1))

/-- Whatever a parser remembers, it answers with the first step of the path. -/
theorem map_step_parse (p : Parser) (path : String) :
    (p.parse path).1.reading.map (fun reading ↦ reading.1.step) = Step.decode path := by
  have hanew := Reading.map_step_anew p.clock path
  unfold parse
  split
  · rw [← hanew]
  · next m hmemory =>
    dsimp only
    split
    · next reading hfound =>
      have hdecoded := reading.decoded
      rw [m.path_of_get? hfound] at hdecoded
      rw [hdecoded, Except.map]
    · split
      · next e he => rw [← hanew, he]
      · next reading hreading => rw [← hanew, hreading]

/-- Forgets everything. -/
def clear (p : Parser) : Parser :=
  match p.memory? with
  | none => p.used p.readings
  | some m => p.used (m.clear p.readings)

/-! ### Runs of a parser -/

/-- A use of a parser: reading a path, or forgetting everything when there is none. -/
abbrev Use := Option String

/-- What a parser shows after a use: the step read and the time of its reading, or nothing, or the
numeral that was too long. -/
structure Shown where
  outcome : Except LongNumeral (Option (Step × Nat))
  size : Nat
  deriving Inhabited

/-- One use of a parser. -/
def use (p : Parser) : Use → Shown × Parser
  | none => (⟨.ok none, p.clear.size⟩, p.clear)
  | some path =>
    match p.parse path with
    | (answer, p) =>
      match answer.reading with
      | .ok reading => (⟨.ok (some (reading.1.step, reading.1.time)), p.size⟩, p)
      | .error e => (⟨.error e, p.size⟩, p)

/-- What a parser shows after each of some uses. -/
def run (p : Parser) : List Use → List Shown
  | [] => []
  | u :: us => (p.use u).1 :: run (p.use u).2 us

end Parser

end DottedPath
