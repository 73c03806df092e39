import DottedPath.Text.Blank

/-!
# Steps of a path

A dotted path is read one step at a time. A step is the trimmed text up to the first point, and the
rest of the path is the trimmed text behind it, unless that is blank. A step written `name[digits]`
or `name[]`, with a name that is not empty and holds no opening bracket, addresses a list; every
other step is the name of a key as it stands. Digits are the ASCII ones, and at most `maxDigits` of
them make a numeral.

Main statements. The rest of a path is shorter than the path (`length_rest_lt`), which is why a walk
along a path ends, and it is trimmed and not empty (`trim_rest`, `rest_ne_nil`).
-/

set_option autoImplicit false
set_option relaxedAutoImplicit false

namespace DottedPath

/-- Where a step leads below its key: to the value itself, to an item of the list there, or to all
items of the list there. -/
inductive Place
  | key
  | item (index : Nat)
  | every
  deriving DecidableEq, Inhabited

/-- A step of a path, with the trimmed text of the path from this step on, and the text of the path
behind this step if there is any. -/
structure Step where
  text : String
  name : String
  place : Place
  rest : Option String
  deriving DecidableEq, Inhabited

/-- The kinds of step. -/
inductive StepKind
  | scalar
  | mapField
  | listField
  deriving DecidableEq, Inhabited

/-- A numeral with too many digits, by their number. -/
structure LongNumeral where
  digits : Nat
  deriving DecidableEq, Inhabited

namespace StepKind

def label : StepKind → String
  | scalar => "scalar"
  | mapField => "map_field"
  | listField => "list_field"

def all : List StepKind := [scalar, mapField, listField]

end StepKind

namespace Step

/-- How the step addresses the value under its key. -/
def kind (step : Step) : StepKind :=
  match step.place with
  | .key => if step.rest.isSome then .mapField else .scalar
  | _ => .listField

/-- The index of a list item. -/
def index? (step : Step) : Option Nat :=
  match step.place with
  | .item n => some n
  | _ => none

/-- Whether no step follows. -/
def isLast (step : Step) : Bool := step.rest.isNone

/-- The name of the step, with the index if it has one. -/
def label (step : Step) : String :=
  match step.place with
  | .item n => step.name ++ "[" ++ toString n ++ "]"
  | _ => step.name

/-! ### Reading a step -/

/-- The greatest number of digits in a numeral. -/
def maxDigits : Nat := 4300

/-- The number that decimal digits write. -/
def number (digits : List Char) : Nat :=
  digits.foldl (fun n c ↦ 10 * n + (c.toNat - '0'.toNat)) 0

/-- The text up to the first point, trimmed. -/
def headText (cs : List Char) : List Char :=
  Text.trim (cs.takeWhile (· ≠ '.'))

/-- The text behind the first point, trimmed. -/
def restText (cs : List Char) : List Char :=
  Text.trim ((cs.dropWhile (· ≠ '.')).drop 1)

/-- The name and the digits of a text `name[digits]`. -/
def subscript? (head : List Char) : Option (List Char × List Char) :=
  let name := head.takeWhile (· ≠ '[')
  let digits := ((head.dropWhile (· ≠ '[')).drop 1).takeWhile Char.isDigit
  if name ≠ [] ∧ head = name ++ '[' :: digits ++ [']'] then some (name, digits) else none

/-- The name and the place that the text of a step writes. -/
def target (head : List Char) : Except LongNumeral (String × Place) :=
  match subscript? head with
  | none => .ok (String.ofList head, .key)
  | some (name, []) => .ok (String.ofList name, .every)
  | some (name, digits) =>
    if maxDigits < digits.length then .error ⟨digits.length⟩
    else .ok (String.ofList name, .item (number digits))

/-- The rest of a path, given its characters, unless there is none. -/
def rest? : List Char → Option String
  | [] => none
  | cs => some (String.ofList cs)

/-- The first step of a path. -/
def decode (path : String) : Except LongNumeral Step :=
  let text := Text.trim path.toList
  match target (headText text) with
  | .error e => .error e
  | .ok (name, place) => .ok ⟨String.ofList text, name, place, rest? (restText text)⟩

/-! ### What a step says about its path -/

theorem text_of_decode {path : String} {step : Step} (h : decode path = .ok step) :
    step.text = Text.trimmed path := by
  simp only [decode] at h
  split at h
  · simp at h
  · obtain rfl := Except.ok.inj h
    rfl

theorem toList_rest {path rest : String} {step : Step} (h : decode path = .ok step)
    (hrest : step.rest = some rest) :
    rest.toList = restText (Text.trim path.toList) ∧ rest.toList ≠ [] := by
  simp only [decode] at h
  split at h
  · simp at h
  · obtain rfl := Except.ok.inj h
    simp only [rest?] at hrest
    split at hrest
    · simp at hrest
    · next hne =>
      obtain rfl := Option.some.inj hrest
      exact ⟨String.toList_ofList, by simpa using hne⟩

theorem trim_rest {path rest : String} {step : Step} (h : decode path = .ok step)
    (hrest : step.rest = some rest) : Text.trim rest.toList = rest.toList := by
  rw [(toList_rest h hrest).1, restText, Text.trim_trim]

theorem rest_ne_nil {path rest : String} {step : Step} (h : decode path = .ok step)
    (hrest : step.rest = some rest) : rest.toList ≠ [] :=
  (toList_rest h hrest).2

theorem length_restText_lt {cs : List Char} (h : restText cs ≠ []) :
    (restText cs).length < cs.length := by
  have hdrop : (cs.dropWhile (· ≠ '.')).length ≤ cs.length :=
    (List.dropWhile_sublist _).length_le
  have hrest := Text.length_trim_le ((cs.dropWhile (· ≠ '.')).drop 1)
  rw [List.length_drop] at hrest
  have hpos : 0 < (restText cs).length := List.length_pos_iff.2 h
  have heq : (restText cs).length = (Text.trim ((cs.dropWhile (· ≠ '.')).drop 1)).length := rfl
  omega

/-- The rest of a path is shorter than the path. -/
theorem length_rest_lt {path rest : String} {step : Step} (h : decode path = .ok step)
    (hrest : step.rest = some rest) : rest.length < path.length := by
  obtain ⟨heq, hne⟩ := toList_rest h hrest
  have hlt := length_restText_lt (heq ▸ hne)
  have htrim := Text.length_trim_le path.toList
  rw [← heq] at hlt
  simp only [← String.length_toList]
  omega

end Step

end DottedPath
