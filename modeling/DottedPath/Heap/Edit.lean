import DottedPath.Fault

/-!
# Changing a container

The changes of single cells that can be refused: a read-only mapping is never changed, and a list
cannot be padded beyond what it can hold. The second part are the edits that a caller makes in a
container at hand, by a key or by an index, which counts from the end when it is negative.
-/

set_option autoImplicit false
set_option relaxedAutoImplicit false

namespace DottedPath.Heap

/-- The heap with a value put under a key of a mapping, unless the mapping is read-only. -/
def assign (h : Heap) (r : Ref) (key : Key) (v : Value) : Except Fault Heap :=
  if h.isReadOnly r then .error (.refused .assignment)
  else .ok (h.mapEntries r fun entries ↦ entries.put key v)

/-- The heap with a key of a mapping removed, unless the mapping is read-only. -/
def delete (h : Heap) (r : Ref) (key : Key) : Except Fault Heap :=
  if h.isReadOnly r then .error (.refused .deletion)
  else .ok (h.mapEntries r fun entries ↦ entries.erase key)

/-- The greatest number of nulls that can be asked for at once: one less than `2 ^ 63`. -/
def greatestPadding : Nat := 0x7FFFFFFFFFFFFFFF

/-- The number of nulls for which there is no room: `2 ^ 60`. -/
def tooMuchPadding : Nat := 0x1000000000000000

/-- The heap with an item of a list replaced, or added behind as many nulls as it takes. -/
def putItem (h : Heap) (list : Ref) (n : Nat) (v : Value) : Except Fault Heap :=
  let size := (h.items list).length
  if n < size then .ok (h.mapItems list fun items ↦ items.set n v)
  else if greatestPadding < n - size then .error (.padding .noSuchSize)
  else if tooMuchPadding ≤ n - size then .error (.padding .noRoom)
  else .ok (h.mapItems list fun items ↦ items ++ List.replicate (n - size) .null ++ [v])

/-! ### A caller's edits -/

/-- The place of an index, which counts from the end when it is negative. -/
def index? (size : Nat) (n : Int) : Option Nat :=
  let m := if n < 0 then n + size else n
  if 0 ≤ m ∧ m < size then some m.toNat else none

/-- Refuses an index that no size can reach. -/
def checkIndex (n : Int) : Except Fault Unit :=
  if -(greatestPadding : Int) - 1 ≤ n ∧ n ≤ greatestPadding then .ok ()
  else .error (.edit .indexBeyondSizes)

/-- The place that a key names in a sequence of some size. -/
def placeIn (size : Nat) (use : IndexUse) : Key → Except Fault Nat
  | .integer n => do
    checkIndex n
    match index? size n with
    | some i => return i
    | none => throw (.edit (.outOfRange use))
  | key => .error (.edit (.notIndex use key.type))

/-- The item that a key names in a sequence. -/
def itemOf {α : Type} (items : List α) (use : IndexUse) (key : Key) : Except Fault α := do
  match items[← placeIn items.length use key]? with
  | some item => return item
  | none => throw (.edit (.outOfRange use))

/-- Whether a value that cannot be changed is taken for a sequence, so that an index is looked at
before the change is refused. Texts, bytes and tuples are sequences; handles and read-only mappings
are taken for such. -/
def isFixedSequence (h : Heap) (v : Value) : Bool :=
  match h.typeOf v with
  | .text | .bytes | .tuple | .handle | .mapping .readOnly => true
  | _ => false

/-- What stands in the way of a change at a key of a value that has no such changes: an index that
no size can reach, where an index is looked at, or the value itself. -/
def refuseAt (h : Heap) (v : Value) (refusal : ValueType → Bool → EditFault) (key : Key) :
    Except Fault Heap :=
  match h.isFixedSequence v, key with
  | true, .integer n => do
    checkIndex n
    throw (.edit (refusal (h.typeOf v) true))
  | _, _ => .error (.edit (refusal (h.typeOf v) false))

/-- The value under a key of a mapping, or at an index of a sequence. -/
def itemAt (h : Heap) (v : Value) (key : Key) : Except Fault Value :=
  match v with
  | .text s => (itemOf s.toList .textItem key).map fun c ↦ .text (String.singleton c)
  | .bytes bs => (itemOf bs .byteItem key).map fun b ↦ .integer b.toNat
  | .object r =>
    match h.get? r with
    | some (.mapping _ entries) =>
      match entries.find? key with
      | some item => .ok item
      | none => .error (.edit (.absentKey key))
    | some (.list items) => itemOf items .listItem key
    | some (.tuple items) => itemOf items .tupleItem key
    | _ => .error (.edit (.noItems (h.typeOf v)))
  | v => .error (.edit (.noItems (h.typeOf v)))

/-- The heap with a value put under a key of a mapping or at an index of a list. -/
def putAt (h : Heap) (v : Value) (key : Key) (new : Value) : Except Fault Heap :=
  match h.node v with
  | .mapping _ .readOnly _ => h.refuseAt v (fun type _ ↦ .noAssignment type) key
  | .mapping r _ _ => h.assign r key new
  | .list r items => do
    let i ← placeIn items.length .listChange key
    return h.mapItems r fun items ↦ items.set i new
  | .scalar => h.refuseAt v (fun type _ ↦ .noAssignment type) key

/-- The heap with a value appended to a list. -/
def pushTo (h : Heap) (v new : Value) : Except Fault Heap :=
  match h.node v with
  | .list r _ => .ok (h.mapItems r fun items ↦ items ++ [new])
  | _ => .error (.edit (.noAppending (h.typeOf v)))

/-- The heap with a key of a mapping or an item of a list removed. -/
def deleteAt (h : Heap) (v : Value) (key : Key) : Except Fault Heap :=
  match h.node v with
  | .mapping _ .readOnly _ => h.refuseAt v .noDeletion key
  | .mapping r _ entries =>
    if entries.find? key = none then .error (.edit (.absentKey key)) else h.delete r key
  | .list r items => do
    let i ← placeIn items.length .listChange key
    return h.mapItems r fun items ↦ items.eraseIdx i
  | .scalar => h.refuseAt v .noDeletion key

/-- The heap with one added to the count of a handle. -/
def countUp (h : Heap) (r : Ref) : Heap :=
  match h.get? r with
  | some (.handle name count) => h.write r (.handle name (count + 1))
  | _ => h

end DottedPath.Heap
