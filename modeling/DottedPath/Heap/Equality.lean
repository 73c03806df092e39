import DottedPath.Heap.Basic

/-!
# Equality of values

Numbers are equal as exact numbers, whatever their types, a boolean counting as zero or one. Lists
are equal to lists and tuples to tuples, item by item. Mappings are equal when they have the same
keys with equal values, in any order; only two ordered mappings must have their keys in the same
order. A handle is equal to itself alone. Items and values of mappings that are the same object are
equal without a look, which matters for not-a-number.
-/

set_option autoImplicit false
set_option relaxedAutoImplicit false

namespace DottedPath

namespace Value

/-- The integer that a value is, a boolean counting as zero or one. -/
def asInt? : Value → Option Int
  | .boolean b => some (if b then 1 else 0)
  | .integer n => some n
  | _ => none

/-- Equality of plain data. -/
def equalPlain (v w : Value) : Bool :=
  match v.asInt?, w.asInt?, v, w with
  | some m, some n, _, _ => m == n
  | some m, none, _, .real y => y.eqInt m
  | none, some n, .real x, _ => x.eqInt n
  | _, _, .real x, .real y => x.eq y
  | _, _, _, _ => v == w

end Value

namespace Heap

/-- Equality of values, by a descent of at most `depth` containers. -/
def equalWithin (h : Heap) : Nat → Value → Value → Bool
  | 0, _, _ => false
  | depth + 1, .object r, .object s =>
    let equalItem (v w : Value) : Bool := h.same v w || equalWithin h depth v w
    let equalItems (vs ws : List Value) : Bool :=
      vs.length == ws.length && (vs.zip ws).all fun pair ↦ equalItem pair.1 pair.2
    match h.get? r, h.get? s with
    | some (.mapping kind entries), some (.mapping kind' entries') =>
      entries.size == entries'.size &&
        (entries.entries.all fun entry ↦
          match entries'.find? entry.1 with
          | some w => equalItem entry.2 w
          | none => false) &&
        (kind != .ordered || kind' != .ordered || entries.keys == entries'.keys)
    | some (.list items), some (.list items') => equalItems items items'
    | some (.tuple items), some (.tuple items') => equalItems items items'
    | some (.handle _ _), some (.handle _ _) => r == s
    | _, _ => false
  | _ + 1, v, w => v.equalPlain w

/-- Equality of values. -/
def equal (h : Heap) (v w : Value) : Bool :=
  h.equalWithin (h.size + 1) v w

end Heap

end DottedPath
