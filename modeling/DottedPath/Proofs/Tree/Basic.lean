import DottedPath.Proofs.Heap.Slot

/-!
# Trees

A tree is a value together with all that it holds: a mapping has its entries in order, a list its
items, and every other value is a leaf. Trees have no identity and are not changed; what is looked
for, put and removed at a slot of a tree is the same as at a slot of a container.
-/

set_option autoImplicit false
set_option relaxedAutoImplicit false

namespace DottedPath

/-- A value with all that it holds. -/
inductive Tree
  | leaf (v : Value)
  | list (items : List Tree)
  | mapping (entries : List (Key × Tree))
  deriving Inhabited

namespace Tree

def null : Tree := leaf .null

/-- The kind of node that a tree is. -/
def kind : Tree → NodeKind
  | leaf _ => .scalar
  | list _ => .list
  | mapping _ => .mapping

theorem exists_of_kind_eq_list {t : Tree} (h : t.kind = .list) : ∃ items, t = list items := by
  cases t with
  | list items => exact ⟨items, rfl⟩
  | leaf _ | mapping _ => cases h

theorem exists_of_kind_eq_mapping {t : Tree} (h : t.kind = .mapping) :
    ∃ entries, t = mapping entries := by
  cases t with
  | mapping entries => exact ⟨entries, rfl⟩
  | leaf _ | list _ => cases h

/-- The tree in a slot. -/
def slot? : Tree → Slot → Option Tree
  | mapping entries, .field name => Table.findFirst? entries (.text name)
  | list items, .index n => items[n]?
  | _, _ => none

/-- The tree with another one in a slot: in the place of a key that is there or behind all keys, in
the place of an item that is there or behind as many nulls as it takes. -/
def put : Tree → Slot → Tree → Tree
  | mapping entries, .field name, t => mapping (Table.putEntry entries (.text name) t)
  | list items, .index n, t =>
    list (if n < items.length then items.set n t
      else items ++ List.replicate (n - items.length) null ++ [t])
  | list items, .next, t => list (items ++ [t])
  | t, _, _ => t

/-- The tree without what is in a slot. -/
def erase : Tree → Slot → Tree
  | mapping entries, .field name => mapping (Table.eraseEntry entries (.text name))
  | list items, .index n => list (items.eraseIdx n)
  | t, _ => t

/-- The node with nothing in it that has slots such as this one. -/
def blank : Slot → Tree
  | .field _ => mapping []
  | .index _ => list []
  | .next => list []

end Tree

end DottedPath
