import DottedPath.Heap.Edit
import DottedPath.Heap.Shape
import DottedPath.Proofs.Path.Hops
import Mathlib.Tactic.Basic

/-!
# Slots of containers

A slot is a place in a container where a value can stand: under a text key of a mapping, at an index
of a list, or behind the last item of a list. A hop is one slot or two: the key, and the place in the
list under the key. A path therefore denotes a list of slots (`Path.slots`), each of which is looked
for in the container that the one before it holds.

Filling a slot is the only change that a write makes in a container. `get?_fill` says what it does to
the heap: the one cell is replaced by `Cell.put`, and every other cell stays as it is. A slot that
already holds the value is filled without any change (`eq_of_fill_self`). A container refuses a value
when it is a read-only mapping, or a list that is too short for the index (`exists_fill_iff`).
-/

set_option autoImplicit false
set_option relaxedAutoImplicit false

namespace DottedPath

/-- A place in a container: under a key of a mapping, at an index of a list, or behind the last item
of a list. -/
inductive Slot
  | field (name : String)
  | index (n : Nat)
  | next
  deriving DecidableEq, Inhabited

/-- The slot in the list under the key of a step, if the step has one. -/
def Place.slot? : Place → Option Slot
  | .key => none
  | .item n => some (.index n)
  | .every => some .next

theorem Place.slot?_eq_none_iff {place : Place} : place.slot? = none ↔ place = .key := by
  cases place <;> simp [slot?]

/-- The slots of a hop: the key, and the place in the list under the key. -/
def Hop.slots (hop : Hop) : List Slot := .field hop.name :: hop.place.slot?.toList

theorem Step.slots_of_key {step : Step} (hplace : step.place = .key) :
    step.hop.slots = [.field step.name] := by
  rw [Hop.slots, hop, hplace]
  rfl

theorem Step.slots_of_slot? {step : Step} {slot : Slot} (hslot : step.place.slot? = some slot) :
    step.hop.slots = [.field step.name, slot] := by
  rw [Hop.slots, hop, hslot]
  rfl

theorem Step.slots_of_item {step : Step} {n : Nat} (hplace : step.place = .item n) :
    step.hop.slots = [.field step.name, .index n] :=
  slots_of_slot? (hplace ▸ rfl : step.place.slot? = some (.index n))

theorem Step.slots_of_every {step : Step} (hplace : step.place = .every) :
    step.hop.slots = [.field step.name, .next] :=
  slots_of_slot? (hplace ▸ rfl : step.place.slot? = some .next)

/-- The slots of a path, from the root mapping to the one at its end. -/
def Path.slots (path : String) : List Slot := (hops path).flatMap Hop.slots

theorem Path.slots_of_last {path : String} {step : Step} (h : Step.decode path = .ok step)
    (hrest : step.rest = none) : slots path = step.hop.slots := by
  simp [slots, hops_of_last h hrest]

theorem Path.slots_of_more {path rest : String} {step : Step} (h : Step.decode path = .ok step)
    (hrest : step.rest = some rest) : slots path = step.hop.slots ++ slots rest := by
  simp [slots, hops_of_more h hrest]

/-- Every path has a hop. -/
theorem Path.hops_ne_nil (path : String) : hops path ≠ [] := by
  have hparts : (path.toList.splitOn '.').map Text.trim ≠ [] := by simp
  simp only [hops, parts, partsOf, ne_eq, List.map_eq_nil_iff]
  split
  · next hlong =>
    intro hnil
    have hlength := congrArg List.length hnil
    simp only [List.length_dropLast, List.length_nil] at hlength
    omega
  · exact hparts

/-- Every path starts at a key of the root mapping. -/
theorem Path.exists_slots_eq (path : String) :
    ∃ name slots', slots path = .field name :: slots' := by
  obtain ⟨hop, rest, hhops⟩ := List.exists_cons_of_ne_nil (hops_ne_nil path)
  exact ⟨hop.name, hop.place.slot?.toList ++ rest.flatMap Hop.slots, by simp [slots, hhops, Hop.slots]⟩

/-! ### Slots of a cell -/

namespace Slot

/-- The cell of a new container with this slot for its first one. -/
def blank : Slot → Cell
  | field _ => .mapping .plain .empty
  | index _ => .list []
  | next => .list []

/-- The slots that a container can have: keys in a mapping, the others in a list. -/
def Suits : Slot → Cell → Prop
  | field _, .mapping _ _ => True
  | index _, .list _ => True
  | next, .list _ => True
  | _, _ => False

theorem suits_blank (s : Slot) : s.Suits s.blank := by
  cases s <;> trivial

end Slot

/-- What a place has in a list is a slot of lists. -/
theorem Place.of_slot? {place : Place} {s : Slot} (hplace : place.slot? = some s) :
    s.blank = .list [] ∧ ∀ items, s.Suits (.list items) := by
  cases place <;> simp [slot?] at hplace <;> subst hplace <;> exact ⟨rfl, fun _ ↦ trivial⟩

namespace Cell

/-- The value in a slot. -/
def slot? : Cell → Slot → Option Value
  | mapping _ entries, .field name => entries.find? (.text name)
  | list items, .index n => items[n]?
  | _, _ => none

/-- The cell with a value in a slot: in the place of a key that is there or behind all keys, in the
place of an item that is there or behind as many nulls as it takes. -/
def put : Cell → Slot → Value → Cell
  | mapping kind entries, .field name, v => mapping kind (entries.put (.text name) v)
  | list items, .index n, v =>
    list (if n < items.length then items.set n v
      else items ++ List.replicate (n - items.length) .null ++ [v])
  | list items, .next, v => list (items ++ [v])
  | c, _, _ => c

@[simp] theorem slot?_next (c : Cell) : c.slot? .next = none := by
  cases c <;> rfl

@[simp] theorem slot?_blank (s t : Slot) : s.blank.slot? t = none := by
  cases s <;> cases t <;> rfl

theorem suits_of_slot? {c : Cell} {s : Slot} {v : Value} (h : c.slot? s = some v) : s.Suits c := by
  cases c <;> cases s <;> trivial

theorem Suits.put {c : Cell} {s : Slot} (h : s.Suits c) (t : Slot) (v : Value) :
    s.Suits (c.put t v) := by
  cases c <;> cases s <;> cases t <;> trivial

end Cell

theorem Table.entries_put_of_mem {κ α : Type} [DecidableEq κ] {t : Table κ α} {k : κ} {a : α}
    (h : t.find? k = some a) : t.put k a = t := by
  refine Table.ext_entries ?_
  have hentries : ∀ es : List (κ × α), findFirst? es k = some a → putEntry es k a = es := by
    intro es
    induction es with
    | nil => simp [findFirst?]
    | cons e es ih =>
      obtain ⟨k', a'⟩ := e
      intro hfind
      simp only [findFirst?] at hfind
      split at hfind
      · next hkey =>
        obtain rfl := Option.some.inj hfind
        simp [putEntry, hkey]
      · next hkey => simp [putEntry, hkey, ih hfind]
  exact hentries t.entries h

namespace Cell

/-- A slot that holds a value already does not change when the value is put there. -/
theorem put_of_slot? {c : Cell} {s : Slot} {v : Value} (h : c.slot? s = some v) : c.put s v = c := by
  cases c with
  | mapping kind entries =>
    cases s with
    | field name => exact congrArg _ (Table.entries_put_of_mem h)
    | index n | next => simp [slot?] at h
  | list items =>
    cases s with
    | index n =>
      obtain ⟨hlt, hget⟩ := List.getElem?_eq_some_iff.mp h
      simp [put, hlt, ← hget]
    | field name | next => simp [slot?] at h
  | _ => simp [slot?] at h

end Cell

/-! ### Containers at a value -/

theorem exists_of_map_eq_ok {ε α β : Type} {x : Except ε α} {f : α → β} {b : β}
    (h : x.map f = .ok b) : ∃ a, x = .ok a ∧ f a = b := by
  cases x with
  | error e => cases h
  | ok a => exact ⟨a, rfl, Except.ok.inj h⟩

theorem map_eq_error_iff {ε α β : Type} {x : Except ε α} {f : α → β} {e : ε} :
    x.map f = .error e ↔ x = .error e := by
  cases x <;> simp [Except.map]

namespace Heap

section Nodes

variable {h : Heap} {field path : String} {mode : AccessMode} {v : Value} {r : Ref}

theorem of_node_eq_mapping {kind : MappingKind} {entries : Table Key Value}
    (hnode : h.node v = .mapping r kind entries) :
    v = .object r ∧ h.get? r = some (.mapping kind entries) := by
  unfold node at hnode
  split at hnode
  · split at hnode
    · next hget =>
      simp only [Node.mapping.injEq] at hnode
      obtain ⟨rfl, rfl, rfl⟩ := hnode
      exact ⟨rfl, hget⟩
    · cases hnode
    · cases hnode
  · cases hnode

theorem of_node_eq_list {items : List Value} (hnode : h.node v = .list r items) :
    v = .object r ∧ h.get? r = some (.list items) := by
  unfold node at hnode
  split at hnode
  · split at hnode
    · cases hnode
    · next hget =>
      simp only [Node.list.injEq] at hnode
      obtain ⟨rfl, rfl⟩ := hnode
      exact ⟨rfl, hget⟩
    · cases hnode
  · cases hnode

theorem of_asMapping (hmapping : h.asMapping field path mode v = .ok r) :
    v = .object r ∧ ∃ kind entries, h.get? r = some (.mapping kind entries) := by
  unfold asMapping at hmapping
  split at hmapping
  · next hnode =>
    obtain rfl := Except.ok.inj hmapping
    exact ⟨(of_node_eq_mapping hnode).1, _, _, (of_node_eq_mapping hnode).2⟩
  · cases hmapping

theorem of_asList {list : Ref × List Value} (hlist : h.asList field path mode v = .ok list) :
    v = .object list.1 ∧ h.get? list.1 = some (.list list.2) := by
  unfold asList at hlist
  split at hlist
  · next hnode =>
    obtain rfl := Except.ok.inj hlist
    exact of_node_eq_list hnode
  · cases hlist

/-- What is insisted on as a mapping and is none is a fault, and there is no other. -/
theorem asMapping_eq_error_iff {e : Fault} :
    h.asMapping field path mode v = .error e ↔
      h.kindOf v ≠ .mapping ∧ e = .shape ⟨field, path, .shape .mapping, v, mode⟩ := by
  unfold asMapping kindOf
  cases h.node v <;> simp [eq_comm]

/-- What is insisted on as a list and is none is a fault, and there is no other. -/
theorem asList_eq_error_iff {e : Fault} :
    h.asList field path mode v = .error e ↔
      h.kindOf v ≠ .list ∧ e = .shape ⟨field, path, .shape .list, v, mode⟩ := by
  unfold asList kindOf
  cases h.node v <;> simp [eq_comm]

end Nodes

/-! ### Slots in a heap -/

/-- The value in a slot of a container. -/
def slot? (h : Heap) (r : Ref) (s : Slot) : Option Value := (h.get? r).bind (·.slot? s)

/-- The container has slots such as this one. -/
def SuitsAt (h : Heap) (r : Ref) (s : Slot) : Prop := ∃ c, h.get? r = some c ∧ s.Suits c

/-- The heap with a value put into a slot of a container, unless the container refuses it. -/
def fill (h : Heap) (r : Ref) : Slot → Value → Except Fault Heap
  | .field name, v => h.assign r (.text name) v
  | .index n, v => h.putItem r n v
  | .next, v => .ok (h.mapItems r fun items ↦ items ++ [v])

theorem ext_get? {h h' : Heap} (hget : ∀ r, h.get? r = h'.get? r) : h = h' := by
  cases h
  cases h'
  congr
  exact Array.ext_getElem? hget

/-- What is looked for in a slot and is not null stands there. -/
theorem slot?_of_getD {h : Heap} {r : Ref} {s : Slot} {v : Value}
    (hvalue : (h.slot? r s).getD .null = v) (hv : v ≠ .null) : h.slot? r s = some v := by
  cases hslot : h.slot? r s with
  | none => exact absurd (by rw [← hvalue, hslot]; rfl) hv
  | some w => rw [← hvalue, hslot, Option.getD_some]

theorem field?_eq_slot? (h : Heap) (r : Ref) (name : String) :
    h.field? r name = h.slot? r (.field name) := by
  simp only [field?, entries, slot?]
  cases h.get? r with
  | none => rfl
  | some c => cases c <;> rfl

theorem getElem?_items_eq_slot? (h : Heap) (r : Ref) (n : Nat) :
    (h.items r)[n]? = h.slot? r (.index n) := by
  simp only [items, slot?]
  cases h.get? r with
  | none => rfl
  | some c => cases c <;> rfl

theorem exists_list_of_slot?_index {h : Heap} {r : Ref} {n : Nat} {v : Value}
    (hslot : h.slot? r (.index n) = some v) :
    ∃ items, h.get? r = some (.list items) ∧ items[n]? = some v := by
  obtain ⟨c, hget, hc⟩ := Option.bind_eq_some_iff.mp hslot
  cases c with
  | list items => exact ⟨items, hget, hc⟩
  | _ => simp [Cell.slot?] at hc

theorem get?_write (h : Heap) (r : Ref) (c : Cell) (x : Ref) :
    (h.write r c).get? x = if x = r then (h.get? r).map (fun _ ↦ c) else h.get? x := by
  by_cases hx : x = r
  · subst hx
    rw [if_pos rfl]
    by_cases hlt : x < h.size
    · rw [get?_write_self h c hlt]
      obtain ⟨old, hold⟩ : ∃ old, h.get? x = some old := by
        simp only [get?, size] at *
        exact ⟨_, Array.getElem?_eq_getElem hlt⟩
      rw [hold, Option.map_some]
    · have hnone : ∀ g : Heap, ¬ x < g.size → g.get? x = none := by
        intro g hg
        simp only [get?, size] at *
        exact Array.getElem?_eq_none (Nat.le_of_not_lt hg)
      rw [hnone h hlt, hnone _ (by simpa using hlt), Option.map_none]
  · rw [if_neg hx, get?_write_of_ne h c (Ne.symm hx)]

theorem get?_mapEntries (h : Heap) (r : Ref) (change : Table Key Value → Table Key Value) (x : Ref) :
    (h.mapEntries r change).get? x =
      if x = r then (h.get? r).map fun
        | .mapping kind entries => .mapping kind (change entries)
        | c => c
      else h.get? x := by
  unfold mapEntries
  split
  · next hget => rw [get?_write, hget]; rfl
  · next hother =>
    split
    · next hx =>
      subst hx
      cases hget : h.get? x with
      | none => rfl
      | some c => cases c with
        | mapping kind entries => exact absurd hget (hother kind entries)
        | _ => rfl
    · rfl

theorem get?_mapItems (h : Heap) (r : Ref) (change : List Value → List Value) (x : Ref) :
    (h.mapItems r change).get? x =
      if x = r then (h.get? r).map fun
        | .list items => .list (change items)
        | c => c
      else h.get? x := by
  unfold mapItems
  split
  · next hget => rw [get?_write, hget]; rfl
  · next hother =>
    split
    · next hx =>
      subst hx
      cases hget : h.get? x with
      | none => rfl
      | some c => cases c with
        | list items => exact absurd hget (hother items)
        | _ => rfl
    · rfl

theorem size_mapEntries (h : Heap) (r : Ref) (change : Table Key Value → Table Key Value) :
    (h.mapEntries r change).size = h.size := by
  unfold mapEntries
  split <;> simp

theorem size_mapItems (h : Heap) (r : Ref) (change : List Value → List Value) :
    (h.mapItems r change).size = h.size := by
  unfold mapItems
  split <;> simp

/-- Filling a slot replaces one cell and leaves every other cell as it is. -/
theorem get?_fill {h h' : Heap} {r : Ref} {s : Slot} {v : Value} (hfill : h.fill r s v = .ok h')
    (x : Ref) :
    h'.get? x = if x = r then (h.get? r).map fun c ↦ c.put s v else h.get? x := by
  cases s with
  | field name =>
    simp only [fill, assign] at hfill
    split at hfill
    · simp at hfill
    · obtain rfl := Except.ok.inj hfill
      rw [get?_mapEntries]
      congr 2
      funext c
      cases c <;> rfl
  | index n =>
    simp only [fill, putItem] at hfill
    have hitems : ∀ items, h.get? r = some (.list items) → h.items r = items := by
      intro items hget
      simp [Heap.items, hget]
    have hcell : ∀ change : List Value → List Value,
        (∀ items, h.items r = items → .list (change items) = (Cell.list items).put (.index n) v) →
        (h.mapItems r change).get? x =
          if x = r then (h.get? r).map fun c ↦ c.put (.index n) v else h.get? x := by
      intro change hchange
      rw [get?_mapItems]
      cases hget : h.get? r with
      | none => rfl
      | some c =>
        cases c with
        | list items => simp [hchange items (hitems items hget)]
        | _ => rfl
    split at hfill
    · next hlt =>
      obtain rfl := Except.ok.inj hfill
      refine hcell _ fun items hi ↦ ?_
      simp [Cell.put, ← hi, hlt]
    · next hlt =>
      split at hfill
      · simp at hfill
      · split at hfill
        · simp at hfill
        · obtain rfl := Except.ok.inj hfill
          refine hcell _ fun items hi ↦ ?_
          simp [Cell.put, ← hi, hlt]
  | next =>
    obtain rfl := Except.ok.inj hfill
    rw [get?_mapItems]
    congr 2
    funext c
    cases c <;> rfl

theorem size_fill {h h' : Heap} {r : Ref} {s : Slot} {v : Value} (hfill : h.fill r s v = .ok h') :
    h'.size = h.size := by
  cases s with
  | field name =>
    simp only [fill, assign] at hfill
    split at hfill
    · simp at hfill
    · obtain rfl := Except.ok.inj hfill
      exact size_mapEntries _ _ _
  | index n =>
    simp only [fill, putItem] at hfill
    split at hfill
    · obtain rfl := Except.ok.inj hfill
      exact size_mapItems _ _ _
    · split at hfill
      · simp at hfill
      · split at hfill
        · simp at hfill
        · obtain rfl := Except.ok.inj hfill
          exact size_mapItems _ _ _
  | next =>
    obtain rfl := Except.ok.inj hfill
    exact size_mapItems _ _ _

/-- A slot that holds a value already is filled with it without any change. -/
theorem eq_of_fill_self {h h' : Heap} {r : Ref} {s : Slot} {v : Value} (hslot : h.slot? r s = some v)
    (hfill : h.fill r s v = .ok h') : h' = h := by
  refine ext_get? fun x ↦ ?_
  rw [get?_fill hfill]
  split
  · next hx =>
    subst hx
    obtain ⟨c, hget, hc⟩ := Option.bind_eq_some_iff.mp hslot
    rw [hget, Option.map_some, Cell.put_of_slot? hc]
  · rfl

/-! ### Slots that take a value -/

/-- The slot of the container can be filled. -/
def Takes (h : Heap) (r : Ref) : Slot → Prop
  | .field _ => h.isReadOnly r = false
  | .index n => n - (h.items r).length < tooMuchPadding
  | .next => True

section Takes

variable {h h' : Heap} {r : Ref} {s : Slot} {v : Value}

theorem exists_fill_iff : (∃ h', h.fill r s v = .ok h') ↔ h.Takes r s := by
  cases s with
  | field name =>
    cases hreadOnly : h.isReadOnly r <;> simp [fill, assign, Takes, hreadOnly]
  | next => simp [fill, Takes]
  | index n =>
    by_cases hn : n < (h.items r).length
    · have hpad : n - (h.items r).length < tooMuchPadding := by
        rw [Nat.sub_eq_zero_of_le (Nat.le_of_lt hn)]
        decide
      simp [fill, putItem, Takes, hn, hpad]
    · by_cases hpad : n - (h.items r).length < tooMuchPadding
      · have hgreatest : ¬ greatestPadding < n - (h.items r).length := by
          simp only [tooMuchPadding, greatestPadding] at *
          omega
        simp [fill, putItem, Takes, hn, hgreatest, Nat.not_le_of_lt hpad, hpad]
      · have hmuch := Nat.le_of_not_lt hpad
        simp only [fill, putItem, Takes, hn, if_false, hmuch, if_true, hpad, iff_false]
        split <;> simp

theorem takes_congr (hget : h'.get? r = h.get? r) : h'.Takes r s ↔ h.Takes r s := by
  cases s <;> simp [Takes, isReadOnly, items, hget]

/-- Storing what a slot holds already changes nothing. -/
theorem fill_self (hslot : h.slot? r s = some v) (htakes : h.Takes r s) :
    h.fill r s v = .ok h := by
  obtain ⟨h', hfill⟩ := (exists_fill_iff (v := v)).mpr htakes
  rw [hfill, eq_of_fill_self hslot hfill]

end Takes

end Heap

end DottedPath
