import DottedPath.Proofs.Tree.Read
import DottedPath.Proofs.Write.ReadBack

/-!
# Indices depend on the tree alone

Mappings in two heaps that are laid out as one tree lead by the same slots to containers that are laid
out as one tree, too (`Twins.container?`). Their lists have the same numbers of items, so a path has
the same indices in both (`numbered_eq_of_shows`), and what is written in one of them is read back by
the paths of the other (`ReadsBack.of_shows`).
-/

set_option autoImplicit false
set_option relaxedAutoImplicit false

namespace DottedPath

/-- The number of items of a list. -/
def Tree.count : Tree → Nat
  | list items => items.length
  | _ => 0

namespace Heap

/-- The containers, if there are any, are laid out as one tree, each in its heap. -/
def Twins (h h' : Heap) : Option Ref → Option Ref → Prop :=
  Option.Rel fun r r' ↦ ∃ t, h.Shows (.object r) t ∧ h'.Shows (.object r') t

section Twins

variable {h h' : Heap} {v v' : Value} {t : Tree} {r r' : Ref} {o o' : Option Ref} {s : Slot}

theorem slot?_eq_none_of_isLeaf (hleaf : h.IsLeaf (.object r)) (s : Slot) : h.slot? r s = none := by
  obtain ⟨c, hget, hc⟩ := hleaf r rfl
  rw [slot?, hget, Option.bind_some]
  cases c with
  | mapping | list => exact absurd trivial hc
  | _ => cases s <;> rfl

/-- A container has in a slot what its tree has there. -/
theorem Shows.slot? (hshows : h.Shows (.object r) t) (s : Slot) :
    Option.Rel h.Shows (h.slot? r s) (t.slot? s) := by
  obtain ⟨rs, hlays⟩ := hshows
  rcases hlays.single with ⟨hleaf, rfl, -⟩ | ⟨r', c, ts, ss, hr, hget, hnode, -, -⟩
  · rw [slot?_eq_none_of_isLeaf hleaf]
    exact .none
  · obtain rfl := Value.object.inj hr
    by_cases hsuits : s.Suits c
    · obtain ⟨hnone, hnone'⟩ | ⟨v, tv, hv, htv, hshows⟩ := hlays.slot? ⟨c, hget, hsuits⟩
      · rw [hnone, hnone']
        exact .none
      · rw [hv, htv]
        exact .some hshows
    · rw [Heap.slot?, hget, Option.bind_some]
      cases hnode <;> cases s <;> first | exact absurd trivial hsuits | exact .none

theorem twins_ref? (hv : h.Shows v t) (hv' : h'.Shows v' t) : Twins h h' v.ref? v'.ref? := by
  obtain ⟨rs, hlays⟩ := hv
  obtain ⟨rs', hlays'⟩ := hv'
  rcases hlays.single with ⟨-, rfl, -⟩ | ⟨r, c, ts, ss, rfl, -, hnode, -, -⟩
  · obtain ⟨rfl, -⟩ := hlays'.of_leaf
    cases hr : v'.ref? with
    | none => exact .none
    | some r =>
      obtain rfl := Value.eq_object_of_ref? hr
      exact .some ⟨_, ⟨rs, hlays⟩, rs', hlays'⟩
  · rcases hlays'.single with ⟨-, rfl, -⟩ | ⟨r', c', ts', ss', rfl, -, -, -, -⟩
    · cases hnode
    · exact .some ⟨t, ⟨rs, hlays⟩, rs', hlays'⟩

theorem Twins.container? (htwins : Twins h h' o o') (s : Slot) :
    Twins h h' (h.container? o s) (h'.container? o' s) := by
  cases htwins with
  | none => exact .none
  | some hshows =>
    obtain ⟨t, hr, hr'⟩ := hshows
    have hslot := hr.slot? s
    have hslot' := hr'.slot? s
    simp only [Heap.container?, Option.bind_some]
    generalize h.slot? _ s = found at hslot ⊢
    generalize h'.slot? _ s = found' at hslot' ⊢
    generalize t.slot? s = below at hslot hslot'
    cases hslot with
    | none =>
      cases hslot'
      exact .none
    | some hv =>
      cases hslot' with
      | some hv' => exact twins_ref? hv hv'

/-- The number of items is that of the tree. -/
theorem Shows.length_items (hshows : h.Shows (.object r) t) :
    (h.items r).length = t.count := by
  obtain ⟨rs, hlays⟩ := hshows
  rcases hlays.single with ⟨hleaf, rfl, -⟩ | ⟨r', c, ts, ss, hr, hget, hnode, hcontents, -⟩
  · obtain ⟨c, hget, hc⟩ := hleaf r rfl
    rw [items, hget]
    cases c with
    | mapping | list => exact absurd trivial hc
    | _ => rfl
  · obtain rfl := Value.object.inj hr
    rw [items, hget]
    cases hnode with
    | list => exact hcontents.length_eq
    | mapping => rfl

theorem Twins.count_eq (htwins : Twins h h' o o') : h.count o = h'.count o' := by
  cases htwins with
  | none => rfl
  | some hshows =>
    obtain ⟨t, hr, hr'⟩ := hshows
    exact hr.length_items.trans hr'.length_items.symm

theorem Twins.foldl (htwins : Twins h h' o o') (slots : List Slot) :
    Twins h h' (slots.foldl h.container? o) (slots.foldl h'.container? o') := by
  induction slots generalizing o o' with
  | nil => exact htwins
  | cons s slots ih => exact ih (htwins.container? s)

theorem Twins.numberTexts_eq (htwins : Twins h h' o o') (texts : List (List Char)) :
    h.numberTexts o texts = h'.numberTexts o' texts := by
  induction texts generalizing o o' with
  | nil => rfl
  | cons text texts ih =>
    simp only [numberTexts]
    rw [(htwins.container? _).count_eq, ih (htwins.foldl _)]

/-- Mappings of one tree give a path the same indices. -/
theorem numbered_eq_of_shows (hr : h.Shows (.object r) t) (hr' : h'.Shows (.object r') t)
    (path : String) : h.numbered r path = h'.numbered r' path := by
  rw [numbered, numbered, Twins.numberTexts_eq (.some ⟨t, hr, hr'⟩)]

theorem ReadsBack.of_shows {path path' : String} (hr : h.Shows (.object r) t)
    (hr' : h'.Shows (.object r') t) (hpath : h.ReadsBack r path path') :
    h'.ReadsBack r' path path' := by
  cases hpath with
  | itself hplaces => exact .itself hplaces
  | numbered hreadable =>
    rw [numbered_eq_of_shows hr hr'] at hreadable ⊢
    exact .numbered hreadable

end Twins

end Heap

end DottedPath
