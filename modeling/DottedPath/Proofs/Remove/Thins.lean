import DottedPath.Proofs.Scan.Remove

/-!
# A removal takes away, and does nothing else

However a removal ends, it has made no cell, and what is left of each mapping and of each list are
entries or items that were there, in the same order (`thins_remove`).
-/

set_option autoImplicit false
set_option relaxedAutoImplicit false

namespace DottedPath

open Scan

theorem Table.entries_erase_sublist {κ α : Type} [DecidableEq κ] (t : Table κ α) (k : κ) :
    (t.erase k).entries.Sublist t.entries := by
  have hentries : ∀ es : List (κ × α), (eraseEntry es k).Sublist es := by
    intro es
    induction es with
    | nil => exact .slnil
    | cons e es ih =>
      rw [eraseEntry]
      split
      · exact List.sublist_cons_self ..
      · exact ih.cons_cons _
  exact hentries t.entries

/-- What is left of a cell when some of its entries or items are taken away. -/
inductive Cell.LeftOf : Cell → Cell → Prop
  | same (c : Cell) : LeftOf c c
  | mapping {kind : MappingKind} {t t' : Table Key Value} (hsub : t'.entries.Sublist t.entries) :
    LeftOf (.mapping kind t') (.mapping kind t)
  | list {items items' : List Value} (hsub : items'.Sublist items) :
    LeftOf (.list items') (.list items)

theorem Cell.LeftOf.trans {c c' c'' : Cell} (hlast : c''.LeftOf c') (hfirst : c'.LeftOf c) :
    c''.LeftOf c := by
  cases hlast with
  | same => exact hfirst
  | mapping hsub' =>
    cases hfirst with
    | same => exact .mapping hsub'
    | mapping hsub => exact .mapping (hsub'.trans hsub)
  | list hsub' =>
    cases hfirst with
    | same => exact .list hsub'
    | list hsub => exact .list (hsub'.trans hsub)

namespace Heap

/-- No cell is new, and every cell is what is left of it. -/
structure Thins (h h' : Heap) : Prop where
  size_eq : h'.size = h.size
  leftOf : ∀ r c, h.get? r = some c → ∃ c', h'.get? r = some c' ∧ c'.LeftOf c

section Thins

variable {h h' h'' : Heap} {r : Ref}

theorem Thins.refl (h : Heap) : h.Thins h := ⟨rfl, fun _ c hget ↦ ⟨c, hget, .same c⟩⟩

theorem Thins.trans (hfirst : h.Thins h') (hlast : h'.Thins h'') : h.Thins h'' where
  size_eq := hlast.size_eq.trans hfirst.size_eq
  leftOf r c hget := by
    obtain ⟨c', hget', hleft⟩ := hfirst.leftOf r c hget
    obtain ⟨c'', hget'', hleft'⟩ := hlast.leftOf r c' hget'
    exact ⟨c'', hget'', hleft'.trans hleft⟩

/-- One cell has become what is left of it. -/
theorem thins_of_map {f : Cell → Cell} (hsize : h'.size = h.size)
    (hget : ∀ x, h'.get? x = if x = r then (h.get? r).map f else h.get? x)
    (hf : ∀ c, (f c).LeftOf c) : h.Thins h' where
  size_eq := hsize
  leftOf x c hc := by
    by_cases hx : x = r
    · subst hx
      exact ⟨f c, by rw [hget, if_pos rfl, hc, Option.map_some], hf c⟩
    · exact ⟨c, by rw [hget, if_neg hx, hc], .same c⟩

theorem thins_eraseIdx (h : Heap) (r : Ref) (n : Nat) :
    h.Thins (h.mapItems r fun items ↦ items.eraseIdx n) := by
  refine thins_of_map (size_mapItems ..) (get?_mapItems h r _) fun c ↦ ?_
  cases c with
  | list items => exact .list (List.eraseIdx_sublist ..)
  | _ => exact .same _

theorem thins_unset (h : Heap) (r : Ref) (name : String) : h.Thins (h.unset r name).2 := by
  unfold unset
  cases h.slot? r (.field name) with
  | none => exact .refl h
  | some v =>
    by_cases hreadOnly : h.isReadOnly r
    · simp only [delete, hreadOnly, if_true, changed]
      exact .refl h
    · simp only [delete, hreadOnly, changed]
      refine thins_of_map (size_mapEntries ..) (get?_mapEntries h r _) fun c ↦ ?_
      cases c with
      | mapping kind entries => exact .mapping (Table.entries_erase_sublist ..)
      | _ => exact .same _

end Thins

end Heap

/-- However a removal ends, it has made no cell, and has only taken entries and items away. -/
theorem thins_remove (root : Ref) (path : String) (h : Heap) :
    h.Thins ((remove root path).effect h).2 :=
  remove_rel Heap.Thins.refl (fun _ _ _ ↦ .trans) Heap.thins_unset root path
    (fun _ ↦ Heap.thins_eraseIdx) h

end DottedPath
