import DottedPath.Proofs.Heap.Reach
import DottedPath.Proofs.Path.Spelling

/-!
# Which index an appended item gets

A slot behind the last item of a list is another one as soon as an item stands there: the item has
the index that was the length of the list, and zero when there was no list. `Heap.number` gives the
slots of a path these indices, as the heap is before the write, and `Heap.numbered` writes them into
the path, from which they are read again (`slots_numbered`).
-/

set_option autoImplicit false
set_option relaxedAutoImplicit false

namespace DottedPath

/-- The slot that an item comes to stand in, behind the last of `n` items when it has no index. -/
def Slot.number (n : Nat) : Slot → Slot
  | next => index n
  | s => s

namespace Heap

/-- The container in a slot, if there is one. -/
def container? (h : Heap) (r : Option Ref) (s : Slot) : Option Ref :=
  r.bind fun r ↦ (h.slot? r s).bind Value.ref?

/-- The number of items of a list, and zero if there is none. -/
def count (h : Heap) (r : Option Ref) : Nat :=
  (r.map fun r ↦ (h.items r).length).getD 0

/-- Slots by which to read what is written at some slots: each appended item has the index that is
the length of its list. -/
def number (h : Heap) : Option Ref → List Slot → List Slot
  | _, [] => []
  | r, s :: slots => s.number (h.count r) :: number h (h.container? r s) slots

/-- The texts of steps with indices where items are appended. -/
def numberTexts (h : Heap) : Option Ref → List (List Char) → List (List Char)
  | _, [] => []
  | r, text :: texts =>
    let hop := Hop.ofPart (Text.trim text)
    Step.withIndex (h.count (h.container? r (.field hop.name))) text ::
      numberTexts h (hop.slots.foldl h.container? r) texts

/-- The path by which to read what is written at a path below a mapping: each `name[]` has the
length of the list for its index, and zero where there is no list. -/
def numbered (h : Heap) (root : Ref) (path : String) : String :=
  Path.join (h.numberTexts (some root) (path.toList.splitOn '.'))

theorem number_append (h : Heap) (r : Option Ref) (slots₁ slots₂ : List Slot) :
    h.number r (slots₁ ++ slots₂) =
      h.number r slots₁ ++ h.number (slots₁.foldl h.container? r) slots₂ := by
  induction slots₁ generalizing r with
  | nil => rfl
  | cons s slots₁ ih => simp [number, ih]

/-- Without a container to start from, every appended item is the first one. -/
theorem number_none (h : Heap) (slots : List Slot) :
    h.number none slots = slots.map (Slot.number 0) := by
  induction slots with
  | nil => rfl
  | cons s slots ih => exact congrArg _ ih

theorem number_of_not_mem (h : Heap) (r : Option Ref) {slots : List Slot} (hnext : .next ∉ slots) :
    h.number r slots = slots := by
  induction slots generalizing r with
  | nil => rfl
  | cons s slots ih =>
    rw [List.mem_cons, not_or] at hnext
    have hs : s.number (h.count r) = s := by
      cases s with
      | next => exact absurd rfl hnext.1
      | _ => rfl
    rw [number, hs, ih _ hnext.2]

/-! ### Indices in the texts of steps -/

theorem slots_withIndex (h : Heap) (r : Option Ref) (hop : Hop) :
    (hop.withIndex (h.count (h.container? r (.field hop.name)))).slots = h.number r hop.slots := by
  obtain ⟨name, place⟩ := hop
  cases place <;> rfl

theorem flatMap_slots_numberTexts (h : Heap) (r : Option Ref) {texts : List (List Char)}
    (htrim : ∀ text ∈ texts, Text.trim text = text) :
    ((h.numberTexts r texts).map Hop.ofPart).flatMap Hop.slots =
      h.number r ((texts.map Hop.ofPart).flatMap Hop.slots) := by
  induction texts generalizing r with
  | nil => rfl
  | cons text texts ih =>
    have htext : Text.trim text = text := htrim text (List.mem_cons_self ..)
    have htexts := ih ((Hop.ofPart text).slots.foldl h.container? r)
      fun text' hmem ↦ htrim text' (List.mem_cons_of_mem _ hmem)
    simp only [numberTexts, htext, List.map_cons, List.flatMap_cons, number_append]
    rw [Hop.ofPart_withIndex _ htext, slots_withIndex, htexts]

theorem map_trim_numberTexts (h : Heap) (r : Option Ref) (texts : List (List Char)) :
    (h.numberTexts r texts).map Text.trim = h.numberTexts r (texts.map Text.trim) := by
  induction texts generalizing r with
  | nil => rfl
  | cons text texts ih =>
    simp only [numberTexts, List.map_cons, Step.trim_withIndex, Text.trim_trim, ih]

theorem numberTexts_dropLast (h : Heap) (r : Option Ref) (texts : List (List Char)) :
    h.numberTexts r texts.dropLast = (h.numberTexts r texts).dropLast := by
  induction texts generalizing r with
  | nil => rfl
  | cons text texts ih =>
    cases texts with
    | nil => rfl
    | cons text' texts =>
      simp only [List.dropLast_cons_cons, numberTexts]
      exact congrArg _ (ih _)

theorem getLast?_numberTexts (h : Heap) (r : Option Ref) (texts : List (List Char)) :
    (h.numberTexts r texts).getLast? = some [] ↔ texts.getLast? = some [] := by
  induction texts generalizing r with
  | nil => exact Iff.rfl
  | cons text texts ih =>
    cases texts with
    | nil => simp [numberTexts, Step.withIndex_eq_nil_iff]
    | cons text' texts =>
      rw [List.getLast?_cons_cons]
      exact ih _

theorem length_numberTexts (h : Heap) (r : Option Ref) (texts : List (List Char)) :
    (h.numberTexts r texts).length = texts.length := by
  induction texts generalizing r with
  | nil => rfl
  | cons text texts ih => exact congrArg (· + 1) (ih _)

theorem not_mem_of_mem_numberTexts {h : Heap} {r : Option Ref} {texts : List (List Char)}
    (hpoint : ∀ text ∈ texts, '.' ∉ text) : ∀ text ∈ h.numberTexts r texts, '.' ∉ text := by
  induction texts generalizing r with
  | nil => simp [numberTexts]
  | cons text texts ih =>
    intro text' hmem
    obtain rfl | hmem := List.mem_cons.mp hmem
    · exact Step.not_mem_withIndex _ (hpoint text (List.mem_cons_self ..))
    · exact ih (fun t ht ↦ hpoint t (List.mem_cons_of_mem _ ht)) text' hmem

/-- The steps of the path with indices are those of the path, each with its index. -/
theorem parts_numbered (h : Heap) (root : Ref) (path : String) :
    Path.parts (h.numbered root path) = h.numberTexts (some root) (Path.parts path) := by
  have hsplit : (h.numbered root path).toList.splitOn '.' =
      h.numberTexts (some root) (path.toList.splitOn '.') := by
    refine Path.splitOn_join
      (not_mem_of_mem_numberTexts fun text ↦ Path.not_mem_of_mem_splitOn) ?_
    rw [ne_eq, ← List.length_eq_zero_iff, length_numberTexts, List.length_eq_zero_iff]
    exact List.splitOn_ne_nil '.' _
  simp only [Path.parts, Path.partsOf, hsplit, map_trim_numberTexts, length_numberTexts,
    getLast?_numberTexts]
  split
  · rw [numberTexts_dropLast]
  · rfl

theorem slots_numbered (h : Heap) (root : Ref) (path : String) :
    Path.slots (h.numbered root path) = h.number (some root) (Path.slots path) := by
  rw [Path.slots, Path.hops, parts_numbered, Path.slots, Path.hops]
  exact flatMap_slots_numberTexts h (some root) fun part hpart ↦ (Path.of_mem_parts hpart).1

end Heap

end DottedPath
