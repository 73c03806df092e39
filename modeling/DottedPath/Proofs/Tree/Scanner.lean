import DottedPath.Proofs.Scan.Effect
import DottedPath.Proofs.Tree.Read

/-!
# Scanners that own their tree

A scanner over a deep copy has a root that owns the tree of the data, in new containers alone
(`own_of_isMapping`), and an export of a scanner is a value that owns the tree of the scanner
(`exists_toTree`). Both are possible whenever the values are laid out as trees.
-/

set_option autoImplicit false
set_option relaxedAutoImplicit false

namespace DottedPath

open Heap

namespace Heap

theorem Copies.owns {h h' : Heap} {copy : Value} {t : Tree} {rs : List Ref}
    (hcopies : h.Copies h' [copy] [t] rs) : h'.Owns copy t rs :=
  ⟨hcopies.lays, hcopies.nodup, hcopies.plain⟩

/-- The root of a mapping tree is a mapping. -/
theorem Lays.isMapping {h : Heap} {r : Ref} {t : Tree} {rs : List Ref}
    (hlays : h.Lays [.object r] [t] rs) : t.kind = .mapping ↔ h.IsMapping r := by
  constructor
  · intro hkind
    cases t with
    | mapping es =>
      obtain ⟨r', kind, entries, ss, hr, hget, -, -⟩ := hlays.of_mapping
      obtain rfl := Value.object.inj hr
      exact ⟨kind, entries, hget⟩
    | leaf v | list ts => simp [Tree.kind] at hkind
  · rintro ⟨kind, entries, hget⟩
    obtain ⟨ts, ss, hnode, -, -⟩ := hlays.of_isContainer hget trivial
    cases hnode
    rfl

/-- What is laid out as a mapping tree is a mapping. -/
theorem Lays.exists_isMapping {h : Heap} {v : Value} {t : Tree} {rs : List Ref}
    (hlays : h.Lays [v] [t] rs) (hkind : t.kind = .mapping) : ∃ r, v = .object r ∧ h.IsMapping r := by
  cases t with
  | mapping es =>
    obtain ⟨r, -, -, -, rfl, -⟩ := hlays.of_mapping
    exact ⟨r, rfl, hlays.isMapping.mp hkind⟩
  | leaf w | list ts => simp [Tree.kind] at hkind

end Heap

namespace Scan

/-- An export of a scanner. -/
theorem exists_toTree {w : Workplace} {scanner : Scanner} {t : Tree} {rs : List Ref}
    (hlays : w.heap.Lays [.object scanner.root] [t] rs) :
    ∃ copy h' ss, toTree scanner w = .ok copy { w with heap := h' } ∧
      w.heap.Copies h' [copy] [t] ss := by
  obtain ⟨copy, h', ss, hclone, hcopies⟩ := exists_clone hlays
  exact ⟨copy, h', ss, by rw [toTree, clone, hclone], hcopies⟩

/-- A scanner over a deep copy of a mapping. -/
theorem own_of_isMapping {w : Workplace} {r : Ref} {t : Tree} {rs : List Ref}
    (hmapping : w.heap.IsMapping r) (hlays : w.heap.Lays [.object r] [t] rs) :
    ∃ root h' ss, own (.object r) w = .ok ⟨root, .owned⟩ { w with heap := h' } ∧
      w.heap.Copies h' [.object root] [t] ss ∧ h'.IsMapping root := by
  obtain ⟨copy, h', ss, hclone, hcopies⟩ := exists_clone hlays
  obtain ⟨root, rfl, hroot⟩ := hcopies.lays.exists_isMapping (hlays.isMapping.mpr hmapping)
  refine ⟨root, h', ss, ?_, hcopies, hroot⟩
  obtain ⟨kind, entries, hget⟩ := hmapping
  obtain ⟨kind', entries', hget'⟩ := hroot
  have hnode : w.heap.node (.object r) = .mapping r kind entries := by simp [node, hget]
  have hnode' : h'.node (.object root) = .mapping root kind' entries' := by simp [node, hget']
  simp only [own, bind, EStateM.bind, inspect, hnode, clone, hclone, borrow, hnode']
  rfl

/-- A scanner over a new mapping. -/
theorem own_null (w : Workplace) :
    own .null w = .ok ⟨w.heap.size, .owned⟩
      { w with heap := w.heap.alloc (.mapping .plain .empty) } := rfl

end Scan

namespace Heap

/-- The data that a scanner can own a copy of, and the tree that they are. -/
inductive Starts (h : Heap) : Value → Tree → Prop
  | null : Starts h .null (.mapping [])
  | mapping {r : Ref} {t : Tree} (hmapping : h.IsMapping r) (hshows : h.Shows (.object r) t) :
    Starts h (.object r) t

theorem Starts.kind {h : Heap} {data : Value} {t : Tree} (hdata : h.Starts data t) :
    t.kind = .mapping := by
  cases hdata with
  | null => rfl
  | mapping hmapping hshows =>
    obtain ⟨rs, hlays⟩ := hshows
    exact hlays.isMapping.mpr hmapping

theorem Starts.lt_size {h : Heap} {data : Value} {t : Tree} (hdata : h.Starts data t) :
    ∀ x ∈ data.ref?, x < h.size := by
  intro x hx
  cases hdata with
  | null => cases hx
  | mapping hmapping _ =>
    obtain rfl := Option.some.inj hx
    obtain ⟨kind, entries, hget⟩ := hmapping
    exact lt_size_of_get? hget

/-- In an acyclic heap without dangling references, a scanner can own a copy of every mapping. -/
theorem exists_starts {h : Heap} (hacyclic : h.Acyclic) (hclosed : h.Closed) {r : Ref}
    (hmapping : h.IsMapping r) : ∃ t, h.Starts (.object r) t := by
  obtain ⟨kind, entries, hget⟩ := hmapping
  have hr : ∀ v ∈ [Value.object r], ∀ x ∈ v.ref?, x < h.size := by
    intro v hv x hx
    obtain rfl := List.mem_singleton.mp hv
    obtain rfl := Option.some.inj hx
    exact lt_size_of_get? hget
  obtain ⟨ts, rs, hlays⟩ := exists_lays hacyclic hclosed hr
  obtain ⟨t, rfl⟩ := List.length_eq_one_iff.mp hlays.length_eq.symm
  exact ⟨t, .mapping ⟨kind, entries, hget⟩ ⟨rs, hlays⟩⟩

theorem copies_blank (h : Heap) :
    h.Copies (h.alloc (.mapping .plain .empty)) [.object h.size] [.mapping []] [h.size] := by
  have hkeys : ([] : List (Key × Tree)).map Prod.fst = Table.empty.keys := rfl
  exact (copies_nil h).node (c := .mapping .plain .empty) (.mapping hkeys) rfl

end Heap

/-- A scanner of its own for data that are null or a mapping. -/
theorem Scan.exists_own {w : Workplace} {data : Value} {t : Tree} (hdata : w.heap.Starts data t) :
    ∃ scanner w₀ ss, own data w = .ok scanner w₀ ∧
      w.heap.Copies w₀.heap [.object scanner.root] [t] ss := by
  cases hdata with
  | null => exact ⟨_, _, _, own_null w, copies_blank w.heap⟩
  | mapping hmapping hshows =>
    obtain ⟨rs, hlays⟩ := hshows
    obtain ⟨root, h', ss, hown, hcopies, -⟩ := own_of_isMapping hmapping hlays
    exact ⟨_, _, ss, hown, hcopies⟩

end DottedPath
