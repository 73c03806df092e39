import DottedPath.Heap.Equality
import DottedPath.Proofs.Tree.Read
import Mathlib.Data.List.Forall2

/-!
# Values of one tree are equal

Equality goes down both values at once, in mappings by the keys and in lists by the positions, and
takes what is the same object for equal without a look. Two values that are laid out as one tree have
the same keys and positions at each container and the same leaves below, so they are equal, in
whatever containers they are laid out and whatever the sorts of their mappings are (`equal_of_shows`).
The order of the keys is the same as well, which matters where both mappings are ordered.

Not-a-number is the exception, as it is not equal to itself. It makes no difference inside of a
container, where a leaf meets itself.
-/

set_option autoImplicit false
set_option relaxedAutoImplicit false

namespace DottedPath

theorem Binary64.eq_self (x : Binary64) : x.eq x = true := by
  cases x <;> simp [eq]

theorem Value.equalPlain_self (v : Value) : v.equalPlain v = true := by
  cases v <;> simp [equalPlain, asInt?, Binary64.eq_self]

/-- The trees below the root of a tree are those of the tree. -/
theorem Cell.IsNode.trees_unique {c c' : Cell} {t : Tree} {ts us : List Tree} (hnode : c.IsNode t ts)
    (hnode' : c'.IsNode t us) : ts = us := by
  cases hnode <;> cases hnode' <;> rfl

namespace Heap

/-- The value is the result of an undefined calculation, which is not equal to itself. -/
def IsNotNumber (h : Heap) (v : Value) : Prop := ∃ r, v = .object r ∧ h.get? r = some .notNumber

section Equal

variable {h : Heap} {v w : Value} {vs ws : List Value} {t : Tree} {ts us : List Tree}
variable {r s : Ref} {rs ss : List Ref} {depth : Nat}

theorem same_self (h : Heap) (v : Value) : h.same v v = true := by
  cases v <;> simp [same]

/-- As items of a container the values are equal. -/
def EqualItem (h : Heap) (depth : Nat) (v w : Value) : Prop :=
  (h.same v w || h.equalWithin depth v w) = true

/-- Items that are equal one by one are equal. -/
theorem all_zip_of_forall₂ {α β : Type} {test : α → β → Bool} {as : List α} {bs : List β}
    (hall : List.Forall₂ (fun a b ↦ test a b = true) as bs) :
    (as.length == bs.length && (as.zip bs).all fun pair ↦ test pair.1 pair.2) = true := by
  rw [Bool.and_eq_true, beq_iff_eq, List.all_eq_true]
  refine ⟨hall.length_eq, fun pair hpair ↦ ?_⟩
  exact List.forall₂_zip hall hpair

/-- A leaf is equal to itself, unless it is not-a-number. -/
theorem equalWithin_leaf (hleaf : h.IsLeaf v) (hnumber : ¬ h.IsNotNumber v) (depth : Nat) :
    h.equalWithin (depth + 1) v v = true := by
  cases v with
  | object r =>
    obtain ⟨c, hget, hc⟩ := hleaf r rfl
    cases c with
    | mapping | list => exact absurd trivial hc
    | tuple items =>
      have hitems : List.Forall₂ (h.EqualItem depth) items items :=
        List.forall₂_same.mpr fun v _ ↦ by rw [EqualItem, same_self, Bool.true_or]
      simp only [equalWithin, hget]
      exact all_zip_of_forall₂ hitems
    | handle name count => simp [equalWithin, hget]
    | notNumber => exact absurd ⟨r, rfl, hget⟩ hnumber
  | _ => exact Value.equalPlain_self _

/-- Entries with the same keys, and data that are related one by one. -/
theorem exists_find?_of_forall₂ {α : Type} {R : α → α → Prop} {table table' : Table Key α}
    (hkeys : table.keys = table'.keys) (hdata : List.Forall₂ R table.data table'.data)
    {e : Key × α} (he : e ∈ table.entries) : ∃ a, table'.find? e.1 = some a ∧ R e.2 a := by
  obtain ⟨i, hi, rfl⟩ := List.mem_iff_getElem.mp he
  have hsize : table.entries.length = table'.entries.length := by
    simpa [Table.keys] using congrArg List.length hkeys
  have hi' : i < table'.entries.length := hsize ▸ hi
  have hkey : table.entries[i].1 = table'.entries[i].1 := by
    have hat : table.keys[i]? = table'.keys[i]? := by rw [hkeys]
    simpa [Table.keys, hi, hi'] using hat
  refine ⟨table'.entries[i].2, ?_, ?_⟩
  · rw [hkey]
    exact Table.find?_of_mem_entries (List.getElem_mem hi')
  · have hrelated := hdata.get (i := i) (by simpa [Table.data] using hi) (by simpa [Table.data] using hi')
    simpa [Table.data] using hrelated

/-- Two containers with one root are equal when their contents are, one by one. -/
theorem equalWithin_node {c c' : Cell} (hget : h.get? r = some c) (hget' : h.get? s = some c')
    (hnode : c.IsNode t ts) (hnode' : c'.IsNode t us)
    (hcontents : List.Forall₂ (h.EqualItem depth) c.contents c'.contents) :
    h.equalWithin (depth + 1) (.object r) (.object s) = true := by
  cases hnode with
  | list =>
    cases hnode'
    simp only [equalWithin, hget, hget']
    exact all_zip_of_forall₂ hcontents
  | @mapping kind entries es hkeys =>
    cases hnode' with
    | @mapping kind' entries' _ hkeys' =>
      have hsame : entries.keys = entries'.keys := hkeys.symm.trans hkeys'
      have hsize : entries.size = entries'.size := by
        simpa [Table.keys, Table.size] using congrArg List.length hsame
      simp only [equalWithin, hget, hget', hsize, hsame, beq_self_eq_true, Bool.or_true,
        Bool.true_and, Bool.and_true]
      rw [List.all_eq_true]
      intro e he
      obtain ⟨a, hfind, hequal⟩ := exists_find?_of_forall₂ hsame hcontents he
      rw [hfind]
      exact hequal

/-- Values that are laid out as the same trees are equal one by one, as items. Below the containers
`visited`, all of which have larger trees, a depth is left that they have not used up. -/
theorem Lays.forall₂_equalItem (hlays : h.Lays vs ts rs) (hlays' : h.Lays ws ts ss)
    {visited : List Ref} (hnodup : visited.Nodup) (habove : h.Above visited rs.length)
    (hdepth : h.size < visited.length + depth) : List.Forall₂ (h.EqualItem depth) vs ws := by
  induction hlays generalizing ws ss visited depth with
  | nil =>
    cases hlays'
    exact .nil
  | @leaf v vs ts rs hleaf _ ih =>
    cases hlays' with
    | leaf _ hrest =>
      exact .cons (by rw [EqualItem, same_self, Bool.true_or]) (ih hrest hnodup habove hdepth)
    | node _ hnode => cases hnode
  | @node r c t ts us vs rs ss₁ hget hnode hcontents _ ihcontents ih =>
    cases hlays' with
    | leaf => cases hnode
    | node hget' hnode' hcontents' hrest' =>
      obtain rfl := hnode.trees_unique hnode'
      have hlength : (r :: (rs ++ ss₁)).length = (r :: rs).length + ss₁.length := by
        rw [← List.length_append, List.cons_append]
      obtain ⟨depth, rfl, hnodup₁, habove₁, hdepth₁⟩ :=
        (habove.mono (by omega)).enter (lays_node hget hnode hcontents) hnodup hdepth
      have hequal := equalWithin_node hget hget' hnode hnode' (ihcontents hcontents' hnodup₁ habove₁ hdepth₁)
      exact .cons (by rw [EqualItem, hequal, Bool.or_true])
        (ih hrest' hnodup (habove.mono (by omega)) hdepth)

end Equal

/-- Assumes: two values that are laid out as the same tree, and are not not-a-number. They are equal. -/
theorem equal_of_shows {h : Heap} {v w : Value} {t : Tree} (hv : h.Shows v t) (hw : h.Shows w t)
    (hnumber : ¬ h.IsNotNumber v) : h.equal v w = true := by
  obtain ⟨rs, hv⟩ := hv
  obtain ⟨ss, hw⟩ := hw
  rcases hv.single with ⟨hleaf, rfl, -⟩ | ⟨r, c, ts, rs', rfl, hget, hnode, hcontents, rfl⟩
  · obtain ⟨rfl, -⟩ := hw.of_leaf
    exact equalWithin_leaf hleaf hnumber h.size
  · rcases hw.single with ⟨-, rfl, -⟩ | ⟨s, c', ts', ss', rfl, hget', hnode', hcontents', rfl⟩
    · cases hnode
    · obtain rfl := hnode.trees_unique hnode'
      have habove : h.Above [] (r :: rs').length := fun x hx ↦ absurd hx List.not_mem_nil
      have hstart : h.size < ([] : List Ref).length + (h.size + 1) := by simp
      obtain ⟨depth, hdepth, hnodup₁, habove₁, hdepth₁⟩ := habove.enter hv List.nodup_nil hstart
      obtain rfl := Nat.succ.inj hdepth
      exact equalWithin_node hget hget' hnode hnode'
        (hcontents.forall₂_equalItem hcontents' hnodup₁ habove₁ hdepth₁)

/-! ### Not-a-number in other heaps -/

section IsNotNumber

variable {h h' : Heap} {v : Value} {t : Tree}

/-- Not-a-number is the same value wherever a tree is laid out. -/
theorem IsNotNumber.of_shows {v' : Value} (hv : h.Shows v t) (hv' : h.Shows v' t)
    (hnumber : h.IsNotNumber v) : h.IsNotNumber v' := by
  obtain ⟨r, rfl, hget⟩ := hnumber
  obtain ⟨rs, hlays⟩ := hv
  obtain ⟨rs', hlays'⟩ := hv'
  rcases hlays.single with ⟨-, rfl, -⟩ | ⟨r', c, ts, ss, hr, hget', hnode, -, -⟩
  · obtain ⟨rfl, -⟩ := hlays'.of_leaf
    exact ⟨r, rfl, hget⟩
  · obtain rfl := Value.object.inj hr
    obtain rfl := Option.some.inj (hget'.symm.trans hget)
    exact hnode.isContainer.elim

/-- What is laid out as a tree is not-a-number in a larger heap only if it was. -/
theorem IsNotNumber.of_extends (hext : h.Extends h') (hv : h.Shows v t)
    (hnumber : h'.IsNotNumber v) : h.IsNotNumber v := by
  obtain ⟨r, rfl, hget⟩ := hnumber
  obtain ⟨rs, hlays⟩ := hv
  refine ⟨r, rfl, ?_⟩
  rw [← hext.get?_eq r (hlays.lt_size_of_mem (List.mem_singleton.mpr rfl)), hget]

/-- A deep copy is not-a-number only if the value is. -/
theorem IsNotNumber.of_copies {copy : Value} {rs : List Ref}
    (hcopies : h.Copies h' [copy] [t] rs) (hv : h.Shows v t) (hnumber : h'.IsNotNumber copy) :
    h.IsNotNumber v :=
  (hnumber.of_shows ⟨rs, hcopies.lays⟩ (hv.of_extends hcopies.extends_)).of_extends
    hcopies.extends_ hv

end IsNotNumber

end Heap

end DottedPath
