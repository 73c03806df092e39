import DottedPath.Proofs.Tree.Read
import Mathlib.Data.Set.Lattice
import Mathlib.Order.CompletePartialOrder

/-!
# Areas of a heap

An area is a set of containers. It encloses what its containers hold when they refer to no container
outside of it and to nothing that is missing; then it has all that is reached from values within it
(`below_subset`).

Work is confined to an area when it changes nothing else, and leaves the area together with the new
cells as an area that again encloses what its containers hold (`Confined`). Confined work can be
followed by confined work (`Confined.trans`), and it leaves no reference to a missing cell behind
(`Confined.closed`). Whatever leaves the containers below some values alone leaves everything below
them as it is: what is reached from them, and the trees that they are laid out as (`Spares.below_eq`,
`Spares.shows_iff`).
-/

set_option autoImplicit false
set_option relaxedAutoImplicit false

namespace DottedPath

namespace Heap

/-- The cell is there, and is a mapping or a list. -/
def IsContainer (h : Heap) (x : Ref) : Prop := ∃ c, h.get? x = some c ∧ c.IsContainer

/-- The value refers to no missing cell, and to no container outside the area. -/
def Within (h : Heap) (area : Set Ref) (v : Value) : Prop :=
  ∀ x ∈ v.ref?, x < h.size ∧ (h.IsContainer x → x ∈ area)

/-- What the containers in the area hold is within the area. -/
def Encloses (h : Heap) (area : Set Ref) : Prop :=
  ∀ x ∈ area, ∀ c, h.get? x = some c → ∀ v ∈ c.contents, h.Within area v

/-- The containers that are reached from some values through mappings and lists. -/
def below (h : Heap) (vs : List Value) : Set Ref :=
  {x | h.IsContainer x ∧ ∃ r, .object r ∈ vs ∧ Relation.ReflTransGen h.Holds r x}

/-- The area with all cells that are still to come. -/
def grown (h : Heap) (area : Set Ref) : Set Ref := {x | x ∈ area ∨ h.size ≤ x}

/-- Nothing but containers in the area has changed, no cell that was there has become a container,
and the area with the new cells encloses what its containers hold. -/
structure Confined (h h' : Heap) (area : Set Ref) : Prop where
  size_le : h.size ≤ h'.size
  get?_eq : ∀ x < h.size, x ∉ area → h'.get? x = h.get? x
  isContainer : ∀ x < h.size, h'.IsContainer x → h.IsContainer x
  encloses : h'.Encloses (h.grown area)

/-- No container below the values has changed, and nothing that was there and is no container. -/
structure Spares (h h' : Heap) (vs : List Value) : Prop where
  size_le : h.size ≤ h'.size
  get?_eq : ∀ x < h.size, (h.IsContainer x → x ∈ h.below vs) → h'.get? x = h.get? x
  isContainer : ∀ x < h.size, h'.IsContainer x → h.IsContainer x

section Areas

variable {h h' h'' : Heap} {area area' : Set Ref} {v : Value} {vs : List Value}

theorem IsContainer.lt_size {x : Ref} (hx : h.IsContainer x) : x < h.size := by
  obtain ⟨c, hget, -⟩ := hx
  exact lt_size_of_get? hget

theorem IsContainer.congr {x : Ref} (hsame : h'.get? x = h.get? x) :
    h'.IsContainer x ↔ h.IsContainer x := by
  rw [IsContainer, hsame, IsContainer]

theorem isContainer_of_holds {x y : Ref} (hholds : h.Holds x y) : h.IsContainer x := by
  obtain ⟨c, hget, hmem⟩ := hholds
  exact ⟨c, hget, isContainer_of_mem_contents hmem⟩

theorem Within.mono (hv : h.Within area v) (hsub : area ⊆ area') : h.Within area' v :=
  fun x hx ↦ ⟨(hv x hx).1, fun hcontainer ↦ hsub ((hv x hx).2 hcontainer)⟩

theorem within_of_ref?_eq_none (hv : v.ref? = none) : h.Within area v := by
  intro x hx
  simp [hv] at hx

theorem within_object {r : Ref} (hlt : r < h.size) (hr : h.IsContainer r → r ∈ area) :
    h.Within area (.object r) := by
  intro x hx
  obtain rfl := Option.some.inj hx
  exact ⟨hlt, hr⟩

theorem mem_grown {x : Ref} : x ∈ h.grown area ↔ x ∈ area ∨ h.size ≤ x := Iff.rfl

theorem mem_below {x : Ref} : x ∈ h.below vs ↔
    h.IsContainer x ∧ ∃ r, .object r ∈ vs ∧ Relation.ReflTransGen h.Holds r x := Iff.rfl

theorem subset_grown (h : Heap) (area : Set Ref) : area ⊆ h.grown area := fun _ ↦ .inl

/-! ### What is reached -/

/-- An area that encloses what its containers hold has every container that is reached from values
within it. -/
theorem below_subset (harea : h.Encloses area) (hvs : ∀ v ∈ vs, h.Within area v) :
    h.below vs ⊆ area := by
  rintro x ⟨hx, r, hmem, hreach⟩
  induction hreach with
  | refl => exact (hvs _ hmem r rfl).2 hx
  | tail _ hholds ih =>
    have hy := ih (isContainer_of_holds hholds)
    obtain ⟨c, hget, hcontent⟩ := hholds
    exact (harea _ hy c hget _ hcontent _ rfl).2 hx

/-- What is reached from some values encloses what it holds. -/
theorem encloses_below (hclosed : h.Closed) (vs : List Value) : h.Encloses (h.below vs) := by
  rintro x ⟨-, r, hmem, hreach⟩ c hget v hv y hy
  obtain rfl := Value.eq_object_of_ref? hy
  have hholds : h.Holds x y := ⟨c, hget, hv⟩
  exact ⟨hclosed x y hholds, fun hcontainer ↦ ⟨hcontainer, r, hmem, hreach.tail hholds⟩⟩

theorem within_below (hmem : v ∈ vs) (hbound : ∀ x ∈ v.ref?, x < h.size) :
    h.Within (h.below vs) v := by
  intro x hx
  obtain rfl := Value.eq_object_of_ref? hx
  exact ⟨hbound x hx, fun hcontainer ↦ ⟨hcontainer, x, hmem, .refl⟩⟩

theorem below_append (h : Heap) (vs ws : List Value) :
    h.below (vs ++ ws) = h.below vs ∪ h.below ws := by
  ext x
  simp only [Set.mem_union, mem_below, List.mem_append]
  constructor
  · rintro ⟨hx, r, hmem | hmem, hreach⟩
    · exact .inl ⟨hx, r, hmem, hreach⟩
    · exact .inr ⟨hx, r, hmem, hreach⟩
  · rintro (⟨hx, r, hmem, hreach⟩ | ⟨hx, r, hmem, hreach⟩)
    · exact ⟨hx, r, .inl hmem, hreach⟩
    · exact ⟨hx, r, .inr hmem, hreach⟩

/-! ### Confined work -/

theorem Within.of_confined (hv : h.Within area v) (hconfined : h.Confined h' area') :
    h'.Within (h.grown area) v := by
  intro x hx
  obtain ⟨hlt, hcontainer⟩ := hv x hx
  exact ⟨Nat.lt_of_lt_of_le hlt hconfined.size_le,
    fun hx' ↦ .inl (hcontainer (hconfined.isContainer x hlt hx'))⟩

theorem Confined.refl (harea : h.Encloses area) : h.Confined h area where
  size_le := Nat.le_refl _
  get?_eq _ _ _ := rfl
  isContainer _ _ hx := hx
  encloses := by
    rintro x (hx | hx) c hget v hv
    · exact (harea x hx c hget v hv).mono (subset_grown h area)
    · exact absurd (lt_size_of_get? hget) (Nat.not_lt_of_le hx)

/-- Confined work, and then work that is confined to the same area with the new cells. -/
theorem Confined.trans (hfirst : h.Confined h' area) (hlast : h'.Confined h'' (h.grown area)) :
    h.Confined h'' area where
  size_le := Nat.le_trans hfirst.size_le hlast.size_le
  get?_eq x hx hxa := by
    have hgrown : x ∉ h.grown area := by
      rintro (hmem | hle)
      · exact hxa hmem
      · exact Nat.not_lt_of_le hle hx
    rw [hlast.get?_eq x (Nat.lt_of_lt_of_le hx hfirst.size_le) hgrown, hfirst.get?_eq x hx hxa]
  isContainer x hx hx' :=
    hfirst.isContainer x hx (hlast.isContainer x (Nat.lt_of_lt_of_le hx hfirst.size_le) hx')
  encloses := by
    have hgrown : h'.grown (h.grown area) = h.grown area := by
      ext x
      constructor
      · rintro (hx | hx)
        · exact hx
        · exact .inr (Nat.le_trans hfirst.size_le hx)
      · exact .inl
    rw [← hgrown]
    exact hlast.encloses

/-- Work that is confined to an area is confined to every larger area that encloses what its
containers hold. -/
theorem Confined.mono (hconfined : h.Confined h' area) (hsub : area ⊆ area')
    (harea' : h.Encloses area') : h.Confined h' area' where
  size_le := hconfined.size_le
  get?_eq x hx hxa := hconfined.get?_eq x hx fun hmem ↦ hxa (hsub hmem)
  isContainer := hconfined.isContainer
  encloses := by
    intro x hx c hget v hv
    by_cases hold : x ∈ h.grown area
    · exact (hconfined.encloses x hold c hget v hv).mono fun y hy ↦ hy.imp (hsub ·) id
    · rw [mem_grown, not_or, Nat.not_le] at hold
      rw [hconfined.get?_eq x hold.2 hold.1] at hget
      have hxa : x ∈ area' := hx.resolve_right (Nat.not_le_of_lt hold.2)
      exact (harea' x hxa c hget v hv).of_confined hconfined

/-- Confined work leaves no reference to a missing cell behind where there was none. -/
theorem Confined.closed (hconfined : h.Confined h' area) (hclosed : h.Closed) : h'.Closed := by
  rintro x y ⟨c, hget, hmem⟩
  by_cases hx : x ∈ h.grown area
  · exact (hconfined.encloses x hx c hget _ hmem y rfl).1
  · rw [mem_grown, not_or, Nat.not_le] at hx
    rw [hconfined.get?_eq x hx.2 hx.1] at hget
    exact Nat.lt_of_lt_of_le (hclosed x y ⟨c, hget, hmem⟩) hconfined.size_le

/-- A deep copy is confined to the new cells, and so is the copy. -/
theorem Copies.confined {copies : List Value} {ts : List Tree} {rs : List Ref}
    (hcopies : h.Copies h' copies ts rs) :
    h.Confined h' ∅ ∧ ∀ v ∈ copies, h'.Within (h.grown ∅) v := by
  have hext := hcopies.extends_
  refine ⟨⟨hext.size_le, fun x hx _ ↦ hext.get?_eq x hx,
    fun x hx ↦ (IsContainer.congr (hext.get?_eq x hx)).mp, ?_⟩, ?_⟩
  · intro x hx c hget v hv y hy
    obtain rfl := Value.eq_object_of_ref? hy
    have hmem : x ∈ rs := hcopies.all x (lt_size_of_get? hget) (hx.resolve_left (Set.notMem_empty x))
    have hholds : h'.Holds x y := ⟨c, hget, hv⟩
    refine ⟨hcopies.lays.lt_size_of_holds hmem hholds, ?_⟩
    rintro ⟨c', hget', hc'⟩
    exact .inr (hcopies.fresh y (hcopies.lays.mem_of_holds hmem hholds hget' hc'))
  · intro v hv y hy
    obtain rfl := Value.eq_object_of_ref? hy
    refine ⟨hcopies.lays.lt_size_of_mem hv, ?_⟩
    rintro ⟨c', hget', hc'⟩
    exact .inr (hcopies.fresh y (hcopies.lays.mem_of_mem hv hget' hc'))

/-! ### What is left alone -/

theorem Closed.lt_of_reaches (hclosed : h.Closed) {r x : Ref} (hr : r < h.size)
    (hreach : Relation.ReflTransGen h.Holds r x) : x < h.size := by
  cases hreach with
  | refl => exact hr
  | tail _ hholds => exact hclosed _ _ hholds

theorem Closed.alloc (hclosed : h.Closed) {c : Cell}
    (hc : ∀ v ∈ c.contents, ∀ x ∈ v.ref?, x < h.size) : (h.alloc c).Closed := by
  rintro x y ⟨c', hget, hmem⟩
  rw [size_alloc]
  rw [get?_alloc] at hget
  split at hget
  · obtain rfl := Option.some.inj hget
    exact Nat.lt_succ_of_lt (hc _ hmem y rfl)
  · exact Nat.lt_succ_of_lt (hclosed x y ⟨c', hget, hmem⟩)

theorem Extends.spares (hext : h.Extends h') (vs : List Value) : h.Spares h' vs where
  size_le := hext.size_le
  get?_eq x hx _ := hext.get?_eq x hx
  isContainer x hx := (IsContainer.congr (hext.get?_eq x hx)).mp

/-- Confined work leaves alone what is below values that do not reach into the area. -/
theorem Confined.spares (hconfined : h.Confined h' area) (harea : ∀ x ∈ area, h.IsContainer x)
    (hapart : Disjoint area (h.below vs)) : h.Spares h' vs where
  size_le := hconfined.size_le
  get?_eq x hx hbelow := hconfined.get?_eq x hx fun hmem ↦
    Set.disjoint_left.mp hapart hmem (hbelow (harea x hmem))
  isContainer := hconfined.isContainer

section Spares

variable (hspares : h.Spares h' vs) (hclosed : h.Closed)
variable (hvs : ∀ v ∈ vs, ∀ x ∈ v.ref?, x < h.size)

include hspares hclosed hvs

theorem Spares.get?_eq_of_reaches {r x : Ref} (hmem : .object r ∈ vs)
    (hreach : Relation.ReflTransGen h.Holds r x) : h'.get? x = h.get? x :=
  hspares.get?_eq x (hclosed.lt_of_reaches (hvs _ hmem r rfl) hreach) fun hx ↦ ⟨hx, r, hmem, hreach⟩

theorem Spares.reaches_iff {r x : Ref} (hmem : .object r ∈ vs) :
    Relation.ReflTransGen h'.Holds r x ↔ Relation.ReflTransGen h.Holds r x := by
  have hsame := fun y ↦ hspares.get?_eq_of_reaches hclosed hvs hmem (x := y)
  constructor
  · intro hreach
    induction hreach with
    | refl => exact .refl
    | tail _ hholds ih =>
      obtain ⟨c, hget, hcontent⟩ := hholds
      rw [hsame _ ih] at hget
      exact ih.tail ⟨c, hget, hcontent⟩
  · intro hreach
    induction hreach with
    | refl => exact .refl
    | tail hy hholds ih =>
      obtain ⟨c, hget, hcontent⟩ := hholds
      rw [← hsame _ hy] at hget
      exact ih.tail ⟨c, hget, hcontent⟩

theorem Spares.below_eq : h'.below vs = h.below vs := by
  ext x
  simp only [mem_below]
  constructor
  · rintro ⟨hx, r, hmem, hreach⟩
    rw [hspares.reaches_iff hclosed hvs hmem] at hreach
    rw [IsContainer.congr (hspares.get?_eq_of_reaches hclosed hvs hmem hreach)] at hx
    exact ⟨hx, r, hmem, hreach⟩
  · rintro ⟨hx, r, hmem, hreach⟩
    rw [← IsContainer.congr (hspares.get?_eq_of_reaches hclosed hvs hmem hreach)] at hx
    rw [← hspares.reaches_iff hclosed hvs hmem] at hreach
    exact ⟨hx, r, hmem, hreach⟩

/-- The values are laid out as the same trees as before. -/
theorem Spares.shows_iff (hv : v ∈ vs) (t : Tree) : h'.Shows v t ↔ h.Shows v t := by
  constructor
  · rintro ⟨rs, hlays⟩
    refine ⟨rs, hlays.of_reaches fun r x c hmem hreach hget ↦ ?_⟩
    have hmem' : .object r ∈ vs := by rwa [List.mem_singleton.mp hmem]
    rw [hspares.reaches_iff hclosed hvs hmem'] at hreach
    rwa [← hspares.get?_eq_of_reaches hclosed hvs hmem' hreach]
  · rintro ⟨rs, hlays⟩
    refine ⟨rs, hlays.of_reaches fun r x c hmem hreach hget ↦ ?_⟩
    have hmem' : .object r ∈ vs := by rwa [List.mem_singleton.mp hmem]
    rwa [hspares.get?_eq_of_reaches hclosed hvs hmem' hreach]

end Spares

/-! ### Two parties -/

/-- No container is below values of both parties, and nothing is missing. -/
structure Apart (h : Heap) (vs ws : List Value) : Prop where
  closed : h.Closed
  left_lt : ∀ v ∈ vs, ∀ x ∈ v.ref?, x < h.size
  right_lt : ∀ v ∈ ws, ∀ x ∈ v.ref?, x < h.size
  disjoint : Disjoint (h.below vs) (h.below ws)

section Apart

variable {vs' ws : List Value}

theorem Apart.symm (hapart : h.Apart vs ws) : h.Apart ws vs :=
  ⟨hapart.closed, hapart.right_lt, hapart.left_lt, hapart.disjoint.symm⟩

theorem isContainer_of_mem_below {x : Ref} (hx : x ∈ h.below vs) : h.IsContainer x := hx.1

/-- Work of one party that is confined to an area which the other party does not reach leaves the
parties apart, whatever the first one holds afterwards in the area or among the new cells. -/
theorem Apart.of_confined (hapart : h.Apart vs ws) (hconfined : h.Confined h' area)
    (harea : ∀ x ∈ area, h.IsContainer x) (hdisjoint : Disjoint area (h.below ws))
    (hvs' : ∀ v ∈ vs', h'.Within (h.grown area) v) : h'.Apart vs' ws := by
  have hspares := hconfined.spares harea hdisjoint
  refine ⟨hconfined.closed hapart.closed, fun v hv x hx ↦ (hvs' v hv x hx).1, fun w hw x hx ↦
    Nat.lt_of_lt_of_le (hapart.right_lt w hw x hx) hconfined.size_le, ?_⟩
  rw [hspares.below_eq hapart.closed hapart.right_lt, Set.disjoint_left]
  intro x hx hxw
  rcases below_subset hconfined.encloses hvs' hx with hmem | hle
  · exact Set.disjoint_left.mp hdisjoint hmem hxw
  · exact Nat.not_lt_of_le hle (isContainer_of_mem_below hxw).lt_size

/-- What leaves the containers of both parties alone leaves the parties apart. -/
theorem Apart.of_spares (hapart : h.Apart vs ws) (hleft : h.Spares h' vs) (hright : h.Spares h' ws)
    (hclosed : h'.Closed) : h'.Apart vs ws := by
  refine ⟨hclosed, fun v hv x hx ↦ Nat.lt_of_lt_of_le (hapart.left_lt v hv x hx) hleft.size_le,
    fun w hw x hx ↦ Nat.lt_of_lt_of_le (hapart.right_lt w hw x hx) hleft.size_le, ?_⟩
  rw [hleft.below_eq hapart.closed hapart.left_lt, hright.below_eq hapart.closed hapart.right_lt]
  exact hapart.disjoint

end Apart

end Areas

end Heap

end DottedPath
