import DottedPath.Proofs.Isolation.Scans

/-!
# Edits of a caller

A caller puts a value into a mapping or a list at hand, appends it, or takes an entry or an item away.
Each such edit alters one container (`alters_putAt`, `alters_pushTo`, `alters_deleteAt`): all other
cells stay as they are, and whatever area has the container and the value has the altered container
and all that it holds.
-/

set_option autoImplicit false
set_option relaxedAutoImplicit false

namespace DottedPath

namespace Heap

/-- Of the cells only one container has changed, and it holds what it held, or the value. -/
structure Alters (h h' : Heap) (r : Ref) (v : Value) : Prop where
  isContainer : h.IsContainer r
  get?_eq : ∀ x, x ≠ r → h'.get? x = h.get? x
  confined : ∀ area, h.Encloses area → h.Within area (.object r) → h.Within area v →
    h.Confined h' area

section Edits

variable {h h' : Heap} {r : Ref} {v : Value} {key : Key}

theorem get?_mapEntries_of_ne (h : Heap) (change : Table Key Value → Table Key Value) {x : Ref}
    (hx : x ≠ r) : (h.mapEntries r change).get? x = h.get? x := by
  rw [get?_mapEntries, if_neg hx]

theorem get?_mapItems_of_ne (h : Heap) (change : List Value → List Value) {x : Ref} (hx : x ≠ r) :
    (h.mapItems r change).get? x = h.get? x := by
  rw [get?_mapItems, if_neg hx]

theorem refuseAt_ne_ok (h : Heap) (w : Value) (refusal : ValueType → Bool → EditFault) (key : Key)
    (h' : Heap) : h.refuseAt w refusal key ≠ .ok h' := by
  unfold refuseAt
  split
  · next n _ =>
    cases checkIndex n <;> exact nofun
  · exact nofun

theorem alters_assign (hcontainer : h.IsContainer r) (hassign : h.assign r key v = .ok h') :
    h.Alters h' r v where
  isContainer := hcontainer
  get?_eq x hx := by
    unfold assign at hassign
    split at hassign
    · cases hassign
    · rw [← Except.ok.inj hassign]
      exact get?_mapEntries_of_ne h _ hx
  confined area harea hr hv := confined_assign harea (hr r rfl).2 hv hassign

theorem alters_delete (hcontainer : h.IsContainer r) (hdelete : h.delete r key = .ok h') :
    h.Alters h' r .null where
  isContainer := hcontainer
  get?_eq x hx := by
    unfold delete at hdelete
    split at hdelete
    · cases hdelete
    · rw [← Except.ok.inj hdelete]
      exact get?_mapEntries_of_ne h _ hx
  confined area harea hr _ := confined_delete harea (hr r rfl).2 hdelete

theorem isContainer_of_node_mapping {w : Value} {kind : MappingKind} {entries : Table Key Value}
    (hnode : h.node w = .mapping r kind entries) : w = .object r ∧ h.IsContainer r :=
  ⟨(of_node_eq_mapping hnode).1, _, (of_node_eq_mapping hnode).2, trivial⟩

theorem isContainer_of_node_list {w : Value} {items : List Value}
    (hnode : h.node w = .list r items) : w = .object r ∧ h.IsContainer r :=
  ⟨(of_node_eq_list hnode).1, _, (of_node_eq_list hnode).2, trivial⟩

/-- Putting a value under a key or at an index. -/
theorem alters_putAt (hput : h.putAt (.object r) key v = .ok h') : h.Alters h' r v := by
  unfold putAt at hput
  split at hput
  · exact (refuseAt_ne_ok _ _ _ _ _ hput).elim
  · next hnode =>
    obtain ⟨heq, hcontainer⟩ := isContainer_of_node_mapping hnode
    obtain rfl := Value.object.inj heq
    exact alters_assign hcontainer hput
  · next s items hnode =>
    obtain ⟨heq, hcontainer⟩ := isContainer_of_node_list hnode
    obtain rfl := Value.object.inj heq
    cases hplace : placeIn items.length .listChange key with
    | error fault => simp [hplace, bind, Except.bind] at hput
    | ok i =>
      simp only [hplace, bind, Except.bind, pure, Except.pure] at hput
      obtain rfl := Except.ok.inj hput
      exact ⟨hcontainer, fun x hx ↦ get?_mapItems_of_ne h _ hx,
        fun area harea hr hv ↦ confined_setItem harea (hr r rfl).2 hv⟩
  · exact (refuseAt_ne_ok _ _ _ _ _ hput).elim

/-- Appending a value to a list. -/
theorem alters_pushTo (hpush : h.pushTo (.object r) v = .ok h') : h.Alters h' r v := by
  unfold pushTo at hpush
  split at hpush
  · next s items hnode =>
    obtain ⟨heq, hcontainer⟩ := isContainer_of_node_list hnode
    obtain rfl := Value.object.inj heq
    obtain rfl := Except.ok.inj hpush
    exact ⟨hcontainer, fun x hx ↦ get?_mapItems_of_ne h _ hx,
      fun area harea hr hv ↦ confined_push harea (hr r rfl).2 hv⟩
  · cases hpush

/-- Taking away the entry under a key, or the item at an index. -/
theorem alters_deleteAt (hdelete : h.deleteAt (.object r) key = .ok h') : h.Alters h' r .null := by
  unfold deleteAt at hdelete
  split at hdelete
  · exact (refuseAt_ne_ok _ _ _ _ _ hdelete).elim
  · next hnode =>
    obtain ⟨heq, hcontainer⟩ := isContainer_of_node_mapping hnode
    obtain rfl := Value.object.inj heq
    split at hdelete
    · cases hdelete
    · exact alters_delete hcontainer hdelete
  · next s items hnode =>
    obtain ⟨heq, hcontainer⟩ := isContainer_of_node_list hnode
    obtain rfl := Value.object.inj heq
    cases hplace : placeIn items.length .listChange key with
    | error fault => simp [hplace, bind, Except.bind] at hdelete
    | ok i =>
      simp only [hplace, bind, Except.bind, pure, Except.pure] at hdelete
      obtain rfl := Except.ok.inj hdelete
      exact ⟨hcontainer, fun x hx ↦ get?_mapItems_of_ne h _ hx,
        fun area harea hr _ ↦ confined_eraseItem harea (hr r rfl).2⟩
  · exact (refuseAt_ne_ok _ _ _ _ _ hdelete).elim

/-- An edit in a container below some values is confined to what is below these values and the
new one. -/
theorem Alters.confined_below {vs : List Value} (halters : h.Alters h' r v) (hclosed : h.Closed)
    (hr : r ∈ h.below vs) (hv : ∀ x ∈ v.ref?, x < h.size) : h.Confined h' (h.below (vs ++ [v])) := by
  refine halters.confined _ (encloses_below hclosed _) ?_ (within_below (by simp) hv)
  refine within_object halters.isContainer.lt_size fun _ ↦ ?_
  rw [below_append]
  exact .inl hr

/-- An edit leaves alone what is below values that do not reach the container. -/
theorem Alters.spares {vs : List Value} (halters : h.Alters h' r v) (hclosed : h.Closed)
    (hv : ∀ x ∈ v.ref?, x < h.size) (hapart : r ∉ h.below vs) : h.Spares h' vs := by
  have hself : r ∈ h.below [.object r] :=
    ⟨halters.isContainer, r, List.mem_singleton_self _, .refl⟩
  have hconfined := halters.confined_below hclosed hself hv
  refine ⟨hconfined.size_le, fun x hx hbelow ↦ halters.get?_eq x ?_, hconfined.isContainer⟩
  rintro rfl
  exact hapart (hbelow halters.isContainer)

theorem Alters.closed (halters : h.Alters h' r v) (hclosed : h.Closed)
    (hv : ∀ x ∈ v.ref?, x < h.size) : h'.Closed := by
  have hself : r ∈ h.below [.object r] :=
    ⟨halters.isContainer, r, List.mem_singleton_self _, .refl⟩
  exact (halters.confined_below hclosed hself hv).closed hclosed

end Edits

end Heap

end DottedPath
