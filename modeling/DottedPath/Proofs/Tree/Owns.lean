import DottedPath.Proofs.Tree.Access
import DottedPath.Proofs.Tree.Focus

/-!
# Values that own their tree

A value owns a tree when it is laid out as the tree, reaches each container by one way only, and
reaches no ordered or read-only mapping (`Heap.Owns`). An owner keeps its tree as long as nothing that
is reached from it changes (`Owns.of_reaches`), and an owner whose slot is given to another owner
becomes the owner of the tree with the other tree in the slot (`Owns.at_slot`).
-/

set_option autoImplicit false
set_option relaxedAutoImplicit false

namespace DottedPath

namespace Heap

/-- The value is laid out as the tree in containers that are all different, no mapping among which is
ordered or read-only. -/
structure Owns (h : Heap) (v : Value) (t : Tree) (rs : List Ref) : Prop where
  lays : h.Lays [v] [t] rs
  nodup : rs.Nodup
  plain : h.Plain rs

/-- Of the cells that were there only some have changed. -/
structure ChangesOnly (h h' : Heap) (rs : List Ref) : Prop where
  size_le : h.size ≤ h'.size
  get?_eq : ∀ x < h.size, x ∉ rs → h'.get? x = h.get? x

/-- The fault of an access to a heap says of its values what the fault of an access to a tree says of
the trees that they are laid out as. -/
inductive Tells (h : Heap) : Fault → TreeFault → Prop
  | shape {field path : String} {kind : NodeKind} {v : Value} {t : Tree} {rs : List Ref}
    {mode : AccessMode} (hlays : h.Lays [v] [t] rs) :
    Tells h (.shape ⟨field, path, .shape kind, v, mode⟩) (.shape field kind t mode)
  | unindexed {field path : String} : Tells h (.path field path .unindexed) (.unindexed field)
  | aboveLimit {field path name : String} {n limit : Nat} :
    Tells h (.path field path (.aboveLimit name n limit)) (.aboveLimit field name n limit)

section Changes

variable {h h' h'' : Heap} {v w : Value} {t u : Tree} {rs ss : List Ref}

theorem Extends.changesOnly (hext : h.Extends h') (rs : List Ref) : h.ChangesOnly h' rs :=
  ⟨hext.size_le, fun x hx _ ↦ hext.get?_eq x hx⟩

theorem ChangesOnly.mono (hchange : h.ChangesOnly h' rs) (hsub : rs ⊆ ss) : h.ChangesOnly h' ss :=
  ⟨hchange.size_le, fun x hx hxs ↦ hchange.get?_eq x hx fun hmem ↦ hxs (hsub hmem)⟩

/-- Changes one after the other, the second of which may also change what the first has added. -/
theorem ChangesOnly.trans (hfirst : h.ChangesOnly h' rs) (hlast : h'.ChangesOnly h'' ss)
    (hss : ∀ x ∈ ss, x < h.size → x ∈ rs) : h.ChangesOnly h'' rs where
  size_le := Nat.le_trans hfirst.size_le hlast.size_le
  get?_eq x hx hxs := by
    rw [hlast.get?_eq x (Nat.lt_of_lt_of_le hx hfirst.size_le) fun hmem ↦ hxs (hss x hmem hx),
      hfirst.get?_eq x hx hxs]

theorem Lays.keepsLeaves {vs : List Value} {ts : List Tree} (hlays : h.Lays vs ts rs)
    (hchange : h.ChangesOnly h' rs) : h.KeepsLeaves h' := by
  intro x c hget hc
  have hx : x ∉ rs := by
    intro hmem
    obtain ⟨c', hget', hc'⟩ := hlays.isContainer x hmem
    rw [hget] at hget'
    obtain rfl := Option.some.inj hget'
    exact hc hc'
  exact ⟨c, by rw [hchange.get?_eq x (lt_size_of_get? hget) hx, hget], hc⟩

theorem Owns.frame (howns : h.Owns v t rs) (hkeeps : h.KeepsLeaves h')
    (hsame : ∀ x ∈ rs, h'.get? x = h.get? x) : h'.Owns v t rs :=
  ⟨howns.lays.frame hsame hkeeps, howns.nodup, howns.plain.congr hsame⟩

theorem Owns.of_extends (howns : h.Owns v t rs) (hext : h.Extends h') : h'.Owns v t rs :=
  howns.frame hext.keepsLeaves fun _ hx ↦ hext.get?_eq _ (howns.lays.lt_size hx)

/-- An owner keeps its tree when nothing that is reached from it changes. -/
theorem Owns.of_reaches {r : Ref} (howns : h.Owns (.object r) t rs)
    (hsame : ∀ x c, Relation.ReflTransGen h.Holds r x → h.get? x = some c → h'.get? x = some c) :
    h'.Owns (.object r) t rs := by
  have hlays : h'.Lays [.object r] [t] rs := howns.lays.of_reaches fun s x c hmem ↦ by
    obtain rfl := Value.object.inj (List.mem_singleton.mp hmem)
    exact hsame x c
  refine ⟨hlays, howns.nodup, howns.plain.congr fun x hx ↦ ?_⟩
  obtain ⟨c, hget, -⟩ := howns.lays.isContainer x hx
  rw [hget, hsame x c (howns.lays.reaches_root hx) hget]

end Changes

/-! ### Slots of owners -/

section Slots

variable {h h₁ h' : Heap} {r : Ref} {t : Tree} {rs rs₁ rs₂ rs₃ ss ws : List Ref} {s : Slot}

theorem mapping_of_put_eq {c : Cell} {s : Slot} {v : Value} {kind : MappingKind}
    {entries : Table Key Value} (hput : c.put s v = .mapping kind entries) :
    ∃ entries', c = .mapping kind entries' := by
  cases c <;> cases s <;> simp_all [Cell.put]

/-- The containers of a slot's tree among those of its owner. -/
theorem slot_perm (r : Ref) (rs₁ rs₂ rs₃ : List Ref) :
    (r :: (rs₁ ++ rs₂ ++ rs₃)).Perm (r :: (rs₁ ++ rs₃) ++ rs₂) := by
  rw [List.append_assoc, List.cons_append, List.append_assoc]
  exact (List.perm_append_comm.append_left rs₁).cons r

theorem beside_slot_subset (r : Ref) (rs₁ rs₂ rs₃ : List Ref) :
    r :: (rs₁ ++ rs₃) ⊆ r :: (rs₁ ++ rs₂ ++ rs₃) := by
  intro x hx
  exact (slot_perm r rs₁ rs₂ rs₃).mem_iff.mpr (List.mem_append_left rs₂ hx)

theorem nodup_beside_slot {rs₁ rs₂ rs₃ : List Ref} (hnodup : (r :: (rs₁ ++ rs₂ ++ rs₃)).Nodup) :
    (r :: (rs₁ ++ rs₃)).Nodup := by
  rw [(slot_perm r rs₁ rs₂ rs₃).nodup_iff, List.nodup_append] at hnodup
  exact hnodup.1

/-- A container beside a slot of an owner is not in the slot. -/
theorem notMem_of_beside_slot {rs₁ rs₂ rs₃ : List Ref} (hnodup : (r :: (rs₁ ++ rs₂ ++ rs₃)).Nodup) :
    ∀ x ∈ r :: (rs₁ ++ rs₃), x ∉ rs₂ := by
  rw [(slot_perm r rs₁ rs₂ rs₃).nodup_iff, List.nodup_append] at hnodup
  exact fun x hx hx₂ ↦ hnodup.2.2 x hx x hx₂ rfl

/-- Work elsewhere leaves a container as it is when what it holds in a slot is put there again. -/
theorem ChangesOnly.put_of_slot? {v : Value} (hchange : h.ChangesOnly h' rs)
    (hslot : h.slot? r s = some v) (hr : r ∉ rs) (x : Ref) :
    h'.get? x = if x = r then (h'.get? r).map (·.put s v) else h'.get? x := by
  split
  · next hx =>
    obtain ⟨c, hget, hc⟩ := Option.bind_eq_some_iff.mp hslot
    rw [hx, hchange.get?_eq r (lt_size_of_get? hget) hr, hget, Option.map_some, Cell.put_of_slot? hc]
  · rfl

/-- Putting a value into a slot of a container that may change is one of the changes. -/
theorem ChangesOnly.put {v : Value} (hchange : h.ChangesOnly h₁ ss) (hsub : ss ⊆ rs) (hr : r ∈ rs)
    (hsize : h'.size = h₁.size)
    (hget : ∀ x, h'.get? x = if x = r then (h₁.get? r).map (·.put s v) else h₁.get? x) :
    h.ChangesOnly h' rs where
  size_le := hsize ▸ hchange.size_le
  get?_eq x hx hxs := by
    rw [hget, if_neg (ne_of_mem_of_not_mem hr hxs).symm,
      hchange.get?_eq x hx fun hmem ↦ hxs (hsub hmem)]

theorem Plain.put {v : Value} (hplain : h.Plain [r])
    (hcell : h'.get? r = (h.get? r).map (·.put s v)) : h'.Plain [r] := by
  intro x hx kind entries hget
  obtain rfl := List.mem_singleton.mp hx
  rw [hcell] at hget
  obtain ⟨c, hc, hput⟩ := Option.map_eq_some_iff.mp hget
  obtain ⟨entries', rfl⟩ := mapping_of_put_eq hput
  exact hplain x hx kind entries' hc

/-- What comes from a slot of an owner, from elsewhere or is new is none of the containers beside the
slot. -/
theorem Owns.notMem_beside (howns : h.Owns (.object r) t (r :: (rs₁ ++ rs₂ ++ rs₃)))
    (hdisjoint : (r :: (rs₁ ++ rs₂ ++ rs₃)).Disjoint ss)
    (hfrom : ∀ x ∈ ws, x ∈ rs₂ ∨ x ∈ ss ∨ h.size ≤ x) : ∀ x ∈ ws, x ∉ r :: (rs₁ ++ rs₃) := by
  intro x hx hmem
  have hmem' := beside_slot_subset r rs₁ rs₂ rs₃ hmem
  rcases hfrom x hx with hx₂ | hxs | hle
  · exact notMem_of_beside_slot howns.nodup x hmem hx₂
  · exact hdisjoint hmem' hxs
  · exact Nat.not_lt_of_le hle (howns.lays.lt_size hmem')

/-- An owner that another one has been put into owns the tree as which it is laid out, if its own
containers beside the slot are what they were. -/
theorem Owns.of_put {t' tw : Tree} {v : Value} (howns : h.Owns (.object r) t (r :: (rs₁ ++ rs₂ ++ rs₃)))
    (hlays : h'.Lays [.object r] [t'] (r :: (rs₁ ++ ws ++ rs₃))) (hv : h'.Owns v tw ws)
    (hbeside : ∀ x ∈ ws, x ∉ r :: (rs₁ ++ rs₃))
    (hcell : h'.get? r = (h.get? r).map (·.put s v))
    (hrest : ∀ x ∈ rs₁ ++ rs₃, h'.get? x = h.get? x) :
    h'.Owns (.object r) t' (r :: (rs₁ ++ ws ++ rs₃)) where
  lays := hlays
  nodup := by
    rw [(slot_perm r rs₁ ws rs₃).nodup_iff, List.nodup_append]
    refine ⟨nodup_beside_slot howns.nodup, hv.nodup, ?_⟩
    rintro x hx y hy rfl
    exact hbeside x hy hx
  plain := by
    have hsub := beside_slot_subset r rs₁ rs₂ rs₃
    have hroot : h.Plain [r] := fun x hx ↦
      howns.plain x (List.mem_singleton.mp hx ▸ List.mem_cons_self ..)
    have hsides : h.Plain (rs₁ ++ rs₃) := fun x hx ↦
      howns.plain x (hsub (List.mem_cons_of_mem r hx))
    have hall : h'.Plain ([r] ++ (rs₁ ++ rs₃) ++ ws) :=
      plain_append.mpr ⟨plain_append.mpr ⟨hroot.put hcell, hsides.congr hrest⟩, hv.plain⟩
    exact fun x hx ↦ hall x ((slot_perm r rs₁ ws rs₃).mem_iff.mp hx)

/-- The value in a slot of an owner owns the tree there. When work in the containers of the slot has
left a value, in these containers, some given ones and new ones, and this value is put into the slot,
the first one is laid out as its tree with the tree of this value in the slot; and it owns this tree if
the value owns its own. -/
theorem Owns.at_slot (howns : h.Owns (.object r) t rs) (hsuits : h.SuitsAt r s) :
    ∃ rs₁ rs₂ rs₃, rs = r :: (rs₁ ++ rs₂ ++ rs₃) ∧
      h.Owns ((h.slot? r s).getD .null) ((t.slot? s).getD .null) rs₂ ∧
      ∀ ss h₁ h' w tw ws, rs.Disjoint ss → h.ChangesOnly h₁ rs₂ →
        (∀ x ∈ ws, x ∈ rs₂ ∨ x ∈ ss ∨ h.size ≤ x) → h'.size = h₁.size →
        (∀ x, h'.get? x = if x = r then (h₁.get? r).map (·.put s w) else h₁.get? x) →
        h.ChangesOnly h' rs ∧
          (∀ x ∈ r :: (rs₁ ++ ws ++ rs₃), x ∈ rs ∨ x ∈ ss ∨ h.size ≤ x) ∧
          (h₁.Lays [w] [tw] ws → h'.Lays [.object r] [t.put s tw] (r :: (rs₁ ++ ws ++ rs₃))) ∧
          (h₁.Owns w tw ws → h'.Owns (.object r) (t.put s tw) (r :: (rs₁ ++ ws ++ rs₃))) := by
  obtain ⟨rs₁, rs₂, rs₃, rfl, hslot, hput⟩ := howns.lays.at_slot hsuits
  have hsub := beside_slot_subset r rs₁ rs₂ rs₃
  have hin : rs₂ ⊆ r :: (rs₁ ++ rs₂ ++ rs₃) := fun x hx ↦ by simp [hx]
  have hnodup := howns.nodup
  rw [(slot_perm r rs₁ rs₂ rs₃).nodup_iff, List.nodup_append] at hnodup
  refine ⟨rs₁, rs₂, rs₃, rfl, ⟨hslot, hnodup.2.1, fun x hx ↦ howns.plain x (hin hx)⟩, ?_⟩
  intro ss h₁ h' w tw ws hdisjoint hchange hfrom hsize hget
  have hbeside := howns.notMem_beside hdisjoint hfrom
  have hkept : ∀ x ∈ r :: (rs₁ ++ rs₃), h₁.get? x = h.get? x := fun x hx ↦
    hchange.get?_eq x (howns.lays.lt_size (hsub hx)) (notMem_of_beside_slot howns.nodup x hx)
  have hother : ∀ x, x ≠ r → h'.get? x = h₁.get? x := fun x hx ↦ by rw [hget, if_neg hx]
  have hcell : h'.get? r = (h.get? r).map (·.put s w) := by
    rw [hget, if_pos rfl, hkept r (List.mem_cons_self ..)]
  have hrest : ∀ x ∈ rs₁ ++ rs₃, h'.get? x = h.get? x := by
    intro x hx
    have hxr : x ≠ r := fun hxr ↦ (List.nodup_cons.mp hnodup.1).1 (hxr ▸ hx)
    rw [hother x hxr, hkept x (List.mem_cons_of_mem r hx)]
  have hvalue : ∀ x ∈ ws, h'.get? x = h₁.get? x := fun x hx ↦
    hother x fun hxr ↦ hbeside x hx (hxr ▸ List.mem_cons_self ..)
  have hlays : h₁.Lays [w] [tw] ws →
      h'.Lays [.object r] [t.put s tw] (r :: (rs₁ ++ ws ++ rs₃)) := fun hw ↦
    hput h' ((hslot.keepsLeaves hchange).trans (keepsLeaves_of_put hget)) hrest w tw ws hcell
      (hw.frame hvalue (keepsLeaves_of_put hget))
  refine ⟨hchange.put hin (List.mem_cons_self ..) hsize hget, fun x hx ↦ ?_, hlays, fun hw ↦
    howns.of_put (hlays hw.lays) (hw.frame (keepsLeaves_of_put hget) hvalue) hbeside hcell hrest⟩
  rcases List.mem_append.mp ((slot_perm r rs₁ ws rs₃).mem_iff.mp hx) with hx | hx
  · exact .inl (hsub hx)
  · exact (hfrom x hx).imp_left (hin ·)

end Slots

end Heap

end DottedPath
