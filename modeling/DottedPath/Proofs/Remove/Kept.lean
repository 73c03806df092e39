import DottedPath.Proofs.Heap.Reach
import DottedPath.Proofs.Remove.Thins

/-!
# What a removal leaves alone

A removal works in its root and in what is reached from there. A set of containers that has every
container which holds one of them (`Heap.Upward`) can only be entered from within, so a removal from
a root outside of it changes none of them (`thinsOutside_remove`), however often its steps `name[]`
branch on the way and wherever a fault stops it. The set stays one of this kind, since a removal only
takes contents away.

In an acyclic heap, what is above a container is such a set, and what the container holds is outside
of it (`not_mem_above`).
-/

set_option autoImplicit false
set_option relaxedAutoImplicit false

namespace DottedPath

open Scan

namespace Cell

theorem LeftOf.contents_subset {c c' : Cell} (hleft : c'.LeftOf c) : c'.contents ⊆ c.contents := by
  cases hleft with
  | same => exact List.Subset.refl _
  | mapping hsub => exact (hsub.map Prod.snd).subset
  | list hsub => exact hsub.subset

end Cell

namespace Heap

/-- Every container that holds one of these is one of these. -/
def Upward (h : Heap) (kept : Set Ref) : Prop := ∀ r s, h.Holds r s → s ∈ kept → r ∈ kept

/-- The container and those from which it is reached. -/
def above (h : Heap) (r : Ref) : Set Ref := {x | Relation.ReflTransGen h.Holds x r}

/-- Contents have been taken away, but from none of these containers. -/
structure ThinsOutside (kept : Set Ref) (h h' : Heap) : Prop extends Thins h h' where
  get?_eq : ∀ r ∈ kept, h'.get? r = h.get? r

section Kept

variable {h h' h'' : Heap} {r s c : Ref} {kept : Set Ref}

theorem upward_above (h : Heap) (r : Ref) : h.Upward (h.above r) :=
  fun _ _ hholds hs ↦ .head hholds hs

theorem self_mem_above (h : Heap) (r : Ref) : r ∈ h.above r := .refl

/-- In an acyclic heap, what a container holds is not above it. -/
theorem not_mem_above (hacyclic : h.Acyclic) (hholds : h.Holds r c) : c ∉ h.above r :=
  fun hc ↦ hacyclic r (.head' hholds hc)

theorem Upward.not_mem (hupward : h.Upward kept) (hr : r ∉ kept) (hholds : h.Holds r s) :
    s ∉ kept :=
  fun hs ↦ hr (hupward r s hholds hs)

/-! ### Heaps from which contents have been taken away -/

theorem Thins.exists_get? {c' : Cell} (hthins : h.Thins h') (hget' : h'.get? r = some c') :
    ∃ c, h.get? r = some c := by
  have hr : r < h.size := hthins.size_eq ▸ lt_size_of_get? hget'
  exact ⟨_, Array.getElem?_eq_getElem hr⟩

theorem Thins.holds (hthins : h.Thins h') (hholds : h'.Holds r s) : h.Holds r s := by
  obtain ⟨c', hget', hmem⟩ := hholds
  obtain ⟨c, hget⟩ := hthins.exists_get? hget'
  obtain ⟨c'', hget'', hleft⟩ := hthins.leftOf r c hget
  obtain rfl : c' = c'' := Option.some.inj (hget'.symm.trans hget'')
  exact ⟨c, hget, hleft.contents_subset hmem⟩

theorem Thins.upward (hthins : h.Thins h') (hupward : h.Upward kept) : h'.Upward kept :=
  fun r s hholds ↦ hupward r s (hthins.holds hholds)

theorem Thins.acyclic (hthins : h.Thins h') (hacyclic : h.Acyclic) : h'.Acyclic := by
  intro r hcycle
  exact hacyclic r (Relation.TransGen.mono (fun _ _ ↦ hthins.holds) r r hcycle)

theorem Thins.isMapping_iff (hthins : h.Thins h') : h'.IsMapping r ↔ h.IsMapping r := by
  constructor
  · rintro ⟨kind, entries, hget'⟩
    obtain ⟨c, hget⟩ := hthins.exists_get? hget'
    obtain ⟨c', hc', hleft⟩ := hthins.leftOf r c hget
    obtain rfl := Option.some.inj (hget'.symm.trans hc')
    cases hleft with
    | same => exact ⟨kind, entries, hget⟩
    | mapping => exact ⟨kind, _, hget⟩
  · rintro ⟨kind, entries, hget⟩
    obtain ⟨c', hget', hleft⟩ := hthins.leftOf r _ hget
    cases hleft with
    | same => exact ⟨kind, entries, hget'⟩
    | mapping => exact ⟨kind, _, hget'⟩

theorem ThinsOutside.refl (kept : Set Ref) (h : Heap) : ThinsOutside kept h h :=
  ⟨.refl h, fun _ _ ↦ rfl⟩

theorem ThinsOutside.trans (hfirst : ThinsOutside kept h h') (hlast : ThinsOutside kept h' h'') :
    ThinsOutside kept h h'' :=
  ⟨hfirst.toThins.trans hlast.toThins,
    fun r hr ↦ (hlast.get?_eq r hr).trans (hfirst.get?_eq r hr)⟩

/-! ### What work outside of the set leaves alone -/

theorem thinsOutside_eraseIdx (hr : r ∉ kept) (n : Nat) :
    ThinsOutside kept h (h.mapItems r fun items ↦ items.eraseIdx n) :=
  ⟨thins_eraseIdx h r n, fun x hx ↦ by rw [get?_mapItems, if_neg (ne_of_mem_of_not_mem hx hr)]⟩

theorem thinsOutside_unset (hr : r ∉ kept) (name : String) :
    ThinsOutside kept h (h.unset r name).2 := by
  refine ⟨thins_unset h r name, fun x hx ↦ ?_⟩
  unfold unset delete
  split
  · rfl
  · split
    · rfl
    · simp only [changed]
      rw [get?_mapEntries, if_neg (ne_of_mem_of_not_mem hx hr)]

theorem thinsOutside_visit {slot : Slot} {check : Heap → Value → Except Fault Ref}
    {work : Ref → Heap → Except Fault Unit × Heap}
    (hcheck : ∀ v c, check h v = .ok c → v = .object c)
    (hwork : ∀ c, h.Holds r c → ThinsOutside kept h (work c h).2) :
    ThinsOutside kept h (h.visit r slot check work).2 := by
  unfold visit
  split
  · exact .refl kept h
  · next hnull =>
    cases hchecked : check h ((h.slot? r slot).getD .null) with
    | error e => exact .refl kept h
    | ok c =>
      have hvalue := hcheck _ _ hchecked
      exact hwork c (holds_of_slot? (slot?_of_getD hvalue (hvalue ▸ hnull)))

theorem thinsOutside_sweep {work : Ref → Heap → Except Fault Unit × Heap} {rs : List Ref}
    (hupward : h.Upward kept) (hrs : ∀ c ∈ rs, c ∉ kept)
    (hwork : ∀ c h, Upward h kept → c ∉ kept → ThinsOutside kept h (work c h).2) :
    ThinsOutside kept h (sweep work rs h).2 := by
  induction rs generalizing h with
  | nil => exact .refl kept h
  | cons c rs ih =>
    obtain ⟨hc, hrs⟩ := List.forall_mem_cons.mp hrs
    have hfirst := hwork c h hupward hc
    rw [sweep]
    generalize work c h = x at hfirst ⊢
    obtain ⟨e | _, h₁⟩ := x
    · exact hfirst
    · exact hfirst.trans (ih (hfirst.toThins.upward hupward) hrs)

theorem mem_mappingsAmong_iff {items : List Value} :
    c ∈ h.mappingsAmong items ↔ .object c ∈ items ∧ h.IsMapping c := by
  constructor
  · intro hc
    obtain ⟨item, hitem, hsome⟩ := List.mem_filterMap.mp hc
    split at hsome
    · next hnode =>
      obtain rfl := Option.some.inj hsome
      obtain ⟨rfl, hget⟩ := of_node_eq_mapping hnode
      exact ⟨hitem, _, _, hget⟩
    · cases hsome
  · rintro ⟨hitem, kind, entries, hget⟩
    exact List.mem_filterMap.mpr ⟨_, hitem, by simp [node, hget]⟩

theorem holds_of_mem_mappingsAmong (hc : c ∈ h.mappingsAmong (h.items r)) : h.Holds r c := by
  obtain ⟨n, hn⟩ := List.mem_iff_getElem?.mp (mem_mappingsAmong_iff.mp hc).1
  refine holds_of_slot? (s := .index n) ?_
  rw [← getElem?_items_eq_slot?, hn]

end Kept

end Heap

/-- Assumes: a set of containers with every container that holds one of them, and a root outside of
it. A removal takes contents away from none of these containers, however it ends. -/
theorem thinsOutside_remove {h : Heap} {kept : Set Ref} {root : Ref} {path : String}
    (hupward : h.Upward kept) (hroot : root ∉ kept) :
    Heap.ThinsOutside kept h ((remove root path).effect h).2 := by
  induction path using Path.induction generalizing root h with
  | broken path e he =>
    rw [effect_remove_of_error he]
    exact .refl kept h
  | last path step hstep hrest =>
    cases hplace : step.place with
    | key =>
      rw [effect_remove_of_last hstep hrest hplace]
      exact Heap.thinsOutside_unset hroot step.name
    | item n =>
      rw [effect_remove_of_last_item hstep hrest hplace]
      exact Heap.thinsOutside_visit (Step.eq_object_of_checkList h) fun list hlist ↦
        Heap.thinsOutside_eraseIdx (hupward.not_mem hroot hlist) n
    | every =>
      have hfirst : Heap.ThinsOutside kept h
          (h.visit root (.field step.name) step.checkList fun _ h ↦ (.ok (), h)).2 :=
        Heap.thinsOutside_visit (Step.eq_object_of_checkList h) fun _ _ ↦ .refl kept h
      rw [effect_remove_of_last_every hstep hrest hplace]
      generalize h.visit root (.field step.name) step.checkList _ = x at hfirst ⊢
      obtain ⟨e | _, h₁⟩ := x
      · exact hfirst
      · exact hfirst.trans (Heap.thinsOutside_unset hroot step.name)
  | more path step rest hstep hrest ih =>
    cases hplace : step.place with
    | key =>
      rw [effect_remove_of_more hstep hrest hplace]
      exact Heap.thinsOutside_visit (Step.eq_object_of_checkMapping h) fun child hchild ↦
        ih hupward (hupward.not_mem hroot hchild)
    | item n =>
      rw [effect_remove_of_more_item hstep hrest hplace]
      exact Heap.thinsOutside_visit (Step.eq_object_of_checkList h) fun list hlist ↦
        Heap.thinsOutside_visit (Step.eq_object_of_checkMapping h) fun child hchild ↦
          ih hupward (hupward.not_mem (hupward.not_mem hroot hlist) hchild)
    | every =>
      rw [effect_remove_of_more_every hstep hrest hplace]
      refine Heap.thinsOutside_visit (Step.eq_object_of_checkList h) fun list hlist ↦ ?_
      refine Heap.thinsOutside_sweep hupward (fun child hchild ↦ ?_) fun child h₁ hupward₁ hchild ↦
        ih hupward₁ hchild
      exact hupward.not_mem (hupward.not_mem hroot hlist)
        (Heap.holds_of_mem_mappingsAmong hchild)

/-- In an acyclic heap, removals in mappings that a list holds leave everything above the list alone. -/
theorem thinsOutside_sweep_remove {h : Heap} (hacyclic : h.Acyclic) (list : Ref) (rs : List Ref)
    (hrs : ∀ c ∈ rs, h.Holds list c) (rest : String) :
    Heap.ThinsOutside (h.above list) h
      (sweep (fun child ↦ (remove child rest).effect) rs h).2 :=
  Heap.thinsOutside_sweep (h.upward_above list)
    (fun c hc ↦ Heap.not_mem_above hacyclic (hrs c hc)) fun _ _ ↦ thinsOutside_remove

end DottedPath
