import DottedPath.Proofs.Remove.Bulk
import DottedPath.Proofs.Scan.Presence

/-!
# A removal is final

What has been removed is gone (`Heap.Gone`): wherever the path still goes, through every item of a
list if it has a step `name[]`, it comes to a key that is missing, or to a null on its way. A removal
that succeeds brings this about unless its last step is `name[n]`, where the next item moves up
(`gone_of_remove`). The removals that follow in other items of a list do not undo it, since they take
away keys and nothing else (`Gone.of_thinsMappings`), and whatever has been taken away, the same
removal finds nothing more to do (`Gone.effect_remove`). So a removal can be repeated without any
effect (`removal_is_final`).

Where no step `name[]` stands before the end of the path, nothing is there and nothing is read
(`Gone.effect_get_has`). A path that has such a step leads into each item of a list, and what is gone
along the path is gone in each item that is a mapping (`Gone.atItem`).
-/

set_option autoImplicit false
set_option relaxedAutoImplicit false

namespace DottedPath

open Scan

/-! ### Keys that are taken away -/

namespace Table

variable {κ α : Type} [DecidableEq κ] {t t' : Table κ α} {k : κ} {a : α}

theorem find?_of_sublist (hsub : t'.entries.Sublist t.entries) (hfind : t'.find? k = some a) :
    t.find? k = some a :=
  find?_of_mem_entries (hsub.subset (mem_entries_of_find? hfind))

end Table

theorem Cell.LeftOf.slot?_field {c c' : Cell} {name : String} {v : Value} (hleft : c'.LeftOf c)
    (hslot : c'.slot? (.field name) = some v) : c.slot? (.field name) = some v := by
  cases hleft with
  | same => exact hslot
  | mapping hsub => exact Table.find?_of_sublist hsub hslot
  | list => simp [Cell.slot?] at hslot

namespace Heap

/-- Entries of mappings have been taken away, and nothing else has happened. -/
structure ThinsMappings (h h' : Heap) : Prop extends Thins h h' where
  get?_list : ∀ r items, h.get? r = some (.list items) → h'.get? r = some (.list items)

section ThinsMappings

variable {h h' h'' : Heap} {r c : Ref} {s : Slot} {slots : List Slot} {v : Value} {name : String}

theorem ThinsMappings.refl (h : Heap) : h.ThinsMappings h := ⟨.refl h, fun _ _ ↦ id⟩

theorem ThinsMappings.trans (hfirst : h.ThinsMappings h') (hlast : h'.ThinsMappings h'') :
    h.ThinsMappings h'' :=
  ⟨hfirst.toThins.trans hlast.toThins,
    fun r items hget ↦ hlast.get?_list r items (hfirst.get?_list r items hget)⟩

theorem thinsMappings_unset (h : Heap) (r : Ref) (name : String) :
    h.ThinsMappings (h.unset r name).2 := by
  refine ⟨thins_unset h r name, fun x items hget ↦ ?_⟩
  unfold unset delete
  split
  · exact hget
  · split
    · exact hget
    · simp only [changed]
      rw [get?_mapEntries]
      split
      · next hx => rw [← hx, hget, Option.map_some]
      · exact hget

theorem Thins.slot?_field (hthins : h.Thins h') (hslot : h'.slot? r (.field name) = some v) :
    h.slot? r (.field name) = some v := by
  obtain ⟨c', hget', hc'⟩ := Option.bind_eq_some_iff.mp hslot
  obtain ⟨c, hget⟩ := hthins.exists_get? hget'
  obtain ⟨c'', hget'', hleft⟩ := hthins.leftOf r c hget
  obtain rfl : c' = c'' := Option.some.inj (hget'.symm.trans hget'')
  rw [slot?, hget]
  exact hleft.slot?_field hc'

theorem ThinsMappings.slot?_index {n : Nat} (hthins : h.ThinsMappings h')
    (hslot : h.slot? r (.index n) = some v) : h'.slot? r (.index n) = some v := by
  obtain ⟨items, hget, hitem⟩ := exists_list_of_slot?_index hslot
  rw [slot?, hthins.get?_list r items hget]
  exact hitem

/-- What stands in a slot has stood there before. -/
theorem ThinsMappings.slot?_of_slot? (hthins : h.ThinsMappings h') (hslot : h'.slot? r s = some v) :
    h.slot? r s = some v := by
  cases s with
  | field name => exact hthins.toThins.slot?_field hslot
  | next => simp [slot?] at hslot
  | index n =>
    obtain ⟨items, hget', hitem⟩ := exists_list_of_slot?_index hslot
    obtain ⟨c, hget⟩ := hthins.toThins.exists_get? hget'
    obtain ⟨c', hc', hleft⟩ := hthins.toThins.leftOf r c hget
    obtain rfl := Option.some.inj (hget'.symm.trans hc')
    cases hleft with
    | same =>
      rw [slot?, hget]
      exact hitem
    | list =>
      rw [hthins.get?_list r _ hget] at hget'
      obtain rfl : _ = items := Cell.list.inj (Option.some.inj hget')
      rw [slot?, hget]
      exact hitem

/-- Slots that lead to a container have led there before. -/
theorem ThinsMappings.leads_of_leads (hthins : h.ThinsMappings h') (hleads : h'.Leads r slots c) :
    h.Leads r slots c := by
  induction hleads with
  | here r => exact .here r
  | through hslot _ ih => exact .through (hthins.slot?_of_slot? hslot) ih

/-- A key still holds what it held, or is missing. -/
theorem Thins.field_or_missing (hthins : h.Thins h') (hslot : h.slot? r (.field name) = some v) :
    h'.slot? r (.field name) = some v ∨ h'.slot? r (.field name) = none := by
  cases hslot' : h'.slot? r (.field name) with
  | none => exact .inr rfl
  | some w =>
    have hsame := hthins.slot?_field hslot'
    exact .inl (hsame.symm.trans hslot)

/-- A step still leads where it led, or its key is missing. -/
theorem ThinsMappings.leads_or_missing {hop : Hop} (hthins : h.ThinsMappings h')
    (hleads : h.Leads r hop.slots c) :
    h'.Leads r hop.slots c ∨ h'.slot? r (.field hop.name) = none := by
  rw [Hop.slots] at hleads ⊢
  cases hleads with
  | through hslot hend =>
    refine (hthins.toThins.field_or_missing hslot).imp_left fun hslot' ↦ .through hslot' ?_
    cases hplace : hop.place.slot? with
    | none =>
      rw [hplace] at hend
      cases hend
      exact .here c
    | some slot =>
      rw [hplace] at hend
      cases hend with
      | through hitem hend =>
        cases hend
        refine .through ?_ (.here c)
        cases slot with
        | index n => exact hthins.slot?_index hitem
        | next => simp [slot?] at hitem
        | field name => cases hop with | mk _ place => cases place <;> simp [Place.slot?] at hplace

end ThinsMappings

end Heap

/-- Whatever its end, a removal whose last step is not `name[n]` takes entries of mappings away and
does nothing else. -/
theorem thinsMappings_remove {path : String} (hends : ¬ Path.EndsAtItem path) (root : Ref) (h : Heap) :
    h.ThinsMappings ((remove root path).effect h).2 :=
  remove_rel Heap.ThinsMappings.refl (fun _ _ _ ↦ .trans) Heap.thinsMappings_unset root path
    (fun hitem ↦ absurd hitem hends) h

namespace Heap

/-! ### What is gone -/

/-- From a mapping a path comes to a missing key, or to a null with more steps behind it, before it
comes to its end; and it does so through every mapping in a list if it has a step `name[]` there. -/
inductive Gone (h : Heap) : Ref → String → Prop
  | missing {r : Ref} {path : String} {step : Step} (hstep : Step.decode path = .ok step)
    (hslot : h.slot? r (.field step.name) = none) : Gone h r path
  | null {r : Ref} {path rest : String} {step : Step} (hstep : Step.decode path = .ok step)
    (hrest : step.rest = some rest) (hslot : h.slot? r (.field step.name) = some .null) : Gone h r path
  | nullItem {r list : Ref} {path rest : String} {step : Step} {n : Nat} {items : List Value}
    (hstep : Step.decode path = .ok step) (hrest : step.rest = some rest)
    (hplace : step.place = .item n) (hslot : h.slot? r (.field step.name) = some (.object list))
    (hlist : h.get? list = some (.list items)) (hitem : items[n]?.getD .null = .null) : Gone h r path
  | inside {r child : Ref} {path rest : String} {step : Step} (hstep : Step.decode path = .ok step)
    (hrest : step.rest = some rest) (hleads : h.Leads r step.hop.slots child)
    (hchild : h.IsMapping child) (hgone : Gone h child rest) : Gone h r path
  | among {r list : Ref} {path rest : String} {step : Step} {items : List Value}
    (hstep : Step.decode path = .ok step) (hrest : step.rest = some rest)
    (hplace : step.place = .every) (hslot : h.slot? r (.field step.name) = some (.object list))
    (hlist : h.get? list = some (.list items))
    (hgone : ∀ child, .object child ∈ items → h.IsMapping child → Gone h child rest) : Gone h r path

section Gone

variable {h h' : Heap} {r root list child c : Ref} {s : Slot} {path rest : String} {step : Step}
variable {items : List Value}

theorem gone_of_child (hthins : h.ThinsMappings h') (hstep : Step.decode path = .ok step)
    (hrest : step.rest = some rest) (hleads : h.Leads r step.hop.slots child)
    (hchild : h.IsMapping child) (hgone : h'.Gone child rest) : h'.Gone r path := by
  obtain hleads' | hmissing := hthins.leads_or_missing hleads
  · exact .inside hstep hrest hleads' (hthins.toThins.isMapping_iff.mpr hchild) hgone
  · exact .missing hstep hmissing

theorem gone_of_children (hthins : h.ThinsMappings h') (hstep : Step.decode path = .ok step)
    (hrest : step.rest = some rest) (hplace : step.place = .every)
    (hslot : h.slot? r (.field step.name) = some (.object list))
    (hlist : h.get? list = some (.list items))
    (hgone : ∀ child, .object child ∈ items → h.IsMapping child → h'.Gone child rest) :
    h'.Gone r path := by
  obtain hslot' | hmissing := hthins.toThins.field_or_missing hslot
  · refine .among hstep hrest hplace hslot' (hthins.get?_list list items hlist) fun child hitem hc ↦ ?_
    exact hgone child hitem (hthins.toThins.isMapping_iff.mp hc)
  · exact .missing hstep hmissing

/-- What is gone stays gone when more entries are taken away. -/
theorem Gone.of_thinsMappings (hthins : h.ThinsMappings h') (hgone : h.Gone r path) :
    h'.Gone r path := by
  induction hgone with
  | missing hstep hslot =>
    refine .missing hstep (Option.eq_none_iff_forall_ne_some.mpr fun v hslot' ↦ ?_)
    rw [hthins.toThins.slot?_field hslot'] at hslot
    cases hslot
  | null hstep hrest hslot =>
    obtain hslot' | hmissing := hthins.toThins.field_or_missing hslot
    · exact .null hstep hrest hslot'
    · exact .missing hstep hmissing
  | nullItem hstep hrest hplace hslot hlist hitem =>
    obtain hslot' | hmissing := hthins.toThins.field_or_missing hslot
    · exact .nullItem hstep hrest hplace hslot' (hthins.get?_list _ _ hlist) hitem
    · exact .missing hstep hmissing
  | inside hstep hrest hleads hchild _ ih => exact gone_of_child hthins hstep hrest hleads hchild ih
  | among hstep hrest hplace hslot hlist _ ih =>
    exact gone_of_children hthins hstep hrest hplace hslot hlist ih

/-! ### After a removal -/

theorem slot?_of_unset {name : String} (hunset : h.unset r name = (.ok (), h')) :
    h'.slot? r (.field name) = none := by
  unfold unset delete at hunset
  cases hslot : h.slot? r (.field name) with
  | none =>
    rw [hslot] at hunset
    obtain rfl : h = h' := congrArg Prod.snd hunset
    exact hslot
  | some v =>
    rw [hslot] at hunset
    simp only at hunset
    split at hunset
    · simp [changed] at hunset
    · obtain rfl := (Prod.mk.inj hunset).2
      obtain ⟨c, hget, hc⟩ := Option.bind_eq_some_iff.mp hslot
      rw [slot?, get?_mapEntries, if_pos rfl, hget, Option.map_some, Option.bind_some]
      cases c with
      | mapping kind entries => exact Table.find?_erase_self entries (.text name)
      | _ => simp [Cell.slot?] at hc

theorem gone_of_getD (hstep : Step.decode path = .ok step) (hrest : step.rest = some rest)
    (hnull : (h.slot? r (.field step.name)).getD .null = .null) : h.Gone r path := by
  cases hslot : h.slot? r (.field step.name) with
  | none => exact .missing hstep hslot
  | some v =>
    rw [hslot, Option.getD_some] at hnull
    exact .null hstep hrest (hnull ▸ hslot)

/-- What each piece of work in a sweep makes gone is gone behind the sweep. -/
theorem gone_of_sweep {work : Ref → Heap → Except Fault Unit × Heap} {rs : List Ref}
    (hthins : ∀ c h, ThinsMappings h (work c h).2)
    (hwork : ∀ c h h', work c h = (.ok (), h') → h'.Gone c rest)
    (hsweep : sweep work rs h = (.ok (), h')) : ∀ c ∈ rs, h'.Gone c rest := by
  induction rs generalizing h with
  | nil => simp
  | cons c rs ih =>
    rw [sweep] at hsweep
    obtain ⟨_, h₁, hfirst, hothers⟩ := andThen_eq_ok hsweep
    have hbehind : h₁.ThinsMappings h' := by
      have hrel := sweep_rel (h := h₁) ThinsMappings.refl (fun _ _ _ ↦ .trans) hthins rs
      rwa [hothers] at hrel
    rw [List.forall_mem_cons]
    exact ⟨(hwork c h h₁ hfirst).of_thinsMappings hbehind, ih hothers⟩

/-- What has been removed is gone, unless an item has moved up to its place. -/
theorem gone_of_remove (hends : ¬ Path.EndsAtItem path)
    (hremove : (remove root path).effect h = (.ok (), h')) : h'.Gone root path := by
  induction path using Path.induction generalizing root h h' with
  | broken path e he =>
    rw [effect_remove_of_error he] at hremove
    cases congrArg Prod.fst hremove
  | last path step hstep hrest =>
    rw [Path.endsAtItem_of_last hstep hrest] at hends
    cases hplace : step.place with
    | key =>
      rw [effect_remove_of_last hstep hrest hplace] at hremove
      exact .missing hstep (slot?_of_unset hremove)
    | item n => exact absurd ⟨n, hplace⟩ hends
    | every =>
      rw [effect_remove_of_last_every hstep hrest hplace] at hremove
      obtain ⟨_, h₁, -, hunset⟩ := andThen_eq_ok hremove
      exact .missing hstep (slot?_of_unset hunset)
  | more path step rest hstep hrest ih =>
    have hthins : h.ThinsMappings h' := by
      have hrel := thinsMappings_remove hends root h
      rwa [hremove] at hrel
    rw [Path.endsAtItem_of_more hstep hrest] at hends
    cases hplace : step.place with
    | key =>
      rw [effect_remove_of_more hstep hrest hplace] at hremove
      obtain ⟨hnull, rfl⟩ | ⟨c, hslot, hcheck, hwork⟩ :=
        visit_eq_ok (Step.eq_object_of_checkMapping h) hremove
      · exact gone_of_getD hstep hrest hnull
      · refine gone_of_child hthins hstep hrest ?_ (of_asMapping hcheck).2 (ih hends hwork)
        rw [Step.slots_of_key hplace]
        exact .through hslot (.here c)
    | item n =>
      rw [effect_remove_of_more_item hstep hrest hplace] at hremove
      obtain ⟨hnull, rfl⟩ | ⟨list, hslot, hcheck, hwork⟩ :=
        visit_eq_ok (Step.eq_object_of_checkList h) hremove
      · exact gone_of_getD hstep hrest hnull
      · obtain ⟨⟨list, items⟩, hlist, rfl⟩ := exists_of_map_eq_ok hcheck
        have hget := (of_asList hlist).2
        obtain ⟨hnull, rfl⟩ | ⟨c, hitem, hcheck', hwork'⟩ :=
          visit_eq_ok (Step.eq_object_of_checkMapping h) hwork
        · refine .nullItem hstep hrest hplace hslot hget ?_
          rwa [slot?, hget] at hnull
        · refine gone_of_child hthins hstep hrest ?_ (of_asMapping hcheck').2 (ih hends hwork')
          rw [Step.slots_of_item hplace]
          exact .through hslot (.through hitem (.here c))
    | every =>
      rw [effect_remove_of_more_every hstep hrest hplace] at hremove
      obtain ⟨hnull, rfl⟩ | ⟨list, hslot, hcheck, hwork⟩ :=
        visit_eq_ok (Step.eq_object_of_checkList h) hremove
      · exact gone_of_getD hstep hrest hnull
      · obtain ⟨⟨list, items⟩, hlist, rfl⟩ := exists_of_map_eq_ok hcheck
        have hget := (of_asList hlist).2
        have hitems : h.items list = items := by rw [Heap.items, hget]
        refine gone_of_children hthins hstep hrest hplace hslot hget fun c hitem hc ↦ ?_
        refine gone_of_sweep (thinsMappings_remove hends) (fun c h h' ↦ ih hends) hwork c ?_
        rw [hitems]
        exact mem_mappingsAmong_iff.mpr ⟨hitem, hc⟩

/-! ### Nothing more to do -/

theorem sweep_of_forall {work : Ref → Heap → Except Fault Unit × Heap} {rs : List Ref}
    (hwork : ∀ c ∈ rs, work c h = (.ok (), h)) : sweep work rs h = (.ok (), h) := by
  induction rs with
  | nil => rfl
  | cons c rs ih =>
    obtain ⟨hfirst, hothers⟩ := List.forall_mem_cons.mp hwork
    rw [sweep, hfirst, andThen_ok, ih hothers]

/-- What is gone is removed without any effect. -/
theorem Gone.effect_remove (hgone : h.Gone root path) :
    (remove root path).effect h = (.ok (), h) := by
  induction hgone with
  | missing hstep hslot =>
    rw [effect_remove_of_ok hstep, removeMove, field?_eq_slot?, hslot]
    rfl
  | @null r path rest step hstep hrest hslot =>
    have hnull : (h.slot? r (.field step.name)).getD .null = .null := by rw [hslot, Option.getD_some]
    cases hplace : step.place with
    | key =>
      rw [effect_remove_of_more hstep hrest hplace]
      exact visit_of_getD hnull
    | item n =>
      rw [effect_remove_of_more_item hstep hrest hplace]
      exact visit_of_getD hnull
    | every =>
      rw [effect_remove_of_more_every hstep hrest hplace]
      exact visit_of_getD hnull
  | nullItem hstep hrest hplace hslot hlist hitem =>
    rw [effect_remove_of_more_item hstep hrest hplace, visit_of_slot? hslot (checkList_of_get? _ hlist)]
    refine visit_of_getD ?_
    rw [slot?, hlist]
    exact hitem
  | inside hstep hrest hleads hchild _ ih =>
    rw [(effect_of_leads hstep hrest hleads hchild).2.2]
    exact ih
  | @among r list path rest step items hstep hrest hplace hslot hlist _ ih =>
    have hitems : h.items list = items := by rw [Heap.items, hlist]
    rw [effect_remove_of_more_every hstep hrest hplace, visit_of_slot? hslot (checkList_of_get? _ hlist),
      hitems]
    refine sweep_of_forall fun child hchild ↦ ?_
    obtain ⟨hitem, hmapping⟩ := mem_mappingsAmong_iff.mp hchild
    exact ih child hitem hmapping

/-- Where a step with more steps behind it leads nowhere, nothing is read and nothing is there. -/
theorem effect_of_descend_none {v : Value} (hstep : Step.decode path = .ok step)
    (hrest : step.rest = some rest) (hplace : step.place ≠ .every)
    (hslot : h.slot? root (.field step.name) = some v)
    (hdescend : h.descend step .read v step.index? = .ok none) :
    (get root path).effect h = (.ok .null, h) ∧ (has root path).effect h = (.ok false, h) := by
  rw [follows_get.effect_of_ok hstep, follows_has.effect_of_ok hstep, readMove, hasMove,
    field?_eq_slot?, hslot]
  obtain ⟨text, name, place, rest'⟩ := step
  obtain rfl : rest' = some rest := hrest
  cases place with
  | every => exact absurd rfl hplace
  | key | item n =>
    simp only [Step.index?] at hdescend
    simp only [hdescend]
    exact ⟨rfl, rfl⟩

/-- What is gone is read as null and not there, unless the path branches. -/
theorem Gone.effect_get_has (hgone : h.Gone root path) (hsingle : Path.Single path) :
    (get root path).effect h = (.ok .null, h) ∧ (has root path).effect h = (.ok false, h) := by
  induction hgone with
  | missing hstep hslot =>
    rw [follows_get.effect_of_ok hstep, follows_has.effect_of_ok hstep, readMove, hasMove,
      field?_eq_slot?, hslot]
    exact ⟨rfl, rfl⟩
  | @null r path rest step hstep hrest hslot =>
    have hplace := (Path.single_of_more hstep hrest hsingle).1
    refine effect_of_descend_none hstep hrest hplace hslot ?_
    cases step.index? <;> rfl
  | @nullItem r list path rest step n items hstep hrest hplace hslot hlist hitem =>
    refine effect_of_descend_none hstep hrest (by simp [hplace]) hslot ?_
    rw [Step.index?, hplace]
    simp only [descend_some]
    rw [if_neg (by simp), asList_of_get? hlist]
    simp only [Except.bind]
    rw [if_pos hitem]
  | inside hstep hrest hleads hchild _ ih =>
    obtain ⟨hget, hhas, -⟩ := effect_of_leads hstep hrest hleads hchild
    rw [hget, hhas]
    exact ih (Path.single_of_more hstep hrest hsingle).2
  | among hstep hrest hplace => exact absurd hplace (Path.single_of_more hstep hrest hsingle).1

end Gone

end Heap

/-! ### One item of a list -/

namespace Path

/-- The second path is the first one with `name[i]` for its first step `name[]` that has more steps
behind it, and leads by these slots to the item. -/
inductive AtItem (i : Nat) : String → String → List Slot → Prop
  | here {path path' rest : String} {step step' : Step} (hstep : Step.decode path = .ok step)
    (hplace : step.place = .every) (hrest : step.rest = some rest)
    (hstep' : Step.decode path' = .ok step') (hhop : step'.hop = ⟨step.name, .item i⟩)
    (hrest' : step'.rest = some rest) : AtItem i path path' step'.hop.slots
  | behind {path path' rest rest' : String} {step step' : Step} {slots : List Slot}
    (hstep : Step.decode path = .ok step) (hplace : step.place ≠ .every)
    (hrest : step.rest = some rest) (hstep' : Step.decode path' = .ok step')
    (hhop : step'.hop = step.hop) (hrest' : step'.rest = some rest')
    (hitem : AtItem i rest rest' slots) : AtItem i path path' (step'.hop.slots ++ slots)

/-- The number of steps `name[]` of a path that have more steps behind them. -/
def branches (path : String) : Nat := (hops path).dropLast.countP (·.place = .every)

theorem single_iff_branches {path : String} : Single path ↔ branches path = 0 := by
  simp [Single, branches, List.countP_eq_zero]

theorem branches_of_more {path rest : String} {step : Step} (hstep : Step.decode path = .ok step)
    (hrest : step.rest = some rest) :
    branches path = branches rest + if step.place = .every then 1 else 0 := by
  simp [branches, dropLast_hops_of_more hstep hrest, List.countP_cons, Step.hop]

theorem AtItem.branches_eq {i : Nat} {path path' : String} {slots : List Slot}
    (hitem : AtItem i path path' slots) : branches path = branches path' + 1 := by
  induction hitem with
  | @here path path' rest step step' hstep hplace hrest hstep' hhop hrest' =>
    have hplace' : step'.place = .item i := congrArg Hop.place hhop
    simp [branches_of_more hstep hrest, branches_of_more hstep' hrest', hplace, hplace']
  | @behind path path' rest rest' step step' slots hstep hplace hrest hstep' hhop hrest' _ ih =>
    have hplace' : step'.place = step.place := congrArg Hop.place hhop
    rw [branches_of_more hstep hrest, branches_of_more hstep' hrest', hplace', ih, if_neg hplace]

theorem AtItem.congr {i : Nat} {path path' text text' : String} {slots : List Slot}
    (hpath : Step.decode path = Step.decode text) (hpath' : Step.decode path' = Step.decode text')
    (hitem : AtItem i path path' slots) : AtItem i text text' slots := by
  cases hitem with
  | here hstep hplace hrest hstep' hhop hrest' =>
    exact .here (hpath ▸ hstep) hplace hrest (hpath' ▸ hstep') hhop hrest'
  | behind hstep hplace hrest hstep' hhop hrest' hitem =>
    exact .behind (hpath ▸ hstep) hplace hrest (hpath' ▸ hstep') hhop hrest' hitem

/-- A path as it is written, with an index in the brackets of a step. -/
theorem atItem_under {steps : List String} {name rest : String} {i : Nat}
    (hsteps : ∀ text ∈ steps, StepText text)
    (hplaces : ∀ text ∈ steps, (Hop.ofPart (Text.trim text.toList)).place ≠ .every)
    (hname : ListName name) (hi : (Nat.toDigits 10 i).length ≤ Step.maxDigits)
    (hrest : Text.trim rest.toList ≠ []) :
    AtItem i (under (steps ++ [name ++ "[]"]) rest)
      (under (steps ++ [name ++ "[" ++ toString i ++ "]"]) rest)
      (slotsUnder (steps ++ [name ++ "[" ++ toString i ++ "]"])) := by
  induction steps with
  | nil =>
    obtain ⟨step, hstep, hhop, hmore⟩ := exists_decode_join (stepText_every hname) hrest
    obtain ⟨step', hstep', hhop', hmore'⟩ := exists_decode_join (stepText_item hname hi) hrest
    have hslots : slotsUnder [name ++ "[" ++ toString i ++ "]"] = step'.hop.slots := by
      rw [slotsUnder_cons, hhop', slotsUnder, List.flatMap_nil, List.append_nil]
    rw [ofPart_every hname] at hhop
    rw [ofPart_item hname] at hhop'
    obtain ⟨rfl, hplace⟩ := Hop.mk.inj hhop
    rw [List.nil_append, List.nil_append, hslots]
    exact .here hstep hplace hmore hstep' hhop' hmore'
  | cons text steps ih =>
    obtain ⟨htext, hsteps⟩ := List.forall_mem_cons.mp hsteps
    obtain ⟨hplace, hplaces⟩ := List.forall_mem_cons.mp hplaces
    obtain ⟨step, hstep, hhop, hmore⟩ := exists_decode_join htext
      (trim_under_ne_nil (steps ++ [name ++ "[]"]) hrest)
    obtain ⟨step', hstep', hhop', hmore'⟩ := exists_decode_join htext
      (trim_under_ne_nil (steps ++ [name ++ "[" ++ toString i ++ "]"]) hrest)
    rw [List.cons_append, List.cons_append, slotsUnder_cons, ← hhop']
    refine .behind hstep ?_ hmore hstep' (hhop'.trans hhop.symm) hmore' ?_
    · rwa [← hhop] at hplace
    · exact (ih hsteps hplaces).congr (Step.decode_trimmed _).symm (Step.decode_trimmed _).symm

end Path

theorem Heap.Gone.atItem {h h' : Heap} {root c : Ref} {path path' : String} {slots : List Slot}
    {i : Nat} (hthins : h.ThinsMappings h') (hitem : Path.AtItem i path path' slots)
    (hleads : h.Leads root slots c) (hc : h.IsMapping c) (hgone : h'.Gone root path) :
    h'.Gone root path' := by
  induction hitem generalizing root with
  | @here path path' rest step step' hstep hplace hrest hstep' hhop hrest' =>
    obtain ⟨hname, hplace'⟩ := Hop.mk.inj hhop
    cases hgone with
    | missing hs hslot =>
      obtain rfl := Except.ok.inj (hstep.symm.trans hs)
      exact .missing hstep' (hname ▸ hslot)
    | null hs _ hslot =>
      obtain rfl := Except.ok.inj (hstep.symm.trans hs)
      exact .null hstep' hrest' (hname ▸ hslot)
    | nullItem hs _ hplace₂ =>
      obtain rfl := Except.ok.inj (hstep.symm.trans hs)
      simp [hplace] at hplace₂
    | inside hs _ hleads₂ =>
      obtain rfl := Except.ok.inj (hstep.symm.trans hs)
      rw [Step.slots_of_every hplace] at hleads₂
      cases hleads₂ with
      | through _ hend =>
        cases hend with
        | through hnext => simp [slot?] at hnext
    | among hs hr _ hslot hlist hgone =>
      obtain rfl := Except.ok.inj (hstep.symm.trans hs)
      obtain rfl := Option.some.inj (hrest.symm.trans hr)
      obtain hleads' | hmissing := hthins.leads_or_missing hleads
      · refine .inside hstep' hrest' hleads' (hthins.toThins.isMapping_iff.mpr hc) ?_
        rw [hhop] at hleads'
        cases hleads' with
        | through hslot' hend =>
          obtain rfl := Value.object.inj (Option.some.inj (hslot'.symm.trans hslot))
          cases hend with
          | through hitem hend =>
            cases hend
            rw [slot?, hlist] at hitem
            exact hgone c (List.mem_of_getElem? hitem) (hthins.toThins.isMapping_iff.mpr hc)
      · exact .missing hstep' hmissing
  | @behind path path' rest rest' step step' slots hstep hplace hrest hstep' hhop hrest' _ ih =>
    obtain ⟨hname, hplace'⟩ := Hop.mk.inj hhop
    cases hgone with
    | missing hs hslot =>
      obtain rfl := Except.ok.inj (hstep.symm.trans hs)
      exact .missing hstep' (hname ▸ hslot)
    | null hs _ hslot =>
      obtain rfl := Except.ok.inj (hstep.symm.trans hs)
      exact .null hstep' hrest' (hname ▸ hslot)
    | nullItem hs _ hplace₂ hslot hlist hnull =>
      obtain rfl := Except.ok.inj (hstep.symm.trans hs)
      exact .nullItem hstep' hrest' (hplace' ▸ hplace₂) (hname ▸ hslot) hlist hnull
    | inside hs hr hleads₂ hchild hgone =>
      obtain rfl := Except.ok.inj (hstep.symm.trans hs)
      obtain rfl := Option.some.inj (hrest.symm.trans hr)
      rw [← hhop] at hleads₂
      obtain ⟨mid, hfirst, hbehind⟩ := hleads.of_append
      obtain rfl := hfirst.unique (hthins.leads_of_leads hleads₂)
      exact .inside hstep' hrest' hleads₂ hchild (ih hbehind hgone)
    | among hs _ hplace₂ =>
      obtain rfl := Except.ok.inj (hstep.symm.trans hs)
      exact absurd hplace₂ hplace

namespace Heap

/-- In every workplace with this heap, a removal at the path succeeds and changes nothing. -/
def Spent (h : Heap) (root : Ref) (path : String) : Prop :=
  ∀ w : Workplace, w.heap = h → outcome (remove root path w) = (.ok (), h)

/-- In every workplace with this heap, nothing is there at the path, and null is read. -/
def Vacant (h : Heap) (root : Ref) (path : String) : Prop :=
  ∀ w : Workplace, w.heap = h →
    outcome (has root path w) = (.ok false, h) ∧ outcome (get root path w) = (.ok .null, h)

theorem Gone.spent {h : Heap} {root : Ref} {path : String} (hgone : h.Gone root path) :
    h.Spent root path := by
  rintro w rfl
  rw [steady_remove root path w, hgone.effect_remove]

theorem Gone.vacant {h : Heap} {root : Ref} {path : String} (hgone : h.Gone root path)
    (hsingle : Path.Single path) : h.Vacant root path := by
  rintro w rfl
  obtain ⟨hget, hhas⟩ := hgone.effect_get_has hsingle
  rw [follows_has.steady root path w, follows_get.steady root path w, hget, hhas]
  exact ⟨rfl, rfl⟩

end Heap

/-- Assumes: a removal that succeeds, at a path whose last step is not `name[n]`. It can be repeated
without any effect. If no step `name[]` has more steps behind it, nothing is there at the path and null
is read. With an index for the first step `name[]` that has more steps behind it, the same is true of
the path to each item of the list that is a mapping; nothing is there when that step was the only one
of its kind. -/
theorem removal_is_final {root : Ref} {path : String} {w w' : Workplace}
    (hends : ¬ Path.EndsAtItem path) (hremove : Scan.remove root path w = .ok () w') :
    w'.heap.Spent root path ∧ (Path.branches path = 0 → w'.heap.Vacant root path) ∧
      ∀ i path' slots c, Path.AtItem i path path' slots → w.heap.Leads root slots c →
        w.heap.IsMapping c →
        w'.heap.Spent root path' ∧ (Path.branches path = 1 → w'.heap.Vacant root path') := by
  have heffect := (steady_remove root path).effect_of_ok hremove
  have hgone := Heap.gone_of_remove hends heffect
  have hthins : w.heap.ThinsMappings w'.heap := by
    have hrel := thinsMappings_remove hends root w.heap
    rwa [heffect] at hrel
  refine ⟨hgone.spent, fun hzero ↦ hgone.vacant (Path.single_iff_branches.mpr hzero), ?_⟩
  intro i path' slots c hitem hleads hc
  have hgone' := hgone.atItem hthins hitem hleads hc
  refine ⟨hgone'.spent, fun hone ↦ hgone'.vacant (Path.single_iff_branches.mpr ?_)⟩
  exact Nat.succ.inj (hitem.branches_eq.symm.trans hone)

/-- At `d.a[].b.c` the two items that are mappings lead to one mapping, which loses its `c` in the first
of them. -/
theorem removal_is_final_shared :
    let w : Workplace := ⟨⟨#[.mapping .plain (.ofList [(.text "d", .object 1)]),
      .mapping .ordered (.ofList [(.text "a", .object 2)]),
      .list [.object 3, .integer 7, .object 4],
      .mapping .plain (.ofList [(.text "b", .object 5)]),
      .mapping .plain (.ofList [(.text "b", .object 5)]),
      .mapping .plain (.ofList [(.text "c", .null)])]⟩, .new 0, #[]⟩
    w.heap.Acyclic ∧ ∃ w', Scan.remove 0 "d.a[].b.c" w = .ok () w' ∧
      (w.heap.entries 5).keys = [.text "c"] ∧ (w'.heap.entries 5).keys = [] ∧
      w'.heap.Spent 0 "d.a[].b.c" ∧ w'.heap.Spent 0 "d.a[2].b.c" ∧
      w'.heap.Vacant 0 "d.a[2].b.c" := by
  intro w
  have hacyclic : w.heap.Acyclic := Heap.acyclic_of_lt (by decide)
  have hfirst : Step.decode "d.a[].b.c" = .ok ⟨"d.a[].b.c", "d", .key, some "a[].b.c"⟩ := by
    decide +kernel
  have hevery : Step.decode "a[].b.c" = .ok ⟨"a[].b.c", "a", .every, some "b.c"⟩ := by
    decide +kernel
  have hnext : Step.decode "b.c" = .ok ⟨"b.c", "b", .key, some "c"⟩ := by decide +kernel
  have hlast : Step.decode "c" = .ok ⟨"c", "c", .key, none⟩ := by decide +kernel
  have hhops : Path.hops "d.a[].b.c" = [⟨"d", .key⟩, ⟨"a", .every⟩, ⟨"b", .key⟩, ⟨"c", .key⟩] := by
    decide +kernel
  have hends : ¬ Path.EndsAtItem "d.a[].b.c" := by simp [Path.EndsAtItem, hhops]
  have hbranches : Path.branches "d.a[].b.c" = 1 := by rw [Path.branches, hhops]; decide
  have hstart : ∀ c ∈ "a".toList.head?, Text.isBlank c = false := by
    intro c hc
    obtain rfl : 'a' = c := Option.some.inj hc
    decide
  have hsteps : ∀ text ∈ ["d"], Path.StepText text :=
    List.forall_mem_singleton.mpr ⟨by decide, by decide +kernel⟩
  have hplaces : ∀ text ∈ ["d"], (Hop.ofPart (Text.trim text.toList)).place ≠ .every :=
    List.forall_mem_singleton.mpr (by decide +kernel)
  have hitem := @Path.atItem_under ["d"] "a" "b.c" 2 hsteps hplaces
    ⟨by decide, by decide, by decide, hstart⟩ (by decide) (by decide +kernel)
  have hslots : Path.slotsUnder (["d"] ++ ["a" ++ "[" ++ toString 2 ++ "]"]) =
      [.field "d", .field "a", .index 2] := by decide +kernel
  have htext : Path.under (["d"] ++ ["a" ++ "[]"]) "b.c" = "d.a[].b.c" := by decide +kernel
  have htext' : Path.under (["d"] ++ ["a" ++ "[" ++ toString 2 ++ "]"]) "b.c" = "d.a[2].b.c" := by
    decide +kernel
  rw [hslots, htext, htext'] at hitem
  have hleads : w.heap.Leads 0 [.field "d", .field "a", .index 2] 4 :=
    .through rfl (.through rfl (.through rfl (.here 4)))
  have heffect : ∃ h', (Scan.remove 0 "d.a[].b.c").effect w.heap = (.ok (), h') ∧
      (w.heap.entries 5).keys = [.text "c"] ∧ (h'.entries 5).keys = [] := by
    have hbelow (child : Ref) : (Scan.remove child "b.c").effect = _ := funext fun h ↦
      Scan.effect_remove_of_more hnext rfl rfl
    have hend (child : Ref) : (Scan.remove child "c").effect = _ := funext fun h ↦
      Scan.effect_remove_of_last hlast rfl rfl
    have hlist (child : Ref) : (Scan.remove child "a[].b.c").effect = _ := funext fun h ↦
      Scan.effect_remove_of_more_every hevery rfl rfl
    rw [Scan.effect_remove_of_more hfirst rfl rfl]
    simp only [hlist, hbelow, hend]
    exact ⟨_, rfl, rfl, rfl⟩
  obtain ⟨h', heffect, hbefore, hafter⟩ := heffect
  obtain ⟨w', hremove, rfl⟩ := (Scan.steady_remove _ _).exists_of_effect heffect
  obtain ⟨hspent, -, hitems⟩ := removal_is_final hends hremove
  obtain ⟨hspent', hvacant⟩ := hitems 2 _ _ 4 hitem hleads ⟨_, _, rfl⟩
  exact ⟨hacyclic, w', hremove, hbefore, hafter, hspent, hspent', hvacant hbranches⟩

end DottedPath
