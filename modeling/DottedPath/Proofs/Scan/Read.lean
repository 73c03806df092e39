import DottedPath.Proofs.Heap.Reach
import DottedPath.Proofs.Scan.Effect

/-!
# Reading what the slots lead to

Slots find a value when all but the last lead from container to container, and the last holds the
value (`Heap.Finds`). A path whose slots find a value is read without a fault: `Scan.get` gives that
value, and `Scan.has` tells that there is a slot (`effect_of_finds`).
-/

set_option autoImplicit false
set_option relaxedAutoImplicit false

namespace DottedPath

namespace Heap

/-- The slots lead from a container to a slot that holds the value. -/
inductive Finds (h : Heap) : Ref → List Slot → Value → Prop
  | here {r : Ref} {s : Slot} {v : Value} (hslot : h.slot? r s = some v) : Finds h r [s] v
  | through {r c : Ref} {s : Slot} {slots : List Slot} {v : Value}
    (hslot : h.slot? r s = some (.object c)) (hfinds : Finds h c slots v) : Finds h r (s :: slots) v

theorem suitsAt_of_slot? {h : Heap} {r : Ref} {s : Slot} {v : Value} (hslot : h.slot? r s = some v) :
    h.SuitsAt r s := by
  obtain ⟨c, hget, hc⟩ := Option.bind_eq_some_iff.mp hslot
  exact ⟨c, hget, Cell.suits_of_slot? hc⟩

theorem asMapping_of_isMapping {h : Heap} {r : Ref} (hr : h.IsMapping r) (field path : String)
    (mode : AccessMode) : h.asMapping field path mode (.object r) = .ok r := by
  obtain ⟨kind, entries, hget⟩ := hr
  simp [asMapping, node, hget]

theorem asList_of_get? {h : Heap} {r : Ref} {items : List Value} (hget : h.get? r = some (.list items))
    (field path : String) (mode : AccessMode) :
    h.asList field path mode (.object r) = .ok (r, items) := by
  simp [asList, node, hget]

/-- What is found at the slots of a path is found from a mapping. -/
theorem Finds.isMapping {h : Heap} {r : Ref} {path : String} {v : Value}
    (hfinds : h.Finds r (Path.slots path) v) : h.IsMapping r := by
  obtain ⟨name, slots, hslots⟩ := Path.exists_slots_eq path
  rw [hslots] at hfinds
  cases hfinds with
  | here hslot => exact suitsAt_field_iff.mp (suitsAt_of_slot? hslot)
  | through hslot _ => exact suitsAt_field_iff.mp (suitsAt_of_slot? hslot)

/-- The first hop of a path that finds something leads to a value, or to a container in which the
other slots find it. -/
theorem Finds.of_cons_field {h : Heap} {r : Ref} {name : String} {slots : List Slot} {v : Value}
    (hfinds : h.Finds r (.field name :: slots) v) :
    (slots = [] ∧ h.field? r name = some v) ∨
      ∃ c, h.field? r name = some (.object c) ∧ h.Finds c slots v := by
  rw [field?_eq_slot?]
  cases hfinds with
  | here hslot => exact .inl ⟨rfl, hslot⟩
  | through hslot hrest => exact .inr ⟨_, hslot, hrest⟩

theorem Finds.of_cons_index {h : Heap} {r : Ref} {n : Nat} {slots : List Slot} {v : Value}
    (hfinds : h.Finds r (.index n :: slots) v) :
    ∃ items, h.get? r = some (.list items) ∧
      ((slots = [] ∧ items[n]? = some v) ∨
        ∃ c, items[n]? = some (.object c) ∧ h.Finds c slots v) := by
  have hlist : ∀ w, h.slot? r (.index n) = some w →
      ∃ items, h.get? r = some (.list items) ∧ items[n]? = some w := by
    intro w hslot
    obtain ⟨cell, hget, hcell⟩ := Option.bind_eq_some_iff.mp hslot
    cases cell with
    | list items => exact ⟨items, hget, hcell⟩
    | _ => simp [Cell.slot?] at hcell
  cases hfinds with
  | here hslot =>
    obtain ⟨items, hget, hitem⟩ := hlist _ hslot
    exact ⟨items, hget, .inl ⟨rfl, hitem⟩⟩
  | through hslot hrest =>
    obtain ⟨items, hget, hitem⟩ := hlist _ hslot
    exact ⟨items, hget, .inr ⟨_, hitem, hrest⟩⟩

theorem not_finds_cons_next {h : Heap} {r : Ref} {slots : List Slot} {v : Value} :
    ¬ h.Finds r (.next :: slots) v := by
  intro hfinds
  cases hfinds with
  | here hslot => simp [slot?] at hslot
  | through hslot _ => simp [slot?] at hslot

theorem not_finds_nil {h : Heap} {r : Ref} {v : Value} : ¬ h.Finds r [] v := nofun

/-- What the last step of a path finds is where the walks end. -/
theorem moves_of_last {h : Heap} {root : Ref} {step : Step} {v : Value} (hrest : step.rest = none)
    (hfinds : h.Finds root step.hop.slots v) :
    h.readMove root step = .ok (.done v) ∧ h.hasMove root step = .ok (.done true) := by
  obtain ⟨text, name, place, rest⟩ := step
  obtain rfl : rest = none := hrest
  cases place with
  | key =>
    obtain ⟨-, hfield⟩ | ⟨c, -, hnil⟩ := hfinds.of_cons_field
    · simp only [Step.hop] at hfield
      simp [readMove, hasMove, hfield]
    · exact absurd hnil not_finds_nil
  | every =>
    obtain ⟨hnil, -⟩ | ⟨c, -, hnext⟩ := hfinds.of_cons_field
    · simp [Step.hop, Place.slot?] at hnil
    · exact absurd hnext not_finds_cons_next
  | item n =>
    obtain ⟨hnil, -⟩ | ⟨c, hfield, hindex⟩ := hfinds.of_cons_field
    · simp [Step.hop, Place.slot?] at hnil
    · obtain ⟨items, hget, ⟨-, hitem⟩ | ⟨d, -, hnil⟩⟩ := hindex.of_cons_index
      · obtain ⟨hlt, hvalue⟩ := List.getElem?_eq_some_iff.mp hitem
        simp only [Step.hop] at hfield
        simp [readMove, hasMove, hfield, asList_of_get? hget, Except.map, hlt, hvalue]
      · exact absurd hnil not_finds_nil

/-- A walk or a removal goes on in the mapping that the slots of a step lead to. -/
theorem moves_of_leads {h : Heap} {root child : Ref} {step : Step} {rest : String}
    (hrest : step.rest = some rest) (hleads : h.Leads root step.hop.slots child)
    (hchild : h.IsMapping child) :
    h.readMove root step = .ok (.enter child rest hrest) ∧
      h.hasMove root step = .ok (.enter child rest hrest) ∧
      h.removeMove root step = .ok (.enter [child] rest hrest) := by
  obtain ⟨text, name, place, rest'⟩ := step
  obtain rfl : rest' = some rest := hrest
  have hmapping := asMapping_of_isMapping hchild
  cases hleads with
  | @through _ c _ _ _ hslot hbehind =>
    rw [← field?_eq_slot?] at hslot
    simp only [Step.hop] at hslot
    cases place with
    | key =>
      cases hbehind
      simp [readMove, hasMove, removeMove, hslot, descend, hmapping, Except.map, Move.orElse]
    | every =>
      cases hbehind with
      | through hnext _ => simp [slot?] at hnext
    | item n =>
      cases hbehind with
      | through hitem hend =>
        cases hend
        obtain ⟨cell, hget, hcell⟩ := Option.bind_eq_some_iff.mp hitem
        obtain ⟨items, rfl⟩ : ∃ items, cell = .list items := by
          cases cell with
          | list items => exact ⟨items, rfl⟩
          | _ => simp [Cell.slot?] at hcell
        have hdescend : ∀ mode, h.descend ⟨text, name, .item n, some rest⟩ mode (.object c) (some n) =
            .ok (some child) := by
          intro mode
          simp only [Cell.slot?] at hcell
          simp [descend_some, asList_of_get? hget, Except.bind, hcell, hmapping, Except.map]
        simp [readMove, hasMove, removeMove, hslot, hdescend, Except.map, Move.orElse]

/-- What slots find is found from what the first of them lead to. -/
theorem Finds.of_append {h : Heap} {r : Ref} {as bs : List Slot} {v : Value} (hbs : bs ≠ [])
    (hfinds : h.Finds r (as ++ bs) v) : ∃ c, h.Leads r as c ∧ h.Finds c bs v := by
  induction as generalizing r with
  | nil => exact ⟨r, .here r, hfinds⟩
  | cons s as ih =>
    generalize hslots : s :: as ++ bs = slots at hfinds
    cases hfinds with
    | here hslot => simp [hbs] at hslots
    | through hslot hrest =>
      obtain ⟨rfl, rfl⟩ : s = _ ∧ as ++ bs = _ := by simpa using hslots
      obtain ⟨c, hleads, hfound⟩ := ih hrest
      exact ⟨c, .through hslot hleads, hfound⟩

/-- What a step with more steps behind it leads to is where the walks go on. -/
theorem moves_of_more {h : Heap} {root : Ref} {step : Step} {rest : String} {v : Value}
    (hrest : step.rest = some rest) (hfinds : h.Finds root (step.hop.slots ++ Path.slots rest) v) :
    ∃ child, h.readMove root step = .ok (.enter child rest hrest) ∧
      h.hasMove root step = .ok (.enter child rest hrest) ∧ h.Finds child (Path.slots rest) v := by
  have hslots : Path.slots rest ≠ [] := by
    obtain ⟨name, slots, hslots⟩ := Path.exists_slots_eq rest
    simp [hslots]
  obtain ⟨child, hleads, hfound⟩ := hfinds.of_append hslots
  obtain ⟨hread, hhas, -⟩ := moves_of_leads hrest hleads hfound.isMapping
  exact ⟨child, hread, hhas, hfound⟩

end Heap

namespace Scan

open Heap

/-- A path that can be read and whose slots find a value is read to that value, and the slot is
there. -/
theorem effect_of_finds {h : Heap} {root : Ref} {path : String} {v : Value}
    (hreadable : Path.Readable path) (hfinds : h.Finds root (Path.slots path) v) :
    (get root path).effect h = (.ok v, h) ∧ (has root path).effect h = (.ok true, h) := by
  induction path using Path.induction generalizing root with
  | broken path e he => exact absurd hreadable (Path.not_readable_of_error he)
  | last path step hstep hrest =>
    rw [Path.slots_of_last hstep hrest] at hfinds
    obtain ⟨hread, hhas⟩ := moves_of_last hrest hfinds
    rw [follows_get.effect_of_ok hstep, follows_has.effect_of_ok hstep, hread, hhas]
    exact ⟨rfl, rfl⟩
  | more path step rest hstep hrest ih =>
    rw [Path.slots_of_more hstep hrest] at hfinds
    obtain ⟨child, hread, hhas, hchild⟩ := moves_of_more hrest hfinds
    rw [follows_get.effect_of_ok hstep, follows_has.effect_of_ok hstep, hread, hhas]
    exact ih ((Path.readable_of_more hstep hrest).mp hreadable) hchild

section Found

variable {h : Heap} {r : Ref} {path rest : String} {step : Step}

/-- A step with more steps behind it that leads nowhere leads to no slot. -/
theorem eq_false_of_hasMove {b : Bool} (hrest : step.rest = some rest)
    (hmove : h.hasMove r step = .ok (.done b)) : b = false := by
  have hdescend : ∀ (v : Value) (index : Option Nat),
      (h.descend step .read v index).map (Move.orElse false hrest) = .ok (.done b) → b = false := by
    intro v index hmove
    cases hchild : h.descend step .read v index with
    | error e =>
      rw [hchild] at hmove
      cases hmove
    | ok child =>
      rw [hchild] at hmove
      cases child with
      | none => exact (Move.done.inj (Except.ok.inj hmove)).symm
      | some c => cases hmove
  obtain ⟨text, name, place, rest'⟩ := step
  obtain rfl : rest' = some rest := hrest
  simp only [hasMove] at hmove
  cases hfield : h.field? r name with
  | none =>
    rw [hfield] at hmove
    exact (Move.done.inj (Except.ok.inj hmove)).symm
  | some v =>
    rw [hfield] at hmove
    cases place with
    | key => exact hdescend v none hmove
    | item n => exact hdescend v (some n) hmove
    | every => cases hmove

/-- A path that leads to a slot has been read to its end. -/
theorem readable_of_has (hhas : ((has r path).effect h).1 = .ok true) : Path.Readable path := by
  induction path using Path.induction generalizing r with
  | broken path e he =>
    rw [follows_has.effect_of_error he] at hhas
    cases hhas
  | last path step hstep hrest => exact Path.readable_of_last hstep hrest
  | more path step rest hstep hrest ih =>
    rw [follows_has.effect_of_ok hstep] at hhas
    cases hmove : h.hasMove r step with
    | error e =>
      rw [hmove] at hhas
      cases hhas
    | ok move =>
      rw [hmove] at hhas
      cases move with
      | done b =>
        obtain rfl := eq_false_of_hasMove hrest hmove
        cases hhas
      | enter child rest' hrest' =>
        obtain rfl := Option.some.inj (hrest.symm.trans hrest')
        exact (Path.readable_of_more hstep hrest).mpr (ih hhas)

end Found

end Scan

end DottedPath
