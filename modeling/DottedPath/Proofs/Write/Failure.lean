import DottedPath.Proofs.Scan.Read
import DottedPath.Proofs.Tree.Clone
import DottedPath.Proofs.Write.OneSlot

/-!
# A write that fails

A write fails because of the shape of something on its way, an index above the limit, a numeral with
too many digits, padding for which there is no room, or a mapping that refuses to be assigned to
(`Fault.OfWrite`). Unless it is the last of these, everything that was there is as it was
(`extends_of_set_error`): what a write makes on its way down hangs on nothing that was there, and on
its way up the first store in a container that was there is the last thing that can go wrong.

The second half is why: a container is stored back into a slot that holds it already, and there only
a read-only mapping refuses (`refused_of_fill_error`); where padding can fail, the slot was missing,
and all that was written so far is in new containers (`Writes.extends_of_alloc`).
-/

set_option autoImplicit false
set_option relaxedAutoImplicit false

namespace DottedPath

open Scan

/-- What can stop a write. -/
inductive Fault.OfWrite : Fault → Prop
  | shape {fault : ShapeFault} (hmode : fault.mode = .write) : OfWrite (.shape fault)
  | aboveLimit {field path name : String} {n limit : Nat} :
    OfWrite (.path field path (.aboveLimit name n limit))
  | numeral {tooLong : LongNumeral} : OfWrite (.numeral tooLong)
  | padding {fault : PaddingFault} : OfWrite (.padding fault)
  | refused : OfWrite (.refused .assignment)

namespace Heap

/-- Work that, when it fails, does so as a write does, and leaves everything that was there as it
was unless a mapping refused to be assigned to. -/
def Spotless (h : Heap) (x : Except Fault Unit × Heap) : Prop :=
  ∀ e h', x = (.error e, h') → e.OfWrite ∧ (e ≠ .refused .assignment → h.Extends h')

section Faults

variable {h h' : Heap} {r : Ref} {s : Slot} {v : Value} {e : Fault} {step : Step}

theorem spotless_error (he : e.OfWrite) : h.Spotless (.error e, h) := by
  rintro e' h' heq
  simp only [Prod.mk.injEq, Except.error.injEq] at heq
  obtain ⟨rfl, rfl⟩ := heq
  exact ⟨he, fun _ ↦ .refl h⟩

theorem ofWrite_of_fill_error (hfill : h.fill r s v = .error e) : e.OfWrite := by
  cases s with
  | field name =>
    simp only [fill, assign] at hfill
    split at hfill
    · rw [← Except.error.inj hfill]
      exact .refused
    · cases hfill
  | index n =>
    simp only [fill, putItem] at hfill
    split at hfill
    · cases hfill
    · split at hfill
      · rw [← Except.error.inj hfill]
        exact .padding
      · split at hfill
        · rw [← Except.error.inj hfill]
          exact .padding
        · cases hfill
  | next => cases hfill

/-- Where a slot holds something, only a read-only mapping refuses to have it filled again. -/
theorem refused_of_fill_error {w : Value} (hslot : h.slot? r s = some w)
    (hfill : h.fill r s v = .error e) : e = .refused .assignment := by
  cases s with
  | field name =>
    simp only [fill, assign] at hfill
    split at hfill
    · exact (Except.error.inj hfill).symm
    · cases hfill
  | index n =>
    have hn : n < (h.items r).length := by
      rw [← getElem?_items_eq_slot?] at hslot
      exact (List.getElem?_eq_some_iff.mp hslot).1
    simp only [fill, putItem] at hfill
    rw [if_pos hn] at hfill
    cases hfill
  | next => cases hfill

theorem ofWrite_of_checkLimit {limit : Option Nat} (hlimit : step.checkLimit limit = .error e) :
    e.OfWrite := by
  unfold Step.checkLimit at hlimit
  split at hlimit
  · split at hlimit
    · rw [← Except.error.inj hlimit]
      exact .aboveLimit
    · cases hlimit
  · cases hlimit

theorem ofWrite_of_checkMapping (hcheck : step.checkMapping h v = .error e) : e.OfWrite := by
  obtain ⟨-, rfl⟩ := Step.checkMapping_eq_error_iff.mp hcheck
  exact .shape rfl

theorem ofWrite_of_checkList (hcheck : step.checkList h v = .error e) : e.OfWrite := by
  obtain ⟨-, rfl⟩ := Step.checkList_eq_error_iff.mp hcheck
  exact .shape rfl

theorem spotless_changed (h : Heap) (r : Ref) (s : Slot) (v : Value) :
    h.Spotless (changed h (h.fill r s v)) := by
  cases hfill : h.fill r s v with
  | error e => exact spotless_error (ofWrite_of_fill_error hfill)
  | ok h₁ =>
    intro e h' heq
    simp [changed] at heq

end Faults

/-! ### Writes in containers that are there and in new ones -/

section Writes

variable {h h' : Heap} {r c : Ref} {s t : Slot} {slots : List Slot} {v w : Value}

/-- A write into a new container changes nothing that was there before. -/
theorem Writes.extends_of_alloc (hwrites : (h.alloc t.blank).Writes h.size (t :: slots) v h') :
    h.Extends h' := by
  have hblank : ((h.alloc t.blank).slot? h.size t).getD .null = .null := by
    simp [slot?_alloc_self]
  have hchange := hwrites.changesSlot_of_null hblank ⟨t.blank, get?_alloc_self h _, t.suits_blank⟩
  have hsize := hchange.size_eq
  rw [size_alloc] at hsize
  constructor
  · omega
  · intro x hx
    have hlt : x < (h.alloc t.blank).size := by
      rw [size_alloc]
      exact Nat.lt_succ_of_lt hx
    rw [hchange.others x hlt (Nat.ne_of_lt hx), get?_alloc_of_lt h _ hx]

/-- What is above the container in which a write begins stays as it is. -/
theorem Writes.get?_eq (hwrites : h.Writes c slots v h') (hacyclic : h.Acyclic)
    (hsuits : ∀ s ∈ slots.head?, h.SuitsAt c s) (habove : Relation.TransGen h.Holds r c) :
    h'.get? r = h.get? r := by
  obtain ⟨before, slot, behind, d, item, hchange⟩ := hwrites.changesSlot hacyclic hsuits
  have hr : r < h.size := by
    obtain ⟨_, ⟨cell, hget, -⟩, -⟩ := Relation.TransGen.head'_iff.mp habove
    exact lt_size_of_get? hget
  refine hchange.others r hr ?_
  rintro rfl
  exact hacyclic r (habove.trans_left hchange.leads.reaches)

/-- A write in a container that a slot holds leaves the slot as it is. -/
theorem Writes.slot?_eq (hacyclic : h.Acyclic) (hslot : h.slot? r s = some (.object c))
    (hsuits : h.SuitsAt c t) (hwrites : h.Writes c (t :: slots) v h') :
    h'.slot? r s = some (.object c) := by
  rw [slot?, hwrites.get?_eq hacyclic (by simpa using hsuits) (.single (holds_of_slot? hslot))]
  exact hslot

end Writes

/-! ### The steps of a write -/

section Steps

variable {h : Heap} {r : Ref} {s t : Slot} {slots : List Slot} {v : Value}

/-- Work through a slot is spotless when the work behind it is. -/
theorem spotless_through {check : Heap → Value → Except Fault Ref}
    {work : Ref → Heap → Except Fault Unit × Heap} (hacyclic : h.Acyclic)
    (hcheck : ∀ w c, check h w = .ok c → w = .object c ∧ h.SuitsAt c t)
    (hfault : ∀ w e, check h w = .error e → e.OfWrite)
    (hwrites : ∀ c (h₁ : Heap) h₂, work c h₁ = (.ok (), h₂) → h₁.Writes c (t :: slots) v h₂)
    (hwork : ∀ c (h₁ : Heap), h₁.Acyclic → h₁.SuitsAt c t → h₁.Spotless (work c h₁)) :
    h.Spotless (h.through r s t.blank check work) := by
  by_cases hnull : (h.slot? r s).getD .null = .null
  · have hfirst := extends_alloc h t.blank
    have hspotless := hwork h.size (h.alloc t.blank) (hacyclic.alloc (Cell.contents_blank t))
      ⟨t.blank, get?_alloc_self h _, t.suits_blank⟩
    rw [through, enter_of_null hnull, andThen_ok]
    cases hdone : work h.size (h.alloc t.blank) with
    | mk outcome h₁ =>
      cases outcome with
      | error e =>
        rw [andThen_error]
        rintro e' h' heq
        simp only [Prod.mk.injEq, Except.error.injEq] at heq
        obtain ⟨rfl, rfl⟩ := heq
        obtain ⟨he, hext⟩ := hspotless e h₁ hdone
        exact ⟨he, fun hne ↦ hfirst.trans (hext hne)⟩
      | ok _ =>
        -- Whatever the store meets, all that was written is in new containers.
        have hext := (hwrites _ _ _ hdone).extends_of_alloc
        rw [andThen_ok]
        intro e h' heq
        obtain ⟨he, hback⟩ := spotless_changed h₁ r s (.object h.size) e h' heq
        exact ⟨he, fun hne ↦ hext.trans (hback hne)⟩
  · rw [through, enter_of_ne hnull]
    cases hchecked : check h ((h.slot? r s).getD .null) with
    | error e =>
      rw [andThen_error]
      exact spotless_error (hfault _ _ hchecked)
    | ok c =>
      obtain ⟨hvalue, hsuits⟩ := hcheck _ _ hchecked
      have hslot : h.slot? r s = some (.object c) := slot?_of_getD hvalue (hvalue ▸ hnull)
      rw [andThen_ok]
      cases hdone : work c h with
      | mk outcome h₁ =>
        cases outcome with
        | error e =>
          rw [andThen_error, ← hdone]
          exact hwork c h hacyclic hsuits
        | ok _ =>
          have hsame := (hwrites c h h₁ hdone).slot?_eq hacyclic hslot hsuits
          rw [andThen_ok]
          intro e h' heq
          cases hfill : h₁.fill r s (.object c) with
          | ok h₂ => simp [hfill, changed] at heq
          | error e' =>
            obtain rfl : e' = e := by
              rw [hfill] at heq
              exact Except.error.inj (congrArg Prod.fst heq)
            have hrefused := refused_of_fill_error hsame hfill
            exact ⟨ofWrite_of_fill_error hfill, fun hne ↦ absurd hrefused hne⟩

theorem spotless_reach {limit : Option Nat} {step : Step} {root : Ref}
    {work : Ref → Slot → Heap → Except Fault Unit × Heap} (hacyclic : h.Acyclic)
    (hroot : h.IsMapping root)
    (hwrites : ∀ r s (h₁ : Heap) h₂, work r s h₁ = (.ok (), h₂) → h₁.Writes r (s :: slots) v h₂)
    (hwork : ∀ r s (h₁ : Heap), h₁.Acyclic → h₁.SuitsAt r s → h₁.Spotless (work r s h₁)) :
    h.Spotless (step.reach limit root work h) := by
  unfold Step.reach
  cases hplace : step.place.slot? with
  | none => exact hwork root _ h hacyclic (suitsAt_field_iff.mpr hroot)
  | some slot =>
    obtain ⟨hblank, hlist⟩ := Place.of_slot? hplace
    simp only
    cases hlimit : step.checkLimit limit with
    | error e =>
      rw [andThen_error]
      exact spotless_error (ofWrite_of_checkLimit hlimit)
    | ok _ =>
      rw [andThen_ok, ← hblank]
      exact spotless_through hacyclic (fun w c ↦ suitsAt_of_checkList hlist)
        (fun w e ↦ ofWrite_of_checkList) (fun c h₁ h₂ ↦ hwrites c slot h₁ h₂)
        fun c h₁ hacyclic₁ hsuits ↦ hwork c slot h₁ hacyclic₁ hsuits

/-- Assumes: an acyclic heap and a root that is a mapping. A write there is spotless. -/
theorem spotless_set {limit : Option Nat} {root : Ref} {path : String} (hacyclic : h.Acyclic)
    (hroot : h.IsMapping root) : h.Spotless ((set limit root path v).effect h) := by
  induction path using Path.induction generalizing h root with
  | broken path e he =>
    rw [effect_set_of_error he]
    exact spotless_error .numeral
  | last path step hstep hrest =>
    rw [effect_set_of_last hstep hrest]
    refine spotless_reach hacyclic hroot (fun r s h₁ h₂ hdone ↦ .fill (v := v) (changed_eq_ok hdone))
      fun r s h₁ _ _ ↦ ?_
    exact spotless_changed h₁ r s v
  | more path step rest hstep hrest ih =>
    obtain ⟨name, slots, hslots⟩ := Path.exists_slots_eq rest
    have hdone : ∀ c h₁ h₂, (set limit c rest v).effect h₁ = (.ok (), h₂) →
        h₁.Writes c (.field name :: slots) v h₂ := by
      intro c h₁ h₂ hset
      rw [← hslots]
      exact writes_of_set hset
    rw [effect_set_of_more hstep hrest]
    refine spotless_reach hacyclic hroot (fun r s h₁ h₂ ↦ writes_of_through (t := .field name)
      (fun h v c ↦ suitsAt_of_checkMapping) hdone) fun r s h₁ hacyclic₁ hsuits ↦ ?_
    exact spotless_through (t := .field name) hacyclic₁ (fun w c ↦ suitsAt_of_checkMapping)
      (fun w e ↦ ofWrite_of_checkMapping) hdone
      fun c h₂ hacyclic₂ hsuits₂ ↦ ih hacyclic₂ (suitsAt_field_iff.mp hsuits₂)

end Steps

end Heap

/-- Assumes: an acyclic heap, a root that is a mapping, and a write there that fails. It fails as
writes do, and unless a mapping refused to be assigned to, every cell that was there is as it was. -/
theorem extends_of_set_error {limit : Option Nat} {root : Ref} {path : String} {v : Value}
    {w w' : Workplace} {e : Fault} (hacyclic : w.heap.Acyclic) (hroot : w.heap.IsMapping root)
    (hset : Scan.set limit root path v w = .error e w') :
    e.OfWrite ∧ (e ≠ .refused .assignment → w.heap.Extends w'.heap) :=
  Heap.spotless_set hacyclic hroot e w'.heap ((Scan.steady_set limit root path v).effect_of_error hset)

/-- There is no room for the padding that `a[n].b` takes with `n = 2 ^ 60 + 1` behind one item. By
then the new mapping for the item has its `b`, and the list is as it was. -/
theorem extends_of_set_error_no_room :
    let w : Workplace :=
      ⟨⟨#[.mapping .plain (.ofList [(.text "a", .object 1)]), .list [.integer 1]]⟩, .new 0, #[]⟩
    w.heap.Acyclic ∧ w.heap.IsMapping 0 ∧ ∃ w',
      Scan.set none 0 "a[1152921504606846977].b" (.integer 5) w = .error (.padding .noRoom) w' ∧
        w.heap.size < w'.heap.size ∧ w.heap.Extends w'.heap := by
  intro w
  have hacyclic : w.heap.Acyclic := Heap.acyclic_of_lt (by decide)
  have hroot : w.heap.IsMapping 0 := ⟨_, _, rfl⟩
  have hstep : Step.decode "a[1152921504606846977].b" =
      .ok ⟨"a[1152921504606846977].b", "a", .item 1152921504606846977, some "b"⟩ := by decide +kernel
  have hlast : Step.decode "b" = .ok ⟨"b", "b", .key, none⟩ := by decide +kernel
  obtain ⟨h', heffect, hsize⟩ : ∃ h',
      (Scan.set none 0 "a[1152921504606846977].b" (.integer 5)).effect w.heap =
        (.error (.padding .noRoom), h') ∧ w.heap.size < h'.size :=
    ⟨_, Scan.effect_set_of_two hstep rfl hlast rfl .., by decide⟩
  obtain ⟨w', hset, rfl⟩ := (Scan.steady_set _ _ _ _).exists_of_effect_error heffect
  exact ⟨hacyclic, hroot, w', hset, hsize, (extends_of_set_error hacyclic hroot hset).2 nofun⟩

end DottedPath
