import DottedPath.Proofs.Scan.Seek
import DottedPath.Proofs.Write.Success

/-!
# Where a shape does not fit

Reads, writes and removals insist on the same shapes in the same places. What each of them meets is
found slot by slot: nothing where a slot is missing or null, and otherwise what the check of the slot
or the work behind it meets (`Heap.misfitAt`). A write goes on where a slot is missing or null, but in
new containers, where nothing can be of a wrong shape (`misfit?_set_blank`).

So unless a read stops at a step `name[]` with more steps behind it, a removal meets what the read
meets (`misfit?_remove`), and so does a write, or it is stopped before by an index above the limit
(`misfit?_set`).
-/

set_option autoImplicit false
set_option relaxedAutoImplicit false

namespace DottedPath

open Scan

/-- The same fault as a write or a removal has it. -/
def ShapeFault.whenWriting (fault : ShapeFault) : ShapeFault := { fault with mode := .write }

namespace Fault

/-- The fault as one of a shape. -/
def shape? : Fault → Option ShapeFault
  | shape fault => some fault
  | _ => none

/-- The same fault as a write or a removal has it. -/
def whenWriting : Fault → Fault
  | shape fault => shape fault.whenWriting
  | e => e

theorem shape?_whenWriting (e : Fault) : e.whenWriting.shape? = e.shape?.map .whenWriting := by
  cases e <;> rfl

end Fault

namespace Scan

variable {α β : Type}

/-- The shape fault that stopped some work, if one did. -/
def misfit? : EStateM.Result Fault Workplace α → Option ShapeFault
  | .ok _ _ => none
  | .error e _ => e.shape?

/-- The shape fault in an outcome. -/
def misfitIn? (x : Except Fault α × Heap) : Option ShapeFault :=
  match x.1 with
  | .ok _ => none
  | .error e => e.shape?

theorem misfit?_eq {work : Scan α} (hwork : Steady work) (w : Workplace) :
    misfit? (work w) = misfitIn? (work.effect w.heap) := by
  rw [← hwork w]
  cases work w <;> rfl

theorem misfitIn?_andThen (x : Except Fault α × Heap) (next : α → Heap → Except Fault β × Heap) :
    misfitIn? (andThen x next) = match x with
      | (.ok a, h) => misfitIn? (next a h)
      | (.error e, _) => e.shape? := by
  obtain ⟨e | a, h⟩ := x <;> rfl

end Scan

namespace Heap

variable {h : Heap} {r : Ref} {s : Slot} {blank : Cell} {check check' : Heap → Value → Except Fault Ref}
variable {behind behind' : Ref → Option ShapeFault}

/-- The shape fault met in a slot that has to pass a check, or behind it. -/
def misfitAt (h : Heap) (r : Ref) (s : Slot) (check : Heap → Value → Except Fault Ref)
    (behind : Ref → Option ShapeFault) : Option ShapeFault :=
  if (h.slot? r s).getD .null = .null then none
  else
    match check h ((h.slot? r s).getD .null) with
    | .ok c => behind c
    | .error e => e.shape?

theorem misfitAt_of_null (hnull : (h.slot? r s).getD .null = .null) :
    h.misfitAt r s check behind = none := if_pos hnull

theorem misfitAt_of_ok {c : Ref} (hne : (h.slot? r s).getD .null ≠ .null)
    (hok : check h ((h.slot? r s).getD .null) = .ok c) :
    h.misfitAt r s check behind = behind c := by
  rw [misfitAt, if_neg hne, hok]

theorem misfitAt_of_error {e : Fault} (hne : (h.slot? r s).getD .null ≠ .null)
    (herror : check h ((h.slot? r s).getD .null) = .error e) :
    h.misfitAt r s check behind = e.shape? := by
  rw [misfitAt, if_neg hne, herror]

/-- What is met behind a slot makes the difference, and only where the slot passes the check. -/
theorem misfitAt_cases {P : Prop}
    (hbehind : ∀ c, (h.slot? r s).getD .null ≠ .null →
      check h ((h.slot? r s).getD .null) = .ok c → behind c = behind' c ∨ P ∧ behind c = none) :
    h.misfitAt r s check behind = h.misfitAt r s check behind' ∨
      P ∧ h.misfitAt r s check behind = none := by
  by_cases hnull : (h.slot? r s).getD .null = .null
  · exact .inl (by rw [misfitAt_of_null hnull, misfitAt_of_null hnull])
  · cases hcheck : check h ((h.slot? r s).getD .null) with
    | error e => exact .inl (by rw [misfitAt_of_error hnull hcheck, misfitAt_of_error hnull hcheck])
    | ok c =>
      rw [misfitAt_of_ok hnull hcheck, misfitAt_of_ok hnull hcheck]
      exact hbehind c hnull hcheck

theorem misfitAt_congr
    (hbehind : ∀ c, (h.slot? r s).getD .null ≠ .null →
      check h ((h.slot? r s).getD .null) = .ok c → behind c = behind' c) :
    h.misfitAt r s check behind = h.misfitAt r s check behind' := by
  have hcases := misfitAt_cases (P := False) fun c hne hok ↦ .inl (hbehind c hne hok)
  simpa using hcases

/-- Two checks that differ in the mode of their faults. -/
theorem map_misfitAt (hcheck : ∀ v, check' h v = (check h v).mapError Fault.whenWriting) :
    (h.misfitAt r s check behind).map .whenWriting =
      h.misfitAt r s check' fun c ↦ (behind c).map .whenWriting := by
  unfold misfitAt
  split
  · rfl
  · rw [hcheck]
    cases check h ((h.slot? r s).getD .null) with
    | ok c => rfl
    | error e => exact (Fault.shape?_whenWriting e).symm

theorem misfitIn?_seek (read : Ref → Except Fault Value × Heap) :
    misfitIn? (h.seek r s check read) = h.misfitAt r s check fun c ↦ misfitIn? (read c) := by
  unfold seek misfitAt
  split
  · rfl
  · rw [misfitIn?_andThen]
    cases check h ((h.slot? r s).getD .null) <;> rfl

theorem misfitIn?_visit (work : Ref → Heap → Except Fault Unit × Heap) :
    misfitIn? (h.visit r s check work) = h.misfitAt r s check fun c ↦ misfitIn? (work c h) := by
  unfold visit misfitAt
  split
  · rfl
  · rw [misfitIn?_andThen]
    cases check h ((h.slot? r s).getD .null) <;> rfl

/-- To fill a slot meets no shape. -/
theorem misfitIn?_fill (v : Value) : misfitIn? (changed h (h.fill r s v)) = none := by
  cases hfill : h.fill r s v with
  | ok h' => rfl
  | error e =>
    cases s with
    | field name =>
      simp only [fill, assign] at hfill
      split at hfill
      · cases hfill
        rfl
      · cases hfill
    | index n =>
      simp only [fill, putItem] at hfill
      repeat' split at hfill
      all_goals cases hfill <;> rfl
    | next => cases hfill

theorem misfitIn?_unset (name : String) : misfitIn? (h.unset r name) = none := by
  unfold unset
  cases h.slot? r (.field name) with
  | none => rfl
  | some v =>
    by_cases hreadOnly : h.isReadOnly r <;> simp [delete, hreadOnly, changed, misfitIn?, Fault.shape?]

/-- A write through a slot meets what a removal meets there, if it meets nothing in a new
container. -/
theorem misfitIn?_through {work : Ref → Heap → Except Fault Unit × Heap}
    (hblank : misfitIn? (work h.size (h.alloc blank)) = none) :
    misfitIn? (h.through r s blank check work) =
      h.misfitAt r s check fun c ↦ misfitIn? (work c h) := by
  have hback : ∀ x : Except Fault Unit × Heap, ∀ c : Ref,
      misfitIn? (andThen x fun _ h ↦ changed h (h.fill r s (.object c))) = misfitIn? x := by
    rintro ⟨e | _, h'⟩ c
    · rfl
    · exact misfitIn?_fill _
  unfold through
  by_cases hnull : (h.slot? r s).getD .null = .null
  · rw [enter_of_null hnull, andThen_ok, hback, hblank, misfitAt_of_null hnull]
  · rw [enter_of_ne hnull]
    cases hcheck : check h ((h.slot? r s).getD .null) with
    | ok c => rw [andThen_ok, hback, misfitAt_of_ok hnull hcheck]
    | error e => rw [misfitAt_of_error hnull hcheck]; rfl

/-- The shape fault met at a step with more steps behind it, or behind it. -/
def misfitAlong (h : Heap) (root : Ref) (step : Step) (behind : Ref → Option ShapeFault) :
    Option ShapeFault :=
  match step.place.slot? with
  | none => h.misfitAt root (.field step.name) step.checkMapping behind
  | some slot =>
    h.misfitAt root (.field step.name) step.checkList fun list ↦
      h.misfitAt list slot step.checkMapping behind

/-- What is on the way of a step passes the checks, and the step leads to a mapping. -/
inductive Passes (h : Heap) (root : Ref) (step : Step) (child : Ref) : Prop
  | key (hplace : step.place.slot? = none) (hne : (h.slot? root (.field step.name)).getD .null ≠ .null)
    (hok : step.checkMapping h ((h.slot? root (.field step.name)).getD .null) = .ok child)
  | inList {list : Ref} {slot : Slot} (hplace : step.place.slot? = some slot)
    (hne : (h.slot? root (.field step.name)).getD .null ≠ .null)
    (hok : step.checkList h ((h.slot? root (.field step.name)).getD .null) = .ok list)
    (hne' : (h.slot? list slot).getD .null ≠ .null)
    (hok' : step.checkMapping h ((h.slot? list slot).getD .null) = .ok child)

theorem misfitAlong_cases {P : Prop} {root : Ref} {step : Step}
    (hbehind : ∀ child, h.Passes root step child →
      behind child = behind' child ∨ P ∧ behind child = none) :
    h.misfitAlong root step behind = h.misfitAlong root step behind' ∨
      P ∧ h.misfitAlong root step behind = none := by
  unfold misfitAlong
  cases hplace : step.place.slot? with
  | none => exact misfitAt_cases fun child hne hok ↦ hbehind child (.key hplace hne hok)
  | some slot =>
    exact misfitAt_cases fun list hne hok ↦ misfitAt_cases fun child hne' hok' ↦
      hbehind child (.inList hplace hne hok hne' hok')

theorem misfitAlong_congr {root : Ref} {step : Step}
    (hbehind : ∀ child, h.Passes root step child → behind child = behind' child) :
    h.misfitAlong root step behind = h.misfitAlong root step behind' := by
  have hcases := misfitAlong_cases (P := False) fun child hpasses ↦ .inl (hbehind child hpasses)
  simpa using hcases

/-- In a new container there is nothing of a wrong shape. -/
theorem misfitAt_blank (t : Slot) :
    (h.alloc t.blank).misfitAt h.size s check behind = none := by
  apply misfitAt_of_null
  rw [slot?_alloc_self, Cell.slot?_blank]
  rfl

end Heap

namespace Step

variable {limit : Option Nat} {step : Step} {root : Ref} {h : Heap}

theorem checkMapping_eq (step : Step) (h : Heap) (v : Value) :
    step.checkMapping h v = (step.readMapping h v).mapError Fault.whenWriting := by
  simp only [checkMapping, readMapping, Heap.asMapping]
  cases h.node v <;> rfl

theorem checkList_eq (step : Step) (h : Heap) (v : Value) :
    step.checkList h v = (step.readList h v).mapError Fault.whenWriting := by
  simp only [checkList, readList, Heap.asList]
  cases h.node v <;> rfl

theorem readMapping_of_checkMapping (step : Step) {v : Value} {c : Ref}
    (hok : step.checkMapping h v = .ok c) : step.readMapping h v = .ok c := by
  rw [checkMapping_eq] at hok
  cases hread : step.readMapping h v with
  | ok c' => rwa [hread] at hok
  | error e => rw [hread] at hok; cases hok

theorem readList_of_checkList (step : Step) {v : Value} {c : Ref}
    (hok : step.checkList h v = .ok c) : step.readList h v = .ok c := by
  rw [checkList_eq] at hok
  cases hread : step.readList h v with
  | ok c' => rwa [hread] at hok
  | error e => rw [hread] at hok; cases hok

/-- A step to a list meets what is met in the list, or nothing as its index is above the limit. -/
theorem misfitIn?_reach (limit : Option Nat) (root : Ref) {slot : Slot}
    (hplace : step.place.slot? = some slot) (work : Ref → Slot → Heap → Except Fault Unit × Heap)
    (hblank : misfitIn? (work h.size slot (h.alloc (.list []))) = none) :
    misfitIn? (step.reach limit root work h) =
        h.misfitAt root (.field step.name) step.checkList (fun list ↦ misfitIn? (work list slot h)) ∨
      ¬step.hop.Allowed limit ∧ misfitIn? (step.reach limit root work h) = none := by
  unfold reach
  rw [hplace]
  cases hlimit : step.checkLimit limit with
  | ok _ => exact .inl (Heap.misfitIn?_through hblank)
  | error e =>
    refine .inr ⟨fun hallowed ↦ ?_, ?_⟩
    · rw [checkLimit_eq_ok_iff.mpr hallowed] at hlimit
      cases hlimit
    · unfold checkLimit at hlimit
      repeat' split at hlimit
      all_goals cases hlimit
      rfl

theorem misfitIn?_reach_blank (t : Slot) {work : Ref → Slot → Heap → Except Fault Unit × Heap}
    (hwork : ∀ (h : Heap) (s t : Slot), misfitIn? (work h.size s (h.alloc t.blank)) = none) :
    misfitIn? (step.reach limit h.size work (h.alloc t.blank)) = none := by
  cases hplace : step.place.slot? with
  | none =>
    unfold reach
    rw [hplace]
    exact hwork h _ t
  | some slot =>
    obtain hfound | ⟨-, hnone⟩ :=
      misfitIn?_reach limit h.size hplace work (hwork (h.alloc t.blank) slot .next)
    · exact hfound.trans (Heap.misfitAt_blank t)
    · exact hnone

end Step

namespace Scan

variable {limit : Option Nat} {root : Ref} {path : String} {v : Value} {h : Heap}

/-- In a new mapping a write meets nothing of a wrong shape. -/
theorem misfit?_set_blank :
    misfitIn? ((set limit h.size path v).effect (h.alloc (.mapping .plain .empty))) = none := by
  induction path using Path.induction generalizing h with
  | broken path e he => rw [effect_set_of_error he]; rfl
  | last path step hstep hrest =>
    rw [effect_set_of_last hstep hrest]
    exact Step.misfitIn?_reach_blank (.field step.name) fun _ _ _ ↦ Heap.misfitIn?_fill v
  | more path step rest hstep hrest ih =>
    rw [effect_set_of_more hstep hrest]
    exact Step.misfitIn?_reach_blank (.field step.name) fun _ _ t ↦
      (Heap.misfitIn?_through ih).trans (Heap.misfitAt_blank t)

/-! ### Reads, removals and writes -/

/-- A read that does not stop at a step `name[]` with more steps behind it. -/
def Continues (root : Ref) (path : String) (h : Heap) : Prop :=
  ∀ field text, ((get root path).effect h).1 ≠ .error (.path field text .unindexed)

section Step

variable {step : Step} {rest : String}

/-- At the end of a path that is a key, nothing has to be of any shape. -/
theorem misfitIn?_of_last_key (hstep : Step.decode path = .ok step) (hrest : step.rest = none)
    (hplace : step.place = .key) (limit : Option Nat) (root : Ref) (v : Value) (h : Heap) :
    misfitIn? ((get root path).effect h) = none ∧ misfitIn? ((remove root path).effect h) = none ∧
      misfitIn? ((set limit root path v).effect h) = none := by
  rw [effect_get_of_last hstep hrest hplace, effect_remove_of_last hstep hrest hplace,
    effect_set_of_last hstep hrest, Step.reach, hplace]
  exact ⟨rfl, Heap.misfitIn?_unset _, Heap.misfitIn?_fill v⟩

/-- At the end of a path that is a step to a list, the list is all that has to be of a shape. -/
theorem misfitIn?_get_of_last {slot : Slot} (hstep : Step.decode path = .ok step)
    (hrest : step.rest = none) (hplace : step.place.slot? = some slot) :
    (misfitIn? ((get root path).effect h)).map .whenWriting =
      h.misfitAt root (.field step.name) step.checkList fun _ ↦ none := by
  have hlist : step.place ≠ .key := fun hkey ↦ by simp [hkey, Place.slot?] at hplace
  rw [effect_get_of_last_list hstep hrest hlist, Heap.misfitIn?_seek,
    Heap.map_misfitAt (step.checkList_eq h)]
  rfl

theorem misfitIn?_remove_of_last {slot : Slot} (hstep : Step.decode path = .ok step)
    (hrest : step.rest = none) (hplace : step.place.slot? = some slot) :
    misfitIn? ((remove root path).effect h) =
      h.misfitAt root (.field step.name) step.checkList fun _ ↦ none := by
  cases hp : step.place with
  | key => simp [hp, Place.slot?] at hplace
  | every =>
    have hunset : ∀ x : Except Fault Unit × Heap,
        misfitIn? (andThen x fun _ h ↦ h.unset root step.name) = misfitIn? x := by
      rintro ⟨e | _, h'⟩
      · rfl
      · exact Heap.misfitIn?_unset _
    rw [effect_remove_of_last_every hstep hrest hp, hunset, Heap.misfitIn?_visit]
    rfl
  | item n =>
    rw [effect_remove_of_last_item hstep hrest hp, Heap.misfitIn?_visit]
    rfl

theorem misfitIn?_set_of_last {slot : Slot} (hstep : Step.decode path = .ok step)
    (hrest : step.rest = none) (hplace : step.place.slot? = some slot) :
    misfitIn? ((set limit root path v).effect h) =
        h.misfitAt root (.field step.name) step.checkList (fun _ ↦ none) ∨
      ¬step.hop.Allowed limit ∧ misfitIn? ((set limit root path v).effect h) = none := by
  have hfill : ∀ list : Ref, misfitIn? (changed h (h.fill list slot v)) = none :=
    fun _ ↦ Heap.misfitIn?_fill v
  rw [effect_set_of_last hstep hrest]
  simpa only [hfill] using Step.misfitIn?_reach (h := h) limit root hplace
    (fun r s h ↦ changed h (h.fill r s v)) (Heap.misfitIn?_fill v)

theorem misfitIn?_get_of_more (hstep : Step.decode path = .ok step) (hrest : step.rest = some rest)
    (hcontinues : Continues root path h) :
    (misfitIn? ((get root path).effect h)).map .whenWriting =
      h.misfitAlong root step fun child ↦
        (misfitIn? ((get child rest).effect h)).map .whenWriting := by
  unfold Continues at hcontinues
  cases hplace : step.place with
  | key =>
    rw [Heap.misfitAlong, hplace, effect_get_of_more hstep hrest hplace, Heap.misfitIn?_seek,
      Heap.map_misfitAt (step.checkMapping_eq h)]
    rfl
  | item n =>
    rw [Heap.misfitAlong, hplace, effect_get_of_more_item hstep hrest hplace, Heap.misfitIn?_seek,
      Heap.map_misfitAt (step.checkList_eq h)]
    simp only [Heap.misfitIn?_seek, Heap.map_misfitAt (step.checkMapping_eq h)]
    rfl
  | every =>
    rw [effect_get_of_more_every hstep hrest hplace] at hcontinues ⊢
    rw [Heap.misfitAlong, hplace, Heap.misfitIn?_seek, Heap.map_misfitAt (step.checkList_eq h)]
    refine Heap.misfitAt_congr fun list hne hok ↦ ?_
    rw [Heap.seek_of_ok hne (step.readList_of_checkList hok)] at hcontinues
    exact absurd rfl (hcontinues _ _)

theorem misfitIn?_remove_of_more (hstep : Step.decode path = .ok step)
    (hrest : step.rest = some rest) (hcontinues : Continues root path h) :
    misfitIn? ((remove root path).effect h) =
      h.misfitAlong root step fun child ↦ misfitIn? ((remove child rest).effect h) := by
  unfold Continues at hcontinues
  cases hplace : step.place with
  | key =>
    rw [Heap.misfitAlong, hplace, effect_remove_of_more hstep hrest hplace, Heap.misfitIn?_visit]
    rfl
  | item n =>
    rw [Heap.misfitAlong, hplace, effect_remove_of_more_item hstep hrest hplace,
      Heap.misfitIn?_visit]
    simp only [Heap.misfitIn?_visit]
    rfl
  | every =>
    rw [effect_get_of_more_every hstep hrest hplace] at hcontinues
    rw [Heap.misfitAlong, hplace, effect_remove_of_more_every hstep hrest hplace,
      Heap.misfitIn?_visit]
    refine Heap.misfitAt_congr fun list hne hok ↦ ?_
    rw [Heap.seek_of_ok hne (step.readList_of_checkList hok)] at hcontinues
    exact absurd rfl (hcontinues _ _)

theorem misfitIn?_set_of_more (hstep : Step.decode path = .ok step)
    (hrest : step.rest = some rest) (limit : Option Nat) (root : Ref) (v : Value) (h : Heap) :
    misfitIn? ((set limit root path v).effect h) =
        h.misfitAlong root step (fun child ↦ misfitIn? ((set limit child rest v).effect h)) ∨
      ¬step.hop.Allowed limit ∧ misfitIn? ((set limit root path v).effect h) = none := by
  have hthrough : ∀ (h : Heap) r s, misfitIn? (h.through r s (.mapping .plain .empty)
      step.checkMapping fun child ↦ (set limit child rest v).effect) =
      h.misfitAt r s step.checkMapping fun child ↦
        misfitIn? ((set limit child rest v).effect h) :=
    fun _ _ _ ↦ Heap.misfitIn?_through misfit?_set_blank
  rw [effect_set_of_more hstep hrest, Heap.misfitAlong]
  cases hplace : step.place.slot? with
  | none =>
    rw [Step.reach, hplace]
    exact .inl (hthrough h root _)
  | some slot =>
    have hreach := Step.misfitIn?_reach (h := h) limit root hplace
      (fun r s h ↦ h.through r s (.mapping .plain .empty) step.checkMapping
        fun child ↦ (set limit child rest v).effect) ((hthrough _ _ _).trans (Heap.misfitAt_blank .next))
    simpa only [hthrough] using hreach

/-- A read that continues does so in the mapping that a step leads to. -/
theorem Continues.of_passes {child : Ref} (hcontinues : Continues root path h)
    (hstep : Step.decode path = .ok step) (hrest : step.rest = some rest)
    (hpasses : h.Passes root step child) : Continues child rest h := by
  unfold Continues at hcontinues
  cases hpasses with
  | key hplace hne hok =>
    have hkey := Place.slot?_eq_none_iff.mp hplace
    rwa [effect_get_of_more hstep hrest hkey, Heap.seek_of_ok hne (step.readMapping_of_checkMapping hok)]
      at hcontinues
  | inList hplace hne hok hne' hok' =>
    cases hp : step.place with
    | key => simp [hp, Place.slot?] at hplace
    | every =>
      obtain rfl := Option.some.inj ((congrArg Place.slot? hp).symm.trans hplace)
      simp [Heap.slot?] at hne'
    | item n =>
      obtain rfl := Option.some.inj ((congrArg Place.slot? hp).symm.trans hplace)
      rwa [effect_get_of_more_item hstep hrest hp,
        Heap.seek_of_ok hne (step.readList_of_checkList hok),
        Heap.seek_of_ok hne' (step.readMapping_of_checkMapping hok')] at hcontinues

end Step

/-- A removal meets what a read meets that does not stop at a step `name[]`. -/
theorem misfit?_remove (hcontinues : Continues root path h) :
    misfitIn? ((remove root path).effect h) =
      (misfitIn? ((get root path).effect h)).map .whenWriting := by
  induction path using Path.induction generalizing root with
  | broken path e he =>
    rw [effect_remove_of_error he, follows_get.effect_of_error he]
    rfl
  | last path step hstep hrest =>
    cases hplace : step.place.slot? with
    | none =>
      have hkey := Place.slot?_eq_none_iff.mp hplace
      obtain ⟨hget, hremove, -⟩ := misfitIn?_of_last_key hstep hrest hkey none root .null h
      rw [hget, hremove]
      rfl
    | some slot =>
      rw [misfitIn?_remove_of_last hstep hrest hplace, misfitIn?_get_of_last hstep hrest hplace]
  | more path step rest hstep hrest ih =>
    rw [misfitIn?_remove_of_more hstep hrest hcontinues, misfitIn?_get_of_more hstep hrest hcontinues]
    exact Heap.misfitAlong_congr fun child hpasses ↦ ih (hcontinues.of_passes hstep hrest hpasses)

/-- A write meets what a read meets that does not stop at a step `name[]`, or it is stopped before by
an index above the limit. -/
theorem misfit?_set (limit : Option Nat) (v : Value) (hcontinues : Continues root path h) :
    misfitIn? ((set limit root path v).effect h) =
        (misfitIn? ((get root path).effect h)).map .whenWriting ∨
      ¬Path.Allowed limit path ∧ misfitIn? ((set limit root path v).effect h) = none := by
  induction path using Path.induction generalizing root with
  | broken path e he =>
    rw [effect_set_of_error he, follows_get.effect_of_error he]
    exact .inl rfl
  | last path step hstep hrest =>
    rw [Path.allowed_of_last hstep hrest]
    cases hplace : step.place.slot? with
    | none =>
      have hkey := Place.slot?_eq_none_iff.mp hplace
      obtain ⟨hget, -, hset⟩ := misfitIn?_of_last_key hstep hrest hkey limit root v h
      rw [hget, hset]
      exact .inl rfl
    | some slot =>
      rw [misfitIn?_get_of_last hstep hrest hplace]
      exact misfitIn?_set_of_last hstep hrest hplace
  | more path step rest hstep hrest ih =>
    rw [Path.allowed_of_more hstep hrest, misfitIn?_get_of_more hstep hrest hcontinues]
    obtain hset | ⟨habove, hnone⟩ :=
      misfitIn?_set_of_more hstep hrest limit root v h
    · rw [hset]
      refine (Heap.misfitAlong_cases fun child hpasses ↦
        ih (hcontinues.of_passes hstep hrest hpasses)).imp_right ?_
      rintro ⟨habove, hnone⟩
      exact ⟨fun hallowed ↦ habove hallowed.2, hnone⟩
    · exact .inr ⟨fun hallowed ↦ habove hallowed.1, hnone⟩

theorem continues_of_places (hplaces : ∀ hop ∈ Path.hops path, hop.place ≠ .every) :
    Continues root path h := by
  intro field text hget
  cases Fault.ofRead_of_get hget with
  | unindexed hevery =>
    obtain ⟨hop, hhop, hplace⟩ := hevery
    exact hplaces hop hhop hplace

theorem mode_of_misfit?_get {w : Workplace} {fault : ShapeFault}
    (hfault : fault ∈ misfit? (get root path w)) : fault.mode = .read := by
  rw [misfit?_eq (follows_get.steady root path)] at hfault
  unfold misfitIn? at hfault
  cases hget : ((get root path).effect w.heap).1 with
  | ok v => simp [hget] at hfault
  | error e =>
    rw [hget] at hfault
    cases Fault.ofRead_of_get hget with
    | shape hmode =>
      obtain rfl := Option.some.inj hfault
      exact hmode
    | numeral | unindexed _ => cases hfault

end Scan

/-- Reading, writing and removing agree on what is a shape fault. At a path without a step `name[]`
whose indices are within the limit, a read meets a shape fault exactly when a write does and when a
removal does, and it is the same fault, with the same field, path, expectation and value found, only
that the mode is that of a read or of a write. At any path that is read to null, neither a write nor a
removal meets a shape fault. -/
theorem shape_faults_agree {limit : Option Nat} {root : Ref} {path : String} {v : Value}
    {w : Workplace} :
    ((∀ hop ∈ Path.hops path, hop.place ≠ .every) → Path.Allowed limit path →
      misfit? (set limit root path v w) = (misfit? (get root path w)).map .whenWriting ∧
        misfit? (remove root path w) = (misfit? (get root path w)).map .whenWriting ∧
        ∀ fault ∈ misfit? (get root path w), fault.mode = .read) ∧
      ∀ w', get root path w = .ok .null w' →
        misfit? (set limit root path v w) = none ∧ misfit? (remove root path w) = none := by
  have hget := misfit?_eq (follows_get.steady root path) w
  have hset := misfit?_eq (steady_set limit root path v) w
  have hremove := misfit?_eq (steady_remove root path) w
  constructor
  · intro hplaces hallowed
    have hcontinues : Continues root path w.heap := continues_of_places hplaces
    rw [hset, hremove, hget]
    refine ⟨?_, misfit?_remove hcontinues, fun fault hfault ↦ ?_⟩
    · obtain hsame | ⟨habove, -⟩ := misfit?_set limit v hcontinues
      · exact hsame
      · exact absurd hallowed habove
    · exact mode_of_misfit?_get (hget.trans hfault)
  · intro w' hnull
    have heffect := (follows_get.steady root path).effect_of_ok hnull
    have hcontinues : Continues root path w.heap := by
      intro field text herror
      rw [heffect] at herror
      cases herror
    rw [hset, hremove, misfit?_remove hcontinues, heffect]
    refine ⟨?_, rfl⟩
    obtain hsame | ⟨-, hnone⟩ := misfit?_set limit v hcontinues
    · rw [hsame, heffect]
      rfl
    · exact hnone

/-- An integer in a list where a mapping is wanted, and a key that is missing. -/
theorem shape_faults_agree_item :
    let w : Workplace :=
      ⟨⟨#[.list [.integer 1], .mapping .plain (.ofList [(.text "a", .object 0)])]⟩, .new 0, #[]⟩
    let fault : ShapeFault := ⟨"a[0]", "a[0].b", .shape .mapping, .integer 1, .read⟩
    ((∀ hop ∈ Path.hops "a[0].b", hop.place ≠ .every) ∧ Path.Allowed (some 0) "a[0].b" ∧
      misfit? (get 1 "a[0].b" w) = some fault ∧
      misfit? (set (some 0) 1 "a[0].b" .null w) = some fault.whenWriting ∧
      misfit? (remove 1 "a[0].b" w) = some fault.whenWriting) ∧
    ∃ w', get 1 "c[].b" w = .ok .null w' ∧
      misfit? (set (some 0) 1 "c[].b" .null w) = none ∧ misfit? (remove 1 "c[].b" w) = none := by
  intro w fault
  have hitem : Step.decode "a[0].b" = .ok ⟨"a[0].b", "a", .item 0, some "b"⟩ := by decide +kernel
  have hevery : Step.decode "c[].b" = .ok ⟨"c[].b", "c", .every, some "b"⟩ := by decide +kernel
  have hhops : Path.hops "a[0].b" = [⟨"a", .item 0⟩, ⟨"b", .key⟩] := by decide +kernel
  have hplaces : ∀ hop ∈ Path.hops "a[0].b", hop.place ≠ .every := by simp [hhops]
  have hallowed : Path.Allowed (some 0) "a[0].b" := by simp [Path.Allowed, hhops, Hop.Allowed]
  have hget : misfit? (get 1 "a[0].b" w) = some fault := by
    rw [misfit?_eq (follows_get.steady 1 _), effect_get_of_more_item hitem rfl rfl]
    rfl
  have hnull : (get 1 "c[].b").effect w.heap = (.ok .null, w.heap) := by
    rw [effect_get_of_more_every hevery rfl rfl]
    rfl
  obtain ⟨w', hrun, -⟩ := (follows_get.steady 1 "c[].b").exists_of_effect hnull
  obtain ⟨hset, hremove, -⟩ := (shape_faults_agree (v := .null)).1 hplaces hallowed
  rw [hget] at hset hremove
  exact ⟨⟨hplaces, hallowed, hget, hset, hremove⟩, w', hrun, shape_faults_agree.2 w' hrun⟩

end DottedPath
