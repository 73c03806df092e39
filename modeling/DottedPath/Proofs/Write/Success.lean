import DottedPath.Proofs.Tree.Write
import DottedPath.Proofs.Write.Failure
import DottedPath.Proofs.Write.ReadBack

/-!
# When a write succeeds

A write at a path succeeds exactly when the path can be read, its indices are within the limit, and
its slots can be written at in the heap (`effect_set_eq_ok_iff`); the first two do not look at the
heap, and the last does not look at the path beyond its slots.

Where the first slot is missing or null, all that is written is new, and whether it can be is plain
to see: the slot has to take a value (`Heap.Takes`), and no other slot may lie too far behind the
items of its list, which are none (`exists_writes_iff`).
-/

set_option autoImplicit false
set_option relaxedAutoImplicit false

namespace DottedPath

open Scan

/-- The index of the hop, if it has one, is within the limit. -/
def Hop.Allowed (limit : Option Nat) (hop : Hop) : Prop :=
  ∀ greatest ∈ limit, ∀ n, hop.place = .item n → n ≤ greatest

/-- All indices of the path are within the limit. -/
def Path.Allowed (limit : Option Nat) (path : String) : Prop :=
  ∀ hop ∈ Path.hops path, hop.Allowed limit

theorem Step.checkLimit_eq_ok_iff {limit : Option Nat} {step : Step} :
    step.checkLimit limit = .ok () ↔ step.hop.Allowed limit := by
  obtain ⟨text, name, place, rest⟩ := step
  cases limit with
  | none => simp [checkLimit, Hop.Allowed]
  | some greatest =>
    cases place with
    | key | every => simp [checkLimit, Hop.Allowed, hop]
    | item n =>
      by_cases hn : greatest < n
      · simp [checkLimit, Hop.Allowed, hop, hn]
      · simp [checkLimit, Hop.Allowed, hop, hn, Nat.le_of_not_lt hn]

theorem Path.allowed_of_last {limit : Option Nat} {path : String} {step : Step}
    (hstep : Step.decode path = .ok step) (hrest : step.rest = none) :
    Allowed limit path ↔ step.hop.Allowed limit := by
  rw [Allowed, hops_of_last hstep hrest, List.forall_mem_singleton]

theorem Path.allowed_of_more {limit : Option Nat} {path rest : String} {step : Step}
    (hstep : Step.decode path = .ok step) (hrest : step.rest = some rest) :
    Allowed limit path ↔ step.hop.Allowed limit ∧ Allowed limit rest := by
  rw [Allowed, hops_of_more hstep hrest, List.forall_mem_cons, Allowed]

theorem Path.allowed_none (path : String) : Allowed none path := by
  intro hop _ greatest hgreatest
  cases hgreatest

/-- Of a cell, a slot and an item there is only one cell with the item in the slot. -/
theorem Cell.Written.eq_put {c c' : Cell} {s : Slot} {item : Value} (hwritten : c.Written s item c') :
    c' = c.put s item := by
  cases hwritten with
  | @replaceKey kind t t' es₁ es₂ name old item hold hnew =>
    have hnodup := t.nodup_keys
    rw [hold, List.map_append, List.map_cons, List.nodup_append] at hnodup
    have habsent : Key.text name ∉ es₁.map Prod.fst := fun hmem ↦
      hnodup.2.2 _ hmem _ (List.mem_cons_self ..) rfl
    have hput : (t.put (.text name) item).entries = es₁ ++ (.text name, item) :: es₂ := by
      show Table.putEntry t.entries _ _ = _
      rw [hold, Table.putEntry_append_cons habsent]
    exact congrArg (Cell.mapping kind) (Table.ext_entries (hnew.trans hput.symm))
  | @addKey kind t t' name item habsent hnew =>
    have hput := Table.putEntry_of_not_mem t.entries (.text name) item habsent
    exact congrArg (Cell.mapping kind) (Table.ext_entries (hnew.trans hput.symm))
  | replaceItem hn => rw [put, if_pos hn]
  | pad hn => rw [put, if_neg (Nat.not_lt_of_le hn)]
  | append => rfl

namespace Heap

/-- A slot of a new container takes a value unless it lies too far behind its no items. -/
theorem takes_alloc_iff {h : Heap} {t : Slot} : (h.alloc t.blank).Takes h.size t ↔ t.Small := by
  cases t <;> simp [Takes, isReadOnly, items, Slot.Small, Slot.blank]

/-! ### Writes that succeed -/

section Writes

variable {h h' : Heap} {r root : Ref} {s t : Slot} {slots : List Slot} {v : Value}

/-- Work through a slot succeeds when the slots behind it can be written at and this is what the
work does. -/
theorem through_of_writes {check : Heap → Value → Except Fault Ref}
    {work : Ref → Heap → Except Fault Unit × Heap}
    (hcheck : ∀ (h : Heap) c, h.SuitsAt c t → check h (.object c) = .ok c)
    (hwork : ∀ c (h₁ : Heap) h₂, h₁.Writes c (t :: slots) v h₂ → work c h₁ = (.ok (), h₂))
    (hwrites : h.Writes r (s :: t :: slots) v h') :
    h.through r s t.blank check work = (.ok (), h') := by
  cases hwrites with
  | @enter _ h₁ _ _ c _ _ _ _ hslot hsuits hwrites hfill =>
    have hvalue : (h.slot? r s).getD .null = .object c := by rw [hslot, Option.getD_some]
    rw [through, enter_of_ne (by simp [hvalue]), hvalue, hcheck h c hsuits, andThen_ok,
      hwork c h h₁ hwrites, andThen_ok, hfill]
    rfl
  | @make _ h₁ _ _ _ _ _ _ hslot hwrites hfill =>
    rw [through, enter_of_null hslot, andThen_ok, hwork _ _ _ hwrites, andThen_ok, hfill]
    rfl

theorem checkMapping_of_suitsAt {step : Step} {c : Ref} {name : String}
    (hsuits : h.SuitsAt c (.field name)) : step.checkMapping h (.object c) = .ok c :=
  asMapping_of_isMapping (suitsAt_field_iff.mp hsuits) _ _ _

theorem checkList_of_get? {c : Ref} {items : List Value} (step : Step)
    (hget : h.get? c = some (.list items)) : step.checkList h (.object c) = .ok c := by
  rw [Step.checkList, asList_of_get? hget]
  rfl

theorem checkList_of_suitsAt {step : Step} {c : Ref} (hplace : step.place.slot? = some s)
    (hsuits : h.SuitsAt c s) : step.checkList h (.object c) = .ok c := by
  obtain ⟨cell, hget, hcell⟩ := hsuits
  obtain ⟨items, rfl⟩ : ∃ items, cell = .list items := by
    cases hp : step.place <;> simp [hp, Place.slot?] at hplace <;> subst hplace <;>
      cases cell <;> first | exact ⟨_, rfl⟩ | exact hcell.elim
  exact checkList_of_get? step hget

theorem reach_of_writes {limit : Option Nat} {step : Step}
    {work : Ref → Slot → Heap → Except Fault Unit × Heap} (hallowed : step.hop.Allowed limit)
    (hwork : ∀ r s (h₁ : Heap) h₂, h₁.Writes r (s :: slots) v h₂ → work r s h₁ = (.ok (), h₂))
    (hwrites : h.Writes root (step.hop.slots ++ slots) v h') :
    step.reach limit root work h = (.ok (), h') := by
  unfold Step.reach
  cases hplace : step.place.slot? with
  | none =>
    rw [Step.slots_of_key (Place.slot?_eq_none_iff.mp hplace)] at hwrites
    exact hwork _ _ _ _ hwrites
  | some slot =>
    obtain ⟨hblank, -⟩ := Place.of_slot? hplace
    rw [Step.slots_of_slot? hplace] at hwrites
    simp only
    rw [Step.checkLimit_eq_ok_iff.mpr hallowed, andThen_ok, ← hblank]
    exact through_of_writes (fun h c ↦ checkList_of_suitsAt hplace) (fun c ↦ hwork c slot) hwrites

/-- A write at a path whose slots can be written at succeeds, if the path can be read and its indices
are within the limit. -/
theorem set_of_writes {limit : Option Nat} {path : String} (hreadable : Path.Readable path)
    (hallowed : Path.Allowed limit path) (hwrites : h.Writes root (Path.slots path) v h') :
    (set limit root path v).effect h = (.ok (), h') := by
  induction path using Path.induction generalizing root h h' with
  | broken path e he => exact absurd hreadable (Path.not_readable_of_error he)
  | last path step hstep hrest =>
    rw [Path.slots_of_last hstep hrest, ← List.append_nil step.hop.slots] at hwrites
    rw [effect_set_of_last hstep hrest]
    refine reach_of_writes ((Path.allowed_of_last hstep hrest).mp hallowed)
      (fun r s h₁ h₂ hfill ↦ ?_) hwrites
    cases hfill with
    | fill hfill => rw [hfill]; rfl
  | more path step rest hstep hrest ih =>
    obtain ⟨hhop, hbehind⟩ := (Path.allowed_of_more hstep hrest).mp hallowed
    obtain ⟨name, slots, hslots⟩ := Path.exists_slots_eq rest
    rw [Path.slots_of_more hstep hrest, hslots] at hwrites
    rw [hslots] at ih
    rw [effect_set_of_more hstep hrest]
    refine reach_of_writes hhop (fun r s h₁ h₂ ↦ ?_) hwrites
    exact through_of_writes (t := .field name) (fun h c ↦ checkMapping_of_suitsAt)
      fun c h₁ h₂ ↦ ih ((Path.readable_of_more hstep hrest).mp hreadable) hbehind

theorem allowed_of_reach {limit : Option Nat} {step : Step}
    {work : Ref → Slot → Heap → Except Fault Unit × Heap}
    (hreach : step.reach limit root work h = (.ok (), h')) : step.hop.Allowed limit := by
  unfold Step.reach at hreach
  cases hplace : step.place.slot? with
  | none =>
    intro greatest _ n hn
    rw [show step.place = .item n from hn] at hplace
    cases hplace
  | some slot =>
    rw [hplace] at hreach
    obtain ⟨_, _, hlimit, -⟩ := andThen_eq_ok hreach
    exact Step.checkLimit_eq_ok_iff.mp (congrArg Prod.fst hlimit)

theorem allowed_of_set {limit : Option Nat} {path : String}
    (hset : (set limit root path v).effect h = (.ok (), h')) : Path.Allowed limit path := by
  induction path using Path.induction generalizing root h h' with
  | broken path e he => simp [effect_set_of_error he] at hset
  | last path step hstep hrest =>
    rw [effect_set_of_last hstep hrest] at hset
    exact (Path.allowed_of_last hstep hrest).mpr (allowed_of_reach hset)
  | more path step rest hstep hrest ih =>
    rw [effect_set_of_more hstep hrest] at hset
    obtain ⟨r, s, h₁, h₂, hthrough⟩ := exists_of_reach hset
    obtain ⟨c, h₃, h₄, hdone⟩ := exists_of_through hthrough
    exact (Path.allowed_of_more hstep hrest).mpr ⟨allowed_of_reach hset, ih hdone⟩

/-- What a write does when it succeeds, and when it does. -/
theorem effect_set_eq_ok_iff {limit : Option Nat} {path : String} :
    (set limit root path v).effect h = (.ok (), h') ↔
      Path.Readable path ∧ Path.Allowed limit path ∧ h.Writes root (Path.slots path) v h' :=
  ⟨fun hset ↦ ⟨readable_of_set hset, allowed_of_set hset, writes_of_set hset⟩,
    fun ⟨hreadable, hallowed, hwrites⟩ ↦ set_of_writes hreadable hallowed hwrites⟩

theorem Writes.size_le (hwrites : h.Writes r slots v h') : h.size ≤ h'.size := by
  induction hwrites with
  | fill hfill => exact Nat.le_of_eq (size_fill hfill).symm
  | enter _ _ _ hfill ih => exact Nat.le_trans ih (Nat.le_of_eq (size_fill hfill).symm)
  | make _ _ hfill ih =>
    exact Nat.le_trans (extends_alloc _ _).size_le
      (Nat.le_trans ih (Nat.le_of_eq (size_fill hfill).symm))

theorem Writes.keepsLeaves (hwrites : h.Writes r slots v h') : h.KeepsLeaves h' := by
  induction hwrites with
  | fill hfill => exact keepsLeaves_fill hfill
  | enter _ _ _ hfill ih => exact ih.trans (keepsLeaves_fill hfill)
  | make _ _ hfill ih =>
    exact ((extends_alloc _ _).keepsLeaves.trans ih).trans (keepsLeaves_fill hfill)

/-! ### Writes at a slot in which nothing stands -/

/-- Assumes: a container with a slot in which nothing stands. A value can be written at slots that
begin with this one when the slot takes a value, and no slot behind it lies too far behind the items
of a new list. -/
theorem exists_writes_iff (hnull : (h.slot? r s).getD .null = .null) (hsuits : h.SuitsAt r s) :
    (∃ h', h.Writes r (s :: slots) v h') ↔ h.Takes r s ∧ ∀ t ∈ slots, t.Small := by
  induction slots generalizing h r s with
  | nil =>
    rw [← exists_fill_iff (v := v)]
    constructor
    · rintro ⟨h', hwrites⟩
      cases hwrites with
      | fill hfill => exact ⟨⟨h', hfill⟩, nofun⟩
    · rintro ⟨⟨h', hfill⟩, -⟩
      exact ⟨h', .fill hfill⟩
  | cons t slots ih =>
    have hblank : ((h.alloc t.blank).slot? h.size t).getD .null = .null := by
      simp [slot?_alloc_self]
    have hbelow := ih hblank ⟨t.blank, get?_alloc_self h _, t.suits_blank⟩
    -- What is written in the new container does not show in the one that holds the slot.
    have hkeep : ∀ h₁, (h.alloc t.blank).Writes h.size (t :: slots) v h₁ →
        (h₁.Takes r s ↔ h.Takes r s) := fun h₁ hwrites ↦
      takes_congr (hwrites.extends_of_alloc.get?_eq r (lt_size_of_suitsAt hsuits))
    rw [takes_alloc_iff, ← List.forall_mem_cons] at hbelow
    rw [← hbelow]
    constructor
    · rintro ⟨h', hwrites⟩
      cases hwrites with
      | enter hslot => simp [hslot] at hnull
      | @make _ h₁ _ _ _ _ _ _ _ hwrites hfill =>
        exact ⟨(hkeep h₁ hwrites).mp (exists_fill_iff.mp ⟨h', hfill⟩), h₁, hwrites⟩
    · rintro ⟨htakes, h₁, hwrites⟩
      obtain ⟨h', hfill⟩ := exists_fill_iff.mpr ((hkeep h₁ hwrites).mpr htakes)
      exact ⟨h', .make hnull hwrites hfill⟩

theorem Grown.item_eq {fresh : Nat} {item : Value} (hgrown : h.Grown v fresh slots item) :
    item = stem fresh slots v := by
  cases slots with
  | nil => exact hgrown
  | cons s slots => exact hgrown.1

/-- Each of the new containers has the next one in its one slot, and the last has the value. -/
theorem Grown.get?_eq {fresh : Nat} {before behind : List Slot} {item : Value}
    (hgrown : h.Grown v fresh (before ++ s :: behind) item) :
    h.get? (fresh + before.length) =
      some (s.blank.put s (stem (fresh + before.length + 1) behind v)) := by
  induction before generalizing fresh item with
  | nil =>
    obtain ⟨-, cell, inner, hget, hwritten, hinner⟩ := hgrown
    rw [List.length_nil, Nat.add_zero, hget, hwritten.eq_put, hinner.item_eq]
  | cons t before ih =>
    obtain ⟨-, cell, inner, -, -, hinner⟩ := hgrown
    have hnext := ih hinner
    rw [List.length_cons, ← Nat.add_assoc, Nat.add_right_comm, hnext]

end Writes

end Heap

end DottedPath
