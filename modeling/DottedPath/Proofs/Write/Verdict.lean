import DottedPath.Proofs.Path.Decoding
import DottedPath.Proofs.SubScanner.Walk
import DottedPath.Proofs.Write.Numbering
import Mathlib.Algebra.Group.Nat.Defs

/-!
# What stops a write

A write checks on its way down and pads on its way up. Which fault it ends with, if any, can be read off
the heap that it starts from, one step of the path after the other, with a place that is an existing
container or one that is yet to be made (`Heap.container?`). At each step an index above the limit comes
first, then what is under the key, then the item in the list there (`Heap.stepFault?`); in a container
that is yet to be made there is nothing of a wrong shape. The first fault of the first step that has one
stops the write, and a numeral with too many digits stops it where the walk along the path comes to it.
Otherwise the lists are padded, the last one of the path first (`Heap.lastPadding?`).

`write_verdict` says that the write ends with this fault, or succeeds when there is none. The proof has
one lemma for each way in which work is put together from other work (`judges_fill`, `judges_through`,
`judges_limit`, `judges_reach`), and then follows the path.
-/

set_option autoImplicit false
set_option relaxedAutoImplicit false

namespace DottedPath

open Scan

/-! ### Faults read off the heap -/

/-- What padding with so many nulls ends with: there are at most `2 ^ 63 - 1`, and no room for `2 ^ 60`
of them. -/
def paddingFault? (padding : Nat) : Option Fault :=
  if 2 ^ 63 - 1 < padding then some (.padding .noSuchSize)
  else if 2 ^ 60 ≤ padding then some (.padding .noRoom)
  else none

/-- The index of the step is above the limit. -/
def Step.limitFault? (limit : Option Nat) (step : Step) : Option Fault :=
  match limit, step.place with
  | some greatest, .item n =>
    if greatest < n then some (.path step.label step.text (.aboveLimit step.name n greatest)) else none
  | _, _ => none

namespace Heap

/-- The value in a slot of a container, which is null when the slot is missing or there is no
container. -/
def peek (h : Heap) (place : Option Ref) (s : Slot) : Value :=
  (place.bind (h.slot? · s)).getD .null

/-- A value other than null is not of the kind that is needed. -/
def shapeFault? (h : Heap) (step : Step) (field : String) (kind : NodeKind) (v : Value) :
    Option Fault :=
  if v = .null ∨ h.kindOf v = kind then none
  else some (.shape ⟨field, step.text, .shape kind, v, .write⟩)

/-- The value under the key of the step is not of the shape that the step needs. -/
def fieldFault? (h : Heap) (place : Option Ref) (step : Step) : Option Fault :=
  let v := h.peek place (.field step.name)
  match step.place with
  | .key => if step.isLast then none else h.shapeFault? step step.name .mapping v
  | _ => h.shapeFault? step step.name .list v

/-- The item that the step leads to is no mapping in which the path could go on. -/
def itemFault? (h : Heap) (place : Option Ref) (step : Step) : Option Fault :=
  match step.place with
  | .item n =>
    if step.isLast then none
    else h.shapeFault? step step.label .mapping
      (h.peek (h.container? place (.field step.name)) (.index n))
  | _ => none

/-- What stops a write at a step on its way down. -/
def stepFault? (limit : Option Nat) (h : Heap) (place : Option Ref) (step : Step) : Option Fault :=
  (step.limitFault? limit).or ((h.fieldFault? place step).or (h.itemFault? place step))

/-- What stops a write at the first of some steps that stops it on its way down. -/
def firstFault? (limit : Option Nat) (h : Heap) : Option Ref → List Step → Option Fault
  | _, [] => none
  | place, step :: steps =>
    (h.stepFault? limit place step).or
      (firstFault? limit h (step.hop.slots.foldl h.container? place) steps)

/-- What stops a write when it comes back to a step and pads the list there. -/
def stepPadding? (h : Heap) (place : Option Ref) (step : Step) : Option Fault :=
  match step.place with
  | .item n => paddingFault? (n - h.count (h.container? place (.field step.name)))
  | _ => none

/-- What stops a write at the last of some steps at which it cannot pad. -/
def lastPadding? (h : Heap) : Option Ref → List Step → Option Fault
  | _, [] => none
  | place, step :: steps =>
    (lastPadding? h (step.hop.slots.foldl h.container? place) steps).or (h.stepPadding? place step)

/-- What a write ends with: on the way down what stops it at a step, or else the numeral that stops the
walk along its path, and then what stops the padding. -/
def writeFault? (limit : Option Nat) (h : Heap) (place : Option Ref) (steps : List Step)
    (stop : Option LongNumeral) : Option Fault :=
  (h.firstFault? limit place steps).or ((stop.map .numeral).or (h.lastPadding? place steps))

end Heap

/-- Work ends with a fault if there is one. -/
def Scan.verdict (fault? : Option Fault) : Except Fault Unit := fault?.elim (.ok ()) .error

@[simp] theorem Scan.verdict_none : verdict none = .ok () := rfl

@[simp] theorem Scan.verdict_some (e : Fault) : verdict (some e) = .error e := rfl

theorem Scan.eq_none_of_verdict {fault? : Option Fault} (h : .ok () = verdict fault?) :
    fault? = none := by
  cases fault? with
  | none => rfl
  | some e => cases h

theorem Scan.eq_some_of_verdict {fault? : Option Fault} {e : Fault} (h : .error e = verdict fault?) :
    fault? = some e := by
  cases fault? with
  | none => cases h
  | some e' => rw [Except.error.inj h]

namespace Heap

/-! ### Containers that are yet to be made -/

section Blank

variable {h : Heap} {place : Option Ref}

/-- There is no container, or one in which no slot is filled. -/
def Blank (h : Heap) (place : Option Ref) : Prop := ∀ s, place.bind (h.slot? · s) = none

theorem blank_none (h : Heap) : h.Blank none := fun _ ↦ rfl

theorem blank_alloc (h : Heap) (s : Slot) : (h.alloc s.blank).Blank (some h.size) := by
  intro t
  rw [Option.bind_some, slot?_alloc_self, Cell.slot?_blank]

theorem ref?_peek (h : Heap) (place : Option Ref) (s : Slot) :
    (h.peek place s).ref? = h.container? place s := by
  cases place with
  | none => rfl
  | some r =>
    rw [peek, container?, Option.bind_some, Option.bind_some]
    cases h.slot? r s <;> rfl

theorem Blank.peek_eq (hblank : h.Blank place) (s : Slot) : h.peek place s = .null := by
  rw [peek, hblank s, Option.getD_none]

theorem Blank.container?_eq (hblank : h.Blank place) (s : Slot) : h.container? place s = none := by
  rw [← ref?_peek, hblank.peek_eq]
  rfl

theorem Blank.count_eq (hblank : h.Blank place) : h.count place = 0 := by
  cases place with
  | none => rfl
  | some r =>
    have hfirst := hblank (.index 0)
    rw [Option.bind_some, ← getElem?_items_eq_slot?, List.getElem?_eq_none_iff] at hfirst
    exact Nat.le_zero.mp hfirst

theorem foldl_container?_none (h : Heap) (slots : List Slot) :
    slots.foldl h.container? none = none := by
  induction slots with
  | nil => rfl
  | cons s slots ih => exact ih

end Blank

/-! ### Work with a verdict -/

/-- What stops the padding of a list up to a slot. -/
def padFault? (h : Heap) (place : Option Ref) : Slot → Option Fault
  | .index n => paddingFault? (n - h.count place)
  | _ => none

/-- What some work along the slots ends with is read off the heap: `fault?` tells it for each container
in which the work can begin, and for one that is yet to be made. -/
structure Judges (slots : List Slot) (v : Value) (work : Ref → Heap → Except Fault Unit × Heap)
    (fault? : Heap → Option Ref → Option Fault) : Prop where
  fst_eq {h : Heap} {r : Ref} (hacyclic : h.Acyclic) (hsuits : ∀ s ∈ slots.head?, h.SuitsAt r s)
    (hwritable : h.Writable r slots) : (work r h).1 = verdict (fault? h (some r))
  writes {h h' : Heap} {r : Ref} (hdone : work r h = (.ok (), h')) : h.Writes r slots v h'
  blank {h h' : Heap} {place place' : Option Ref} (hblank : h.Blank place)
    (hblank' : h'.Blank place') : fault? h place = fault? h' place'

section Judges

variable {h h' : Heap} {r : Ref} {t : Slot} {slots : List Slot} {v : Value}
variable {work : Ref → Heap → Except Fault Unit × Heap} {fault? : Heap → Option Ref → Option Fault}

theorem Judges.congr {fault' : Heap → Option Ref → Option Fault} (hwork : Judges slots v work fault?)
    (hfault : ∀ h place, fault? h place = fault' h place) : Judges slots v work fault' := by
  rwa [show fault' = fault? from funext fun h ↦ funext fun place ↦ (hfault h place).symm]

theorem padFault?_of_blank {place place' : Option Ref} (hblank : h.Blank place)
    (hblank' : h'.Blank place') (s : Slot) : h.padFault? place s = h'.padFault? place' s := by
  cases s with
  | index n => rw [padFault?, padFault?, hblank.count_eq, hblank'.count_eq]
  | field name | next => rfl

theorem padFault?_congr (hget : h'.get? r = h.get? r) (s : Slot) :
    h'.padFault? (some r) s = h.padFault? (some r) s := by
  cases s with
  | index n => simp [padFault?, count, items, hget]
  | field name | next => rfl

/-- Filling a slot ends with what the padding ends with, unless the container is a read-only mapping. -/
theorem fst_changed_fill (hwritable : h.isReadOnly r = false) (s : Slot) (v : Value) :
    (changed h (h.fill r s v)).1 = verdict (h.padFault? (some r) s) := by
  cases s with
  | field name => simp [fill, assign, hwritable, changed, padFault?]
  | next => rfl
  | index n =>
    have hlength : h.count (some r) = (h.items r).length := rfl
    have hmost : greatestPadding = 2 ^ 63 - 1 := by decide
    have hmuch : tooMuchPadding = 2 ^ 60 := by decide
    simp only [fill, putItem, padFault?, paddingFault?, hlength, hmost, hmuch]
    by_cases hn : n < (h.items r).length
    · rw [if_pos hn, Nat.sub_eq_zero_of_le hn.le]
      rfl
    · rw [if_neg hn]
      split
      · rfl
      · split <;> rfl

/-- Filling a slot. -/
theorem judges_fill (s : Slot) (v : Value) :
    Judges [s] v (fun r h ↦ changed h (h.fill r s v)) fun h place ↦ h.padFault? place s where
  fst_eq _ _ hwritable := fst_changed_fill hwritable.head s v
  writes hdone := .fill (changed_eq_ok hdone)
  blank hblank hblank' := padFault?_of_blank hblank hblank' s

theorem writable_alloc (h : Heap) (t : Slot) (slots : List Slot) :
    (h.alloc t.blank).Writable h.size slots := by
  rintro before s after c rfl hleads
  cases hleads with
  | here =>
    rw [isReadOnly, get?_alloc_self]
    cases t <;> rfl
  | through hslot _ => simp [slot?_alloc_self] at hslot

/-- Work in another container, and then filling a slot. -/
theorem fst_andThen_fill {x : Except Fault Unit × Heap} {inner? : Option Fault}
    (hx : x.1 = verdict inner?) (hkeep : ∀ h', x = (.ok (), h') → h'.get? r = h.get? r)
    (hwritable : h.isReadOnly r = false) (s : Slot) (w : Value) :
    (andThen x fun _ h' ↦ changed h' (h'.fill r s w)).1 =
      verdict (inner?.or (h.padFault? (some r) s)) := by
  obtain ⟨e | _, h'⟩ := x
  · rw [eq_some_of_verdict hx]
    rfl
  · have hget := hkeep h' rfl
    have hwritable' : h'.isReadOnly r = false := by rwa [isReadOnly, hget]
    rw [eq_none_of_verdict hx, Option.none_or, andThen_ok, fst_changed_fill hwritable',
      padFault?_congr hget]

/-- Going through a slot with more slots behind it: a check comes before the work behind the slot, and
padding after it. -/
theorem judges_through (s : Slot) {check : Heap → Value → Except Fault Ref}
    {wrong? : Heap → Value → Option Fault}
    (hcheck : ∀ h v c, check h v = .ok c → v = .object c ∧ h.SuitsAt c t)
    (hnull : ∀ h, wrong? h .null = none)
    (hwrong : ∀ h v, v ≠ .null → (∃ c, check h v = .ok c ∧ wrong? h v = none) ∨
      ∃ e, check h v = .error e ∧ wrong? h v = some e)
    (hwork : Judges (t :: slots) v work fault?) :
    Judges (s :: t :: slots) v (fun r h ↦ h.through r s t.blank check work) fun h place ↦
      (wrong? h (h.peek place s)).or ((fault? h (h.container? place s)).or (h.padFault? place s)) where
  fst_eq {h r} hacyclic hsuits hwritable := by
    have hpeek : h.peek (some r) s = (h.slot? r s).getD .null := rfl
    rw [← ref?_peek]
    by_cases hv : (h.slot? r s).getD .null = .null
    · have hnew : (h.alloc t.blank).SuitsAt h.size t := ⟨t.blank, get?_alloc_self h _, t.suits_blank⟩
      have hsuits' : ∀ u ∈ (t :: slots).head?, (h.alloc t.blank).SuitsAt h.size u := by
        simpa using hnew
      have hinner := hwork.fst_eq (hacyclic.alloc (Cell.contents_blank t)) hsuits'
        (writable_alloc h t (t :: slots))
      -- The new container has no slots, so the work in it ends as `fault?` tells for one yet to be made.
      rw [hwork.blank (blank_alloc h t) (blank_none h)] at hinner
      rw [through, enter_of_null hv, andThen_ok, hpeek, hv, hnull, Option.none_or]
      refine fst_andThen_fill hinner (fun h' hdone ↦ ?_) hwritable.head s _
      obtain ⟨cell, hget, -⟩ := hsuits s rfl
      exact (hwork.writes hdone).extends_of_alloc.get?_eq r (lt_size_of_get? hget)
    · rw [through, enter_of_ne hv, hpeek]
      obtain ⟨c, hok, hnone⟩ | ⟨e, herror, hsome⟩ := hwrong h _ hv
      · obtain ⟨hvalue, hc⟩ := hcheck _ _ _ hok
        have hslot : h.slot? r s = some (.object c) := slot?_of_getD hvalue (hvalue ▸ hv)
        have hsuits' : ∀ u ∈ (t :: slots).head?, h.SuitsAt c u := by simpa using hc
        have hinner := hwork.fst_eq hacyclic hsuits'
          (@Writable.right h r c [s] (t :: slots) hwritable (.through hslot (.here c)))
        rw [hnone, Option.none_or, hok, andThen_ok, hvalue]
        refine fst_andThen_fill hinner (fun h' hdone ↦ ?_) hwritable.head s _
        exact (hwork.writes hdone).get?_eq hacyclic hsuits' (.single (holds_of_slot? hslot))
      · rw [hsome, herror]
        rfl
  writes hdone := writes_of_through hcheck (fun _ _ _ ↦ hwork.writes) hdone
  blank {h h' _ _} hblank hblank' := by
    rw [hblank.peek_eq, hblank'.peek_eq, hnull, hnull, hblank.container?_eq, hblank'.container?_eq,
      padFault?_of_blank hblank hblank']
    congr 2
    exact hwork.blank (blank_none h) (blank_none h')

/-- Work that is done only if the index of a step is within the limit. -/
theorem judges_limit (limit : Option Nat) (step : Step) (hwork : Judges slots v work fault?) :
    Judges slots v (fun r h ↦ andThen (step.checkLimit limit, h) fun _ h ↦ work r h)
      fun h place ↦ (step.limitFault? limit).or (fault? h place) := by
  have hlimit : step.checkLimit limit = verdict (step.limitFault? limit) := by
    unfold Step.checkLimit Step.limitFault?
    cases limit with
    | none => rfl
    | some greatest =>
      cases step.place with
      | key | every => rfl
      | item n =>
        simp only
        split <;> rfl
  rw [hlimit]
  cases step.limitFault? limit with
  | none => exact hwork
  | some e => exact ⟨fun _ _ _ ↦ rfl, fun hdone ↦ by simp at hdone, fun _ _ ↦ rfl⟩

end Judges

/-! ### Steps -/

section Steps

variable {step : Step} {slots : List Slot} {v : Value}

theorem shapeFault?_null (h : Heap) (step : Step) (field : String) (kind : NodeKind) :
    h.shapeFault? step field kind .null = none := by
  simp [shapeFault?]

theorem shapeFault?_of_checkMapping (h : Heap) (v : Value) (hv : v ≠ .null) :
    (∃ c, step.checkMapping h v = .ok c ∧ h.shapeFault? step step.label .mapping v = none) ∨
      ∃ e, step.checkMapping h v = .error e ∧ h.shapeFault? step step.label .mapping v = some e := by
  unfold Step.checkMapping asMapping shapeFault? kindOf
  cases h.node v <;> simp [hv]

theorem shapeFault?_of_checkList (h : Heap) (v : Value) (hv : v ≠ .null) :
    (∃ c, step.checkList h v = .ok c ∧ h.shapeFault? step step.name .list v = none) ∨
      ∃ e, step.checkList h v = .error e ∧ h.shapeFault? step step.name .list v = some e := by
  unfold Step.checkList asList shapeFault? kindOf
  cases h.node v <;> simp [hv, Except.map]

/-- A step does its work at the key, or in the list under the key. -/
theorem judges_reach (limit : Option Nat) (step : Step)
    {work : Ref → Slot → Heap → Except Fault Unit × Heap}
    {fault? : Slot → Heap → Option Ref → Option Fault}
    (hwork : ∀ s, Judges (s :: slots) v (fun r h ↦ work r s h) (fault? s)) :
    Judges (step.hop.slots ++ slots) v (fun r h ↦ step.reach limit r work h) fun h place ↦
      match step.place.slot? with
      | none => fault? (.field step.name) h place
      | some slot => (step.limitFault? limit).or
          ((h.shapeFault? step step.name .list (h.peek place (.field step.name))).or
            (fault? slot h (h.container? place (.field step.name)))) := by
  cases hslot : step.place.slot? with
  | none =>
    rw [Step.slots_of_key (Place.slot?_eq_none_iff.mp hslot), List.singleton_append]
    simpa only [Step.reach, hslot] using hwork (.field step.name)
  | some slot =>
    obtain ⟨hblank, hlist⟩ := Place.of_slot? hslot
    have hthrough := judges_limit limit step
      (judges_through (.field step.name) (fun h v c ↦ suitsAt_of_checkList hlist)
        (fun h ↦ h.shapeFault?_null step step.name .list) shapeFault?_of_checkList (hwork slot))
    rw [Step.slots_of_slot? hslot, List.cons_append, List.singleton_append]
    simpa only [Step.reach, hslot, hblank, padFault?, Option.or_none] using hthrough

@[simp] theorem peek_next (h : Heap) (place : Option Ref) : h.peek place .next = .null := by
  cases place <;> simp [peek, slot?]

end Steps

/-- What a write ends with is read off the heap along its steps. -/
theorem judges_set {limit : Option Nat} {path : String} {v : Value} {steps : List Step}
    {stop : Option LongNumeral} (hwalk : Path.Walk path steps stop) :
    Judges (Path.slots path) v (fun root ↦ (Scan.set limit root path v).effect) fun h place ↦
      h.writeFault? limit place steps stop := by
  induction hwalk with
  | @broken path e he =>
    have hwork : (fun root ↦ (Scan.set limit root path v).effect) =
        fun _ h ↦ (.error (.numeral e), h) :=
      funext fun root ↦ funext (effect_set_of_error he limit root v)
    rw [hwork]
    exact ⟨fun _ _ _ ↦ rfl, fun hdone ↦ by simp at hdone, fun _ _ ↦ rfl⟩
  | @last path step hstep hrest =>
    have hwork : (fun root ↦ (Scan.set limit root path v).effect) = fun root ↦
        step.reach limit root fun r s h ↦ changed h (h.fill r s v) :=
      funext fun root ↦ funext (effect_set_of_last hstep hrest limit root v)
    have hlast : step.isLast = true := by rw [Step.isLast, hrest]; rfl
    rw [hwork, Path.slots_of_last hstep hrest, ← List.append_nil step.hop.slots]
    refine (judges_reach limit step fun s ↦ judges_fill s v).congr fun h place ↦ ?_
    cases hplace : step.place <;>
      simp [writeFault?, firstFault?, lastPadding?, stepFault?, stepPadding?, Step.limitFault?,
        fieldFault?, itemFault?, padFault?, Place.slot?, hplace, hlast, Option.or_assoc]
  | @more path rest step steps stop hstep hrest hwalk ih =>
    have hwork : (fun root ↦ (Scan.set limit root path v).effect) = fun root ↦
        step.reach limit root fun r s h ↦ h.through r s (.mapping .plain .empty) step.checkMapping
          fun child ↦ (Scan.set limit child rest v).effect :=
      funext fun root ↦ funext (effect_set_of_more hstep hrest limit root v)
    have hlast : step.isLast = false := by rw [Step.isLast, hrest]; rfl
    obtain ⟨name, slots, hslots⟩ := Path.exists_slots_eq rest
    rw [hslots] at ih
    rw [hwork, Path.slots_of_more hstep hrest, hslots]
    refine (judges_reach limit step fun s ↦ judges_through s
      (fun h v c ↦ @suitsAt_of_checkMapping step h v c name)
      (fun h ↦ h.shapeFault?_null step step.label .mapping) shapeFault?_of_checkMapping
      ih).congr fun h place ↦ ?_
    -- Regrouping puts the padding at this step behind all that comes of the steps after it.
    cases hplace : step.place <;>
      simp [writeFault?, firstFault?, lastPadding?, stepFault?, stepPadding?, Step.limitFault?,
        fieldFault?, itemFault?, padFault?, Step.label, Place.slot?, hplace, hlast, shapeFault?_null,
        Hop.slots, Step.hop, Option.or_assoc]

/-- Steps in a container that is yet to be made are checked for their limits only. -/
theorem firstFault?_none (limit : Option Nat) (h : Heap) (steps : List Step) :
    h.firstFault? limit none steps = steps.findSome? (Step.limitFault? limit) := by
  induction steps with
  | nil => rfl
  | cons step steps ih =>
    have hpeek := (blank_none h).peek_eq
    have hfield : h.fieldFault? none step = none := by
      cases hplace : step.place <;> simp [fieldFault?, hplace, hpeek, shapeFault?_null]
    have hitem : h.itemFault? none step = none := by
      cases hplace : step.place <;>
        simp [itemFault?, hplace, (blank_none h).container?_eq, hpeek, shapeFault?_null]
    rw [firstFault?, stepFault?, hfield, hitem, foldl_container?_none, ih, List.findSome?_cons]
    cases step.limitFault? limit <;> rfl

end Heap

/-- What a write ends with, and when. Along the steps of the path, as far as the walk comes, the first
step at which something is wrong stops the write: an index above the limit, what is under the key, the
item in the list. If there is none, a numeral with too many digits stops it where it stops the walk, and
else the last step whose list cannot be padded; if there is none of these, the write succeeds. In a
container that is yet to be made only the limits are checked.

Assumes: no container is its own descendant, the document is a mapping, and no mapping on the way is a
read-only one. -/
theorem write_verdict {limit : Option Nat} {root : Ref} {path : String} {v : Value} {w : Workplace}
    (hacyclic : w.heap.Acyclic) (hroot : w.heap.IsMapping root)
    (hwritable : w.heap.Writable root (Path.slots path)) :
    (∃ steps stop, Path.Walk path steps stop ∧
      (outcome (Scan.set limit root path v w)).1 =
        verdict (w.heap.writeFault? limit (some root) steps stop)) ∧
    ∀ steps, w.heap.firstFault? limit none steps = steps.findSome? (Step.limitFault? limit) := by
  obtain ⟨steps, stop, hwalk⟩ := Path.exists_walk path
  refine ⟨⟨steps, stop, hwalk, ?_⟩, w.heap.firstFault?_none limit⟩
  rw [steady_set limit root path v w]
  exact (Heap.judges_set hwalk).fst_eq hacyclic (Heap.suitsAt_slots hroot path) hwritable

/-- Padding that there is no room for, and in a list that is yet to be made there an index above the
limit, or without a limit padding that no list can have: what is wrong with the inner list comes first. -/
theorem write_verdict_nested :
    let w : Workplace :=
      ⟨⟨#[.mapping .ordered (.ofList [(.text "a", .object 1)]), .list [.null]]⟩, .new 0, #[]⟩
    let outer := "a[1152921504606846977]"
    let inner := "b[9223372036854775808]"
    w.heap.Acyclic ∧ w.heap.IsMapping 0 ∧ (∀ path, w.heap.Writable 0 (Path.slots path)) ∧
      (outcome (Scan.set none 0 outer .null w)).1 = .error (.padding .noRoom) ∧
      (outcome (Scan.set (some (2 ^ 60 + 1)) 0 (outer ++ "." ++ inner) .null w)).1 =
        .error (.path inner inner (.aboveLimit "b" (2 ^ 63) (2 ^ 60 + 1))) ∧
      (outcome (Scan.set none 0 (outer ++ "." ++ inner) .null w)).1 =
        .error (.padding .noSuchSize) := by
  intro w outer inner
  have houter : Step.decode outer = .ok ⟨outer, "a", .item (2 ^ 60 + 1), none⟩ := by decide +kernel
  have hboth : Step.decode (outer ++ "." ++ inner) =
      .ok ⟨outer ++ "." ++ inner, "a", .item (2 ^ 60 + 1), some inner⟩ := by decide +kernel
  have hinner : Step.decode inner = .ok ⟨inner, "b", .item (2 ^ 63), none⟩ := by decide +kernel
  have hacyclic : w.heap.Acyclic := Heap.acyclic_of_lt (by decide)
  have hroot : w.heap.IsMapping 0 := ⟨_, _, rfl⟩
  have hwritable : ∀ path, w.heap.Writable 0 (Path.slots path) := by
    rintro path before s after (_ | _ | c) - - <;> simp [Heap.isReadOnly, Heap.get?, w]
  have hends : ∀ limit path steps stop, Path.Walk path steps stop →
      (outcome (Scan.set limit 0 path .null w)).1 =
        verdict (w.heap.writeFault? limit (some 0) steps stop) := by
    intro limit path steps stop hwalk
    obtain ⟨⟨steps', stop', hwalk', hverdict⟩, -⟩ :=
      @write_verdict limit 0 path .null w hacyclic hroot (hwritable path)
    obtain ⟨rfl, rfl⟩ := hwalk.unique hwalk'
    exact hverdict
  refine ⟨hacyclic, hroot, hwritable, ?_, ?_, ?_⟩
  · rw [hends none outer _ _ (.last houter rfl)]
    decide +kernel
  · rw [hends _ _ _ _ (.more hboth rfl (.last hinner rfl))]
    decide +kernel
  · rw [hends _ _ _ _ (.more hboth rfl (.last hinner rfl))]
    decide +kernel

end DottedPath
