import DottedPath.Proofs.Path.Decoding
import DottedPath.Proofs.Scan.Blind
import DottedPath.Proofs.Write.Success

/-!
# What a write notes

A write notes every container that it makes, on its way down, and every list that it makes longer
for the sake of an index, on its way up. Which ones these are can be told from the heap before the
write: a container is made for each stop of the path but the last when there is none in its slot
(`Heap.creations`), and a list grows when its index is not below its length (`Heap.growths`). This
is `runs_set`.

The length that is noted is read on the way up, when the containers below have changed. In an
acyclic heap the list is none of those (`Heap.Enters.get?_eq`), so it is the length from before the
write.
-/

set_option autoImplicit false
set_option relaxedAutoImplicit false

namespace DottedPath

open Scan Heap

/-! ### Work with its records -/

namespace Scan

variable {α β : Type}

/-- From every workplace with the first heap, the work ends with the result and the second heap, and
these are the records of the scanner that it adds. -/
def Runs (work : Scan α) (h : Heap) (a : α) (h' : Heap) (added : List Record) : Prop :=
  ∀ w, w.heap = h → ∃ w', work w = .ok a w' ∧ w'.heap = h' ∧
    Record.ofScanner w'.records.toList = Record.ofScanner w.records.toList ++ added

section Elements

variable {h h₁ h₂ : Heap} {a : α} {b : β} {added added' : List Record}

theorem Runs.bind {work : Scan α} {next : α → Scan β} (hwork : Runs work h a h₁ added)
    (hnext : Runs (next a) h₁ b h₂ added') :
    Runs (work >>= next) h b h₂ (added ++ added') := by
  intro w hw
  obtain ⟨w₁, hrun, hheap, hrecords⟩ := hwork w hw
  obtain ⟨w₂, hrun', hheap', hrecords'⟩ := hnext w₁ hheap
  refine ⟨w₂, ?_, hheap', by rw [hrecords', hrecords, List.append_assoc]⟩
  show EStateM.bind work next w = _
  rw [EStateM.bind, hrun]
  exact hrun'

theorem runs_pure (a : α) (h : Heap) : Runs (pure a) h a h [] :=
  fun w hw ↦ ⟨w, rfl, hw, (List.append_nil _).symm⟩

theorem runs_parse {path : String} {step : Step} (hstep : Step.decode path = .ok step) (h : Heap) :
    Runs (parse path) h ⟨step, hstep⟩ h [] := by
  intro w hw
  refine ⟨afterParse w path, parse_of_ok hstep w, hw, ?_⟩
  simp only [afterParse]
  split
  · rw [Record.ofScanner_push, Record.ofScanner_parsing]
  · rw [List.append_nil]

theorem runs_inspect {look : Heap → Except Fault α} (hlook : look h = .ok a) :
    Runs (inspect look) h a h [] := by
  intro w hw
  refine ⟨w, ?_, hw, (List.append_nil _).symm⟩
  rw [inspect, hw, hlook]

theorem Runs.look {look : Heap → Except Fault α} {next : α → Scan β} (hlook : look h = .ok a)
    (hnext : Runs (next a) h b h₁ added) : Runs (inspect look >>= next) h b h₁ added := by
  rw [← List.nil_append added]
  exact (runs_inspect hlook).bind hnext

theorem runs_edit {change : Heap → Except Fault Heap} (hchange : change h = .ok h₁) :
    Runs (edit change) h () h₁ [] := by
  intro w hw
  refine ⟨{ w with heap := h₁ }, ?_, rfl, (List.append_nil _).symm⟩
  rw [edit, hw, hchange]

theorem Runs.map {work : Scan α} (hwork : Runs work h a h₁ added) (f : α → β) :
    Runs (f <$> work) h (f a) h₁ added := by
  rw [map_eq_pure_bind, ← List.append_nil added]
  exact hwork.bind (runs_pure (f a) h₁)

theorem runs_alloc (c : Cell) (h : Heap) : Runs (alloc c) h h.size (h.alloc c) [] := by
  rintro w rfl
  exact ⟨_, rfl, rfl, (List.append_nil _).symm⟩

theorem runs_note {record : Record} (hrecord : record.channel = .scanner) (h : Heap) :
    Runs (note record) h () h [record] := by
  intro w hw
  refine ⟨_, rfl, hw, ?_⟩
  rw [Record.ofScanner_push, Record.ofScanner, Record.ofScanner, List.filter_singleton, hrecord]
  rfl

end Elements

end Scan

/-! ### The stops of a path -/

/-- A slot on the way of a write, with what is noted there: the name of the list when it grows to
have the slot, and the record of a container that is made for it. -/
structure Stop where
  slot : Slot
  field : String
  made : Record
  deriving DecidableEq

/-- The record of a list of some length that is made longer so as to have the slot. -/
def Stop.growth (stop : Stop) (length : Nat) : List Record :=
  match stop.slot with
  | .index n => if length ≤ n then [.growing stop.field length (n + 1)] else []
  | _ => []

namespace Step

/-- The first slot of a step that addresses a list, in which the list is. -/
def listStop (step : Step) : Stop where
  slot := .field step.name
  field := step.name
  made := .creatingList step.name step.text

/-- The last slot of a step. -/
def lastStop (step : Step) (slot : Slot) : Stop where
  slot := slot
  field := step.name
  made := .creatingMapping step.label step.text

/-- The slots of a step with what is noted about them. -/
def stops (step : Step) : List Stop :=
  match step.place.slot? with
  | none => [step.lastStop (.field step.name)]
  | some slot => [step.listStop, step.lastStop slot]

theorem stops_of_key {step : Step} (hplace : step.place.slot? = none) :
    step.stops = [step.lastStop (.field step.name)] := by
  rw [stops, hplace]

theorem stops_of_slot? {step : Step} {slot : Slot} (hplace : step.place.slot? = some slot) :
    step.stops = [step.listStop, step.lastStop slot] := by
  rw [stops, hplace]

theorem map_slot_stops (step : Step) : step.stops.map Stop.slot = step.hop.slots := by
  rw [stops, Hop.slots, hop]
  cases step.place.slot? <;> rfl

/-- Where there is a list, it is not the one that holds it that grows. -/
theorem growth_listStop (step : Step) (length : Nat) : step.listStop.growth length = [] := rfl

theorem stops_ne_nil (step : Step) : step.stops ≠ [] := by
  rw [stops]
  cases step.place.slot? <;> exact List.cons_ne_nil _ _

end Step

/-- The stops of a path are its slots. -/
theorem Path.Walk.map_slot_stops {path : String} {steps : List Step}
    (hwalk : Path.Walk path steps none) :
    (steps.flatMap Step.stops).map Stop.slot = Path.slots path := by
  rw [Path.slots, ← hwalk.map_hop, List.map_flatMap, List.flatMap_map]
  simp only [Step.map_slot_stops]

theorem Path.Walk.stops_ne_nil {path : String} {steps : List Step}
    (hwalk : Path.Walk path steps none) : steps.flatMap Step.stops ≠ [] := by
  obtain ⟨step, steps', rfl⟩ := List.exists_cons_of_ne_nil hwalk.ne_nil
  rw [List.flatMap_cons]
  exact List.append_ne_nil_of_left_ne_nil step.stops_ne_nil _

namespace Heap

/-- The record of the container that is made for a stop, if there is none in the slot. -/
def creationAt (h : Heap) (r : Option Ref) (stop : Stop) : List Record :=
  if h.container? r stop.slot = none then [stop.made] else []

/-- The records of all containers that are made for the stops of a path: there is one for each stop
but the last in whose slot there is none. -/
def creations (h : Heap) : Option Ref → List Stop → List Record
  | _, [] => []
  | r, stop :: stops =>
    (if stops = [] then [] else h.creationAt r stop) ++ creations h (h.container? r stop.slot) stops

/-- The records of all lists that are made longer for the stops of a path, the last one first. -/
def growths (h : Heap) : Option Ref → List Stop → List Record
  | _, [] => []
  | r, stop :: stops => growths h (h.container? r stop.slot) stops ++ stop.growth (h.count r)

theorem creations_cons (h : Heap) (r : Option Ref) (stop : Stop) {stops : List Stop}
    (hne : stops ≠ []) :
    h.creations r (stop :: stops) =
      h.creationAt r stop ++ h.creations (h.container? r stop.slot) stops := by
  rw [creations, if_neg hne]

/-- Where there is no container to start from, nothing else in the heap matters. -/
theorem creations_of_none {g h : Heap} {r : Option Ref} (hr : ∀ s, g.container? r s = none)
    (stops : List Stop) : g.creations r stops = h.creations none stops := by
  induction stops generalizing r with
  | nil => rfl
  | cons stop stops ih =>
    have hnone : h.container? none stop.slot = none := rfl
    have hbehind := ih (r := none) fun _ ↦ rfl
    simp only [creations, creationAt, hr, hnone, hbehind]

theorem growths_of_none {g h : Heap} {r : Option Ref} (hr : ∀ s, g.container? r s = none)
    (hcount : g.count r = 0) (stops : List Stop) : g.growths r stops = h.growths none stops := by
  induction stops generalizing r with
  | nil => rfl
  | cons stop stops ih =>
    have hnone : h.container? none stop.slot = none := rfl
    have hempty : h.count none = 0 := rfl
    have hbehind := ih (r := none) (fun _ ↦ rfl) rfl
    simp only [growths, hr, hcount, hnone, hempty, hbehind]

/-! ### Containers that are found or made -/

/-- A write goes on in this container and with this heap behind a slot: with what the slot holds, or
with a new container when it is missing or null. -/
inductive Enters (h : Heap) (r : Ref) (s t : Slot) : Ref → Heap → Prop
  | found {c : Ref} (hslot : h.slot? r s = some (.object c)) (hsuits : h.SuitsAt c t) :
    Enters h r s t c h
  | anew (hnull : (h.slot? r s).getD .null = .null) : Enters h r s t h.size (h.alloc t.blank)

section Enters

variable {h h₁ h₂ h' : Heap} {r c : Ref} {s t : Slot} {slots : List Slot} {v : Value}

theorem Writes.exists_enters (hwrites : h.Writes r (s :: t :: slots) v h') :
    ∃ c h₁ h₂, h.Enters r s t c h₁ ∧ h₁.Writes c (t :: slots) v h₂ ∧
      h₂.fill r s (.object c) = .ok h' := by
  cases hwrites with
  | enter hslot hsuits hwrites hfill => exact ⟨_, _, _, .found hslot hsuits, hwrites, hfill⟩
  | make hnull hwrites hfill => exact ⟨_, _, _, .anew hnull, hwrites, hfill⟩

theorem container?_eq_some (hslot : h.slot? r s = some (.object c)) :
    h.container? (some r) s = some c := by
  rw [container?, Option.bind_some, hslot, Option.bind_some, Value.ref?]

theorem container?_eq_none (hnull : (h.slot? r s).getD .null = .null) :
    h.container? (some r) s = none := by
  rw [container?, Option.bind_some]
  cases hslot : h.slot? r s with
  | none => rfl
  | some v =>
    rw [hslot, Option.getD_some] at hnull
    rw [hnull]
    rfl

/-- A container that is made has its record, and one that is found has none. -/
theorem creationAt_of_found {stop : Stop} (hslot : h.slot? r stop.slot = some (.object c)) :
    h.creationAt (some r) stop = [] := by
  rw [creationAt, container?_eq_some hslot, if_neg (Option.some_ne_none c)]

theorem creationAt_of_null {stop : Stop} (hnull : (h.slot? r stop.slot).getD .null = .null) :
    h.creationAt (some r) stop = [stop.made] := by
  rw [creationAt, if_pos (container?_eq_none hnull)]

theorem container?_alloc_self (h : Heap) (s t : Slot) :
    (h.alloc t.blank).container? (some h.size) s = none := by
  rw [container?, Option.bind_some, slot?_alloc_self, Cell.slot?_blank, Option.bind_none]

theorem count_alloc_self (h : Heap) (t : Slot) : (h.alloc t.blank).count (some h.size) = 0 := by
  rw [count_of_get? (get?_alloc_self h _), t.count_blank]

theorem Enters.suitsAt (henters : h.Enters r s t c h₁) : h₁.SuitsAt c t := by
  cases henters with
  | found _ hsuits => exact hsuits
  | anew _ => exact ⟨t.blank, get?_alloc_self h _, t.suits_blank⟩

theorem Enters.acyclic (henters : h.Enters r s t c h₁) (hacyclic : h.Acyclic) : h₁.Acyclic := by
  cases henters with
  | found _ _ => exact hacyclic
  | anew _ => exact hacyclic.alloc (Cell.contents_blank t)

/-- What is made behind a slot can be told from the heap before the write. -/
theorem Enters.creations_eq (henters : h.Enters r s t c h₁) (stops : List Stop) :
    h₁.creations (some c) stops = h.creations (h.container? (some r) s) stops := by
  cases henters with
  | found hslot _ => rw [container?_eq_some hslot]
  | anew hnull =>
    rw [container?_eq_none hnull]
    exact creations_of_none (container?_alloc_self h · t) stops

theorem Enters.growths_eq (henters : h.Enters r s t c h₁) (stops : List Stop) :
    h₁.growths (some c) stops = h.growths (h.container? (some r) s) stops := by
  cases henters with
  | found hslot _ => rw [container?_eq_some hslot]
  | anew hnull =>
    rw [container?_eq_none hnull]
    exact growths_of_none (container?_alloc_self h · t) (count_alloc_self h t) stops

/-- What is noted from a stop on: what is made for it, what is noted behind it, and that its list
grows. -/
theorem Enters.notes_eq (stop : Stop) (henters : h.Enters r stop.slot t c h₁) {stops : List Stop}
    (hne : stops ≠ []) :
    h.creations (some r) (stop :: stops) ++ h.growths (some r) (stop :: stops) =
      h.creationAt (some r) stop ++ (h₁.creations (some c) stops ++ h₁.growths (some c) stops ++
        stop.growth (h.count (some r))) := by
  rw [creations_cons h _ stop hne, growths, henters.creations_eq, henters.growths_eq]
  simp only [List.append_assoc]

/-- A write behind a slot does not change the container that has the slot. -/
theorem Enters.get?_eq (henters : h.Enters r s t c h₁) (hacyclic : h.Acyclic)
    (hsuits : h.SuitsAt r s) (hwrites : h₁.Writes c (t :: slots) v h₂) : h₂.get? r = h.get? r := by
  cases henters with
  | found hslot hbelow =>
    exact hwrites.get?_eq hacyclic (by simpa using hbelow) (.single (holds_of_slot? hslot))
  | anew hnull => exact hwrites.extends_of_alloc.get?_eq r (lt_size_of_suitsAt hsuits)

theorem count_congr (hget : h₁.get? r = h.get? r) : h₁.count (some r) = h.count (some r) := by
  simp only [count, items, Option.map_some, hget]

end Enters

end Heap

/-! ### The parts of a step -/

section Steps

variable {h h₁ h' : Heap} {root list c : Ref} {step : Step} {slot : Slot} {v : Value}

theorem runs_openList {limit : Option Nat} (hplace : step.place.slot? = some slot)
    (hallowed : step.hop.Allowed limit) (henters : h.Enters root (.field step.name) slot c h₁) :
    Runs (openList limit root step) h (some c) h₁ (h.creationAt (some root) step.listStop) := by
  have hkey : step.place ≠ .key := by
    intro hkey
    simp [hkey, Place.slot?] at hplace
  rw [openList, if_neg hkey]
  refine .look (Step.checkLimit_eq_ok_iff.mpr hallowed) ?_
  cases henters with
  | found hslot hsuits =>
    rw [Heap.creationAt_of_found (show h.slot? root step.listStop.slot = _ from hslot)]
    have hlook : (h.field? root step.name).getD .null = .object c := by
      rw [Heap.field?_eq_slot?, hslot, Option.getD_some]
    refine .look (congrArg Except.ok hlook) (runs_inspect ?_)
    obtain ⟨found, hfound, rfl⟩ := exists_of_map_eq_ok (Heap.checkList_of_suitsAt hplace hsuits)
    rw [hfound]
    rfl
  | anew hnull =>
    rw [Heap.creationAt_of_null (show (h.slot? root step.listStop.slot).getD .null = _ from hnull),
      (Place.of_slot? hplace).1]
    have hlook : (h.field? root step.name).getD .null = .null := by
      rw [Heap.field?_eq_slot?, hnull]
    exact .look (congrArg Except.ok hlook) ((runs_note rfl h).bind ((runs_alloc _ h).map some))

/-- The mapping that a step leads to is found or made in the slot at which it is looked for. -/
theorem runs_openMapping {found : Option Ref} {r : Ref} {name : String}
    (hlook : (match found, step.place with
      | some list, .item n => (h.items list)[n]?.getD .null
      | some _, _ => .null
      | none, _ => (h.field? root step.name).getD .null) = (h.slot? r slot).getD .null)
    (henters : h.Enters r slot (.field name) c h₁) :
    Runs (openMapping root step found) h c h₁ (h.creationAt (some r) (step.lastStop slot)) := by
  rw [openMapping]
  refine .look (congrArg Except.ok hlook) ?_
  cases henters with
  | found hslot hsuits =>
    rw [hslot, Option.getD_some,
      Heap.creationAt_of_found (show h.slot? r (step.lastStop slot).slot = _ from hslot)]
    exact runs_inspect (Heap.checkMapping_of_suitsAt hsuits)
  | anew hnull =>
    rw [hnull, Heap.creationAt_of_null
      (show (h.slot? r (step.lastStop slot).slot).getD .null = _ from hnull)]
    exact (runs_note rfl h).bind (runs_alloc _ h)

theorem runs_openMapping_of_key {name : String}
    (henters : h.Enters root (.field step.name) (.field name) c h₁) :
    Runs (openMapping root step none) h c h₁
      (h.creationAt (some root) (step.lastStop (.field step.name))) :=
  runs_openMapping (by simp only [Heap.field?_eq_slot?]) henters

theorem runs_openMapping_of_list {name : String} (hplace : step.place.slot? = some slot)
    (henters : h.Enters list slot (.field name) c h₁) :
    Runs (openMapping root step (some list)) h c h₁
      (h.creationAt (some list) (step.lastStop slot)) := by
  refine runs_openMapping ?_ henters
  cases hp : step.place with
  | key => simp [hp, Place.slot?] at hplace
  | every =>
    obtain rfl : Slot.next = slot := by simpa [hp, Place.slot?] using hplace
    have hnone : h.slot? list .next = none := by simp [Heap.slot?]
    rw [hnone]
    rfl
  | item n =>
    obtain rfl : Slot.index n = slot := by simpa [hp, Place.slot?] using hplace
    simp only [Heap.getElem?_items_eq_slot?]

theorem runs_store_of_key (hfill : h.fill root (.field step.name) v = .ok h') :
    Runs (store root step none v) h () h' [] := by
  rw [store]
  exact runs_edit hfill

theorem runs_store_of_list (hplace : step.place.slot? = some slot)
    (hfill : h.fill list slot v = .ok h₁)
    (hback : h₁.fill root (.field step.name) (.object list) = .ok h') :
    Runs (store root step (some list) v) h () h'
      ((step.lastStop slot).growth (h.count (some list))) := by
  have hedits : ∀ {change : Heap → Except Fault Heap}, change h = .ok h₁ →
      Runs (do
        edit change
        edit fun h ↦ h.assign root (.text step.name) (.object list)) h () h' [] :=
    fun hchange ↦ (runs_edit hchange).bind (runs_edit hback)
  cases hp : step.place with
  | key => simp [hp, Place.slot?] at hplace
  | every =>
    obtain rfl : Slot.next = slot := by simpa [hp, Place.slot?] using hplace
    simp only [store, hp]
    exact hedits hfill
  | item n =>
    obtain rfl : Slot.index n = slot := by simpa [hp, Place.slot?] using hplace
    simp only [store, hp, Stop.growth, Step.lastStop]
    refine .look rfl ?_
    by_cases hn : (h.items list).length ≤ n
    · rw [if_pos hn, if_pos (show h.count (some list) ≤ n from hn)]
      exact (runs_note rfl h).bind (hedits hfill)
    · rw [if_neg hn, if_neg (show ¬ h.count (some list) ≤ n from hn)]
      exact hedits hfill

end Steps

/-! ### The whole write -/

section Write

open Heap

variable {h h' : Heap} {root : Ref} {step : Step} {slot : Slot} {v : Value} {limit : Option Nat}

theorem runs_set_of_key {path : String} {added : List Record} (hstep : Step.decode path = .ok step)
    (hplace : step.place.slot? = none)
    (hwork : Runs (setFrom limit root v step none) h () h' added) :
    Runs (set limit root path v) h () h' added := by
  rw [set_eq]
  have hopen : Runs (openList limit root step) h none h [] := by
    rw [openList, if_pos (Place.slot?_eq_none_iff.mp hplace)]
    exact runs_pure none h
  exact (runs_parse hstep h).bind (hopen.bind hwork)

theorem runs_set_of_list {path : String} {h₁ : Heap} {list : Ref} {added : List Record}
    (hstep : Step.decode path = .ok step) (hplace : step.place.slot? = some slot)
    (hallowed : step.hop.Allowed limit) (henters : h.Enters root (.field step.name) slot list h₁)
    (hwork : Runs (setFrom limit root v step (some list)) h₁ () h' added) :
    Runs (set limit root path v) h () h' (h.creationAt (some root) step.listStop ++ added) := by
  rw [set_eq]
  exact (runs_parse hstep h).bind ((runs_openList hplace hallowed henters).bind hwork)

theorem runs_setFrom_of_last {found : Option Ref} {added : List Record} (hrest : step.rest = none)
    (hstore : Runs (store root step found v) h () h' added) :
    Runs (setFrom limit root v step found) h () h' added := by
  simpa only [setFrom, hrest] using hstore

theorem runs_setFrom_of_more {found : Option Ref} {rest : String} {child : Ref} {h₁ h₂ : Heap}
    {opened below stored : List Record} (hrest : step.rest = some rest)
    (hopen : Runs (openMapping root step found) h child h₁ opened)
    (hset : Runs (set limit child rest v) h₁ () h₂ below)
    (hstore : Runs (store root step found (.object child)) h₂ () h' stored) :
    Runs (setFrom limit root v step found) h () h' (opened ++ (below ++ stored)) := by
  simpa only [setFrom, hrest] using hopen.bind (hset.bind hstore)

/-- A write that succeeds adds the records of what it makes, and then those of the lists that it
makes longer. -/
theorem runs_set {path : String} {steps : List Step} (hwalk : Path.Walk path steps none)
    (hallowed : Path.Allowed limit path) (hacyclic : h.Acyclic) (hroot : h.IsMapping root)
    (hwrites : h.Writes root (Path.slots path) v h') :
    Runs (set limit root path v) h () h' (h.creations (some root) (steps.flatMap Step.stops) ++
      h.growths (some root) (steps.flatMap Step.stops)) := by
  generalize hstop : (none : Option LongNumeral) = stop at hwalk
  induction hwalk generalizing root h h' with
  | broken => cases hstop
  | @last path step hstep hrest =>
    have hhop := (Path.allowed_of_last hstep hrest).mp hallowed
    rw [Path.slots_of_last hstep hrest] at hwrites
    rw [List.flatMap_singleton]
    cases hplace : step.place.slot? with
    | none =>
      rw [Step.slots_of_key (Place.slot?_eq_none_iff.mp hplace)] at hwrites
      rw [Step.stops_of_key hplace]
      cases hwrites with
      | fill hfill =>
        exact runs_set_of_key hstep hplace (runs_setFrom_of_last hrest (runs_store_of_key hfill))
    | some slot =>
      rw [Step.slots_of_slot? hplace] at hwrites
      obtain ⟨list, h₁, h₂, henters, hwrites, hback⟩ := hwrites.exists_enters
      cases hwrites with
      | fill hfill =>
        have hrun := runs_set_of_list hstep hplace hhop henters
          (runs_setFrom_of_last hrest (runs_store_of_list hplace hfill hback))
        rw [Step.stops_of_slot? hplace, henters.notes_eq step.listStop (List.cons_ne_nil _ _),
          Step.growth_listStop, List.append_nil]
        exact hrun
  | @more path rest step steps stop hstep hrest hwalk ih =>
    subst hstop
    obtain ⟨hhop, hbehind⟩ := (Path.allowed_of_more hstep hrest).mp hallowed
    obtain ⟨name, slots, hslots⟩ := Path.exists_slots_eq rest
    have hne : steps.flatMap Step.stops ≠ [] := hwalk.stops_ne_nil
    rw [Path.slots_of_more hstep hrest, hslots] at hwrites
    rw [hslots] at ih
    rw [List.flatMap_cons]
    cases hplace : step.place.slot? with
    | none =>
      rw [Step.slots_of_key (Place.slot?_eq_none_iff.mp hplace)] at hwrites
      obtain ⟨child, h₁, h₂, henters, hwrites, hback⟩ := hwrites.exists_enters
      have hbelow := ih hbehind (henters.acyclic hacyclic) (suitsAt_field_iff.mp henters.suitsAt)
        hwrites rfl
      have hrun := runs_set_of_key hstep hplace (runs_setFrom_of_more hrest
        (runs_openMapping_of_key henters) hbelow (runs_store_of_key hback))
      rw [Step.stops_of_key hplace, List.singleton_append, henters.notes_eq _ hne]
      exact hrun
    | some slot =>
      rw [Step.slots_of_slot? hplace] at hwrites
      obtain ⟨list, h₁, h₄, houter, hwrites, hback⟩ := hwrites.exists_enters
      obtain ⟨child, h₂, h₃, hinner, hwrites, hfill⟩ := hwrites.exists_enters
      have hacyclic₁ := houter.acyclic hacyclic
      have hbelow := ih hbehind (hinner.acyclic hacyclic₁) (suitsAt_field_iff.mp hinner.suitsAt)
        hwrites rfl
      have hrun := runs_set_of_list hstep hplace hhop houter (runs_setFrom_of_more hrest
        (runs_openMapping_of_list hplace hinner) hbelow (runs_store_of_list hplace hfill hback))
      rw [count_congr (hinner.get?_eq hacyclic₁ houter.suitsAt hwrites)] at hrun
      rw [Step.stops_of_slot? hplace, List.cons_append, List.singleton_append,
        houter.notes_eq step.listStop (List.cons_ne_nil _ _), hinner.notes_eq _ hne,
        Step.growth_listStop, List.append_nil]
      exact hrun

/-- Behind one item, a write at `a[2].b[1]` makes a mapping for the item and a list for its `b`. -/
example :
    let h : Heap := ⟨#[.mapping .plain (.ofList [(.text "a", .object 1)]), .list [.integer 1]]⟩
    let steps : List Step :=
      [⟨"a[2].b[1]", "a", .item 2, some "b[1]"⟩, ⟨"b[1]", "b", .item 1, none⟩]
    h.creations (some 0) (steps.flatMap Step.stops) ++
      h.growths (some 0) (steps.flatMap Step.stops) =
      [.creatingMapping "a[2]" "a[2].b[1]", .creatingList "b" "b[1]", .growing "b" 0 2,
        .growing "a" 1 3] := by
  decide +kernel

end Write

end DottedPath
