import DottedPath.Proofs.Write.Records

/-!
# The records of a write account for what it builds

After a write its slots lead from the root to the value. Along them, from the root on, there is a
record of every container that was not there before, and, from the value back, a record of every
list that an index has made longer, with its lengths before and after (`Heap.Accounts`). These are
all records of the scanner, and there are as many of the first kind as the write has added cells
(`records_of_set`). There are none at all exactly when all slots but the last led through containers
that were there, and the last is not an index past the end of its list.

What a write notes is told from the heap before it (`runs_set`). That this is also the truth about
the heap after it follows from the shape of the change: the slots lead through containers that stay
as they are, to the one in which a slot changes, and from there on through new ones
(`Heap.ChangesSlot`).
-/

set_option autoImplicit false
set_option relaxedAutoImplicit false

namespace DottedPath

open Scan

/-- Whether the record says that a container is made. -/
def Record.isCreation : Record → Bool
  | creatingMapping _ _ => true
  | creatingList _ _ => true
  | _ => false

namespace Heap

/-- The records of how a container has grown for a stop of a write: one, with the lengths before and
after, when it is a list and the stop is an index that was not below its length. -/
inductive Growth (h h' : Heap) (r : Ref) (stop : Stop) : List Record → Prop
  | past {n : Nat} (hslot : stop.slot = .index n) (hpast : h.count (some r) ≤ n)
    (hafter : h'.count (some r) = n + 1) :
    Growth h h' r stop [.growing stop.field (h.count (some r)) (h'.count (some r))]
  | within {n : Nat} (hslot : stop.slot = .index n) (hwithin : n < h.count (some r)) :
    Growth h h' r stop []
  | unindexed (hslot : ∀ n, stop.slot ≠ .index n) : Growth h h' r stop []

/-- The records of a write of a value at some stops, from a container on: of the containers on the
way to the value that are new, and of the lists that have grown, the last one first. An item that
was appended is found at the index that was the length of its list. -/
inductive Accounts (h h' : Heap) (v : Value) : Ref → List Stop → List Record → List Record → Prop
  | last {r : Ref} {stop : Stop} {growth : List Record}
    (hslot : h'.slot? r (stop.slot.number (h.count (some r))) = some v)
    (hgrowth : Growth h h' r stop growth) : Accounts h h' v r [stop] [] growth
  | more {r c : Ref} {stop : Stop} {stops : List Stop} {made grown growth : List Record}
    (hslot : h'.slot? r (stop.slot.number (h.count (some r))) = some (.object c))
    (hgrowth : Growth h h' r stop growth) (hbehind : Accounts h h' v c stops made grown) :
    Accounts h h' v r (stop :: stops) ((if h.size ≤ c then [stop.made] else []) ++ made)
      (grown ++ growth)

section Notes

variable {h h' : Heap} {r c : Ref} {stop : Stop} {stops : List Stop} {v item : Value}

/-! ### What is noted where -/

theorem lt_count_of_slot? {n : Nat} (hslot : h.slot? r (.index n) = some item) :
    n < h.count (some r) := by
  rw [← getElem?_items_eq_slot?] at hslot
  exact (List.getElem?_eq_some_iff.mp hslot).1

theorem growth_eq_nil_iff {length : Nat} :
    stop.growth length = [] ↔ ∀ n, stop.slot = .index n → n < length := by
  unfold Stop.growth
  cases stop.slot with
  | field name | next => simp
  | index n => simp

theorem growth_of_past {length n : Nat} (hslot : stop.slot = .index n) (hpast : length ≤ n) :
    stop.growth length = [.growing stop.field length (n + 1)] := by
  rw [Stop.growth, hslot]
  exact if_pos hpast

/-- A slot in which something stands is no reason for a list to grow. -/
theorem growth_of_slot? (hslot : h.slot? r stop.slot = some item) :
    stop.growth (h.count (some r)) = [] := by
  rw [growth_eq_nil_iff]
  intro n hn
  rw [hn] at hslot
  exact lt_count_of_slot? hslot

/-- As long as the slots lead through containers that are there, nothing is noted. -/
theorem notes_of_leads {before : List Stop} (hleads : h.Leads r (before.map Stop.slot) c)
    (hne : stops ≠ []) :
    h.creations (some r) (before ++ stops) = h.creations (some c) stops ∧
      h.growths (some r) (before ++ stops) = h.growths (some c) stops := by
  induction before generalizing r with
  | nil =>
    cases hleads
    exact ⟨rfl, rfl⟩
  | cons stop before ih =>
    cases hleads with
    | through hslot hleads =>
      obtain ⟨hmade, hgrown⟩ := ih hleads
      rw [List.cons_append, creations_cons h _ _ (List.append_ne_nil_of_right_ne_nil _ hne),
        growths, creationAt_of_found hslot, container?_eq_some hslot, growth_of_slot? hslot, hmade,
        hgrown]
      exact ⟨List.nil_append _, List.append_nil _⟩

/-- Where nothing is there yet, a container is made for every stop but the last. -/
theorem creations_none_cons (h : Heap) (stop : Stop) (stops : List Stop) :
    h.creations none (stop :: stops) = ((stop :: stops).dropLast).map Stop.made := by
  induction stops generalizing stop with
  | nil => rfl
  | cons next stops ih =>
    have hbehind : h.creations (h.container? none stop.slot) (next :: stops) = _ := ih next
    rw [creations_cons h _ _ (List.cons_ne_nil _ _), hbehind]
    rfl

theorem creations_of_open (hopen : stops = [] ∨ (h.slot? c stop.slot).getD .null = .null) :
    h.creations (some c) (stop :: stops) = ((stop :: stops).dropLast).map Stop.made := by
  obtain rfl | hnull := hopen
  · rfl
  · rw [← h.creations_none_cons, creations, creations, creationAt, creationAt,
      container?_eq_none hnull]
    rfl

/-! ### The account of the heap after a write -/

theorem count_of_fresh {fresh : Ref} (hfresh : h.size ≤ fresh) : h.count (some fresh) = 0 := by
  simp [count, items, get?_eq_none hfresh]

/-- What is written into a slot is found there, and a list grows by as much as is noted. -/
theorem noted_of_written {old new : Cell} (hold : h.count (some r) = old.count)
    (hnew : h'.get? r = some new) (hwritten : old.Written stop.slot item new) :
    h'.slot? r (stop.slot.number (h.count (some r))) = some item ∧
      Growth h h' r stop (stop.growth (h.count (some r))) := by
  constructor
  · rw [slot?, hnew, hold]
    exact hwritten.slot?_number
  obtain ⟨slot, field, made⟩ := stop
  cases hwritten with
  | replaceKey | addKey | append => exact .unindexed (by simp)
  | @replaceItem items n _ hn =>
    have hwithin : n < h.count (some r) := hold ▸ hn
    rw [growth_eq_nil_iff.mpr (by rintro m ⟨⟩; exact hwithin)]
    exact .within rfl hwithin
  | @pad items n _ hn =>
    have hpast : h.count (some r) ≤ n := hold ▸ hn
    have hafter : h'.count (some r) = n + 1 := by
      rw [count_of_get? hnew, Cell.count, List.length_append, List.length_append,
        List.length_replicate, List.length_singleton]
      omega
    rw [growth_of_past rfl hpast, ← hafter]
    exact .past rfl hpast hafter

/-- Behind the first new container all is new. -/
theorem Grown.accounts {fresh : Nat} (hfresh : h.size ≤ fresh)
    (hgrown : h'.Grown v fresh (stop.slot :: stops.map Stop.slot) item) :
    item = .object fresh ∧ h.Accounts h' v fresh (stop :: stops) (h.creations none (stop :: stops))
      (h.growths none (stop :: stops)) := by
  induction stops generalizing stop fresh item with
  | nil =>
    obtain ⟨hitem, cell, inner, hget, hwritten, hinner⟩ := hgrown
    obtain rfl : inner = v := hinner
    have hcount := count_of_fresh hfresh
    obtain ⟨hslot, hgrowth⟩ :=
      noted_of_written (hcount.trans stop.slot.count_blank.symm) hget hwritten
    rw [hcount] at hgrowth
    exact ⟨hitem, .last hslot hgrowth⟩
  | cons next stops ih =>
    obtain ⟨hitem, cell, inner, hget, hwritten, hinner⟩ := hgrown
    obtain ⟨rfl, hbehind⟩ := ih (Nat.le_succ_of_le hfresh) hinner
    have hcount := count_of_fresh hfresh
    obtain ⟨hslot, hgrowth⟩ :=
      noted_of_written (hcount.trans stop.slot.count_blank.symm) hget hwritten
    have haccount := Accounts.more hslot hgrowth hbehind
    rw [if_pos (Nat.le_succ_of_le hfresh), hcount] at haccount
    exact ⟨hitem, haccount⟩

/-- At the container in which a slot changes, what is written stands in the slot, and all behind it
is new. -/
theorem accounts_of_written {old new : Cell} (hold : h.get? c = some old)
    (hnew : h'.get? c = some new) (hwritten : old.Written stop.slot item new)
    (hgrown : h'.Grown v h.size (stops.map Stop.slot) item)
    (hopen : stops = [] ∨ (h.slot? c stop.slot).getD .null = .null) :
    h.Accounts h' v c (stop :: stops) (h.creations (some c) (stop :: stops))
      (h.growths (some c) (stop :: stops)) := by
  obtain ⟨hslot, hgrowth⟩ := noted_of_written (count_of_get? hold) hnew hwritten
  cases stops with
  | nil =>
    obtain rfl : item = v := hgrown
    exact .last hslot hgrowth
  | cons next stops =>
    have hnull := hopen.resolve_left (List.cons_ne_nil _ _)
    obtain ⟨rfl, hbehind⟩ := hgrown.accounts (Nat.le_refl h.size)
    have haccount := Accounts.more hslot hgrowth hbehind
    rw [if_pos (Nat.le_refl h.size)] at haccount
    rw [creations_cons h _ _ (List.cons_ne_nil _ _), creationAt_of_null hnull, growths,
      container?_eq_none hnull]
    exact haccount

/-- In a container that stays as it is, what a slot holds is found there, and nothing has grown. -/
theorem noted_of_slot? (hslot : h.slot? r stop.slot = some item) (hget : h'.get? r = h.get? r) :
    h'.slot? r (stop.slot.number (h.count (some r))) = some item ∧ Growth h h' r stop [] := by
  have hstays : h'.slot? r stop.slot = some item := by
    rw [slot?, hget]
    exact hslot
  obtain ⟨slot, field, made⟩ := stop
  cases slot with
  | field name => exact ⟨hstays, .unindexed (by simp)⟩
  | index n => exact ⟨hstays, .within rfl (lt_count_of_slot? hslot)⟩
  | next => simp [slot?] at hslot

theorem Leads.lt_size {slots : List Slot} (hleads : h.Leads r slots c) (hc : c < h.size) :
    r < h.size := by
  cases hleads with
  | here => exact hc
  | through hslot _ => exact lt_size_of_suitsAt (suitsAt_of_slot? hslot)

/-- As long as the slots lead through containers that are there and stay as they are, there is
nothing to account for. -/
theorem Accounts.of_leads {before : List Stop} {made grown : List Record} (hc : c < h.size)
    (hleads : h.Leads r (before.map Stop.slot) c)
    (hsame : ∀ x, Relation.TransGen h.Holds x c → h'.get? x = h.get? x)
    (haccount : h.Accounts h' v c stops made grown) :
    h.Accounts h' v r (before ++ stops) made grown := by
  induction before generalizing r with
  | nil =>
    cases hleads
    exact haccount
  | cons stop before ih =>
    cases hleads with
    | @through _ d _ _ _ hslot hleads =>
      have hget := hsame r (.head' (holds_of_slot? hslot) hleads.reaches)
      obtain ⟨hstays, hgrowth⟩ := noted_of_slot? hslot hget
      have hnew := Accounts.more hstays hgrowth (ih hleads)
      rwa [if_neg (Nat.not_le_of_lt (hleads.lt_size hc)), List.nil_append, List.append_nil] at hnew

/-- Assumes: a write that changes one slot of an acyclic heap. What it notes accounts for the heap
after it. -/
theorem ChangesSlot.accounts {root : Ref} {before behind : List Slot} {slot : Slot}
    (hacyclic : h.Acyclic)
    (hchange : h.ChangesSlot h' root (stops.map Stop.slot) v before slot behind c item) :
    h.Accounts h' v root stops (h.creations (some root) stops) (h.growths (some root) stops) := by
  obtain ⟨old, new, hold, hnew, hwritten⟩ := hchange.written
  obtain ⟨first, others, rfl, rfl, hothers⟩ := List.map_eq_append_iff.mp hchange.slots_eq
  obtain ⟨stop, last, rfl, rfl, rfl⟩ := List.map_eq_cons_iff.mp hothers
  obtain ⟨hmade, hgrown⟩ := notes_of_leads hchange.leads (List.cons_ne_nil stop last)
  rw [hmade, hgrown]
  refine .of_leads (lt_size_of_get? hold) hchange.leads (fun x hx ↦ ?_) ?_
  · have hlt : x < h.size := by
      obtain ⟨y, ⟨cell, hget, -⟩, -⟩ := Relation.TransGen.head'_iff.mp hx
      exact lt_size_of_get? hget
    exact hchange.others x hlt fun hxc ↦ hacyclic c (hxc ▸ hx)
  · exact accounts_of_written hold hnew hwritten hchange.grown
      (hchange.open_or_last.imp_left List.map_eq_nil_iff.mp)

/-! ### How many containers are made -/

/-- There is a record for each cell that a write adds. -/
theorem ChangesSlot.size_eq_creations {root : Ref} {before behind : List Slot} {slot : Slot}
    (hchange : h.ChangesSlot h' root (stops.map Stop.slot) v before slot behind c item) :
    h'.size = h.size + (h.creations (some root) stops).length := by
  obtain ⟨first, others, rfl, rfl, hothers⟩ := List.map_eq_append_iff.mp hchange.slots_eq
  obtain ⟨stop, last, rfl, rfl, rfl⟩ := List.map_eq_cons_iff.mp hothers
  rw [hchange.size_eq, (notes_of_leads hchange.leads (List.cons_ne_nil stop last)).1,
    creations_of_open (hchange.open_or_last.imp_left List.map_eq_nil_iff.mp)]
  simp

/-- All cells that a write adds are containers. -/
theorem ChangesSlot.isContainer {root x : Ref} {slots before behind : List Slot} {slot : Slot}
    {cell : Cell} (hchange : h.ChangesSlot h' root slots v before slot behind c item)
    (hx : h.size ≤ x) (hget : h'.get? x = some cell) : cell.IsContainer := by
  have hlt := lt_size_of_get? hget
  rw [hchange.size_eq] at hlt
  obtain ⟨k, rfl⟩ := Nat.exists_eq_add_of_le hx
  have hk : k < behind.length := Nat.lt_of_add_lt_add_left hlt
  have hbehind := hchange.grown
  rw [← List.take_append_drop k behind, List.drop_eq_getElem_cons hk] at hbehind
  have hcell := hbehind.get?_eq
  rw [List.length_take, Nat.min_eq_left (Nat.le_of_lt hk), hget, Option.some.injEq] at hcell
  rw [hcell]
  exact (Cell.Suits.put (Slot.suits_blank _) _ _).isContainer

/-- Nothing is noted when all slots but the last lead through containers that are there, and no list
grows at the last, and in no other case. -/
theorem ChangesSlot.notes_eq_nil_iff {root : Ref} {before behind : List Slot} {slot : Slot}
    (hchange : h.ChangesSlot h' root (stops.map Stop.slot) v before slot behind c item) :
    h.creations (some root) stops ++ h.growths (some root) stops = [] ↔
      ∃ before slot d, stops.map Stop.slot = before ++ [slot] ∧ h.Leads root before d ∧
        ∀ n, slot = .index n → n < h.count (some d) := by
  rw [List.append_eq_nil_iff]
  constructor
  · rintro ⟨hmade, hgrown⟩
    obtain rfl : behind = [] := by
      have hsize := hchange.size_eq
      rw [hchange.size_eq_creations, hmade, List.length_nil] at hsize
      exact List.length_eq_zero_iff.mp (by omega)
    refine ⟨before, slot, c, hchange.slots_eq, hchange.leads, ?_⟩
    obtain ⟨first, others, rfl, rfl, hothers⟩ := List.map_eq_append_iff.mp hchange.slots_eq
    obtain ⟨stop, rfl, rfl⟩ := List.map_eq_singleton_iff.mp hothers
    rw [(notes_of_leads hchange.leads (List.cons_ne_nil stop [])).2] at hgrown
    exact growth_eq_nil_iff.mp hgrown
  · rintro ⟨before, slot, d, hslots, hleads, hwithin⟩
    obtain ⟨first, others, rfl, rfl, hothers⟩ := List.map_eq_append_iff.mp hslots
    obtain ⟨stop, rfl, rfl⟩ := List.map_eq_singleton_iff.mp hothers
    obtain ⟨hmade, hgrown⟩ := notes_of_leads hleads (List.cons_ne_nil stop [])
    exact ⟨hmade, hgrown.trans (growth_eq_nil_iff.mpr hwithin)⟩

end Notes

end Heap

/-! ### The records of a write -/

theorem Step.isCreation_of_mem_stops {step : Step} {stop : Stop} (hstop : stop ∈ step.stops) :
    stop.made.isCreation = true := by
  unfold stops at hstop
  cases hplace : step.place.slot? with
  | none =>
    rw [hplace, List.mem_singleton] at hstop
    rw [hstop]
    rfl
  | some slot =>
    rw [hplace, List.mem_cons, List.mem_singleton] at hstop
    obtain rfl | rfl := hstop <;> rfl

theorem Heap.isCreation_of_mem_creations {h : Heap} {r : Option Ref} {stops : List Stop}
    (hstops : ∀ stop ∈ stops, stop.made.isCreation = true) :
    ∀ record ∈ h.creations r stops, record.isCreation = true := by
  induction stops generalizing r with
  | nil => exact nofun
  | cons stop stops ih =>
    rw [List.forall_mem_cons] at hstops
    intro record hrecord
    rw [creations, List.mem_append] at hrecord
    obtain hfirst | hbehind := hrecord
    · unfold creationAt at hfirst
      split at hfirst
      · cases hfirst
      · split at hfirst
        · rw [List.mem_singleton.mp hfirst]
          exact hstops.1
        · cases hfirst
    · exact ih hstops.2 record hbehind

theorem Heap.not_isCreation_of_mem_growths {h : Heap} {r : Option Ref} {stops : List Stop} :
    ∀ record ∈ h.growths r stops, record.isCreation = false := by
  induction stops generalizing r with
  | nil => exact nofun
  | cons stop stops ih =>
    intro record hrecord
    rw [growths, List.mem_append] at hrecord
    obtain hbehind | hfirst := hrecord
    · exact ih record hbehind
    · unfold Stop.growth at hfirst
      split at hfirst
      · split at hfirst
        · rw [List.mem_singleton.mp hfirst]
          rfl
        · cases hfirst
      · cases hfirst

/-- Assumes: an acyclic heap, a root that is a mapping, and a write there that succeeds. The records
that it adds to those of the scanner account for the heap after it: first those of the containers
that are made, which are all the cells that are added, and then those of the lists that grow. There
are none exactly when all slots but the last led through containers that were there, and the last is
not an index past the end of its list. -/
theorem records_of_set {limit : Option Nat} {root : Ref} {path : String} {v : Value}
    {w w' : Workplace} (hacyclic : w.heap.Acyclic) (hroot : w.heap.IsMapping root)
    (hset : Scan.set limit root path v w = .ok () w') :
    ∃ steps made grown, Path.Walk path steps none ∧
      w.heap.Accounts w'.heap v root (steps.flatMap Step.stops) made grown ∧
      Record.ofScanner w'.records.toList = Record.ofScanner w.records.toList ++ (made ++ grown) ∧
      w'.heap.size = w.heap.size + (made ++ grown).countP Record.isCreation ∧
      (∀ x, w.heap.size ≤ x → ∀ cell ∈ w'.heap.get? x, cell.IsContainer) ∧
      (made ++ grown = [] ↔ ∃ before slot c, Path.slots path = before ++ [slot] ∧
        w.heap.Leads root before c ∧ ∀ n, slot = .index n → n < w.heap.count (some c)) := by
  have heffect := (steady_set limit root path v).effect_of_ok hset
  obtain ⟨hreadable, hallowed, hwrites⟩ := Heap.effect_set_eq_ok_iff.mp heffect
  obtain ⟨steps, stop, hwalk⟩ := Path.exists_walk path
  obtain rfl := hwalk.stop_eq_none_iff.mpr hreadable
  obtain ⟨before, slot, behind, c, item, hchange⟩ :=
    hwrites.changesSlot hacyclic (Heap.suitsAt_slots hroot path)
  obtain ⟨w₁, hrun, -, hrecords⟩ := runs_set hwalk hallowed hacyclic hroot hwrites w rfl
  obtain rfl : w' = w₁ := by simpa [hset] using hrun
  rw [← hwalk.map_slot_stops] at hchange ⊢
  have hmade : ∀ record ∈ w.heap.creations (some root) (steps.flatMap Step.stops),
      record.isCreation = true :=
    Heap.isCreation_of_mem_creations fun stop hstop ↦ by
      obtain ⟨step, -, hstop⟩ := List.mem_flatMap.mp hstop
      exact Step.isCreation_of_mem_stops hstop
  refine ⟨steps, _, _, hwalk, hchange.accounts hacyclic, hrecords, ?_,
    fun x hx cell ↦ hchange.isContainer hx, hchange.notes_eq_nil_iff⟩
  rw [hchange.size_eq_creations, List.countP_append, List.countP_eq_length.mpr hmade,
    List.countP_eq_zero.mpr fun record hrecord ↦ by
      simp [Heap.not_isCreation_of_mem_growths record hrecord], Nat.add_zero]

/-- A write at `a[2].b[1]` behind one item makes a mapping for the item and a list for its `b`, and
then both lists grow. -/
theorem records_of_set_past_end :
    let w : Workplace :=
      ⟨⟨#[.mapping .plain (.ofList [(.text "a", .object 1)]), .list [.integer 1]]⟩, .new 0, #[]⟩
    w.heap.Acyclic ∧ w.heap.IsMapping 0 ∧
      ∃ w', Scan.set none 0 "a[2].b[1]" (.integer 5) w = .ok () w' ∧
        ∃ steps made grown, Path.Walk "a[2].b[1]" steps none ∧
          w.heap.Accounts w'.heap (.integer 5) 0 (steps.flatMap Step.stops) made grown ∧
          Record.ofScanner w'.records.toList =
            Record.ofScanner w.records.toList ++ (made ++ grown) ∧
          w'.heap.size = w.heap.size + (made ++ grown).countP Record.isCreation ∧
          (∀ x, w.heap.size ≤ x → ∀ cell ∈ w'.heap.get? x, cell.IsContainer) ∧
          (made ++ grown = [] ↔ ∃ before slot c, Path.slots "a[2].b[1]" = before ++ [slot] ∧
            w.heap.Leads 0 before c ∧ ∀ n, slot = .index n → n < w.heap.count (some c)) := by
  intro w
  have hacyclic : w.heap.Acyclic := Heap.acyclic_of_lt (by decide)
  have hroot : w.heap.IsMapping 0 := ⟨_, _, rfl⟩
  have hslots : Path.slots "a[2].b[1]" = [.field "a", .index 2, .field "b", .index 1] := by
    decide +kernel
  obtain ⟨h', hwrites⟩ : ∃ h', w.heap.Writes 0 (Path.slots "a[2].b[1]") (.integer 5) h' := by
    rw [hslots]
    exact ⟨_, .enter rfl ⟨_, rfl, trivial⟩ (.make rfl (.make rfl (.fill rfl) rfl) rfl) rfl⟩
  have heffect := Heap.set_of_writes (by decide +kernel) (Path.allowed_none _) hwrites
  obtain ⟨w', hset, -⟩ := (Scan.steady_set _ _ _ _).exists_of_effect heffect
  exact ⟨hacyclic, hroot, w', hset, records_of_set hacyclic hroot hset⟩

end DottedPath
