import DottedPath.Proofs.Heap.Slot
import Mathlib.Data.List.Nodup
import Mathlib.Logic.Relation

/-!
# Reaching one container from another

A mapping or a list holds the objects in its slots; tuples and handles hold nothing that a scanner
could walk to. A heap is acyclic when no container is reached from itself along the containers that
the ones before hold. Slots lead from a container to another one when each of them holds the
container in which the next is looked for (`Heap.Leads`); what slots lead to is reached, so in an
acyclic heap the containers along a path are all different (`AcyclicFrom.ne`).
-/

set_option autoImplicit false
set_option relaxedAutoImplicit false

namespace DottedPath

/-- The cell that a value refers to. -/
def Value.ref? : Value → Option Ref
  | object r => some r
  | _ => none

theorem Value.eq_object_of_ref? {v : Value} {r : Ref} (h : r ∈ v.ref?) : v = .object r := by
  cases v with
  | object s => rw [Option.some.inj h]
  | _ => simp [ref?] at h

namespace Cell

/-- The values in the slots of a mapping or a list. -/
def contents : Cell → List Value
  | mapping _ entries => entries.data
  | list items => items
  | _ => []

/-- Whether the cell is one that a scanner walks through. -/
def IsContainer : Cell → Prop
  | mapping _ _ => True
  | list _ => True
  | _ => False

@[simp] theorem contents_blank (s : Slot) : s.blank.contents = [] := by
  cases s <;> rfl

/-- The cell as a mapping of another kind, if it is a mapping. -/
def recast (f : MappingKind → MappingKind) : Cell → Cell
  | mapping kind entries => mapping (f kind) entries
  | c => c

section Recast

variable {f : MappingKind → MappingKind}

theorem recast_blank (hplain : f .plain = .plain) (s : Slot) : s.blank.recast f = s.blank := by
  cases s with
  | field name => exact congrArg (mapping · .empty) hplain
  | index n | next => rfl

@[simp] theorem contents_recast (c : Cell) : (c.recast f).contents = c.contents := by
  cases c <;> rfl

@[simp] theorem slot?_recast (c : Cell) (s : Slot) : (c.recast f).slot? s = c.slot? s := by
  cases c <;> cases s <;> rfl

theorem recast_put (c : Cell) (s : Slot) (v : Value) :
    (c.put s v).recast f = (c.recast f).put s v := by
  cases c <;> cases s <;> rfl

theorem suits_recast_iff {c : Cell} {s : Slot} : s.Suits (c.recast f) ↔ s.Suits c := by
  cases c <;> cases s <;> rfl

theorem isContainer_recast_iff {c : Cell} : (c.recast f).IsContainer ↔ c.IsContainer := by
  cases c <;> rfl

end Recast

end Cell

theorem Slot.Suits.isContainer {s : Slot} {c : Cell} (hsuits : s.Suits c) : c.IsContainer := by
  cases c <;> cases s <;> first | exact hsuits.elim | trivial

theorem Table.mem_entries_of_find? {κ α : Type} [DecidableEq κ] {t : Table κ α} {k : κ} {a : α}
    (h : t.find? k = some a) : (k, a) ∈ t.entries := by
  have hentries : ∀ es : List (κ × α), findFirst? es k = some a → (k, a) ∈ es := by
    intro es
    induction es with
    | nil => simp [findFirst?]
    | cons e es ih =>
      obtain ⟨k', a'⟩ := e
      intro hfind
      simp only [findFirst?] at hfind
      split at hfind
      · next hkey =>
        obtain rfl := Option.some.inj hfind
        simp [hkey]
      · exact List.mem_cons_of_mem _ (ih hfind)
  exact hentries t.entries h

theorem Table.find?_of_mem_entries {κ α : Type} [DecidableEq κ] {t : Table κ α} {k : κ} {a : α}
    (hmem : (k, a) ∈ t.entries) : t.find? k = some a := by
  cases hfind : t.find? k with
  | none =>
    refine absurd ?_ ((t.find?_eq_none_iff k).mp hfind)
    exact List.mem_map_of_mem hmem
  | some b =>
    have hentry := List.inj_on_of_nodup_map t.nodup_keys hmem (mem_entries_of_find? hfind) rfl
    exact congrArg (some ·.2) hentry.symm

theorem Cell.mem_contents_of_slot? {c : Cell} {s : Slot} {v : Value} (h : c.slot? s = some v) :
    v ∈ c.contents := by
  cases c with
  | mapping kind entries =>
    cases s with
    | field name => exact List.mem_map.mpr ⟨_, Table.mem_entries_of_find? h, rfl⟩
    | index n | next => simp [slot?] at h
  | list items =>
    cases s with
    | index n => exact List.mem_of_getElem? h
    | field name | next => simp [slot?] at h
  | _ => simp [slot?] at h

namespace Heap

/-- A mapping or a list holds an object in one of its slots. -/
def Holds (h : Heap) (r s : Ref) : Prop := ∃ c, h.get? r = some c ∧ .object s ∈ c.contents

/-- No container is reached from itself through mappings and lists. -/
def Acyclic (h : Heap) : Prop := ∀ r, ¬ Relation.TransGen h.Holds r r

/-- The cell is a mapping. -/
def IsMapping (h : Heap) (r : Ref) : Prop := ∃ kind entries, h.get? r = some (.mapping kind entries)

theorem suitsAt_field_iff {h : Heap} {r : Ref} {name : String} :
    h.SuitsAt r (.field name) ↔ h.IsMapping r := by
  constructor
  · rintro ⟨c, hget, hsuits⟩
    cases c with
    | mapping kind entries => exact ⟨kind, entries, hget⟩
    | _ => exact hsuits.elim
  · rintro ⟨kind, entries, hget⟩
    exact ⟨_, hget, trivial⟩

theorem holds_of_slot? {h : Heap} {r c : Ref} {s : Slot} (hslot : h.slot? r s = some (.object c)) :
    h.Holds r c := by
  obtain ⟨cell, hget, hcell⟩ := Option.bind_eq_some_iff.mp hslot
  exact ⟨cell, hget, Cell.mem_contents_of_slot? hcell⟩

/-- The slots lead from the first container to the second, through containers that are there. -/
inductive Leads (h : Heap) : Ref → List Slot → Ref → Prop
  | here (r : Ref) : Leads h r [] r
  | through {r c d : Ref} {s : Slot} {slots : List Slot} (hslot : h.slot? r s = some (.object c))
    (hleads : Leads h c slots d) : Leads h r (s :: slots) d

theorem Leads.reaches {h : Heap} {r d : Ref} {slots : List Slot} (hleads : h.Leads r slots d) :
    Relation.ReflTransGen h.Holds r d := by
  induction hleads with
  | here r => exact .refl
  | through hslot _ ih => exact .head (holds_of_slot? hslot) ih

theorem Leads.append {h : Heap} {r c d : Ref} {as bs : List Slot} (hfirst : h.Leads r as c)
    (hlast : h.Leads c bs d) : h.Leads r (as ++ bs) d := by
  induction hfirst with
  | here r => exact hlast
  | through hslot _ ih => exact .through hslot (ih hlast)

theorem Leads.of_append {h : Heap} {r d : Ref} {as bs : List Slot} (hleads : h.Leads r (as ++ bs) d) :
    ∃ c, h.Leads r as c ∧ h.Leads c bs d := by
  induction as generalizing r with
  | nil => exact ⟨r, .here r, hleads⟩
  | cons s as ih =>
    cases hleads with
    | through hslot hrest =>
      obtain ⟨c, hfirst, hlast⟩ := ih hrest
      exact ⟨c, .through hslot hfirst, hlast⟩

/-- No container that is reached from this one is reached from itself. -/
def AcyclicFrom (h : Heap) (r : Ref) : Prop :=
  ∀ x, Relation.ReflTransGen h.Holds r x → ¬ Relation.TransGen h.Holds x x

theorem Acyclic.acyclicFrom {h : Heap} (hacyclic : h.Acyclic) (r : Ref) : h.AcyclicFrom r :=
  fun x _ ↦ hacyclic x

theorem AcyclicFrom.of_slot? {h : Heap} {r c : Ref} {s : Slot} (hacyclic : h.AcyclicFrom r)
    (hslot : h.slot? r s = some (.object c)) : h.AcyclicFrom c :=
  fun x hx ↦ hacyclic x (.head (holds_of_slot? hslot) hx)

/-- Below a container that reaches no cycle, no container on the way to another one is that
container. -/
theorem AcyclicFrom.ne {h : Heap} {r c d : Ref} {s : Slot} {slots : List Slot}
    (hacyclic : h.AcyclicFrom r) (hslot : h.slot? r s = some (.object c))
    (hleads : h.Leads c slots d) : r ≠ d := by
  rintro rfl
  exact hacyclic r .refl (.head' (holds_of_slot? hslot) hleads.reaches)

/-- A heap in which every container holds objects of greater numbers only is acyclic. -/
theorem acyclic_of_lt {h : Heap}
    (hlt : ∀ r < h.size, ∀ c ∈ h.get? r, ∀ v ∈ c.contents, ∀ s ∈ v.ref?, r < s) : h.Acyclic := by
  have hholds : ∀ r s, h.Holds r s → r < s := by
    rintro r s ⟨c, hget, hmem⟩
    exact hlt r (lt_size_of_get? hget) c hget _ hmem s rfl
  have hreach : ∀ r s, Relation.TransGen h.Holds r s → r < s := by
    intro r s hreach
    induction hreach with
    | single hrs => exact hholds r _ hrs
    | tail _ hrs ih => exact Nat.lt_trans ih (hholds _ _ hrs)
  exact fun r hcycle ↦ Nat.lt_irrefl r (hreach r r hcycle)

/-! ### Growing heaps -/

theorem get?_eq_none {h : Heap} {r : Ref} (hr : h.size ≤ r) : h.get? r = none := by
  simp only [get?, size] at *
  exact Array.getElem?_eq_none hr

theorem get?_alloc (h : Heap) (c : Cell) (r : Ref) :
    (h.alloc c).get? r = if r = h.size then some c else h.get? r := by
  split
  · next hr => rw [hr, get?_alloc_self]
  · next hr =>
    by_cases hlt : r < h.size
    · exact get?_alloc_of_lt h c hlt
    · have hle : h.size + 1 ≤ r := Nat.lt_of_le_of_ne (Nat.le_of_not_lt hlt) (Ne.symm hr)
      rw [get?_eq_none (Nat.le_of_not_lt hlt), get?_eq_none (by rwa [size_alloc])]

theorem slot?_alloc_self (h : Heap) (c : Cell) (s : Slot) :
    (h.alloc c).slot? h.size s = c.slot? s := by
  rw [slot?, get?_alloc_self, Option.bind_some]

/-- A new container in which nothing stands holds nothing. -/
theorem holds_of_alloc {h : Heap} {c : Cell} {a b : Ref} (hc : c.contents = [])
    (hholds : (h.alloc c).Holds a b) : h.Holds a b := by
  obtain ⟨cell, hget, hmem⟩ := hholds
  rw [get?_alloc] at hget
  split at hget
  · obtain rfl := Option.some.inj hget
    simp [hc] at hmem
  · exact ⟨cell, hget, hmem⟩

/-- A new container in which nothing stands closes no cycle. -/
theorem Acyclic.alloc {h : Heap} (hacyclic : h.Acyclic) {c : Cell} (hc : c.contents = []) :
    (h.alloc c).Acyclic := by
  intro r hcycle
  exact hacyclic r (Relation.TransGen.mono (fun _ _ ↦ holds_of_alloc hc) r r hcycle)

end Heap

end DottedPath
