import DottedPath.Proofs.Write.Verdict

/-!
# Writing through read-only mappings

A write stores every container that it came through again, so it is refused as soon as one of the
mappings on its way is read-only, however deep the change itself lies (`set_through_read_only`). By
then all that is further down has been stored. What a refused write leaves is therefore told by where
the last of these mappings stands: where the change lies behind it, the change has been made, and it is
the one that the write makes in the heap in which nothing is read-only (`Heap.thawed`); where the
change would have been in that mapping itself, all that was there is as it was.

The proof follows the write with one lemma for each way in which it is put together
(`mirrors_fill`, `mirrors_through`, `mirrors_reach`). Each says that the work goes on as in the thawed
heap as long as no store is refused, and tells the two cases of `Heap.Refused` otherwise
(`Heap.Mirrored`).
-/

set_option autoImplicit false
set_option relaxedAutoImplicit false

namespace DottedPath

open Scan

/-! ### Thawing -/

/-- The kind of a mapping that can be assigned to, in the place of the read-only one. -/
def MappingKind.thawed : MappingKind → MappingKind
  | readOnly => plain
  | kind => kind

theorem Cell.Written.recast {f : MappingKind → MappingKind} {c c' : Cell} {s : Slot} {item : Value}
    (hwritten : c.Written s item c') (hsuits : s.Suits c) :
    (c.recast f).Written s item (c'.recast f) := by
  rw [hwritten.eq_put, recast_put]
  exact written_put (suits_recast_iff.mpr hsuits) item

theorem Cell.Written.suits {c c' : Cell} {s : Slot} {item : Value}
    (hwritten : c.Written s item c') : s.Suits c := by
  cases hwritten <;> trivial

namespace Heap

/-- The heap in which every read-only mapping is one that can be assigned to. -/
def thawed (h : Heap) : Heap := ⟨h.cells.map (Cell.recast .thawed)⟩

section Thawed

variable {h h' g : Heap} {r c : Ref} {s : Slot} {slots : List Slot} {v : Value}

@[simp] theorem size_thawed (h : Heap) : h.thawed.size = h.size := by
  simp [size, thawed]

theorem get?_thawed (h : Heap) (r : Ref) : h.thawed.get? r = (h.get? r).map (Cell.recast .thawed) := by
  simp [get?, thawed]

@[simp] theorem slot?_thawed (h : Heap) (r : Ref) (s : Slot) : h.thawed.slot? r s = h.slot? r s := by
  rw [slot?, slot?, get?_thawed]
  cases h.get? r with
  | none => rfl
  | some c => exact Cell.slot?_recast c s

theorem suitsAt_thawed_iff : h.thawed.SuitsAt r s ↔ h.SuitsAt r s := by
  constructor
  · rintro ⟨c, hget, hc⟩
    rw [get?_thawed] at hget
    obtain ⟨c', hget', rfl⟩ := Option.map_eq_some_iff.mp hget
    exact ⟨c', hget', Cell.suits_recast_iff.mp hc⟩
  · rintro ⟨c, hget, hc⟩
    exact ⟨c.recast .thawed, by rw [get?_thawed, hget, Option.map_some], Cell.suits_recast_iff.mpr hc⟩

theorem thawed_alloc_blank (h : Heap) (s : Slot) :
    (h.alloc s.blank).thawed = h.thawed.alloc s.blank := by
  refine ext_get? fun x ↦ ?_
  rw [get?_thawed, get?_alloc, get?_alloc, size_thawed]
  split
  · rw [Option.map_some, Cell.recast_blank rfl]
  · rw [get?_thawed]

theorem Acyclic.thawed (hacyclic : h.Acyclic) : h.thawed.Acyclic := by
  intro r hcycle
  refine hacyclic r (Relation.TransGen.mono (fun a b hholds ↦ ?_) r r hcycle)
  obtain ⟨c, hget, hmem⟩ := hholds
  rw [get?_thawed] at hget
  obtain ⟨c', hget', rfl⟩ := Option.map_eq_some_iff.mp hget
  exact ⟨c', hget', by rwa [Cell.contents_recast] at hmem⟩

theorem Leads.thawed (hleads : h.Leads r slots c) : h.thawed.Leads r slots c := by
  induction hleads with
  | here r => exact .here r
  | through hslot _ ih => exact .through (by rwa [slot?_thawed]) ih

/-- In the thawed heap nothing refuses to be assigned to, and lists are as long as they were. -/
theorem takes_of_thawed (hwritable : h.isReadOnly r = false) (htakes : h.thawed.Takes r s) :
    h.Takes r s := by
  cases s with
  | field name => exact hwritable
  | next => trivial
  | index n =>
    have hitems : h.thawed.items r = h.items r := by
      simp only [items, get?_thawed]
      cases h.get? r with
      | none => rfl
      | some c => cases c <;> rfl
    rwa [Takes, hitems] at htakes

/-- Filling a slot of a container that can be assigned to is the same when all can be. -/
theorem exists_fill_of_thawed (hwritable : h.isReadOnly r = false)
    (hfill : h.thawed.fill r s v = .ok g) : ∃ h', h.fill r s v = .ok h' ∧ h'.thawed = g := by
  obtain ⟨h', hh'⟩ :=
    exists_fill_iff.mpr (takes_of_thawed hwritable (exists_fill_iff.mp ⟨g, hfill⟩))
  refine ⟨h', hh', ext_get? fun x ↦ ?_⟩
  rw [get?_fill hfill, get?_thawed, get?_fill hh', get?_thawed, get?_thawed]
  split
  · cases h.get? r with
    | none => rfl
    | some c => simp [Cell.recast_put]
  · rfl

/-- A store that the thawed heap takes is made, or else the container is a read-only mapping and refuses
it. -/
theorem fill_or_refused {h₁ : Heap} (hget : h₁.get? r = h.get? r) (hsuits : h.SuitsAt r s)
    (hfill : h₁.thawed.fill r s v = .ok g) :
    (h.isReadOnly r = false ∧ ∃ h', h₁.fill r s v = .ok h' ∧ h'.thawed = g) ∨
      h.isReadOnly r = true ∧ h₁.fill r s v = .error (.refused .assignment) := by
  have hkind : h₁.isReadOnly r = h.isReadOnly r := by rw [isReadOnly, isReadOnly, hget]
  cases hreadOnly : h.isReadOnly r with
  | false => exact .inl ⟨rfl, exists_fill_of_thawed (hkind.trans hreadOnly) hfill⟩
  | true =>
    obtain ⟨c, hc, hsuits⟩ := hsuits
    refine .inr ⟨rfl, ?_⟩
    cases s with
    | field name => simp [fill, assign, hkind, hreadOnly]
    | index n | next =>
      cases c with
      | list items => simp [isReadOnly, hc] at hreadOnly
      | _ => exact hsuits.elim

theorem Grown.thawed {fresh : Nat} {item : Value} (hgrown : h.Grown v fresh slots item) :
    h.thawed.Grown v fresh slots item := by
  induction slots generalizing fresh item with
  | nil => exact hgrown
  | cons s slots ih =>
    obtain ⟨hitem, cell, inner, hget, hwritten, hinner⟩ := hgrown
    refine ⟨hitem, cell.recast .thawed, inner, by rw [get?_thawed, hget, Option.map_some], ?_, ih hinner⟩
    rw [← Cell.recast_blank (f := .thawed) rfl s]
    exact hwritten.recast s.suits_blank

theorem ChangesSlot.thawed {before behind : List Slot} {item : Value}
    (hchange : h.ChangesSlot h' r slots v before s behind c item) :
    h.thawed.ChangesSlot h'.thawed r slots v before s behind c item where
  slots_eq := hchange.slots_eq
  leads := hchange.leads.thawed
  open_or_last := by rw [slot?_thawed]; exact hchange.open_or_last
  written := by
    obtain ⟨old, new, hold, hnew, hwritten⟩ := hchange.written
    exact ⟨old.recast .thawed, new.recast .thawed, by rw [get?_thawed, hold, Option.map_some],
      by rw [get?_thawed, hnew, Option.map_some], hwritten.recast hwritten.suits⟩
  others := fun x hx hxc ↦ by
    rw [get?_thawed, get?_thawed, hchange.others x (by simpa using hx) hxc]
  grown := by
    rw [size_thawed]
    exact hchange.grown.thawed
  size_eq := by rw [size_thawed, size_thawed, hchange.size_eq]

end Thawed

/-! ### Where a write is refused -/

/-- The container `c` is one of those that a walk along the slots comes to, after `before`, and in
which it looks for one more slot. -/
def Comes (h : Heap) (r : Ref) (slots before : List Slot) (c : Ref) : Prop :=
  (∃ s after, slots = before ++ s :: after) ∧ h.Leads r before c

/-- The read-only mapping `m` is the last one that a walk along the slots comes to. -/
structure LastReadOnly (h : Heap) (r : Ref) (slots above : List Slot) (m : Ref) : Prop where
  comes : h.Comes r slots above m
  readOnly : h.isReadOnly m = true
  last : ∀ before c, h.Comes r slots before c → above.length < before.length →
    h.isReadOnly c = false

/-- What a refused write leaves, where `g` is what it makes of the thawed heap: there it changes the
slot `slot` of the container `c`. If `c` lies behind the last read-only mapping on the way, `above`
from the start, it has been changed, and nothing else of what was there; else nothing has. -/
structure Refused (h h' g : Heap) (r : Ref) (slots : List Slot) (v : Value) (above : List Slot)
    (m : Ref) (before : List Slot) (slot : Slot) (behind : List Slot) (c : Ref) (item : Value) :
    Prop where
  readOnly : h.LastReadOnly r slots above m
  change : h.thawed.ChangesSlot g r slots v before slot behind c item
  changed (hbehind : above.length < before.length) :
    h.ChangesSlot h' r slots v before slot behind c item ∧ h'.thawed = g
  kept (habove : before.length ≤ above.length) : h.Extends h'

section Comes

variable {h h' g : Heap} {r c m : Ref} {s t : Slot} {slots above before behind : List Slot}
variable {slot : Slot} {v item : Value} {d : Ref}

theorem writable_iff : h.Writable r slots ↔
    ∀ before c, h.Comes r slots before c → h.isReadOnly c = false :=
  ⟨fun hwritable _ c ⟨⟨s, after, heq⟩, hleads⟩ ↦ hwritable _ s after c heq hleads,
    fun hall before s after c heq hleads ↦ hall before c ⟨⟨s, after, heq⟩, hleads⟩⟩

theorem comes_nil (r : Ref) (s : Slot) (slots : List Slot) : h.Comes r (s :: slots) [] r :=
  ⟨⟨s, slots, rfl⟩, .here r⟩

theorem Comes.through (hslot : h.slot? r s = some (.object c)) (hcomes : h.Comes c slots before d) :
    h.Comes r (s :: slots) (s :: before) d := by
  obtain ⟨⟨t, after, rfl⟩, hleads⟩ := hcomes
  exact ⟨⟨t, after, rfl⟩, .through hslot hleads⟩

/-- A walk comes to the container that it starts in, and to those that it comes to behind its first
slot. -/
theorem Comes.cases (hcomes : h.Comes r (s :: slots) before d) :
    (before = [] ∧ d = r) ∨ ∃ before' c, before = s :: before' ∧ h.slot? r s = some (.object c) ∧
      h.Comes c slots before' d := by
  obtain ⟨⟨t, after, heq⟩, hleads⟩ := hcomes
  cases hleads with
  | here => exact .inl ⟨rfl, rfl⟩
  | @through _ c _ u before' hslot hleads =>
    obtain ⟨rfl, rfl⟩ := List.cons.inj heq
    exact .inr ⟨before', c, rfl, hslot, ⟨t, after, rfl⟩, hleads⟩

theorem writable_cons (hreadOnly : h.isReadOnly r = false)
    (hbehind : ∀ c, h.slot? r s = some (.object c) → h.Writable c slots) :
    h.Writable r (s :: slots) := by
  refine writable_iff.mpr fun before d hcomes ↦ ?_
  obtain ⟨-, rfl⟩ | ⟨before', c, -, hslot, hcomes'⟩ := hcomes.cases
  · exact hreadOnly
  · exact writable_iff.mp (hbehind c hslot) before' d hcomes'

/-- Where all behind the first slot is writable, the container that a walk starts in is the last
read-only mapping that it comes to. -/
theorem lastReadOnly_nil (hreadOnly : h.isReadOnly r = true)
    (hbehind : ∀ c, h.slot? r s = some (.object c) → h.Writable c slots) :
    h.LastReadOnly r (s :: slots) [] r where
  comes := comes_nil r s slots
  readOnly := hreadOnly
  last before d hcomes hlength := by
    obtain ⟨rfl, -⟩ | ⟨before', c, -, hslot, hcomes'⟩ := hcomes.cases
    · exact absurd hlength (Nat.lt_irrefl _)
    · exact writable_iff.mp (hbehind c hslot) before' d hcomes'

theorem LastReadOnly.through (hslot : h.slot? r s = some (.object c))
    (hlast : h.LastReadOnly c slots above m) : h.LastReadOnly r (s :: slots) (s :: above) m where
  comes := hlast.comes.through hslot
  readOnly := hlast.readOnly
  last before d hcomes hlength := by
    obtain ⟨rfl, -⟩ | ⟨before', c', rfl, hslot', hcomes'⟩ := hcomes.cases
    · exact absurd hlength (Nat.not_lt_zero _)
    · obtain rfl : c = c' := by simpa [hslot] using hslot'
      exact hlast.last before' d hcomes' (Nat.lt_of_succ_lt_succ hlength)

theorem ChangesSlot.through (hslot : h.slot? r s = some (.object c))
    (hchange : h.ChangesSlot h' c slots v before slot behind d item) :
    h.ChangesSlot h' r (s :: slots) v (s :: before) slot behind d item :=
  { hchange with
    slots_eq := by rw [hchange.slots_eq, List.cons_append]
    leads := .through hslot hchange.leads }

theorem Refused.through (hslot : h.slot? r s = some (.object c))
    (hrefused : h.Refused h' g c slots v above m before slot behind d item) :
    h.Refused h' g r (s :: slots) v (s :: above) m (s :: before) slot behind d item where
  readOnly := hrefused.readOnly.through hslot
  change := hrefused.change.through (by rwa [slot?_thawed])
  changed hbehind :=
    have ⟨hchange, hthawed⟩ := hrefused.changed (Nat.lt_of_succ_lt_succ hbehind)
    ⟨hchange.through hslot, hthawed⟩
  kept habove := hrefused.kept (Nat.le_of_succ_le_succ habove)

end Comes

/-! ### Work in both heaps -/

/-- How work ends that makes `g` of the thawed heap: it does the same unless a mapping on the way is
read-only, and then it is refused. -/
def Mirrored (h g : Heap) (r : Ref) (slots : List Slot) (v : Value)
    (outcome : Except Fault Unit × Heap) : Prop :=
  (h.Writable r slots ∧ ∃ h', outcome = (.ok (), h') ∧ h'.thawed = g) ∨
    ∃ h' above m before slot behind c item, outcome = (.error (.refused .assignment), h') ∧
      h.Refused h' g r slots v above m before slot behind c item

/-- Some work writes a value at the end of the slots, and it ends as the write in the thawed heap where
that succeeds, unless it is refused. -/
structure Mirrors (slots : List Slot) (v : Value) (work : Ref → Heap → Except Fault Unit × Heap) :
    Prop where
  writes {h h' : Heap} {r : Ref} (hdone : work r h = (.ok (), h')) : h.Writes r slots v h'
  ends {h g : Heap} {r : Ref} (hacyclic : h.Acyclic) (hsuits : ∀ s ∈ slots.head?, h.SuitsAt r s)
    (hwrites : h.thawed.Writes r slots v g) : h.Mirrored g r slots v (work r h)

section Mirrors

variable {h g g₁ : Heap} {r c : Ref} {s t : Slot} {slots : List Slot} {v : Value}
variable {check : Heap → Value → Except Fault Ref}
variable {work : Ref → Heap → Except Fault Unit × Heap}

theorem mirrors_fill (s : Slot) (v : Value) :
    Mirrors [s] v fun r h ↦ changed h (h.fill r s v) where
  writes hdone := .fill (changed_eq_ok hdone)
  ends {h g r} _ hsuits hwrites := by
    have hr : h.SuitsAt r s := hsuits s rfl
    have hnone : ∀ c, h.slot? r s = some (.object c) → h.Writable c [] := by
      rintro c - before u after d heq -
      simp at heq
    cases hwrites with
    | fill hfill =>
      obtain ⟨hreadOnly, h', hh', hthawed⟩ | ⟨hreadOnly, hh'⟩ := fill_or_refused rfl hr hfill
      · exact .inl ⟨writable_cons hreadOnly hnone, h', by rw [hh']; rfl, hthawed⟩
      · exact .inr ⟨h, [], r, [], s, [], r, v, by rw [hh']; rfl, lastReadOnly_nil hreadOnly hnone,
          changesSlot_of_fill hfill (suitsAt_thawed_iff.mpr hr), nofun, fun _ ↦ .refl h⟩

/-- Going on in the container that is in the slot. -/
theorem mirrored_enter (hwork : Mirrors (t :: slots) v work) (hacyclic : h.Acyclic)
    (hr : h.SuitsAt r s) (hslot : h.slot? r s = some (.object c)) (hc : h.SuitsAt c t)
    (hpass : check h (.object c) = .ok c) (hwrites : h.thawed.Writes c (t :: slots) v g₁)
    (hfill : g₁.fill r s (.object c) = .ok g) :
    h.Mirrored g r (s :: t :: slots) v (h.through r s t.blank check work) := by
  -- In the thawed heap the store on the way back changes nothing.
  obtain rfl := eq_of_fill_self (hwrites.slot?_eq hacyclic.thawed (by rwa [slot?_thawed])
    (suitsAt_thawed_iff.mpr hc)) hfill
  have hvalue : (h.slot? r s).getD .null = .object c := by rw [hslot, Option.getD_some]
  have hbehind : h.Writable c (t :: slots) → ∀ c', h.slot? r s = some (.object c') →
      h.Writable c' (t :: slots) := by
    rintro hwritable c' hslot'
    obtain rfl : c = c' := by simpa [hslot] using hslot'
    exact hwritable
  have hsuits : ∀ u ∈ (t :: slots).head?, h.SuitsAt c u := by simpa using hc
  rw [through, enter_of_ne (by simp [hvalue]), hvalue, hpass, andThen_ok]
  obtain ⟨hwritable, h₁, hdone, rfl⟩ | ⟨h₁, above, m, before, slot, behind, d, item, hdone,
    hrefused⟩ := hwork.ends hacyclic hsuits hwrites
  · have hwrites₁ := hwork.writes hdone
    have hget := hwrites₁.get?_eq hacyclic hsuits (.single (holds_of_slot? hslot))
    rw [hdone, andThen_ok]
    obtain ⟨hreadOnly, h', hh', hthawed⟩ | ⟨hreadOnly, hh'⟩ := fill_or_refused hget hr hfill
    · exact .inl ⟨writable_cons hreadOnly (hbehind hwritable), h', by rw [hh']; rfl, hthawed⟩
    · -- Here the last store is refused, and behind it all has been done.
      obtain ⟨before, slot, behind, d, item, hchange⟩ := hwrites₁.changesSlot hacyclic hsuits
      exact .inr ⟨h₁, [], r, _, slot, behind, d, item, by rw [hh']; rfl,
        lastReadOnly_nil hreadOnly (hbehind hwritable), (hchange.through hslot).thawed,
        fun _ ↦ ⟨hchange.through hslot, rfl⟩, fun hle ↦ absurd hle (Nat.not_succ_le_zero _)⟩
  · refine .inr ⟨h₁, _, m, _, slot, behind, d, item, ?_, hrefused.through hslot⟩
    rw [hdone, andThen_error]

/-- Going on in a new container, where the slot is null. -/
theorem mirrored_make (hwork : Mirrors (t :: slots) v work) (hacyclic : h.Acyclic)
    (hr : h.SuitsAt r s) (hnull : (h.slot? r s).getD .null = .null)
    (hwrites : (h.thawed.alloc t.blank).Writes h.thawed.size (t :: slots) v g₁)
    (hfill : g₁.fill r s (.object h.thawed.size) = .ok g) :
    h.Mirrored g r (s :: t :: slots) v (h.through r s t.blank check work) := by
  have hnone : ∀ c, h.slot? r s = some (.object c) → h.Writable c (t :: slots) := by
    intro c hslot
    simp [hslot] at hnull
  have hnull' : (h.thawed.slot? r s).getD .null = .null := by rwa [slot?_thawed]
  have hchange := (Writes.make hnull' hwrites hfill).changesSlot_of_null hnull'
    (suitsAt_thawed_iff.mpr hr)
  rw [← thawed_alloc_blank, size_thawed] at hwrites
  rw [size_thawed] at hfill
  rw [through, enter_of_null hnull, andThen_ok]
  obtain ⟨-, h₁, hdone, rfl⟩ | ⟨h₁, above, m, before, slot, behind, d, item, -, hrefused⟩ :=
    hwork.ends (hacyclic.alloc (Cell.contents_blank t))
      (by simpa using ⟨_, get?_alloc_self h _, t.suits_blank⟩) hwrites
  · have hextends := (hwork.writes hdone).extends_of_alloc
    have hget := hextends.get?_eq r (lt_size_of_suitsAt hr)
    rw [hdone, andThen_ok]
    obtain ⟨hreadOnly, h', hh', hthawed⟩ | ⟨hreadOnly, hh'⟩ := fill_or_refused hget hr hfill
    · exact .inl ⟨writable_cons hreadOnly hnone, h', by rw [hh']; rfl, hthawed⟩
    · exact .inr ⟨h₁, [], r, [], s, _, r, _, by rw [hh']; rfl, lastReadOnly_nil hreadOnly hnone,
        hchange, fun hlt ↦ absurd hlt (Nat.lt_irrefl _), fun _ ↦ hextends⟩
  · -- In a new container nothing is read-only.
    have hwritable := writable_iff.mp (writable_alloc h t (t :: slots)) above m
      hrefused.readOnly.comes
    rw [hrefused.readOnly.readOnly] at hwritable
    cases hwritable

/-- Going through a slot with more slots behind it. -/
theorem mirrors_through (s : Slot)
    (hcheck : ∀ h v c, check h v = .ok c → v = .object c ∧ h.SuitsAt c t)
    (hpass : ∀ (h : Heap) c, h.SuitsAt c t → check h (.object c) = .ok c)
    (hwork : Mirrors (t :: slots) v work) :
    Mirrors (s :: t :: slots) v fun r h ↦ h.through r s t.blank check work where
  writes hdone := writes_of_through hcheck (fun _ _ _ ↦ hwork.writes) hdone
  ends {h g r} hacyclic hsuits hwrites := by
    have hr : h.SuitsAt r s := hsuits s rfl
    cases hwrites with
    | enter hslot hc hwrites hfill =>
      rw [slot?_thawed] at hslot
      rw [suitsAt_thawed_iff] at hc
      exact mirrored_enter hwork hacyclic hr hslot hc (hpass h _ hc) hwrites hfill
    | make hnull hwrites hfill =>
      rw [slot?_thawed] at hnull
      exact mirrored_make hwork hacyclic hr hnull hwrites hfill

/-- A step within the limit does its work at the key, or in the list under the key. -/
theorem mirrors_reach {limit : Option Nat} {step : Step}
    {work : Ref → Slot → Heap → Except Fault Unit × Heap} (hallowed : step.hop.Allowed limit)
    (hwork : ∀ s, Mirrors (s :: slots) v fun r h ↦ work r s h) :
    Mirrors (step.hop.slots ++ slots) v fun r h ↦ step.reach limit r work h := by
  cases hplace : step.place.slot? with
  | none =>
    rw [Step.slots_of_key (Place.slot?_eq_none_iff.mp hplace), List.singleton_append]
    simpa only [Step.reach, hplace] using hwork (.field step.name)
  | some slot =>
    obtain ⟨hblank, hlist⟩ := Place.of_slot? hplace
    have hthrough := mirrors_through (.field step.name) (fun h v c ↦ suitsAt_of_checkList hlist)
      (fun h c ↦ checkList_of_suitsAt hplace) (hwork slot)
    rw [Step.slots_of_slot? hplace, List.cons_append, List.singleton_append]
    simpa only [Step.reach, hplace, hblank, Step.checkLimit_eq_ok_iff.mpr hallowed, andThen_ok]
      using hthrough

/-- A write at a path that can be read, with its indices within the limit. -/
theorem mirrors_set {limit : Option Nat} {path : String} (hreadable : Path.Readable path)
    (hallowed : Path.Allowed limit path) :
    Mirrors (Path.slots path) v fun root ↦ (set limit root path v).effect := by
  induction path using Path.induction with
  | broken path e he => exact absurd hreadable (Path.not_readable_of_error he)
  | last path step hstep hrest =>
    have hset : (fun root ↦ (set limit root path v).effect) = fun root ↦
        step.reach limit root fun r s h ↦ changed h (h.fill r s v) :=
      funext fun root ↦ funext (effect_set_of_last hstep hrest limit root v)
    rw [hset, Path.slots_of_last hstep hrest, ← List.append_nil step.hop.slots]
    exact mirrors_reach ((Path.allowed_of_last hstep hrest).mp hallowed) fun s ↦ mirrors_fill s v
  | more path step rest hstep hrest ih =>
    have hset : (fun root ↦ (set limit root path v).effect) = fun root ↦
        step.reach limit root fun r s h ↦ h.through r s (.mapping .plain .empty) step.checkMapping
          fun child ↦ (set limit child rest v).effect :=
      funext fun root ↦ funext (effect_set_of_more hstep hrest limit root v)
    obtain ⟨hhop, hbehind⟩ := (Path.allowed_of_more hstep hrest).mp hallowed
    obtain ⟨name, slots, hslots⟩ := Path.exists_slots_eq rest
    have hrest' := ih ((Path.readable_of_more hstep hrest).mp hreadable) hbehind
    rw [hslots] at hrest'
    rw [hset, Path.slots_of_more hstep hrest, hslots]
    exact mirrors_reach hhop fun s ↦ mirrors_through s
      (fun h v c ↦ @suitsAt_of_checkMapping step h v c name) (fun h c ↦ checkMapping_of_suitsAt)
      hrest'

end Mirrors

/-- What the change reaches is not read-only, so it looks the same in the thawed heap. -/
theorem Refused.get?_eq {h h' g : Heap} {r m c : Ref} {slots above before behind : List Slot}
    {slot : Slot} {v item : Value}
    (hrefused : h.Refused h' g r slots v above m before slot behind c item)
    (hbehind : above.length < before.length) : h'.get? c = g.get? c := by
  obtain ⟨hchange, rfl⟩ := hrefused.changed hbehind
  obtain ⟨old, new, hold, hnew, hwritten⟩ := hchange.written
  have hreadOnly := hrefused.readOnly.last before c
    ⟨⟨slot, behind, hchange.slots_eq⟩, hchange.leads⟩ hbehind
  rw [get?_thawed, hnew, Option.map_some]
  rw [isReadOnly, hold] at hreadOnly
  cases hwritten with
  | @replaceKey kind | @addKey kind => cases kind <;> first | rfl | cases hreadOnly
  | _ => rfl

end Heap

/-- A write that would succeed if no mapping were read-only is refused exactly when one of the
containers that it comes to is a read-only mapping. What it leaves then is told by the one change
that it would make, in the container `c`: if `c` lies behind the last read-only mapping on the way, it
has been changed as it would have been, and of all that was there nothing else has; if not, nothing
that was there has changed.

Assumes: no container is its own descendant, the document is a mapping, and the write at the same path
succeeds in the thawed heap. -/
theorem set_through_read_only {limit : Option Nat} {root : Ref} {path : String} {v : Value}
    {w w₀ w₀' : Workplace} (hacyclic : w.heap.Acyclic) (hroot : w.heap.IsMapping root)
    (hthawed : w₀.heap = w.heap.thawed) (hset : Scan.set limit root path v w₀ = .ok () w₀') :
    ((∃ w', Scan.set limit root path v w = .error (.refused .assignment) w') ↔
      ∃ before c, w.heap.Comes root (Path.slots path) before c ∧ w.heap.isReadOnly c = true) ∧
    ∀ w', Scan.set limit root path v w = .error (.refused .assignment) w' →
      ∃ above m before slot behind c item, w.heap.LastReadOnly root (Path.slots path) above m ∧
        w₀.heap.ChangesSlot w₀'.heap root (Path.slots path) v before slot behind c item ∧
        (above.length < before.length →
          w.heap.ChangesSlot w'.heap root (Path.slots path) v before slot behind c item ∧
            w'.heap.get? c = w₀'.heap.get? c ∧ w'.heap.thawed = w₀'.heap) ∧
        (before.length ≤ above.length → w.heap.Extends w'.heap) := by
  have hsteady := Scan.steady_set limit root path v
  have heffect := hsteady.effect_of_ok hset
  rw [hthawed] at heffect ⊢
  obtain ⟨hreadable, hallowed, hwrites⟩ := Heap.effect_set_eq_ok_iff.mp heffect
  obtain ⟨hwritable, h', hdone, -⟩ | ⟨h', above, m, before, slot, behind, c, item, hdone,
    hrefused⟩ := (Heap.mirrors_set hreadable hallowed).ends hacyclic
      (Heap.suitsAt_slots hroot path) hwrites
  · have hnever : ∀ w', Scan.set limit root path v w ≠ .error (.refused .assignment) w' := by
      intro w' herror
      have hfails := hsteady.effect_of_error herror
      rw [hdone] at hfails
      cases hfails
    refine ⟨⟨fun ⟨w', herror⟩ ↦ absurd herror (hnever w'), ?_⟩,
      fun w' herror ↦ absurd herror (hnever w')⟩
    rintro ⟨before, c, hcomes, hreadOnly⟩
    rw [Heap.writable_iff.mp hwritable before c hcomes] at hreadOnly
    cases hreadOnly
  · obtain ⟨w₁, herror, -⟩ := hsteady.exists_of_effect_error hdone
    refine ⟨⟨fun _ ↦ ⟨above, m, hrefused.readOnly.comes, hrefused.readOnly.readOnly⟩,
      fun _ ↦ ⟨w₁, herror⟩⟩, fun w' herror' ↦ ?_⟩
    have hfails := hsteady.effect_of_error herror'
    rw [hdone] at hfails
    obtain rfl : h' = w'.heap := congrArg Prod.snd hfails
    exact ⟨above, m, before, slot, behind, c, item, hrefused.readOnly, hrefused.change,
      fun hbehind ↦ ⟨(hrefused.changed hbehind).1, hrefused.get?_eq hbehind,
        (hrefused.changed hbehind).2⟩, hrefused.kept⟩

/-- The mapping under `a` is read-only. A write to `a.b[0].c` is refused there, and by then the item of
the list under `b` has its `c`. -/
theorem set_through_read_only_below :
    let w : Workplace :=
      ⟨⟨#[.mapping .plain (.ofList [(.text "a", .object 1)]),
        .mapping .readOnly (.ofList [(.text "b", .object 2)]), .list [.object 3],
        .mapping .plain .empty]⟩, .new 0, #[]⟩
    let w₀ : Workplace :=
      ⟨⟨#[.mapping .plain (.ofList [(.text "a", .object 1)]),
        .mapping .plain (.ofList [(.text "b", .object 2)]), .list [.object 3],
        .mapping .plain .empty]⟩, .new 0, #[]⟩
    w.heap.Acyclic ∧ w.heap.IsMapping 0 ∧ w₀.heap = w.heap.thawed ∧ ∃ w₀' w',
      Scan.set none 0 "a.b[0].c" (.integer 5) w₀ = .ok () w₀' ∧
      Scan.set none 0 "a.b[0].c" (.integer 5) w = .error (.refused .assignment) w' ∧
      w'.heap.thawed = w₀'.heap ∧ ∃ before slot behind item,
        w.heap.ChangesSlot w'.heap 0 (Path.slots "a.b[0].c") (.integer 5) before slot behind 3 item := by
  intro w w₀
  have hacyclic : w.heap.Acyclic := Heap.acyclic_of_lt (by decide)
  have hroot : w.heap.IsMapping 0 := ⟨_, _, rfl⟩
  have hthawed : w₀.heap = w.heap.thawed := by
    simp [w, w₀, Heap.thawed, Cell.recast, MappingKind.thawed]
  have hfirst : Step.decode "a.b[0].c" = .ok ⟨"a.b[0].c", "a", .key, some "b[0].c"⟩ := by
    decide +kernel
  have hstep : Step.decode "b[0].c" = .ok ⟨"b[0].c", "b", .item 0, some "c"⟩ := by decide +kernel
  have hlast : Step.decode "c" = .ok ⟨"c", "c", .key, none⟩ := by decide +kernel
  have hset (h : Heap) : (Scan.set none 0 "a.b[0].c" (.integer 5)).effect h =
      h.through 0 (.field "a") (.mapping .plain .empty)
        (Step.checkMapping ⟨"a.b[0].c", "a", .key, some "b[0].c"⟩) fun child h ↦
      h.through child (.field "b") (.list []) (Step.checkList ⟨"b[0].c", "b", .item 0, some "c"⟩)
        fun list h ↦
      h.through list (.index 0) (.mapping .plain .empty)
        (Step.checkMapping ⟨"b[0].c", "b", .item 0, some "c"⟩) fun child h ↦
      changed h (h.fill child (.field "c") (.integer 5)) := by
    have hwork (child : Ref) :=
      funext (Scan.effect_set_of_two hstep rfl hlast rfl none child (.integer 5))
    rw [Scan.effect_set_of_more hfirst rfl]
    simp only [hwork]
    rfl
  have hsteady := Scan.steady_set none 0 "a.b[0].c" (.integer 5)
  obtain ⟨h₀', hdone⟩ : ∃ h₀', (Scan.set none 0 "a.b[0].c" (.integer 5)).effect w₀.heap =
      (.ok (), h₀') := ⟨_, hset w₀.heap⟩
  obtain ⟨h', hfails, hslot⟩ : ∃ h', (Scan.set none 0 "a.b[0].c" (.integer 5)).effect w.heap =
      (.error (.refused .assignment), h') ∧ h'.slot? 3 (.field "c") = some (.integer 5) :=
    ⟨_, hset w.heap, rfl⟩
  obtain ⟨w₀', hok, rfl⟩ := hsteady.exists_of_effect hdone
  obtain ⟨w', herror, rfl⟩ := hsteady.exists_of_effect_error hfails
  have hcell : w'.heap.get? 3 ≠ w.heap.get? 3 := by
    intro hget
    rw [Heap.slot?, hget] at hslot
    cases hslot
  obtain ⟨above, m, before, slot, behind, c, item, -, -, hbehind, habove⟩ :=
    (set_through_read_only hacyclic hroot hthawed hok).2 w' herror
  obtain hlt | hle := Nat.lt_or_ge above.length before.length
  · obtain ⟨hchange, -, hafter⟩ := hbehind hlt
    obtain rfl : c = 3 := by
      by_contra hc
      exact hcell (hchange.others 3 (by decide) (Ne.symm hc))
    exact ⟨hacyclic, hroot, hthawed, w₀', w', hok, herror, hafter, before, slot, behind, item, hchange⟩
  · exact absurd ((habove hle).get?_eq 3 (by decide)) hcell

end DottedPath
