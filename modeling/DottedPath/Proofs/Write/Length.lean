import DottedPath.Proofs.Write.Success

/-!
# The lengths of lists after a write

A list grows when a slot behind its last item is filled: to the index of the slot and one more, or by
one item at `Slot.next`. In a write whose indices are within a limit this makes no list longer than
the limit allows, but for the one list that an item is appended to (`Heap.Lengthens`). At the first
slot that is missing or null the write leaves what was there for new containers, and the store into
that slot is the only one that can lengthen a list that was there (`Heap.Fresh`); where all slots hold
something, the stores on the way up change nothing.

Both halves hold however the write ends. An index above the limit stops the write on its way down,
with everything that was there as it was (`halts_set`).
-/

set_option autoImplicit false
set_option relaxedAutoImplicit false

namespace DottedPath

open Scan

/-- The greatest length that a list of some length can have after this slot of it is filled. -/
def Slot.lengthen : Slot → Nat → Nat
  | .field _, n => n
  | .index i, n => max n (i + 1)
  | .next, n => n + 1

theorem Slot.lengthen_le {s : Slot} {bound : Nat} (hs : s ≠ .next) (hfits : s.lengthen 0 ≤ bound)
    (n : Nat) : s.lengthen n ≤ max n bound := by
  cases s with
  | field name => exact Nat.le_max_left ..
  | index i =>
    simp only [lengthen] at hfits ⊢
    omega
  | next => exact absurd rfl hs

/-- The number of items of a list. No other cell has any. -/
def Cell.length : Cell → Nat
  | list items => items.length
  | _ => 0

theorem Cell.length_le_put (c : Cell) (s : Slot) (v : Value) : c.length ≤ (c.put s v).length := by
  cases c with
  | list items =>
    cases s with
    | index i =>
      simp only [put, length]
      split <;> simp
    | field name => exact Nat.le_refl _
    | next => simp [put, length]
  | _ => exact Nat.zero_le _

theorem Cell.length_put_le (c : Cell) (s : Slot) (v : Value) :
    (c.put s v).length ≤ s.lengthen c.length := by
  cases c with
  | list items =>
    cases s with
    | index i =>
      simp only [put, length, Slot.lengthen]
      split
      · simp
      · simp only [List.length_append, List.length_replicate, List.length_singleton]
        omega
    | field name => exact Nat.le_refl _
    | next => simp [put, length, Slot.lengthen]
  | _ => cases s <;> exact Nat.zero_le _

namespace Heap

/-- The number of items of the list in a cell. -/
def length (h : Heap) (r : Ref) : Nat := (h.get? r).elim 0 Cell.length

/-- What was there is as it was, and no new list is longer than the bound. -/
structure Fresh (h h' : Heap) (bound : Nat) : Prop where
  extends_ : h.Extends h'
  length_le : ∀ r, h.size ≤ r → h'.length r ≤ bound

/-- No list is shorter than before, and none is longer than before and than the bound, but for one
that may have grown by an item. -/
structure Lengthens (h h' : Heap) (bound : Nat) (appends : Prop) : Prop where
  le_length : ∀ r, h.length r ≤ h'.length r
  length_le : ∃ x, ∀ r, h'.length r ≤ max (h.length r) bound ∨
    r = x ∧ r < h.size ∧ appends ∧ h'.length r = h.length r + 1

section Lengths

variable {h h' h₁ : Heap} {r x : Ref} {s t : Slot} {v : Value} {bound : Nat} {appends : Prop}

theorem length_congr (hget : h'.get? r = h.get? r) : h'.length r = h.length r := by
  rw [length, hget, length]

theorem length_of_size_le (hr : h.size ≤ r) : h.length r = 0 := by
  cases hget : h.get? r with
  | none => rw [length, hget]; rfl
  | some c => exact absurd (lt_size_of_get? hget) (Nat.not_lt_of_le hr)

theorem length_of_slot? {i : Nat} (hslot : h.slot? r (.index i) = some v) : i < h.length r := by
  obtain ⟨c, hget, hc⟩ := Option.bind_eq_some_iff.mp hslot
  rw [length, hget]
  cases c with
  | list items => exact (List.getElem?_eq_some_iff.mp hc).1
  | _ => simp [Cell.slot?] at hc

theorem length_alloc_blank (h : Heap) (t : Slot) (x : Ref) : (h.alloc t.blank).length x = h.length x := by
  rw [length, get?_alloc]
  split
  · next hx =>
    rw [hx, length_of_size_le (Nat.le_refl _)]
    cases t <;> rfl
  · rfl

theorem length_fill_of_ne (hfill : h.fill r s v = .ok h') (hne : x ≠ r) :
    h'.length x = h.length x := by
  apply length_congr
  rw [get?_fill hfill, if_neg hne]

theorem length_le_fill (hfill : h.fill r s v = .ok h') : h.length r ≤ h'.length r := by
  rw [length, length, get?_fill hfill, if_pos rfl]
  cases h.get? r with
  | none => exact Nat.le_refl _
  | some c => exact c.length_le_put s v

theorem length_fill_le (hfill : h.fill r s v = .ok h') : h'.length r ≤ s.lengthen (h.length r) := by
  rw [length, length, get?_fill hfill, if_pos rfl]
  cases h.get? r with
  | none => exact Nat.zero_le _
  | some c => exact c.length_put_le s v

/-! ### New containers -/

theorem fresh_alloc (h : Heap) (t : Slot) (bound : Nat) : h.Fresh (h.alloc t.blank) bound where
  extends_ := extends_alloc h _
  length_le r hr := by
    rw [length_alloc_blank, length_of_size_le hr]
    exact Nat.zero_le _

/-- Work that leaves a new container as it was, with all that was there before it. -/
theorem Fresh.of_alloc (hfresh : (h.alloc t.blank).Fresh h₁ bound) :
    h.Fresh h₁ bound ∧ h₁.length h.size = 0 := by
  have hlt : h.size < (h.alloc t.blank).size := by
    rw [size_alloc]
    exact Nat.lt_succ_self _
  have hlength : h₁.length h.size = 0 := by
    rw [length_congr (hfresh.extends_.get?_eq _ hlt), length_alloc_blank,
      length_of_size_le (Nat.le_refl _)]
  refine ⟨⟨(extends_alloc h _).trans hfresh.extends_, fun r hr ↦ ?_⟩, hlength⟩
  by_cases hnew : r = h.size
  · rw [hnew, hlength]
    exact Nat.zero_le _
  · apply hfresh.length_le
    rw [size_alloc]
    exact Nat.lt_of_le_of_ne hr (Ne.symm hnew)

/-- To fill a slot of a new container leaves what was there as it was. -/
theorem Fresh.fill (hfresh : h.Fresh h₁ bound) (hr : h.size ≤ r)
    (hlength : s.lengthen (h₁.length r) ≤ bound) :
    h.Fresh (changed h₁ (h₁.fill r s v)).2 bound := by
  cases hfill : h₁.fill r s v with
  | error e => exact hfresh
  | ok h₂ =>
    constructor
    · refine ⟨(size_fill hfill).symm ▸ hfresh.extends_.size_le, fun x hx ↦ ?_⟩
      show h₂.get? x = h.get? x
      rw [get?_fill hfill, if_neg (Nat.ne_of_lt (Nat.lt_of_lt_of_le hx hr)),
        hfresh.extends_.get?_eq x hx]
    · intro x hx
      show h₂.length x ≤ bound
      by_cases hxr : x = r
      · subst hxr
        exact Nat.le_trans (length_fill_le hfill) hlength
      · rw [length_fill_of_ne hfill hxr]
        exact hfresh.length_le x hx

theorem fresh_fill (hfits : s.lengthen 0 ≤ bound) :
    h.Fresh (changed (h.alloc t.blank) ((h.alloc t.blank).fill h.size s v)).2 bound := by
  refine (fresh_alloc h t bound).fill (Nat.le_refl _) ?_
  rwa [length_alloc_blank, length_of_size_le (Nat.le_refl _)]

theorem fresh_through {blank : Cell} {check : Heap → Value → Except Fault Ref}
    {work : Ref → Heap → Except Fault Unit × Heap} (hfits : s.lengthen 0 ≤ bound)
    (hwork : ∀ h : Heap, h.Fresh (work h.size (h.alloc blank)).2 bound) :
    h.Fresh ((h.alloc t.blank).through h.size s blank check work).2 bound := by
  have hnull : ((h.alloc t.blank).slot? h.size s).getD .null = .null := by
    simp [slot?_alloc_self]
  rw [through, enter_of_null hnull, andThen_ok]
  have hdone := (hwork (h.alloc t.blank)).of_alloc
  generalize work (h.alloc t.blank).size ((h.alloc t.blank).alloc blank) = x at hdone ⊢
  obtain ⟨e | _, h₂⟩ := x
  · exact hdone.1
  · refine hdone.1.fill (Nat.le_refl _) ?_
    rwa [hdone.2]

/-! ### Containers that were there -/

theorem Lengthens.refl (h : Heap) (bound : Nat) (appends : Prop) : h.Lengthens h bound appends where
  le_length _ := Nat.le_refl _
  length_le := ⟨0, fun _ ↦ .inl (Nat.le_max_left ..)⟩

theorem Lengthens.mono {appends' : Prop} (hlengthens : h.Lengthens h' bound appends)
    (himp : appends → appends') : h.Lengthens h' bound appends' where
  le_length := hlengthens.le_length
  length_le := by
    obtain ⟨x, hx⟩ := hlengthens.length_le
    refine ⟨x, fun r ↦ (hx r).imp_right ?_⟩
    rintro ⟨hr, hlt, happends, hlength⟩
    exact ⟨hr, hlt, himp happends, hlength⟩

theorem Fresh.length_eq (hfresh : h.Fresh h₁ bound) (hx : x < h.size) : h₁.length x = h.length x :=
  length_congr (hfresh.extends_.get?_eq x hx)

theorem Fresh.lengthens (hfresh : h.Fresh h₁ bound) : h.Lengthens h₁ bound appends := by
  have hlength : ∀ x, h₁.length x = h.length x ∨ h.length x = 0 ∧ h₁.length x ≤ bound := by
    intro x
    by_cases hx : x < h.size
    · exact .inl (hfresh.length_eq hx)
    · have hle := Nat.le_of_not_lt hx
      exact .inr ⟨length_of_size_le hle, hfresh.length_le x hle⟩
  constructor
  · intro x
    have := hlength x
    omega
  · refine ⟨0, fun x ↦ .inl ?_⟩
    have := hlength x
    omega

/-- The store into a slot that was missing or null, when all that is behind it is new. -/
theorem Fresh.lengthens_fill (hfresh : h.Fresh h₁ bound) (hr : r < h.size)
    (hfits : s.lengthen 0 ≤ bound) (happends : s = .next → appends) :
    h.Lengthens (changed h₁ (h₁.fill r s v)).2 bound appends := by
  cases hfill : h₁.fill r s v with
  | error e => exact hfresh.lengthens
  | ok h₂ =>
    have hbefore : h.Lengthens h₁ bound appends := hfresh.lengthens
    have hsame := hfresh.length_eq hr
    have hother : ∀ x, x ≠ r → h₂.length x = h₁.length x := fun x ↦ length_fill_of_ne hfill
    have hgrows := length_le_fill hfill
    have hgrown := length_fill_le hfill
    constructor
    · intro x
      show h.length x ≤ h₂.length x
      by_cases hx : x = r
      · subst hx
        omega
      · rw [hother x hx]
        exact hbefore.le_length x
    · refine ⟨r, fun x ↦ ?_⟩
      show h₂.length x ≤ _ ∨ _
      by_cases hx : x = r
      · subst hx
        by_cases hs : s = .next
        · simp only [hs, Slot.lengthen] at hgrown
          by_cases heq : h₂.length x = h.length x + 1
          · exact .inr ⟨rfl, hr, happends hs, heq⟩
          · exact .inl (by omega)
        · have := Slot.lengthen_le hs hfits (h₁.length x)
          exact .inl (by omega)
      · refine .inl ?_
        rw [hother x hx]
        by_cases hlt : x < h.size
        · rw [hfresh.length_eq hlt]
          exact Nat.le_max_left ..
        · exact Nat.le_trans (hfresh.length_le x (Nat.le_of_not_lt hlt)) (Nat.le_max_right ..)

/-- The store of a container into a slot that held it before the work in the container. -/
theorem Lengthens.fill (hlengthens : h.Lengthens h₁ bound appends) {w : Value}
    (hslot : h.slot? r s = some w) : h.Lengthens (changed h₁ (h₁.fill r s v)).2 bound appends := by
  cases hfill : h₁.fill r s v with
  | error e => exact hlengthens
  | ok h₂ =>
    have hsame : ∀ x, h₂.length x = h₁.length x := by
      intro x
      by_cases hx : x = r
      · subst hx
        have hgrows := length_le_fill hfill
        have hgrown := length_fill_le hfill
        cases s with
        | field name => exact Nat.le_antisymm hgrown hgrows
        | index i =>
          have hi := length_of_slot? hslot
          have hle := hlengthens.le_length x
          simp only [Slot.lengthen] at hgrown
          omega
        | next => simp [slot?] at hslot
      · exact length_fill_of_ne hfill hx
    constructor
    · intro x
      show h.length x ≤ h₂.length x
      rw [hsame]
      exact hlengthens.le_length x
    · obtain ⟨x, hx⟩ := hlengthens.length_le
      refine ⟨x, fun y ↦ ?_⟩
      show h₂.length y ≤ _ ∨ y = x ∧ _ ∧ _ ∧ h₂.length y = _
      rw [hsame]
      exact hx y

theorem lengthens_through {blank : Cell} {check : Heap → Value → Except Fault Ref}
    {work : Ref → Heap → Except Fault Unit × Heap} (hr : r < h.size) (hfits : s.lengthen 0 ≤ bound)
    (happends : s = .next → appends) (hcheck : ∀ w c, check h w = .ok c → w = .object c ∧ c < h.size)
    (hfresh : ∀ h : Heap, h.Fresh (work h.size (h.alloc blank)).2 bound)
    (hwork : ∀ c < h.size, h.Lengthens (work c h).2 bound appends) :
    h.Lengthens (h.through r s blank check work).2 bound appends := by
  unfold through
  by_cases hnull : (h.slot? r s).getD .null = .null
  · rw [enter_of_null hnull, andThen_ok]
    have hdone := hfresh h
    generalize work h.size (h.alloc blank) = x at hdone ⊢
    obtain ⟨e | _, h₁⟩ := x
    · exact hdone.lengthens
    · exact hdone.lengthens_fill hr hfits happends
  · rw [enter_of_ne hnull]
    cases hok : check h ((h.slot? r s).getD .null) with
    | error e => exact .refl h bound appends
    | ok c =>
      obtain ⟨-, hc⟩ := hcheck _ _ hok
      have hslot := slot?_of_getD rfl hnull
      rw [andThen_ok]
      have hdone := hwork c hc
      generalize work c h = x at hdone ⊢
      obtain ⟨e | _, h₁⟩ := x
      · exact hdone
      · exact hdone.fill hslot

end Lengths

end Heap

/-! ### The whole write -/

namespace Step

variable {m : Nat} {step : Step} {root : Ref} {h : Heap} {appends : Prop}
variable {work : Ref → Slot → Heap → Except Fault Unit × Heap}

/-- An index within the limit. -/
theorem lengthen_of_checkLimit {slot : Slot} (hplace : step.place.slot? = some slot)
    (hlimit : step.checkLimit (some m) = .ok ()) : slot.lengthen 0 ≤ m + 1 := by
  have hallowed := checkLimit_eq_ok_iff.mp hlimit m rfl
  cases hp : step.place with
  | key => simp [hp, Place.slot?] at hplace
  | every =>
    obtain rfl : Slot.next = slot := by simpa [hp, Place.slot?] using hplace
    exact Nat.le_add_left ..
  | item n =>
    obtain rfl : Slot.index n = slot := by simpa [hp, Place.slot?] using hplace
    have := hallowed n hp
    simp only [Slot.lengthen]
    omega

theorem lt_size_of_checkMapping {v : Value} {c : Ref} (hok : step.checkMapping h v = .ok c) :
    v = .object c ∧ c < h.size := by
  obtain ⟨hv, kind, entries, hget⟩ := Heap.of_asMapping hok
  exact ⟨hv, Heap.lt_size_of_get? hget⟩

theorem lt_size_of_checkList {v : Value} {c : Ref} (hok : step.checkList h v = .ok c) :
    v = .object c ∧ c < h.size := by
  obtain ⟨list, hlist, rfl⟩ := exists_of_map_eq_ok hok
  obtain ⟨hv, hget⟩ := Heap.of_asList hlist
  exact ⟨hv, Heap.lt_size_of_get? hget⟩

theorem fresh_reach (t : Slot)
    (hwork : ∀ (h : Heap) (s t : Slot), s.lengthen 0 ≤ m + 1 →
      h.Fresh (work h.size s (h.alloc t.blank)).2 (m + 1)) :
    h.Fresh (step.reach (some m) h.size work (h.alloc t.blank)).2 (m + 1) := by
  unfold reach
  cases hplace : step.place.slot? with
  | none => exact hwork h _ t (Nat.zero_le _)
  | some slot =>
    simp only
    cases hlimit : step.checkLimit (some m) with
    | error e => exact Heap.fresh_alloc h t _
    | ok _ =>
      have hfits := lengthen_of_checkLimit hplace hlimit
      exact Heap.fresh_through (Nat.zero_le _) fun h ↦ hwork h slot .next hfits

theorem lengthens_reach (hroot : root < h.size)
    (hfresh : ∀ (h : Heap) (s t : Slot), s.lengthen 0 ≤ m + 1 →
      h.Fresh (work h.size s (h.alloc t.blank)).2 (m + 1))
    (hwork : ∀ r < h.size, ∀ s ∈ step.hop.slots, s.lengthen 0 ≤ m + 1 →
      h.Lengthens (work r s h).2 (m + 1) appends) :
    h.Lengthens (step.reach (some m) root work h).2 (m + 1) appends := by
  unfold reach
  cases hplace : step.place.slot? with
  | none => exact hwork root hroot _ List.mem_cons_self (Nat.zero_le _)
  | some slot =>
    simp only
    cases hlimit : step.checkLimit (some m) with
    | error e => exact .refl h _ _
    | ok _ =>
      have hfits := lengthen_of_checkLimit hplace hlimit
      have hslot : slot ∈ step.hop.slots := by simp [Hop.slots, hop, hplace]
      exact Heap.lengthens_through hroot (Nat.zero_le _) (by simp) (fun _ _ ↦ lt_size_of_checkList)
        (fun h ↦ hfresh h slot .next hfits) fun list hlist ↦ hwork list hlist slot hslot hfits

end Step

section Set

variable {m : Nat} {root : Ref} {path : String} {v : Value} {h : Heap}

/-- A write into a new mapping leaves what was there as it was, and makes no list that is too long. -/
theorem fresh_set : h.Fresh ((set (some m) h.size path v).effect (h.alloc (.mapping .plain .empty))).2
    (m + 1) := by
  induction path using Path.induction generalizing h with
  | broken path e he =>
    rw [effect_set_of_error he]
    exact Heap.fresh_alloc h (.field "") _
  | last path step hstep hrest =>
    rw [effect_set_of_last hstep hrest]
    exact Step.fresh_reach (.field "") fun h s t hfits ↦ Heap.fresh_fill hfits
  | more path step rest hstep hrest ih =>
    rw [effect_set_of_more hstep hrest]
    exact Step.fresh_reach (.field "") fun h s t hfits ↦ Heap.fresh_through hfits fun h ↦ ih

/-- Assumes: a root that is there. However a write ends, no list is longer than before and than the
limit allows, but for one that an item has been appended to. -/
theorem lengthens_set (path : String) (v : Value) (hroot : root < h.size) :
    h.Lengthens ((set (some m) root path v).effect h).2 (m + 1) (.next ∈ Path.slots path) := by
  induction path using Path.induction generalizing root with
  | broken path e he =>
    rw [effect_set_of_error he]
    exact .refl h _ _
  | last path step hstep hrest =>
    rw [effect_set_of_last hstep hrest, Path.slots_of_last hstep hrest]
    refine Step.lengthens_reach hroot (fun h s t ↦ Heap.fresh_fill) fun r hr s hs hfits ↦ ?_
    refine Heap.Fresh.lengthens_fill ⟨.refl h, fun x hx ↦ ?_⟩ hr hfits fun hnext ↦ hnext ▸ hs
    rw [Heap.length_of_size_le hx]
    exact Nat.zero_le _
  | more path step rest hstep hrest ih =>
    rw [effect_set_of_more hstep hrest, Path.slots_of_more hstep hrest]
    refine Step.lengthens_reach hroot (fun h s t hfits ↦ Heap.fresh_through hfits fun h ↦ fresh_set)
      fun r hr s hs hfits ↦ ?_
    exact Heap.lengthens_through hr hfits (fun hnext ↦ List.mem_append_left _ (hnext ▸ hs))
      (fun _ _ ↦ Step.lt_size_of_checkMapping) (fun h ↦ fresh_set) fun c hc ↦
        (ih hc).mono (List.mem_append_right _)

end Set

/-! ### Indices above the limit -/

namespace Heap

/-- Work that fails and leaves what was there as it was. -/
def Halts (h : Heap) (x : Except Fault Unit × Heap) : Prop :=
  ∃ e h', x = (.error e, h') ∧ h.Extends h'

theorem halts_error (h : Heap) (e : Fault) : h.Halts (.error e, h) := ⟨e, h, rfl, .refl h⟩

/-- Nothing is stored on the way down. -/
theorem halts_through {h : Heap} {r : Ref} {s : Slot} {blank : Cell}
    {check : Heap → Value → Except Fault Ref} {work : Ref → Heap → Except Fault Unit × Heap}
    (hwork : ∀ c h₁, Halts h₁ (work c h₁)) : h.Halts (h.through r s blank check work) := by
  obtain ⟨x, hx, hbefore⟩ : ∃ x, h.enter r s blank check = x ∧ h.Extends x.2 := by
    refine ⟨_, rfl, ?_⟩
    unfold enter
    split
    · exact extends_alloc h blank
    · exact .refl h
  rw [through, hx]
  obtain ⟨e | c, h₁⟩ := x
  · exact ⟨e, h₁, rfl, hbefore⟩
  · obtain ⟨e, h₂, hdone, hext⟩ := hwork c h₁
    exact ⟨e, h₂, by rw [andThen_ok, hdone, andThen_error], hbefore.trans hext⟩

end Heap

theorem Step.halts_reach {limit : Option Nat} {step : Step} {root : Ref} {h : Heap}
    {work : Ref → Slot → Heap → Except Fault Unit × Heap}
    (hwork : step.hop.Allowed limit → ∀ r s h₁, Heap.Halts h₁ (work r s h₁)) :
    h.Halts (step.reach limit root work h) := by
  cases hlimit : step.checkLimit limit with
  | ok _ =>
    have hhalts := hwork (checkLimit_eq_ok_iff.mp hlimit)
    unfold reach
    cases step.place.slot? with
    | none => exact hhalts root _ h
    | some slot =>
      simp only [hlimit, andThen_ok]
      exact Heap.halts_through fun c h₁ ↦ hhalts c slot h₁
  | error e =>
    cases hplace : step.place.slot? with
    | none =>
      have hkey := Place.slot?_eq_none_iff.mp hplace
      have hallowed : step.hop.Allowed limit := by
        intro greatest _ n hn
        exact absurd (hkey.symm.trans hn) nofun
      rw [checkLimit_eq_ok_iff.mpr hallowed] at hlimit
      cases hlimit
    | some slot =>
      rw [reach, hplace]
      simp only [hlimit, andThen_error]
      exact Heap.halts_error h e

/-- A write along a path with an index above the limit fails and leaves what was there as it was. -/
theorem halts_set {limit : Option Nat} {root : Ref} {path : String} {v : Value} {h : Heap}
    (habove : ¬Path.Allowed limit path) : h.Halts ((set limit root path v).effect h) := by
  induction path using Path.induction generalizing h root with
  | broken path e he =>
    rw [effect_set_of_error he]
    exact Heap.halts_error h _
  | last path step hstep hrest =>
    rw [Path.allowed_of_last hstep hrest] at habove
    rw [effect_set_of_last hstep hrest]
    exact Step.halts_reach fun hallowed ↦ absurd hallowed habove
  | more path step rest hstep hrest ih =>
    rw [Path.allowed_of_more hstep hrest, not_and] at habove
    rw [effect_set_of_more hstep hrest]
    exact Step.halts_reach fun hallowed r s h₁ ↦ Heap.halts_through fun c h₂ ↦ ih (habove hallowed)

end DottedPath
