import DottedPath.Proofs.Isolation.Scans
import DottedPath.Proofs.Remove.Kept
import DottedPath.Proofs.Write.OneSlot

/-!
# A write closes no cycle

A write puts its value into a container that it walked through, or into a new one, and on its way
back it puts every container that it went through into the one before, again. The first closes no
cycle when the value does not reach the container (`acyclic_fill`). The second puts back what was
there, or what is new, but into a heap in which the containers below have changed; that they still
do not reach the container above needs a stronger statement. A set of containers which has all that
holds one of them (`Heap.Upward`) stays of this kind during a write, if the value is not in it. What
is above a container is such a set, and what goes back into the container is not in it.

Both together is `Heap.Harmless`, which every write is, however it ends, from containers that its
value does not reach (`harmless_set`). Which containers a write walks through is told from the heap
before it (`Heap.Crosses`).
-/

set_option autoImplicit false
set_option relaxedAutoImplicit false

namespace DottedPath

open Scan

theorem Cell.mem_contents_of_put {c : Cell} {s : Slot} {v w : Value}
    (hw : w ∈ (c.put s v).contents) : w ∈ c.contents ∨ w = v ∨ w = .null := by
  cases c with
  | mapping kind entries =>
    cases s with
    | field name => exact (Table.mem_data_of_put hw).imp_right .inl
    | index n | next => exact .inl hw
  | list items =>
    cases s with
    | field name => exact .inl hw
    | index n =>
      simp only [put, contents] at hw
      split at hw
      · exact (List.mem_or_eq_of_mem_set hw).imp_right .inl
      · simp only [List.mem_append, List.mem_replicate, List.mem_singleton] at hw
        obtain (hw | hw) | hw := hw
        · exact .inl hw
        · exact .inr (.inr hw.2)
        · exact .inr (.inl hw)
    | next => exact (List.mem_append.mp hw).imp_right fun hw ↦ .inl (List.mem_singleton.mp hw)
  | _ => cases s <;> exact .inl hw

namespace Heap

/-- The value is the container or reaches it. -/
def Reaches (h : Heap) (v : Value) (r : Ref) : Prop :=
  ∃ x ∈ v.ref?, Relation.ReflTransGen h.Holds x r

section Fill

variable {h h' : Heap} {r a b : Ref} {s : Slot} {v : Value} {kept : Set Ref}

/-! ### One more reference -/

theorem holds_of_fill (hfill : h.fill r s v = .ok h') (hholds : h'.Holds a b) :
    h.Holds a b ∨ a = r ∧ v = .object b := by
  obtain ⟨c, hget, hmem⟩ := hholds
  rw [get?_fill hfill] at hget
  split at hget
  · next hr =>
    obtain ⟨old, hold, rfl⟩ := Option.map_eq_some_iff.mp hget
    obtain hmem | hv | hnull := Cell.mem_contents_of_put hmem
    · exact .inl ⟨old, hr ▸ hold, hmem⟩
    · exact .inr ⟨hr, hv.symm⟩
    · cases hnull
  · exact .inl ⟨c, hget, hmem⟩

/-- What is reached when a value has been put into a container was reached before, or else the way
leads through the container to the value. -/
theorem reaches_of_fill (hfill : h.fill r s v = .ok h') (hv : ¬ h.Reaches v r)
    (hreach : Relation.ReflTransGen h'.Holds a b) :
    Relation.ReflTransGen h.Holds a b ∨ Relation.ReflTransGen h.Holds a r ∧ h.Reaches v b := by
  induction hreach with
  | refl => exact .inl .refl
  | tail _ hholds ih =>
    obtain hholds | ⟨rfl, hvb⟩ := holds_of_fill hfill hholds
    · obtain hbefore | ⟨hr, x, hx, hreach⟩ := ih
      · exact .inl (hbefore.tail hholds)
      · exact .inr ⟨hr, x, hx, hreach.tail hholds⟩
    · obtain hbefore | ⟨-, hreach⟩ := ih
      · exact .inr ⟨hbefore, _, by rw [hvb]; rfl, .refl⟩
      · exact absurd hreach hv

/-- A value that does not reach the container into which it is put closes no cycle there. -/
theorem acyclic_fill (hfill : h.fill r s v = .ok h') (hacyclic : h.Acyclic) (hv : ¬ h.Reaches v r) :
    h'.Acyclic := by
  intro x hcycle
  obtain ⟨y, hholds, hback⟩ := Relation.TransGen.head'_iff.mp hcycle
  obtain hholds | ⟨rfl, hvy⟩ := holds_of_fill hfill hholds
  · obtain hback | ⟨hyr, z, hz, hzx⟩ := reaches_of_fill hfill hv hback
    · exact hacyclic x (.head' hholds hback)
    · exact hv ⟨z, hz, hzx.trans (.head hholds hyr)⟩
  · obtain hback | ⟨-, hreach⟩ := reaches_of_fill hfill hv hback
    · exact hv ⟨y, by rw [hvy]; rfl, hback⟩
    · exact hv hreach

theorem upward_fill (hfill : h.fill r s v = .ok h') (hupward : h.Upward kept)
    (hv : ∀ x ∈ v.ref?, x ∈ kept → r ∈ kept) : h'.Upward kept := by
  intro a b hholds hb
  obtain hholds | ⟨rfl, rfl⟩ := holds_of_fill hfill hholds
  · exact hupward a b hholds hb
  · exact hv b rfl hb

theorem Upward.mem_of_reaches (hupward : h.Upward kept)
    (hreach : Relation.ReflTransGen h.Holds a b) (hb : b ∈ kept) : a ∈ kept := by
  induction hreach using Relation.ReflTransGen.head_induction_on with
  | refl => exact hb
  | head hholds _ ih => exact hupward _ _ hholds ih

theorem lt_size_of_mem_above (hr : r < h.size) (ha : a ∈ h.above r) : a < h.size := by
  obtain rfl | ⟨b, ⟨c, hget, -⟩, -⟩ := Relation.ReflTransGen.cases_head ha
  · exact hr
  · exact lt_size_of_get? hget

/-! ### New containers -/

variable {c : Cell}

theorem Upward.alloc (hupward : h.Upward kept) (hc : c.contents = []) : (h.alloc c).Upward kept :=
  fun a b hholds ↦ hupward a b (holds_of_alloc hc hholds)

theorem Reaches.of_alloc (hc : c.contents = []) (hreach : (h.alloc c).Reaches v r) :
    h.Reaches v r := by
  obtain ⟨x, hx, hxr⟩ := hreach
  exact ⟨x, hx, Relation.ReflTransGen.mono (fun _ _ ↦ holds_of_alloc hc) x r hxr⟩

end Fill

/-! ### Harmless work -/

/-- However the work on the value has ended, there is no cycle, and a set of containers that has all
that holds one of them still does, unless it has the value. -/
structure Harmless (h : Heap) (v : Value) (x : Except Fault Unit × Heap) : Prop where
  acyclic : x.2.Acyclic
  upward : ∀ kept : Set Ref, (∀ r ∈ kept, r < h.size) → h.Upward kept →
    (∀ r ∈ v.ref?, r ∉ kept) → x.2.Upward kept

section Harmless

variable {h : Heap} {v : Value} {x : Except Fault Unit × Heap} {r c : Ref} {s : Slot} {blank : Cell}

theorem harmless_error (hacyclic : h.Acyclic) (e : Fault) (v : Value) :
    h.Harmless v (.error e, h) :=
  ⟨hacyclic, fun _ _ hupward _ ↦ hupward⟩

theorem harmless_fill (hacyclic : h.Acyclic) (hv : ¬ h.Reaches v r) (s : Slot) :
    h.Harmless v (changed h (h.fill r s v)) := by
  cases hfill : h.fill r s v with
  | error e => exact harmless_error hacyclic e v
  | ok h' =>
    exact ⟨acyclic_fill hfill hacyclic hv, fun kept _ hupward hkept ↦
      upward_fill hfill hupward fun x hx hmem ↦ absurd hmem (hkept x hx)⟩

theorem Harmless.of_alloc (hx : (h.alloc blank).Harmless v x) (hblank : blank.contents = []) :
    h.Harmless v x := by
  refine ⟨hx.acyclic, fun kept hlt hupward ↦ hx.upward kept (fun r hr ↦ ?_) (hupward.alloc hblank)⟩
  rw [size_alloc]
  exact Nat.lt_succ_of_lt (hlt r hr)

/-- After harmless work, a container can go back where it is not above: what is above a container
stays above all that is put into it. -/
theorem Harmless.back (hx : h.Harmless v x) (hr : r < h.size) (hv : ¬ h.Reaches v r)
    (hback : ∀ kept : Set Ref, (∀ y ∈ kept, y < h.size) → h.Upward kept → c ∈ kept → r ∈ kept)
    (habove : c ∉ h.above r) (s : Slot) :
    h.Harmless v (andThen x fun _ h₁ ↦ changed h₁ (h₁.fill r s (.object c))) := by
  obtain ⟨e | _, h₁⟩ := x
  · exact hx
  rw [andThen_ok]
  cases hfill : h₁.fill r s (.object c) with
  | error e => exact ⟨hx.acyclic, hx.upward⟩
  | ok h₂ =>
    constructor
    · refine acyclic_fill hfill hx.acyclic ?_
      rintro ⟨y, hy, hreach⟩
      obtain rfl := Option.some.inj hy
      have hupward := hx.upward (h.above r) (fun y ↦ lt_size_of_mem_above hr) (h.upward_above r)
        fun y hy hyr ↦ hv ⟨y, hy, hyr⟩
      exact habove (hupward.mem_of_reaches hreach (h.self_mem_above r))
    · intro kept hlt hupward hkept
      refine upward_fill hfill (hx.upward kept hlt hupward hkept) fun y hy hmem ↦ ?_
      obtain rfl := Option.some.inj hy
      exact hback kept hlt hupward hmem

theorem harmless_through {check : Heap → Value → Except Fault Ref}
    {work : Ref → Heap → Except Fault Unit × Heap} (hacyclic : h.Acyclic) (hr : r < h.size)
    (hv : ¬ h.Reaches v r) (hblank : blank.contents = [])
    (hcheck : ∀ v c, check h v = .ok c → v = .object c)
    (hfound : ∀ c, h.slot? r s = some (.object c) → check h (.object c) = .ok c →
      h.Harmless v (work c h))
    (hmade : (h.slot? r s).getD .null = .null →
      (h.alloc blank).Harmless v (work h.size (h.alloc blank))) :
    h.Harmless v (h.through r s blank check work) := by
  by_cases hnull : (h.slot? r s).getD .null = .null
  · rw [through, enter_of_null hnull, andThen_ok]
    refine ((hmade hnull).of_alloc hblank).back hr hv (fun kept hlt _ hmem ↦ ?_) (fun hmem ↦ ?_) s
    · exact absurd (hlt _ hmem) (Nat.lt_irrefl _)
    · exact absurd (lt_size_of_mem_above hr hmem) (Nat.lt_irrefl _)
  · rw [through, enter_of_ne hnull]
    cases hchecked : check h ((h.slot? r s).getD .null) with
    | error e => exact harmless_error hacyclic e v
    | ok c =>
      have hvalue := hcheck _ _ hchecked
      have hslot := slot?_of_getD hvalue (hvalue ▸ hnull)
      have hholds := holds_of_slot? hslot
      rw [hvalue] at hchecked
      rw [andThen_ok]
      exact (hfound c hslot hchecked).back hr hv (fun kept _ hupward ↦ hupward r c hholds)
        (not_mem_above hacyclic hholds) s

end Harmless

end Heap

/-! ### The containers that a write walks through -/

/-- The last slot of the step is this one of this container: of the root, or of the list that is
found in the root when the index is within the limit. -/
inductive Step.Opens (limit : Option Nat) (step : Step) (h : Heap) (root : Ref) : Ref → Slot → Prop
  | key (hplace : step.place.slot? = none) : Opens limit step h root root (.field step.name)
  | list {list : Ref} {slot : Slot} (hplace : step.place.slot? = some slot)
    (hlimit : step.checkLimit limit = .ok ())
    (hslot : h.slot? root (.field step.name) = some (.object list)) (hlist : h.SuitsAt list slot) :
    Opens limit step h root list slot

/-- A write at the path walks through the container: the root, the container in which a step has its
last slot, and the containers of the rest of the path from the mapping in this slot on. -/
inductive Heap.Crosses (limit : Option Nat) (h : Heap) : Ref → String → Ref → Prop
  | root (r : Ref) (path : String) : Crosses limit h r path r
  | last {root r : Ref} {path : String} {step : Step} {s : Slot}
    (hstep : Step.decode path = .ok step) (hopens : step.Opens limit h root r s) :
    Crosses limit h root path r
  | behind {root r child c : Ref} {path rest : String} {step : Step} {s : Slot}
    (hstep : Step.decode path = .ok step) (hrest : step.rest = some rest)
    (hopens : step.Opens limit h root r s) (hslot : h.slot? r s = some (.object child))
    (hchild : h.IsMapping child) (hcrosses : Crosses limit h child rest c) :
    Crosses limit h root path c

theorem Step.Opens.lt_size {limit : Option Nat} {step : Step} {h : Heap} {root r : Ref} {s : Slot}
    (hopens : step.Opens limit h root r s) (hroot : root < h.size) : r < h.size := by
  cases hopens with
  | key => exact hroot
  | list _ _ _ hlist => exact Heap.lt_size_of_suitsAt hlist

namespace Heap

section Crosses

variable {limit : Option Nat} {h : Heap} {root r c : Ref} {path : String} {step : Step} {s : Slot}
  {v : Value} {blank : Cell}

theorem slot?_alloc_of_contents (h : Heap) (hblank : blank.contents = []) (s : Slot) :
    (h.alloc blank).slot? h.size s = none := by
  rw [slot?_alloc_self, Option.eq_none_iff_forall_not_mem]
  intro w hw
  have hmem := Cell.mem_contents_of_slot? hw
  rw [hblank] at hmem
  cases hmem

/-- In a new container, a write walks no further. -/
theorem Crosses.eq_size (hcrosses : (h.alloc blank).Crosses limit h.size path c)
    (hblank : blank.contents = []) : c = h.size := by
  have hnone := slot?_alloc_of_contents h hblank
  cases hcrosses with
  | root => rfl
  | last _ hopens =>
    cases hopens with
    | key => rfl
    | list _ _ hslot => simp [hnone] at hslot
  | behind _ _ hopens hslot =>
    cases hopens with
    | key => simp [hnone] at hslot
    | list _ _ hlist => simp [hnone] at hlist

/-- What was there does not reach a new container. -/
theorem not_reaches_alloc (hclosed : h.Closed) (hv : ∀ x ∈ v.ref?, x < h.size)
    (hblank : blank.contents = []) : ¬ (h.alloc blank).Reaches v h.size := by
  intro hreach
  obtain ⟨x, hx, hxr⟩ := hreach.of_alloc hblank
  exact Nat.lt_irrefl _ (hclosed.lt_of_reaches (hv x hx) hxr)

/-- Work at the last slot of a step is harmless when it is so in the list that is found, and in a
list that is made. -/
theorem harmless_reach {work : Ref → Slot → Heap → Except Fault Unit × Heap} (hacyclic : h.Acyclic)
    (hroot : root < h.size) (hv : ¬ h.Reaches v root)
    (hwork : ∀ r s, step.Opens limit h root r s → h.Harmless v (work r s h))
    (hmade : ∀ slot, step.place.slot? = some slot →
      (h.alloc (.list [])).Harmless v (work h.size slot (h.alloc (.list [])))) :
    h.Harmless v (step.reach limit root work h) := by
  unfold Step.reach
  cases hplace : step.place.slot? with
  | none => exact hwork _ _ (.key hplace)
  | some slot =>
    simp only
    cases hlimit : step.checkLimit limit with
    | error e => exact harmless_error hacyclic e v
    | ok _ =>
      rw [andThen_ok]
      refine harmless_through hacyclic hroot hv rfl (Step.eq_object_of_checkList h)
        (fun list hslot hlist ↦ ?_) fun _ ↦ hmade slot hplace
      have hsuits := (suitsAt_of_checkList (Place.of_slot? hplace).2 hlist).2
      exact hwork list slot (.list hplace hlimit hslot hsuits)

/-- Assumes: an acyclic heap in which no reference dangles, and a value that reaches no container
through which the write walks. The write is harmless. -/
theorem harmless_set (hacyclic : h.Acyclic) (hclosed : h.Closed) (hroot : root < h.size)
    (hv : ∀ x ∈ v.ref?, x < h.size) (hapart : ∀ c, h.Crosses limit root path c → ¬ h.Reaches v c) :
    h.Harmless v ((set limit root path v).effect h) := by
  induction path using Path.induction generalizing h root with
  | broken path e he =>
    rw [effect_set_of_error he]
    exact harmless_error hacyclic _ v
  | last path step hstep hrest =>
    rw [effect_set_of_last hstep hrest]
    refine harmless_reach hacyclic hroot (hapart root (.root root path)) (fun r s hopens ↦ ?_)
      fun slot _ ↦ ?_
    · exact harmless_fill hacyclic (hapart r (.last hstep hopens)) s
    · exact harmless_fill (hacyclic.alloc rfl) (not_reaches_alloc hclosed hv rfl) slot
  | more path step rest hstep hrest ih =>
    have hnew : ∀ g : Heap, g.Acyclic → g.Closed → (∀ x ∈ v.ref?, x < g.size) →
        (g.alloc (.mapping .plain .empty)).Harmless v
          ((set limit g.size rest v).effect (g.alloc (.mapping .plain .empty))) := by
      intro g hacyclic hclosed hv
      have hsize : g.size < (g.alloc (.mapping .plain .empty)).size := by simp
      refine ih (hacyclic.alloc rfl) (hclosed.alloc nofun) hsize
        (fun x hx ↦ Nat.lt_trans (hv x hx) hsize) fun c hcrosses ↦ ?_
      rw [hcrosses.eq_size rfl]
      exact not_reaches_alloc hclosed hv rfl
    rw [effect_set_of_more hstep hrest]
    refine harmless_reach hacyclic hroot (hapart root (.root root path)) (fun r s hopens ↦ ?_)
      fun slot _ ↦ ?_
    · refine harmless_through hacyclic (hopens.lt_size hroot) (hapart r (.last hstep hopens)) rfl
        (Step.eq_object_of_checkMapping h) (fun child hslot hchecked ↦ ?_)
        fun _ ↦ hnew h hacyclic hclosed hv
      have hsuits : h.SuitsAt child (.field step.name) := (suitsAt_of_checkMapping hchecked).2
      exact ih hacyclic hclosed (lt_size_of_suitsAt hsuits) hv fun c hcrosses ↦
        hapart c (.behind hstep hrest hopens hslot (suitsAt_field_iff.mp hsuits) hcrosses)
    · have hsize : h.size < (h.alloc (.list [])).size := by simp
      refine harmless_through (hacyclic.alloc rfl) hsize (not_reaches_alloc hclosed hv rfl) rfl
        (Step.eq_object_of_checkMapping _) (fun child hslot _ ↦ ?_) fun _ ↦
          hnew _ (hacyclic.alloc rfl) (hclosed.alloc nofun) fun x hx ↦ Nat.lt_trans (hv x hx) hsize
      rw [slot?_alloc_of_contents h rfl] at hslot
      cases hslot

end Crosses

end Heap

end DottedPath
