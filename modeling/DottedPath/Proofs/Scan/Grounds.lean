import DottedPath.Proofs.Path.Segments
import DottedPath.Proofs.Remove.Bulk
import DottedPath.Proofs.Scan.Misfit
import DottedPath.Proofs.Scan.Presence

/-!
# A shape fault can be found again

A shape fault names a field, the text of a path, the kind that was wanted and the value that was found
instead. All this can be looked up in the heap that is left when the fault has stopped a read, a test, a
write or a removal (`shape_faults_borne_out`): the text is that of the path from one of its segments
on, the steps before lead to a mapping, and there the step of this segment comes upon the value
(`Heap.Misfit`, `Heap.BearsOut`).

Reads and tests leave the heap as it is, and so does a write that is stopped by a shape, since it comes
upon one only before it has made anything (`snd_of_misfit_set`). A removal is stopped at a step `name[]`
after it has been done in some of the mappings in the list. What it has changed then lies below these,
so the containers on the way are still what they were, and the step is taken with the index of the
mapping in which the removal was stopped (`Hop.Choice`).

Each function is followed one slot at a time. Where work in the container in a slot meets a fault, it
is at the check of the slot or in the container (`Heap.Meets`); put together along the path, this
gives the grounds of the fault (`Heap.Grounds`), in which the path is unfolded as the walk has it.
-/

set_option autoImplicit false
set_option relaxedAutoImplicit false

namespace DottedPath

open Scan

/-- A hop that goes where a hop `name[]` may go: the same hop, or one with an index. -/
inductive Hop.Choice : Hop → Hop → Prop
  | same (hop : Hop) : Choice hop hop
  | item (name : String) (i : Nat) : Choice ⟨name, .every⟩ ⟨name, .item i⟩

namespace Heap

/-- At the mapping `m` the step comes upon a value that is neither null nor of the kind that it needs:
under its key something that is no list for a list step, or on its way to more steps something that is
no mapping, under its key or at its index in the list under its key. -/
inductive Misfit (h : Heap) (m : Ref) (step : Step) (mode : AccessMode) : ShapeFault → Prop
  | list {v : Value} (hplace : step.place ≠ .key) (hslot : h.slot? m (.field step.name) = some v)
    (hv : v ≠ .null) (hkind : h.kindOf v ≠ .list) :
    Misfit h m step mode ⟨step.name, step.text, .shape .list, v, mode⟩
  | field {v : Value} (hplace : step.place = .key) (hmore : step.isLast = false)
    (hslot : h.slot? m (.field step.name) = some v) (hv : v ≠ .null) (hkind : h.kindOf v ≠ .mapping) :
    Misfit h m step mode ⟨step.label, step.text, .shape .mapping, v, mode⟩
  | item {n : Nat} {list : Ref} {v : Value} (hplace : step.place = .item n)
    (hmore : step.isLast = false) (hlist : h.slot? m (.field step.name) = some (.object list))
    (hslot : h.slot? list (.index n) = some v) (hv : v ≠ .null) (hkind : h.kindOf v ≠ .mapping) :
    Misfit h m step mode ⟨step.label, step.text, .shape .mapping, v, mode⟩

/-- What the fault says can be found in the heap: its path is the text of the path from the segment of
one of the steps on, the steps before lead from the root to a mapping, each as one of the hops that it
may be taken for, and there this step comes upon the value. -/
def BearsOut (choice : Hop → Hop → Prop) (mode : AccessMode) (h : Heap) (root : Ref) (path : String)
    (fault : ShapeFault) : Prop :=
  ∃ before step after stop hops m, Path.Walk path (before ++ step :: after) stop ∧
    fault.path = Path.fromSegment before.length path ∧
    List.Forall₂ choice (before.map Step.hop) hops ∧ h.Leads root (hops.flatMap Hop.slots) m ∧
    h.IsMapping m ∧ h.Misfit m step mode fault

/-- The grounds of a fault along a path, found step by step. -/
inductive Grounds (choice : Hop → Hop → Prop) (mode : AccessMode) (h : Heap) :
    Ref → String → ShapeFault → Prop
  | here {r : Ref} {path : String} {step : Step} {fault : ShapeFault}
    (hstep : Step.decode path = .ok step) (hmisfit : h.Misfit r step mode fault) :
    Grounds choice mode h r path fault
  | behind {r c : Ref} {path rest : String} {step : Step} {hop : Hop} {fault : ShapeFault}
    (hstep : Step.decode path = .ok step) (hrest : step.rest = some rest)
    (hchoice : choice step.hop hop) (hleads : h.Leads r hop.slots c)
    (hgrounds : Grounds choice mode h c rest fault) : Grounds choice mode h r path fault

section Grounds

variable {h : Heap} {m root : Ref} {step : Step} {mode : AccessMode} {fault : ShapeFault}
variable {path : String} {choice : Hop → Hop → Prop}

theorem Misfit.isMapping (hmisfit : h.Misfit m step mode fault) : h.IsMapping m := by
  cases hmisfit with
  | list _ hslot | field _ _ hslot | item _ _ hslot =>
    exact suitsAt_field_iff.mp (suitsAt_of_slot? hslot)

theorem Misfit.path_eq (hmisfit : h.Misfit m step mode fault) : fault.path = step.text := by
  cases hmisfit <;> rfl

theorem exists_walk_cons (hstep : Step.decode path = .ok step) :
    ∃ after stop, Path.Walk path (step :: after) stop := by
  cases hrest : step.rest with
  | none => exact ⟨[], none, .last hstep hrest⟩
  | some rest =>
    obtain ⟨after, stop, hwalk⟩ := Path.exists_walk rest
    exact ⟨after, stop, .more hstep hrest hwalk⟩

theorem Grounds.bearsOut (hgrounds : h.Grounds choice mode root path fault) :
    h.BearsOut choice mode root path fault := by
  have hwhole : ∃ before step after stop hops m, Path.Walk path (before ++ step :: after) stop ∧
      List.Forall₂ choice (before.map Step.hop) hops ∧ h.Leads root (hops.flatMap Hop.slots) m ∧
      h.Misfit m step mode fault := by
    induction hgrounds with
    | here hstep hmisfit =>
      obtain ⟨after, stop, hwalk⟩ := exists_walk_cons hstep
      exact ⟨[], _, after, stop, [], _, hwalk, .nil, .here _, hmisfit⟩
    | @behind r c path rest step hop fault hstep hrest hchoice hleads _ ih =>
      obtain ⟨before, step', after, stop, hops, m, hwalk, hhops, hleads', hmisfit⟩ := ih
      exact ⟨step :: before, step', after, stop, hop :: hops, m, .more hstep hrest hwalk,
        .cons hchoice hhops, hleads.append hleads', hmisfit⟩
  obtain ⟨before, step, after, stop, hops, m, hwalk, hhops, hleads, hmisfit⟩ := hwhole
  exact ⟨before, step, after, stop, hops, m, hwalk, hmisfit.path_eq.trans hwalk.text_eq, hhops,
    hleads, hmisfit.isMapping, hmisfit⟩

end Grounds

/-! ### Where work meets a shape fault -/

/-- Work in the container in a slot has met a shape fault: at the check, having changed nothing, or in
the container. -/
inductive Meets {α : Type} (h : Heap) (r : Ref) (s : Slot) (check : Heap → Value → Except Fault Ref)
    (work : Ref → Except Fault α × Heap) (fault : ShapeFault) (left : Heap) : Prop
  | check {v : Value} {e : Fault} (hslot : h.slot? r s = some v) (hv : v ≠ .null)
    (herror : check h v = .error e) (hshape : e.shape? = some fault) (hleft : left = h)
  | behind {v : Value} {c : Ref} (hslot : h.slot? r s = some v) (hv : v ≠ .null)
    (hok : check h v = .ok c) (hfault : misfitIn? (work c) = some fault)
    (hleft : left = (work c).2)

section Meets

variable {h : Heap} {r : Ref} {s : Slot} {check : Heap → Value → Except Fault Ref}
variable {fault : ShapeFault}

theorem meets_seek {read : Ref → Except Fault Value × Heap}
    (hfault : misfitIn? (h.seek r s check read) = some fault) :
    h.Meets r s check read fault (h.seek r s check read).2 := by
  by_cases hnull : (h.slot? r s).getD .null = .null
  · rw [seek_of_null hnull] at hfault
    cases hfault
  · have hslot := slot?_of_getD rfl hnull
    cases hcheck : check h ((h.slot? r s).getD .null) with
    | error e =>
      rw [seek_of_error hnull hcheck] at hfault ⊢
      exact .check hslot hnull hcheck hfault rfl
    | ok c =>
      rw [seek_of_ok hnull hcheck] at hfault ⊢
      exact .behind hslot hnull hcheck hfault rfl

theorem meets_visit {work : Ref → Heap → Except Fault Unit × Heap}
    (hfault : misfitIn? (h.visit r s check work) = some fault) :
    h.Meets r s check (work · h) fault (h.visit r s check work).2 := by
  by_cases hnull : (h.slot? r s).getD .null = .null
  · rw [visit_of_getD hnull] at hfault
    cases hfault
  · have hslot := slot?_of_getD rfl hnull
    rw [visit, if_neg hnull] at hfault ⊢
    cases hcheck : check h ((h.slot? r s).getD .null) with
    | error e =>
      rw [hcheck] at hfault
      exact .check hslot hnull hcheck hfault rfl
    | ok c =>
      rw [hcheck] at hfault
      exact .behind hslot hnull hcheck hfault rfl

theorem meets_through {blank : Cell} {work : Ref → Heap → Except Fault Unit × Heap}
    (hblank : misfitIn? (work h.size (h.alloc blank)) = none)
    (hfault : misfitIn? (h.through r s blank check work) = some fault) :
    h.Meets r s check (work · h) fault (h.through r s blank check work).2 := by
  have hback : ∀ {x : Except Fault Unit × Heap} {c : Ref}, misfitIn? x = some fault →
      andThen x (fun _ h ↦ changed h (h.fill r s (.object c))) = x := by
    rintro ⟨e | _, h'⟩ c hx
    · rfl
    · cases hx
  rw [misfitIn?_through hblank] at hfault
  by_cases hnull : (h.slot? r s).getD .null = .null
  · rw [misfitAt_of_null hnull] at hfault
    cases hfault
  · have hslot := slot?_of_getD rfl hnull
    rw [through, enter_of_ne hnull]
    cases hcheck : check h ((h.slot? r s).getD .null) with
    | error e =>
      rw [misfitAt_of_error hnull hcheck] at hfault
      exact .check hslot hnull hcheck hfault rfl
    | ok c =>
      rw [misfitAt_of_ok hnull hcheck] at hfault
      rw [andThen_ok, hback hfault]
      exact .behind hslot hnull hcheck hfault rfl

/-- Work that leaves a heap as it is where it meets a shape fault does so behind a slot. -/
theorem Meets.left_eq {α : Type} {work : Ref → Except Fault α × Heap} {left : Heap}
    (hmeets : h.Meets r s check work fault left)
    (hwork : ∀ c, misfitIn? (work c) = some fault → (work c).2 = h) : left = h := by
  cases hmeets with
  | check _ _ _ _ hleft => exact hleft
  | behind _ _ _ hfault hleft => exact hleft.trans (hwork _ hfault)

theorem not_meets_next {α : Type} {work : Ref → Except Fault α × Heap} {left : Heap} :
    ¬ h.Meets r .next check work fault left := by
  rintro (⟨hslot, -⟩ | ⟨hslot, -⟩) <;> simp [slot?] at hslot

theorem slot?_congr {h' : Heap} (hget : h'.get? r = h.get? r) (s : Slot) :
    h'.slot? r s = h.slot? r s := by
  rw [slot?, hget, slot?]

end Meets

/-! ### From one step to the path -/

section Step

variable {α : Type} {h left : Heap} {root list : Ref} {path rest : String} {step : Step} {n : Nat}
variable {mode : AccessMode} {fault : ShapeFault} {choice : Hop → Hop → Prop}
variable {work : Ref → Except Fault α × Heap}

/-- A fault met at a key with more steps behind it has its grounds there or further on, if the work
behind the key leaves the mapping with the key alone. -/
theorem Meets.grounds_of_key (hstep : Step.decode path = .ok step) (hrest : step.rest = some rest)
    (hplace : step.place = .key) (hsame : ∀ hop, choice hop hop)
    (hmeets : h.Meets root (.field step.name) (fun h ↦ h.asMapping step.label step.text mode) work
      fault left)
    (hbehind : ∀ c, h.slot? root (.field step.name) = some (.object c) →
      misfitIn? (work c) = some fault →
        (work c).2.get? root = h.get? root ∧ (work c).2.Grounds choice mode c rest fault) :
    left.Grounds choice mode root path fault := by
  cases hmeets with
  | check hslot hv herror hshape hleft =>
    obtain ⟨hkind, rfl⟩ := asMapping_eq_error_iff.mp herror
    obtain rfl := Option.some.inj hshape
    subst hleft
    exact .here hstep (.field hplace (by simp [Step.isLast, hrest]) hslot hv hkind)
  | @behind v c hslot hv hok hfault hleft =>
    obtain rfl := (of_asMapping hok).1
    obtain ⟨hroot, hgrounds⟩ := hbehind c hslot hfault
    subst hleft
    refine .behind hstep hrest (hsame _) ?_ hgrounds
    rw [Step.slots_of_key hplace]
    exact .through ((slot?_congr hroot _).trans hslot) (.here c)

/-- A fault met at a list step has its grounds there, or behind the list. -/
theorem Meets.grounds_of_list (hstep : Step.decode path = .ok step) (hplace : step.place ≠ .key)
    (hmeets : h.Meets root (.field step.name)
      (fun h v ↦ (h.asList step.name step.text mode v).map Prod.fst) work fault left)
    (hbehind : ∀ list, h.slot? root (.field step.name) = some (.object list) →
      misfitIn? (work list) = some fault → (work list).2.Grounds choice mode root path fault) :
    left.Grounds choice mode root path fault := by
  cases hmeets with
  | check hslot hv herror hshape hleft =>
    obtain ⟨hkind, rfl⟩ := asList_eq_error_iff.mp (map_eq_error_iff.mp herror)
    obtain rfl := Option.some.inj hshape
    subst hleft
    exact .here hstep (.list hplace hslot hv hkind)
  | @behind v list hslot hv hok hfault hleft =>
    obtain ⟨_, hlist, rfl⟩ := exists_of_map_eq_ok hok
    obtain rfl := (of_asList hlist).1
    subst hleft
    exact hbehind _ hslot hfault

/-- A fault met at an index of the list of a step with more steps behind it has its grounds there or
further on, if the work in the item leaves the list and the mapping with the list alone. -/
theorem Meets.grounds_of_item (hstep : Step.decode path = .ok step) (hrest : step.rest = some rest)
    (hplace : step.place = .item n) (hsame : ∀ hop, choice hop hop)
    (hlist : h.slot? root (.field step.name) = some (.object list))
    (hmeets : h.Meets list (.index n) (fun h ↦ h.asMapping step.label step.text mode) work fault left)
    (hbehind : ∀ c, h.slot? list (.index n) = some (.object c) → misfitIn? (work c) = some fault →
      (∀ r ∈ [root, list], (work c).2.get? r = h.get? r) ∧
        (work c).2.Grounds choice mode c rest fault) :
    left.Grounds choice mode root path fault := by
  cases hmeets with
  | check hslot hv herror hshape hleft =>
    obtain ⟨hkind, rfl⟩ := asMapping_eq_error_iff.mp herror
    obtain rfl := Option.some.inj hshape
    subst hleft
    exact .here hstep (.item hplace (by simp [Step.isLast, hrest]) hlist hslot hv hkind)
  | @behind v c hslot hv hok hfault hleft =>
    obtain rfl := (of_asMapping hok).1
    obtain ⟨hkeep, hgrounds⟩ := hbehind c hslot hfault
    have hroot := hkeep root List.mem_cons_self
    have hkept := hkeep list (List.mem_cons_of_mem _ List.mem_cons_self)
    subst hleft
    refine .behind hstep hrest (hsame _) ?_ hgrounds
    rw [Step.slots_of_item hplace]
    exact .through ((slot?_congr hroot _).trans hlist)
      (.through ((slot?_congr hkept _).trans hslot) (.here c))

end Step

end Heap

namespace Scan

open Heap

/-! ### Reads -/

section Read

variable {h : Heap} {root : Ref} {path : String} {fault : ShapeFault}

/-- A shape fault of a read has its grounds in the heap. -/
theorem grounds_of_get (hfault : misfitIn? ((get root path).effect h) = some fault) :
    ((get root path).effect h).2.Grounds Eq .read root path fault := by
  induction path using Path.induction generalizing root with
  | broken path e he =>
    rw [follows_get.effect_of_error he] at hfault
    cases hfault
  | last path step hstep hrest =>
    by_cases hplace : step.place = .key
    · rw [effect_get_of_last hstep hrest hplace] at hfault
      cases hfault
    · rw [effect_get_of_last_list hstep hrest hplace] at hfault ⊢
      exact (meets_seek hfault).grounds_of_list hstep hplace nofun
  | more path step rest hstep hrest ih =>
    have hkeep : ∀ c r, ((get c rest).effect h).2.get? r = h.get? r := fun c r ↦ by
      rw [follows_get.effect_snd]
    cases hplace : step.place with
    | key =>
      rw [effect_get_of_more hstep hrest hplace] at hfault ⊢
      exact (meets_seek hfault).grounds_of_key hstep hrest hplace (fun _ ↦ rfl) fun c _ hbehind ↦
        ⟨hkeep c root, ih hbehind⟩
    | every =>
      rw [effect_get_of_more_every hstep hrest hplace] at hfault ⊢
      exact (meets_seek hfault).grounds_of_list hstep (by simp [hplace]) nofun
    | item n =>
      rw [effect_get_of_more_item hstep hrest hplace] at hfault ⊢
      exact (meets_seek hfault).grounds_of_list hstep (by simp [hplace]) fun list hlist hitem ↦
        (meets_seek hitem).grounds_of_item hstep hrest hplace (fun _ ↦ rfl) hlist fun c _ hbehind ↦
          ⟨fun r _ ↦ hkeep c r, ih hbehind⟩

/-- A shape fault of a test is one of the read of the same path. -/
theorem get_of_has (hfault : ((has root path).effect h).1 = .error (.shape fault)) :
    ((get root path).effect h).1 = .error (.shape fault) := by
  obtain hfit | ⟨r, text, step, v, hwalks, hstep, hparts⟩ := fit_or_parts h root path
  · exact (compatible_of_fit hfit).shape fault hfault
  · obtain ⟨hget, hhas⟩ := effect_of_parts hstep hparts
    rw [hwalks.effect_eq.2, hhas] at hfault
    rw [hwalks.effect_eq.1, hget]
    exact (compatible_parted step v).shape fault hfault

end Read

/-! ### Writes -/

section Write

variable {limit : Option Nat} {h : Heap} {root : Ref} {path : String} {v : Value} {fault : ShapeFault}
variable {step : Step} {slot : Slot} {work : Ref → Slot → Heap → Except Fault Unit × Heap}

/-- A step of a write that meets a shape fault has been let through to its list. -/
theorem meets_reach (hplace : step.place.slot? = some slot)
    (hblank : misfitIn? (work h.size slot (h.alloc (.list []))) = none)
    (hfault : misfitIn? (step.reach limit root work h) = some fault) :
    h.Meets root (.field step.name) step.checkList (fun list ↦ work list slot h) fault
      (step.reach limit root work h).2 := by
  unfold Step.reach at hfault ⊢
  rw [hplace] at hfault ⊢
  cases hlimit : step.checkLimit limit with
  | ok _ =>
    rw [hlimit] at hfault
    exact meets_through hblank hfault
  | error e =>
    rw [hlimit] at hfault
    unfold Step.checkLimit at hlimit
    repeat' split at hlimit
    all_goals cases hlimit
    cases hfault

/-- In a new list a write meets nothing of a wrong shape. -/
theorem misfitIn?_through_blank (step : Step) (limit : Option Nat) (rest : String) (v : Value)
    (h : Heap) (slot : Slot) :
    misfitIn? ((h.alloc (.list [])).through h.size slot (.mapping .plain .empty) step.checkMapping
      fun child ↦ (set limit child rest v).effect) = none :=
  (Heap.misfitIn?_through misfit?_set_blank).trans (Heap.misfitAt_blank .next)

/-- A write that meets a shape fault has left everything as it was. -/
theorem snd_of_misfit_set (hfault : misfitIn? ((set limit root path v).effect h) = some fault) :
    ((set limit root path v).effect h).2 = h := by
  induction path using Path.induction generalizing root with
  | broken path e he => rw [effect_set_of_error he]
  | last path step hstep hrest =>
    have hfill : ∀ r s, misfitIn? (changed h (h.fill r s v)) ≠ some fault := by
      simp [Heap.misfitIn?_fill]
    rw [effect_set_of_last hstep hrest] at hfault ⊢
    cases hplace : step.place.slot? with
    | none =>
      rw [Step.reach, hplace] at hfault
      exact absurd hfault (hfill _ _)
    | some slot =>
      exact (meets_reach hplace (Heap.misfitIn?_fill v) hfault).left_eq fun list hbehind ↦
        absurd hbehind (hfill list slot)
  | more path step rest hstep hrest ih =>
    rw [effect_set_of_more hstep hrest] at hfault ⊢
    cases hplace : step.place.slot? with
    | none =>
      rw [Step.reach, hplace] at hfault ⊢
      exact (meets_through misfit?_set_blank hfault).left_eq fun c ↦ ih
    | some slot =>
      have hblank := misfitIn?_through_blank step limit rest v h slot
      exact (meets_reach hplace hblank hfault).left_eq fun list hbehind ↦
        (meets_through misfit?_set_blank hbehind).left_eq fun c ↦ ih

/-- A shape fault of a write has its grounds in the heap. -/
theorem grounds_of_set (hfault : misfitIn? ((set limit root path v).effect h) = some fault) :
    ((set limit root path v).effect h).2.Grounds Eq .write root path fault := by
  induction path using Path.induction generalizing root with
  | broken path e he =>
    rw [effect_set_of_error he] at hfault
    cases hfault
  | last path step hstep hrest =>
    have hfill : ∀ r s, misfitIn? (changed h (h.fill r s v)) ≠ some fault := by
      simp [Heap.misfitIn?_fill]
    rw [effect_set_of_last hstep hrest] at hfault ⊢
    cases hplace : step.place.slot? with
    | none =>
      rw [Step.reach, hplace] at hfault
      exact absurd hfault (hfill _ _)
    | some slot =>
      have hlist : step.place ≠ .key := by
        rintro hkey
        simp [hkey, Place.slot?] at hplace
      exact (meets_reach hplace (Heap.misfitIn?_fill v) hfault).grounds_of_list hstep hlist
        fun list _ hbehind ↦ absurd hbehind (hfill list slot)
  | more path step rest hstep hrest ih =>
    have hkeep : ∀ c r, misfitIn? ((set limit c rest v).effect h) = some fault →
        ((set limit c rest v).effect h).2.get? r = h.get? r := fun c r hbehind ↦ by
      rw [snd_of_misfit_set hbehind]
    have hblank := misfitIn?_through_blank step limit rest v h
    rw [effect_set_of_more hstep hrest] at hfault ⊢
    cases hplace : step.place with
    | key =>
      rw [Step.reach, hplace] at hfault ⊢
      exact (meets_through misfit?_set_blank hfault).grounds_of_key hstep hrest hplace (fun _ ↦ rfl)
        fun c _ hbehind ↦ ⟨hkeep c root hbehind, ih hbehind⟩
    | every =>
      have hnext : step.place.slot? = some .next := congrArg Place.slot? hplace
      exact (meets_reach hnext (hblank .next) hfault).grounds_of_list hstep (by simp [hplace])
        fun list _ hbehind ↦ absurd (meets_through misfit?_set_blank hbehind) not_meets_next
    | item n =>
      have hindex : step.place.slot? = some (.index n) := congrArg Place.slot? hplace
      exact (meets_reach hindex (hblank (.index n)) hfault).grounds_of_list hstep (by simp [hplace])
        fun list hlist hitem ↦
          (meets_through misfit?_set_blank hitem).grounds_of_item hstep hrest hplace (fun _ ↦ rfl) hlist
            fun c _ hbehind ↦ ⟨fun r _ ↦ hkeep c r hbehind, ih hbehind⟩

end Write

/-! ### Removals -/

section Removal

variable {h h' : Heap} {root list c : Ref} {path rest : String} {fault : ShapeFault}

/-- In an acyclic heap a removal in what a container holds leaves everything above the container
alone, also when contents have been taken away before. -/
theorem get?_of_remove {r x : Ref} (rest : String) (hacyclic : h.Acyclic) (hholds : h.Holds r c)
    (hthins : ThinsOutside (h.above r) h h') (hx : x ∈ h.above r) :
    ((remove c rest).effect h').2.get? x = h.get? x := by
  have hupward : h'.Upward (h.above r) := hthins.toThins.upward (h.upward_above r)
  exact (hthins.trans (thinsOutside_remove hupward (not_mem_above hacyclic hholds))).get?_eq x hx

/-- A shape fault that stops a removal in one of the mappings in a list has its grounds there, in
what is left. -/
theorem grounds_of_sweep {step : Step} (hstep : Step.decode path = .ok step)
    (hrest : step.rest = some rest) (hplace : step.place = .every) (hacyclic : h.Acyclic)
    (hlist : h.slot? root (.field step.name) = some (.object list))
    (hfault : misfitIn? (sweep (fun child ↦ (remove child rest).effect)
      (h.mappingsAmong (h.items list)) h) = some fault)
    (hbehind : ∀ c h₁, h.Thins h₁ → misfitIn? ((remove c rest).effect h₁) = some fault →
      ((remove c rest).effect h₁).2.Grounds Hop.Choice .write c rest fault) :
    (sweep (fun child ↦ (remove child rest).effect) (h.mappingsAmong (h.items list)) h).2.Grounds
      Hop.Choice .write root path fault := by
  generalize hsweep : sweep (fun child ↦ (remove child rest).effect)
    (h.mappingsAmong (h.items list)) h = x at hfault ⊢
  obtain ⟨e | _, h'⟩ := x
  · obtain ⟨done, c, others, h₁, hmappings, hdone, hremove⟩ := sweep_eq_error hsweep
    have hholds : ∀ c ∈ h.mappingsAmong (h.items list), h.Holds list c :=
      fun c ↦ holds_of_mem_mappingsAmong
    have hthins : ThinsOutside (h.above list) h h₁ := by
      have hswept := thinsOutside_sweep_remove hacyclic list done
        (fun c hc ↦ hholds c (by simp [hmappings, hc])) rest
      rwa [hdone] at hswept
    have hc : c ∈ h.mappingsAmong (h.items list) := by simp [hmappings]
    have hkeep : ∀ r ∈ h.above list, h'.get? r = h.get? r := by
      intro r hr
      have hkept := get?_of_remove rest hacyclic (hholds c hc) hthins hr
      rwa [hremove] at hkept
    have hgrounds := hbehind c h₁ hthins.toThins
    rw [hremove] at hgrounds
    obtain ⟨n, hn⟩ := List.mem_iff_getElem?.mp (mem_mappingsAmong_iff.mp hc).1
    have hchoice : Hop.Choice step.hop ⟨step.name, .item n⟩ := by
      rw [Step.hop, hplace]
      exact .item step.name n
    refine .behind hstep hrest hchoice ?_ (hgrounds hfault)
    refine .through ((slot?_congr (hkeep root (.single (holds_of_slot? hlist))) _).trans hlist)
      (.through ((slot?_congr (hkeep list (self_mem_above h list)) _).trans ?_) (.here c))
    rw [← getElem?_items_eq_slot?, hn]
  · cases hfault

/-- A shape fault of a removal in an acyclic heap has its grounds in what the removal leaves. -/
theorem grounds_of_remove (hacyclic : h.Acyclic)
    (hfault : misfitIn? ((remove root path).effect h) = some fault) :
    ((remove root path).effect h).2.Grounds Hop.Choice .write root path fault := by
  induction path using Path.induction generalizing h root with
  | broken path e he =>
    rw [effect_remove_of_error he] at hfault
    cases hfault
  | last path step hstep hrest =>
    cases hplace : step.place with
    | key =>
      rw [effect_remove_of_last hstep hrest hplace, Heap.misfitIn?_unset] at hfault
      cases hfault
    | item n =>
      rw [effect_remove_of_last_item hstep hrest hplace] at hfault ⊢
      exact (meets_visit hfault).grounds_of_list hstep (by simp [hplace]) nofun
    | every =>
      rw [effect_remove_of_last_every hstep hrest hplace] at hfault ⊢
      have hmeets := @meets_visit h root (.field step.name) step.checkList fault fun _ h ↦ (.ok (), h)
      generalize h.visit root (.field step.name) step.checkList _ = x at hfault hmeets ⊢
      obtain ⟨e | _, h₁⟩ := x
      · exact (hmeets hfault).grounds_of_list hstep (by simp [hplace]) nofun
      · rw [andThen_ok, Heap.misfitIn?_unset] at hfault
        cases hfault
  | more path step rest hstep hrest ih =>
    cases hplace : step.place with
    | key =>
      rw [effect_remove_of_more hstep hrest hplace] at hfault ⊢
      exact (meets_visit hfault).grounds_of_key hstep hrest hplace .same fun c hslot hbehind ↦
        ⟨get?_of_remove rest hacyclic (holds_of_slot? hslot) (.refl _ h) (self_mem_above h root),
          ih hacyclic hbehind⟩
    | item n =>
      rw [effect_remove_of_more_item hstep hrest hplace] at hfault ⊢
      refine (meets_visit hfault).grounds_of_list hstep (by simp [hplace]) fun list hlist hitem ↦ ?_
      refine (meets_visit hitem).grounds_of_item hstep hrest hplace .same hlist
        fun c hslot hbehind ↦ ⟨fun r hr ↦ ?_, ih hacyclic hbehind⟩
      refine get?_of_remove rest hacyclic (holds_of_slot? hslot) (.refl _ h) ?_
      obtain rfl | rfl := List.mem_pair.mp hr
      · exact .single (holds_of_slot? hlist)
      · exact self_mem_above h _
    | every =>
      rw [effect_remove_of_more_every hstep hrest hplace] at hfault ⊢
      exact (meets_visit hfault).grounds_of_list hstep (by simp [hplace]) fun list hlist hsweep ↦
        grounds_of_sweep hstep hrest hplace hacyclic hlist hsweep fun c h₁ hthins ↦
          ih (hthins.acyclic hacyclic)

end Removal

end Scan

/-- What a shape fault says is so in the heap that the failed call leaves. Its path is the text of the
path from one of its segments on, and the steps before lead to a mapping. There the step of this
segment is a list step whose name holds what the fault says was found, which is no list; or more
segments follow, and what was found is held under the name of the step or, at a step `name[n]`, at
this index in the list under the name, and is no mapping. It is not null, the field is the name or the
label of the step, and the mode is that of a read for reads and tests, and that of a write for writes
and removals.

For a removal in an acyclic heap a step `name[]` before is taken with one index of its list. In the
other cases no such step stands before. -/
theorem shape_faults_borne_out {limit : Option Nat} {root : Ref} {path : String} {v : Value}
    {w : Workplace} :
    (∀ fault w', Scan.get root path w = .error (.shape fault) w' →
      w'.heap.BearsOut Eq .read root path fault) ∧
    (∀ fault w', Scan.has root path w = .error (.shape fault) w' →
      w'.heap.BearsOut Eq .read root path fault) ∧
    (∀ fault w', Scan.set limit root path v w = .error (.shape fault) w' →
      w'.heap.BearsOut Eq .write root path fault) ∧
    (w.heap.Acyclic → ∀ fault w', Scan.remove root path w = .error (.shape fault) w' →
      w'.heap.BearsOut Hop.Choice .write root path fault) := by
  refine ⟨fun fault w' hget ↦ ?_, fun fault w' hhas ↦ ?_, fun fault w' hset ↦ ?_,
    fun hacyclic fault w' hremove ↦ ?_⟩
  · have heffect := (follows_get.steady root path).effect_of_error hget
    have hgrounds := @grounds_of_get w.heap root path fault
    rw [heffect] at hgrounds
    exact (hgrounds rfl).bearsOut
  · have heffect := (follows_has.steady root path).effect_of_error hhas
    have hheap : w'.heap = w.heap := by
      rw [← follows_has.effect_snd root path w.heap, heffect]
    have hread := get_of_has (congrArg Prod.fst heffect)
    have hgrounds := @grounds_of_get w.heap root path fault
    rw [misfitIn?, hread, follows_get.effect_snd] at hgrounds
    rw [hheap]
    exact (hgrounds rfl).bearsOut
  · have heffect := (steady_set limit root path v).effect_of_error hset
    have hgrounds := @grounds_of_set limit w.heap root path v fault
    rw [heffect] at hgrounds
    exact (hgrounds rfl).bearsOut
  · have heffect := (steady_remove root path).effect_of_error hremove
    have hgrounds := @grounds_of_remove w.heap root path fault hacyclic
    rw [heffect] at hgrounds
    exact (hgrounds rfl).bearsOut

/-- At `a[1].b.c` a read, a test and a write come upon the integer in the second mapping of the list,
and at `a[].b.c` a removal does, when the mapping under the `b` of the first one has lost its `c`. -/
theorem shape_faults_borne_out_integer :
    let w : Workplace := ⟨⟨#[.mapping .plain (.ofList [(.text "a", .object 1)]),
      .list [.object 2, .object 4], .mapping .plain (.ofList [(.text "b", .object 3)]),
      .mapping .plain (.ofList [(.text "c", .integer 1)]),
      .mapping .plain (.ofList [(.text "b", .integer 5)])]⟩, .new 0, #[]⟩
    let fault : ShapeFault := ⟨"b", "b.c", .shape .mapping, .integer 5, .read⟩
    (∃ w', Scan.get 0 "a[1].b.c" w = .error (.shape fault) w' ∧
      w'.heap.BearsOut Eq .read 0 "a[1].b.c" fault) ∧
    (∃ w', Scan.has 0 "a[1].b.c" w = .error (.shape fault) w' ∧
      w'.heap.BearsOut Eq .read 0 "a[1].b.c" fault) ∧
    (∃ w', Scan.set none 0 "a[1].b.c" .null w = .error (.shape fault.whenWriting) w' ∧
      w'.heap.BearsOut Eq .write 0 "a[1].b.c" fault.whenWriting) ∧
    w.heap.Acyclic ∧ ∃ w', Scan.remove 0 "a[].b.c" w = .error (.shape fault.whenWriting) w' ∧
      (w'.heap.entries 3).keys = [] ∧
      w'.heap.BearsOut Hop.Choice .write 0 "a[].b.c" fault.whenWriting := by
  intro w fault
  have hacyclic : w.heap.Acyclic := Heap.acyclic_of_lt (by decide)
  have hitem : Step.decode "a[1].b.c" = .ok ⟨"a[1].b.c", "a", .item 1, some "b.c"⟩ := by
    decide +kernel
  have hevery : Step.decode "a[].b.c" = .ok ⟨"a[].b.c", "a", .every, some "b.c"⟩ := by decide +kernel
  have hnext : Step.decode "b.c" = .ok ⟨"b.c", "b", .key, some "c"⟩ := by decide +kernel
  have hlast : Step.decode "c" = .ok ⟨"c", "c", .key, none⟩ := by decide +kernel
  have hget : (Scan.get 0 "a[1].b.c").effect w.heap = (.error (.shape fault), w.heap) := by
    have hbelow (child : Ref) (h : Heap) : (Scan.get child "b.c").effect h = _ :=
      Scan.effect_get_of_more hnext rfl rfl
    rw [Scan.effect_get_of_more_item hitem rfl rfl]
    simp only [hbelow]
    rfl
  have hhas : (Scan.has 0 "a[1].b.c").effect w.heap = (.error (.shape fault), w.heap) := by
    have hleads : w.heap.Leads 0 [.field "a", .index 1] 4 := .through rfl (.through rfl (.here 4))
    rw [(Heap.effect_of_leads hitem rfl hleads ⟨_, _, rfl⟩).2.1, follows_has.effect_of_ok hnext]
    rfl
  have hset : (Scan.set none 0 "a[1].b.c" .null).effect w.heap =
      (.error (.shape fault.whenWriting), w.heap) := by
    have hbelow (child : Ref) := funext fun h ↦ Scan.effect_set_of_more hnext rfl none child .null h
    rw [Scan.effect_set_of_more hitem rfl]
    simp only [hbelow]
    rfl
  have hremove : ∃ h', (Scan.remove 0 "a[].b.c").effect w.heap =
      (.error (.shape fault.whenWriting), h') ∧ (h'.entries 3).keys = [] := by
    rw [Scan.effect_remove_of_more_every hevery rfl rfl]
    simp only [Scan.effect_remove_of_two hnext rfl rfl hlast rfl rfl]
    exact ⟨_, rfl, rfl⟩
  obtain ⟨h', hremove, hkeys⟩ := hremove
  obtain ⟨wg, hget, -⟩ := (follows_get.steady 0 _).exists_of_effect_error hget
  obtain ⟨wh, hhas, -⟩ := (follows_has.steady 0 _).exists_of_effect_error hhas
  obtain ⟨ws, hset, -⟩ := (steady_set none 0 _ .null).exists_of_effect_error hset
  obtain ⟨wr, hrun, rfl⟩ := (steady_remove 0 _).exists_of_effect_error hremove
  obtain ⟨hbearsGet, hbearsHas, hbearsSet, -⟩ :=
    @shape_faults_borne_out none 0 "a[1].b.c" .null w
  obtain ⟨-, -, -, hbearsRemove⟩ := @shape_faults_borne_out none 0 "a[].b.c" .null w
  exact ⟨⟨wg, hget, hbearsGet _ _ hget⟩, ⟨wh, hhas, hbearsHas _ _ hhas⟩,
    ⟨ws, hset, hbearsSet _ _ hset⟩, hacyclic, wr, hrun, hkeys,
    hbearsRemove hacyclic _ _ hrun⟩

end DottedPath
