import DottedPath.Proofs.Scan.Grounds

/-!
# A removal that fails

A removal changes the heap at the end of its path alone, so one that goes from mapping to mapping and
is stopped has changed nothing. A step `name[]` with more steps behind it is another matter: it takes
the mappings in the list one after the other, and when one of them stops it, the removals in those
before it have been done and stay done. `Heap.Interrupted` tells what is left then: the fault can be
seen where the walk has come to (`Heap.StopsAt`), and at each such step on the way there the removals
in the mappings before have been completed and have led to the heap in which the walk has gone on.

In an acyclic heap this is what happens when a removal fails, and nothing else does
(`effect_remove_eq_error_iff`), so it says what is left of every container
(`interrupted_of_remove_error`). The mappings that a step takes are those in its list when the removal
comes to it; in an acyclic heap a removal in what a list holds does not change the list
(`thinsOutside_sweep_remove`), so they are those that the list holds until the end.

A numeral with too many digits leaves no trace in any case: no removal along a path with such a
numeral gets as far as its end (`effect_remove_snd_of_not_readable`).
-/

set_option autoImplicit false
set_option relaxedAutoImplicit false

namespace DottedPath

open Scan

/-- What can stop a removal at a path. -/
inductive Fault.OfRemoval (path : String) : Fault → Prop
  | shape {fault : ShapeFault} (hmode : fault.mode = .write) : OfRemoval path (.shape fault)
  | numeral {tooLong : LongNumeral} (hunreadable : ¬ Path.Readable path) :
    OfRemoval path (.numeral tooLong)
  | refused : OfRemoval path (.refused .deletion)

theorem Fault.OfRemoval.of_more {path rest : String} {step : Step} {e : Fault}
    (hstep : Step.decode path = .ok step) (hrest : step.rest = some rest)
    (he : e.OfRemoval rest) : e.OfRemoval path := by
  cases he with
  | shape hmode => exact .shape hmode
  | numeral hunreadable =>
    exact .numeral fun hreadable ↦ hunreadable ((Path.readable_of_more hstep hrest).mp hreadable)
  | refused => exact .refused

namespace Heap

/-- The fault stops a removal as it starts at the mapping `m`: the index of the first step has too many
digits, the step comes upon a value of a wrong shape, or it is the last one and would take away a key
of a read-only mapping. -/
inductive StopsAt (h : Heap) (m : Ref) (path : String) : Fault → Prop
  | numeral {tooLong : LongNumeral} (hpath : Step.decode path = .error tooLong) :
    StopsAt h m path (.numeral tooLong)
  | shape {step : Step} {fault : ShapeFault} (hstep : Step.decode path = .ok step)
    (hmisfit : h.Misfit m step .write fault) : StopsAt h m path (.shape fault)
  | refused {step : Step} {v : Value} (hstep : Step.decode path = .ok step) (hrest : step.rest = none)
    (hslot : h.slot? m (.field step.name) = some v)
    (htaken : step.place = .key ∨ step.place = .every ∧ (v = .null ∨ h.kindOf v = .list))
    (hreadOnly : h.isReadOnly m = true) : StopsAt h m path (.refused .deletion)

/-- The fault stops a removal at a path below a mapping of the first heap, and the second heap is what
it leaves: the first one itself, where the fault arises; what the removal leaves that the fault stops
in the mapping that a step leads to; or, at a step `name[]`, what the removal leaves that the fault
stops in one of the mappings in the list, after it has been completed in all those before. -/
inductive Interrupted (e : Fault) : Heap → Ref → String → Heap → Prop
  | here {h : Heap} {root : Ref} {path : String} (hstops : h.StopsAt root path e) :
    Interrupted e h root path h
  | inside {h h' : Heap} {root child : Ref} {path rest : String} {step : Step}
    (hstep : Step.decode path = .ok step) (hrest : step.rest = some rest)
    (hleads : h.Leads root step.hop.slots child) (hmapping : h.IsMapping child)
    (hchild : Interrupted e h child rest h') : Interrupted e h root path h'
  | among {h h₁ h' : Heap} {root list child : Ref} {path rest : String} {step : Step}
    {items : List Value} {done others : List Ref} (hstep : Step.decode path = .ok step)
    (hrest : step.rest = some rest) (hplace : step.place = .every)
    (hslot : h.slot? root (.field step.name) = some (.object list))
    (hlist : h.get? list = some (.list items))
    (hmappings : h.mappingsAmong items = done ++ child :: others)
    (hdone : sweep (fun child ↦ (remove child rest).effect) done h = (.ok (), h₁))
    (hkept : h₁.get? list = some (.list items)) (hchild : Interrupted e h₁ child rest h') :
    Interrupted e h root path h'

section Fault

variable {h h' : Heap} {root : Ref} {path : String} {e : Fault}

theorem StopsAt.ofRemoval (hstops : h.StopsAt root path e) : e.OfRemoval path := by
  cases hstops with
  | numeral hpath => exact .numeral (Path.not_readable_of_error hpath)
  | shape _ hmisfit => exact .shape (by cases hmisfit <;> rfl)
  | refused => exact .refused

theorem Interrupted.ofRemoval (hinterrupted : h.Interrupted e root path h') :
    e.OfRemoval path := by
  induction hinterrupted with
  | here hstops => exact hstops.ofRemoval
  | inside hstep hrest _ _ _ ih => exact ih.of_more hstep hrest
  | among hstep hrest _ _ _ _ _ _ _ ih => exact ih.of_more hstep hrest

/-- Without a step `name[]` before its end, an interrupted removal has changed nothing. -/
theorem Interrupted.eq_of_single (hinterrupted : h.Interrupted e root path h')
    (hsingle : Path.Single path) : h' = h := by
  induction hinterrupted with
  | here => rfl
  | inside hstep hrest _ _ _ ih => exact ih (Path.single_of_more hstep hrest hsingle).2
  | among hstep hrest hplace => exact absurd hplace (Path.single_of_more hstep hrest hsingle).1

end Fault

/-! ### An interrupted removal ends with its fault -/

section Interrupted

variable {h h' : Heap} {root : Ref} {path : String} {step : Step} {e : Fault}

/-- What stands under the key of a step to a list and is no list stops a removal. -/
theorem effect_remove_of_checkList_error {v : Value} (hstep : Step.decode path = .ok step)
    (hplace : step.place ≠ .key) (hslot : h.slot? root (.field step.name) = some v) (hv : v ≠ .null)
    (hcheck : step.checkList h v = .error e) : (remove root path).effect h = (.error e, h) := by
  cases hp : step.place with
  | key => exact absurd hp hplace
  | item n =>
    cases hrest : step.rest with
    | none => rw [effect_remove_of_last_item hstep hrest hp, visit_of_error hslot hv hcheck]
    | some rest => rw [effect_remove_of_more_item hstep hrest hp, visit_of_error hslot hv hcheck]
  | every =>
    cases hrest : step.rest with
    | none =>
      rw [effect_remove_of_last_every hstep hrest hp, visit_of_error hslot hv hcheck, andThen_error]
    | some rest => rw [effect_remove_of_more_every hstep hrest hp, visit_of_error hslot hv hcheck]

theorem Misfit.effect_remove {fault : ShapeFault} (hstep : Step.decode path = .ok step)
    (hmisfit : h.Misfit root step .write fault) :
    (remove root path).effect h = (.error (.shape fault), h) := by
  cases hmisfit with
  | list hplace hslot hv hkind =>
    exact effect_remove_of_checkList_error hstep hplace hslot hv
      (Step.checkList_eq_error_iff.mpr ⟨hkind, rfl⟩)
  | field hplace hmore hslot hv hkind =>
    obtain ⟨rest, hrest⟩ := Option.isSome_iff_exists.mp (Option.isNone_eq_false_iff.mp hmore)
    rw [effect_remove_of_more hstep hrest hplace]
    exact visit_of_error hslot hv (Step.checkMapping_eq_error_iff.mpr ⟨hkind, rfl⟩)
  | item hplace hmore hlist hslot hv hkind =>
    obtain ⟨rest, hrest⟩ := Option.isSome_iff_exists.mp (Option.isNone_eq_false_iff.mp hmore)
    obtain ⟨items, hget, -⟩ := exists_list_of_slot?_index hslot
    rw [effect_remove_of_more_item hstep hrest hplace,
      visit_of_slot? hlist (checkList_of_get? step hget)]
    exact visit_of_error hslot hv (Step.checkMapping_eq_error_iff.mpr ⟨hkind, rfl⟩)

theorem StopsAt.effect_remove (hstops : h.StopsAt root path e) :
    (remove root path).effect h = (.error e, h) := by
  cases hstops with
  | numeral hpath => exact effect_remove_of_error hpath root h
  | shape hstep hmisfit => exact hmisfit.effect_remove hstep
  | @refused step v hstep hrest hslot htaken hreadOnly =>
    have hunset : h.unset root step.name = (.error (.refused .deletion), h) :=
      unset_eq_error_iff.mpr ⟨⟨v, hslot⟩, hreadOnly, rfl, rfl⟩
    obtain hkey | ⟨hevery, hv⟩ := htaken
    · rw [effect_remove_of_last hstep hrest hkey, hunset]
    · have hvisit : h.visit root (.field step.name) step.checkList (fun _ h ↦ (.ok (), h)) =
          (.ok (), h) := by
        obtain rfl | hkind := hv
        · exact visit_of_getD (by rw [hslot, Option.getD_some])
        · obtain ⟨list, hcheck⟩ := step.exists_checkList_iff.mpr hkind
          obtain rfl := Step.eq_object_of_checkList h v list hcheck
          exact visit_of_slot? hslot hcheck
      rw [effect_remove_of_last_every hstep hrest hevery, hvisit, andThen_ok, hunset]

theorem Interrupted.effect_remove (hinterrupted : h.Interrupted e root path h') :
    (remove root path).effect h = (.error e, h') := by
  induction hinterrupted with
  | here hstops => exact hstops.effect_remove
  | inside hstep hrest hleads hmapping _ ih =>
    rw [(effect_of_leads hstep hrest hleads hmapping).2.2, ih]
  | @among h h₁ h' root list child path rest step items done others hstep hrest hplace hslot hlist
      hmappings hdone _ _ ih =>
    have hitems : h.items list = items := by rw [Heap.items, hlist]
    rw [effect_remove_of_more_every hstep hrest hplace,
      visit_of_slot? hslot (checkList_of_get? step hlist), hitems, hmappings, sweep_append, hdone,
      andThen_ok, sweep, ih, andThen_error]

end Interrupted

/-! ### A removal that fails has been interrupted -/

section Removal

variable {h h' : Heap} {root list : Ref} {path rest : String} {step : Step} {e : Fault}

theorem stopsAt_of_checkList_error {v : Value} (hstep : Step.decode path = .ok step)
    (hplace : step.place ≠ .key) (hslot : h.slot? root (.field step.name) = some v) (hv : v ≠ .null)
    (hcheck : step.checkList h v = .error e) : h.StopsAt root path e := by
  obtain ⟨hkind, rfl⟩ := Step.checkList_eq_error_iff.mp hcheck
  exact .shape hstep (.list hplace hslot hv hkind)

/-- At a last step a removal is stopped before it has changed anything. -/
theorem stopsAt_of_last (hstep : Step.decode path = .ok step) (hrest : step.rest = none)
    (hremove : (remove root path).effect h = (.error e, h')) : h.StopsAt root path e ∧ h' = h := by
  cases hplace : step.place with
  | key =>
    rw [effect_remove_of_last hstep hrest hplace] at hremove
    obtain ⟨⟨v, hslot⟩, hreadOnly, rfl, rfl⟩ := unset_eq_error_iff.mp hremove
    exact ⟨.refused hstep hrest hslot (.inl hplace) hreadOnly, rfl⟩
  | item n =>
    rw [effect_remove_of_last_item hstep hrest hplace] at hremove
    obtain ⟨rfl, v, hslot, hv, hcheck⟩ | ⟨list, -, -, hwork⟩ :=
      visit_eq_error (Step.eq_object_of_checkList h) hremove
    · exact ⟨stopsAt_of_checkList_error hstep (by simp [hplace]) hslot hv hcheck, rfl⟩
    · simp at hwork
  | every =>
    rw [effect_remove_of_last_every hstep hrest hplace] at hremove
    obtain hvisit | ⟨_, h₁, hvisit, hunset⟩ := andThen_eq_error hremove
    · obtain ⟨rfl, v, hslot, hv, hcheck⟩ | ⟨list, -, -, hwork⟩ :=
        visit_eq_error (Step.eq_object_of_checkList h) hvisit
      · exact ⟨stopsAt_of_checkList_error hstep (by simp [hplace]) hslot hv hcheck, rfl⟩
      · simp at hwork
    · obtain ⟨rfl, hkind⟩ : h₁ = h ∧ ∀ v, h.slot? root (.field step.name) = some v →
          v = .null ∨ h.kindOf v = .list := by
        obtain ⟨hnull, rfl⟩ | ⟨list, hslot, hcheck, hwork⟩ :=
          visit_eq_ok (Step.eq_object_of_checkList h) hvisit
        · exact ⟨rfl, fun v hslot ↦ .inl (by rwa [hslot, Option.getD_some] at hnull)⟩
        · refine ⟨(congrArg Prod.snd hwork).symm, fun v hslot' ↦ .inr ?_⟩
          obtain rfl := Option.some.inj (hslot.symm.trans hslot')
          exact step.exists_checkList_iff.mp ⟨list, hcheck⟩
      obtain ⟨⟨v, hslot⟩, hreadOnly, rfl, rfl⟩ := unset_eq_error_iff.mp hunset
      exact ⟨.refused hstep hrest hslot (.inr ⟨hplace, hkind v hslot⟩) hreadOnly, rfl⟩

/-- A sweep of removals that is stopped has been completed in the mappings before one in which the
removal is stopped. The list is then still what it was. -/
theorem interrupted_of_sweep (hstep : Step.decode path = .ok step) (hrest : step.rest = some rest)
    (hplace : step.place = .every) (hacyclic : h.Acyclic)
    (hslot : h.slot? root (.field step.name) = some (.object list)) {items : List Value}
    (hlist : h.get? list = some (.list items))
    (hsweep : sweep (fun child ↦ (remove child rest).effect) (h.mappingsAmong items) h =
      (.error e, h'))
    (hbehind : ∀ child h₁, h₁.Acyclic → (remove child rest).effect h₁ = (.error e, h') →
      h₁.Interrupted e child rest h') : h.Interrupted e root path h' := by
  obtain ⟨done, child, others, h₁, hmappings, hdone, hremove⟩ := sweep_eq_error hsweep
  have hitems : h.items list = items := by rw [Heap.items, hlist]
  have hthins := thinsOutside_sweep_remove hacyclic list done
    (fun c hc ↦ holds_of_mem_mappingsAmong (by simp [hitems, hmappings, hc])) rest
  rw [hdone] at hthins
  exact .among hstep hrest hplace hslot hlist hmappings hdone
    ((hthins.get?_eq list (self_mem_above h list)).trans hlist)
    (hbehind child h₁ (hthins.toThins.acyclic hacyclic) hremove)

/-- A removal in an acyclic heap ends with a fault exactly when the fault interrupts it, and it leaves
what the interrupted removal leaves. -/
theorem effect_remove_eq_error_iff (hacyclic : h.Acyclic) :
    (remove root path).effect h = (.error e, h') ↔ h.Interrupted e root path h' := by
  refine ⟨fun hremove ↦ ?_, Interrupted.effect_remove⟩
  induction path using Path.induction generalizing h root with
  | broken path e' he =>
    rw [effect_remove_of_error he] at hremove
    obtain ⟨⟨⟩, rfl⟩ := Prod.mk.inj hremove
    exact .here (.numeral he)
  | last path step hstep hrest =>
    obtain ⟨hstops, rfl⟩ := stopsAt_of_last hstep hrest hremove
    exact .here hstops
  | more path step rest hstep hrest ih =>
    have hmore : step.isLast = false := by simp [Step.isLast, hrest]
    cases hplace : step.place with
    | key =>
      rw [effect_remove_of_more hstep hrest hplace] at hremove
      obtain ⟨rfl, v, hslot, hv, hcheck⟩ | ⟨child, hslot, hcheck, hwork⟩ :=
        visit_eq_error (Step.eq_object_of_checkMapping h) hremove
      · obtain ⟨hkind, rfl⟩ := Step.checkMapping_eq_error_iff.mp hcheck
        exact .here (.shape hstep (.field hplace hmore hslot hv hkind))
      · refine .inside hstep hrest ?_ (of_asMapping hcheck).2 (ih hacyclic hwork)
        rw [Step.slots_of_key hplace]
        exact .through hslot (.here child)
    | item n =>
      rw [effect_remove_of_more_item hstep hrest hplace] at hremove
      obtain ⟨rfl, v, hslot, hv, hcheck⟩ | ⟨list, hlist, -, hwork⟩ :=
        visit_eq_error (Step.eq_object_of_checkList h) hremove
      · exact .here (stopsAt_of_checkList_error hstep (by simp [hplace]) hslot hv hcheck)
      · obtain ⟨rfl, v, hslot, hv, hcheck⟩ | ⟨child, hslot, hcheck, hwork'⟩ :=
          visit_eq_error (Step.eq_object_of_checkMapping h) hwork
        · obtain ⟨hkind, rfl⟩ := Step.checkMapping_eq_error_iff.mp hcheck
          exact .here (.shape hstep (.item hplace hmore hlist hslot hv hkind))
        · refine .inside hstep hrest ?_ (of_asMapping hcheck).2 (ih hacyclic hwork')
          rw [Step.slots_of_item hplace]
          exact .through hlist (.through hslot (.here child))
    | every =>
      rw [effect_remove_of_more_every hstep hrest hplace] at hremove
      obtain ⟨rfl, v, hslot, hv, hcheck⟩ | ⟨list, hslot, hcheck, hwork⟩ :=
        visit_eq_error (Step.eq_object_of_checkList h) hremove
      · exact .here (stopsAt_of_checkList_error hstep (by simp [hplace]) hslot hv hcheck)
      · obtain ⟨⟨_, items⟩, hitems, rfl⟩ := exists_of_map_eq_ok hcheck
        have hlist := (of_asList hitems).2
        rw [Heap.items, hlist] at hwork
        exact interrupted_of_sweep hstep hrest hplace hacyclic hslot hlist hwork fun _ _ ↦ ih

/-- Along a path with too long a numeral a removal changes nothing: it never gets to its end. -/
theorem effect_remove_snd_of_not_readable (hunreadable : ¬ Path.Readable path) :
    ((remove root path).effect h).2 = h := by
  induction path using Path.induction generalizing h root with
  | broken path e he => rw [effect_remove_of_error he]
  | last path step hstep hrest => exact absurd (Path.readable_of_last hstep hrest) hunreadable
  | more path step rest hstep hrest ih =>
    have hwork : ∀ c h, ((remove c rest).effect h).2 = h := fun c h ↦
      ih fun hreadable ↦ hunreadable ((Path.readable_of_more hstep hrest).mpr hreadable)
    cases hplace : step.place with
    | key =>
      rw [effect_remove_of_more hstep hrest hplace]
      exact visit_snd hwork
    | item n =>
      rw [effect_remove_of_more_item hstep hrest hplace]
      exact visit_snd fun list h ↦ visit_snd hwork
    | every =>
      rw [effect_remove_of_more_every hstep hrest hplace]
      exact visit_snd fun list h ↦ sweep_snd hwork _ h

end Removal

end Heap

/-- Assumes: no container is its own descendant, and the removal fails. It is interrupted by its fault,
by no other one, and what it leaves is what the interrupted removal leaves: what the removals leave
that have been completed in the mappings before, at each step `name[]` on the way. Everything is as it
was when no such step stands before the end of the path, or when the fault is a numeral with too many
digits. -/
theorem interrupted_of_remove_error {root : Ref} {path : String} {w w' : Workplace} {e : Fault}
    (hacyclic : w.heap.Acyclic) (hremove : Scan.remove root path w = .error e w') :
    e.OfRemoval path ∧
      (∀ e' h', w.heap.Interrupted e' root path h' ↔ e' = e ∧ h' = w'.heap) ∧
      (Path.Single path ∨ (∃ tooLong, e = .numeral tooLong) → w'.heap = w.heap) := by
  have heffect := (Scan.steady_remove root path).effect_of_error hremove
  have hinterrupted := (Heap.effect_remove_eq_error_iff hacyclic).mp heffect
  have hall : ∀ e' h', w.heap.Interrupted e' root path h' ↔ e' = e ∧ h' = w'.heap := by
    intro e' h'
    rw [← Heap.effect_remove_eq_error_iff hacyclic, heffect, Prod.mk.injEq, Except.error.injEq]
    exact and_congr eq_comm eq_comm
  refine ⟨hinterrupted.ofRemoval, hall, ?_⟩
  rintro (hsingle | ⟨tooLong, rfl⟩)
  · exact hinterrupted.eq_of_single hsingle
  · cases hinterrupted.ofRemoval with
    | numeral hunreadable =>
      have hsame : ((Scan.remove root path).effect w.heap).2 = w.heap :=
        Heap.effect_remove_snd_of_not_readable hunreadable
      rwa [heffect] at hsame

/-- At `a[].b.c` the removal is completed in the first mapping of the list, passes over the null and is
stopped in the second mapping, where `b` holds a number. The third mapping is as it was. -/
theorem interrupted_of_remove_error_item :
    let w : Workplace := ⟨⟨#[.mapping .plain (.ofList [(.text "a", .object 1)]),
      .list [.object 2, .null, .object 4, .object 5],
      .mapping .plain (.ofList [(.text "b", .object 3)]),
      .mapping .plain (.ofList [(.text "c", .integer 1)]),
      .mapping .plain (.ofList [(.text "b", .integer 5)]),
      .mapping .ordered (.ofList [(.text "b", .object 6)]),
      .mapping .plain (.ofList [(.text "c", .integer 2)])]⟩, .new 0, #[]⟩
    let e : Fault := .shape ⟨"b", "b.c", .shape .mapping, .integer 5, .write⟩
    w.heap.Acyclic ∧ ∃ w', Scan.remove 0 "a[].b.c" w = .error e w' ∧
      w.heap.Interrupted e 0 "a[].b.c" w'.heap ∧
      (w.heap.entries 3).keys = [.text "c"] ∧ (w'.heap.entries 3).keys = [] ∧
      (w'.heap.entries 6).keys = [.text "c"] := by
  intro w e
  have hacyclic : w.heap.Acyclic := Heap.acyclic_of_lt (by decide)
  have hstep : Step.decode "a[].b.c" = .ok ⟨"a[].b.c", "a", .every, some "b.c"⟩ := by decide +kernel
  have hnext : Step.decode "b.c" = .ok ⟨"b.c", "b", .key, some "c"⟩ := by decide +kernel
  have hlast : Step.decode "c" = .ok ⟨"c", "c", .key, none⟩ := by decide +kernel
  obtain ⟨h', heffect, hdone, hkept⟩ : ∃ h', (Scan.remove 0 "a[].b.c").effect w.heap =
      (.error e, h') ∧ (h'.entries 3).keys = [] ∧ (h'.entries 6).keys = [.text "c"] := by
    rw [Scan.effect_remove_of_more_every hstep rfl rfl]
    simp only [Scan.effect_remove_of_two hnext rfl rfl hlast rfl rfl]
    exact ⟨_, rfl, rfl, rfl⟩
  obtain ⟨w', hremove, rfl⟩ := (Scan.steady_remove _ _).exists_of_effect_error heffect
  exact ⟨hacyclic, w', hremove,
    ((interrupted_of_remove_error hacyclic hremove).2.1 e w'.heap).mpr ⟨rfl, rfl⟩, rfl, hdone, hkept⟩

/-- At `a[].b.c` the removal is stopped in the second mapping of the list, where `b` holds a number.
By then the mapping under the `b` of the first one has lost its `c`. -/
theorem exists_trace_of_remove_error :
    let w : Workplace := ⟨⟨#[.mapping .plain (.ofList [(.text "a", .object 1)]),
      .list [.object 2, .object 4], .mapping .plain (.ofList [(.text "b", .object 3)]),
      .mapping .plain (.ofList [(.text "c", .integer 1)]),
      .mapping .plain (.ofList [(.text "b", .integer 5)])]⟩, .new 0, #[]⟩
    w.heap.Acyclic ∧ w.heap.IsMapping 0 ∧ ∃ fault w',
      Scan.remove 0 "a[].b.c" w = .error (.shape fault) w' ∧
        (w.heap.entries 3).keys = [.text "c"] ∧ (w'.heap.entries 3).keys = [] := by
  intro w
  have hacyclic : w.heap.Acyclic := Heap.acyclic_of_lt (by decide)
  have hroot : w.heap.IsMapping 0 := ⟨_, _, rfl⟩
  have hstep : Step.decode "a[].b.c" = .ok ⟨"a[].b.c", "a", .every, some "b.c"⟩ := by decide +kernel
  have hnext : Step.decode "b.c" = .ok ⟨"b.c", "b", .key, some "c"⟩ := by decide +kernel
  have hlast : Step.decode "c" = .ok ⟨"c", "c", .key, none⟩ := by decide +kernel
  have heffect : ∃ fault h', (Scan.remove 0 "a[].b.c").effect w.heap = (.error (.shape fault), h') ∧
      (w.heap.entries 3).keys = [.text "c"] ∧ (h'.entries 3).keys = [] := by
    rw [Scan.effect_remove_of_more_every hstep rfl rfl]
    simp only [Scan.effect_remove_of_two hnext rfl rfl hlast rfl rfl]
    exact ⟨_, _, rfl, rfl, rfl⟩
  obtain ⟨fault, h', heffect, hbefore, hafter⟩ := heffect
  obtain ⟨w', hremove, rfl⟩ := (Scan.steady_remove _ _).exists_of_effect_error heffect
  exact ⟨hacyclic, hroot, fault, w', hremove, hbefore, hafter⟩

end DottedPath
