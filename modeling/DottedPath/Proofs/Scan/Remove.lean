import DottedPath.Proofs.Scan.Write

/-!
# A removal, slot by slot

A removal goes from container to container and creates nothing on its way: where a slot is missing or
null there is nothing to do (`Heap.visit`). At the end of the path it takes away a key or an item. A
step `name[]` with more steps behind it visits every mapping in the list, one after the other.
`effect_remove_of_last` and the theorems behind it say that this is all that `Scan.remove` does, and
`remove_rel` draws the conclusion for a relation between the heap before and the heap behind.
-/

set_option autoImplicit false
set_option relaxedAutoImplicit false

namespace DottedPath

open Scan

namespace Heap

/-- Does some work in the container in a slot, which has to pass a check, unless the slot is missing
or null. -/
def visit (h : Heap) (r : Ref) (s : Slot) (check : Heap → Value → Except Fault Ref)
    (work : Ref → Heap → Except Fault Unit × Heap) : Except Fault Unit × Heap :=
  if (h.slot? r s).getD .null = .null then (.ok (), h)
  else andThen (check h ((h.slot? r s).getD .null), h) work

/-- Removes a key of a mapping that is there. -/
def unset (h : Heap) (r : Ref) (name : String) : Except Fault Unit × Heap :=
  match h.slot? r (.field name) with
  | none => (.ok (), h)
  | some _ => changed h (h.delete r (.text name))

section Visit

variable {h h' : Heap} {r c : Ref} {s : Slot} {check : Heap → Value → Except Fault Ref}
variable {work : Ref → Heap → Except Fault Unit × Heap}

theorem visit_of_getD (hnull : (h.slot? r s).getD .null = .null) :
    h.visit r s check work = (.ok (), h) := by
  rw [visit, if_pos hnull]

theorem visit_of_slot? (hslot : h.slot? r s = some (.object c))
    (hcheck : check h (.object c) = .ok c) : h.visit r s check work = work c h := by
  rw [visit, hslot, Option.getD_some, if_neg (by simp), hcheck, andThen_ok]

theorem visit_of_error {v : Value} {e : Fault} (hslot : h.slot? r s = some v) (hv : v ≠ .null)
    (hcheck : check h v = .error e) : h.visit r s check work = (.error e, h) := by
  rw [visit, hslot, Option.getD_some, if_neg hv, hcheck, andThen_error]

/-- A visit that succeeds has found nothing in the slot, or has done its work in the container there. -/
theorem visit_eq_ok (hcheck : ∀ v c, check h v = .ok c → v = .object c)
    (hvisit : h.visit r s check work = (.ok (), h')) :
    ((h.slot? r s).getD .null = .null ∧ h' = h) ∨
      ∃ c, h.slot? r s = some (.object c) ∧ check h (.object c) = .ok c ∧
        work c h = (.ok (), h') := by
  unfold visit at hvisit
  split at hvisit
  · next hnull => exact .inl ⟨hnull, (congrArg Prod.snd hvisit).symm⟩
  · next hnull =>
    obtain ⟨c, h₁, hchecked, hwork⟩ := andThen_eq_ok hvisit
    obtain ⟨hok, rfl⟩ := Prod.mk.inj hchecked
    have hvalue := hcheck _ _ hok
    exact .inr ⟨c, slot?_of_getD hvalue (hvalue ▸ hnull), hvalue ▸ hok, hwork⟩

/-- A visit is stopped by the check before it has changed anything, or in the container that the slot
holds. -/
theorem visit_eq_error {e : Fault} (hcheck : ∀ v c, check h v = .ok c → v = .object c)
    (hvisit : h.visit r s check work = (.error e, h')) :
    (h' = h ∧ ∃ v, h.slot? r s = some v ∧ v ≠ .null ∧ check h v = .error e) ∨
      ∃ c, h.slot? r s = some (.object c) ∧ check h (.object c) = .ok c ∧
        work c h = (.error e, h') := by
  unfold visit at hvisit
  split at hvisit
  · simp at hvisit
  · next hnull =>
    cases hchecked : check h ((h.slot? r s).getD .null) with
    | error e' =>
      rw [hchecked, andThen_error] at hvisit
      simp only [Prod.mk.injEq, Except.error.injEq] at hvisit
      obtain ⟨rfl, rfl⟩ := hvisit
      exact .inl ⟨rfl, _, slot?_of_getD rfl hnull, hnull, hchecked⟩
    | ok c =>
      have hvalue := hcheck _ _ hchecked
      rw [hchecked, andThen_ok] at hvisit
      exact .inr ⟨c, slot?_of_getD hvalue (hvalue ▸ hnull), hvalue ▸ hchecked, hvisit⟩

/-- A key is not taken away only where a read-only mapping holds it. -/
theorem unset_eq_error_iff {name : String} {e : Fault} :
    h.unset r name = (.error e, h') ↔
      (∃ v, h.slot? r (.field name) = some v) ∧ h.isReadOnly r = true ∧ e = .refused .deletion ∧
        h' = h := by
  unfold unset delete
  cases h.slot? r (.field name) with
  | none => simp
  | some v => cases h.isReadOnly r <;> simp [changed, eq_comm]

end Visit

section Sweep

variable {h h' : Heap} {work : Ref → Heap → Except Fault Unit × Heap} {rs : List Ref}

theorem sweep_append (work : Ref → Heap → Except Fault Unit × Heap) (rs₁ rs₂ : List Ref)
    (h : Heap) : sweep work (rs₁ ++ rs₂) h = andThen (sweep work rs₁ h) fun _ ↦ sweep work rs₂ := by
  induction rs₁ generalizing h with
  | nil => rfl
  | cons r rs₁ ih =>
    rw [List.cons_append, sweep, sweep]
    rcases work r h with ⟨_ | _, h₁⟩
    · rfl
    · exact ih h₁

/-- A sweep is stopped in one of the mappings after it has been done in those before. -/
theorem sweep_eq_error {e : Fault} (hsweep : sweep work rs h = (.error e, h')) :
    ∃ done r others h₁, rs = done ++ r :: others ∧ sweep work done h = (.ok (), h₁) ∧
      work r h₁ = (.error e, h') := by
  induction rs generalizing h with
  | nil => simp [sweep] at hsweep
  | cons r rs ih =>
    rw [sweep] at hsweep
    cases hwork : work r h with
    | mk outcome h₁ =>
      rw [hwork] at hsweep
      cases outcome with
      | error e' =>
        rw [andThen_error] at hsweep
        exact ⟨[], r, rs, h, rfl, rfl, hwork.trans hsweep⟩
      | ok _ =>
        obtain ⟨done, r', others, h₂, rfl, hdone, herror⟩ := ih hsweep
        refine ⟨r :: done, r', others, h₂, rfl, ?_, herror⟩
        rw [sweep, hwork, andThen_ok, hdone]

end Sweep

theorem getElem?_of_asList {h : Heap} {field path : String} {mode : AccessMode} {v : Value}
    {list : Ref × List Value} (hlist : h.asList field path mode v = .ok list) (n : Nat) :
    list.2[n]? = h.slot? list.1 (.index n) := by
  rw [slot?, (of_asList hlist).2]
  rfl

end Heap

namespace Scan

section Step

variable {path rest : String} {step : Step} {root : Ref} {h : Heap}

theorem andThen_unit (x : Except Fault Unit × Heap) : andThen x (fun _ h ↦ (.ok (), h)) = x := by
  obtain ⟨_ | _, h⟩ := x <;> rfl

theorem andThen_map {α β γ : Type} (x : Except Fault α) (g : α → β) (h : Heap)
    (next : β → Heap → Except Fault γ × Heap) :
    andThen (x.map g, h) next = andThen (x, h) fun a h ↦ next (g a) h := by
  cases x <;> rfl

/-- At a last step that is a key, a removal takes the key away. -/
theorem effect_remove_of_last (hstep : Step.decode path = .ok step) (hrest : step.rest = none)
    (hplace : step.place = .key) : (remove root path).effect h = h.unset root step.name := by
  rw [effect_remove_of_ok hstep]
  obtain ⟨text, name, place, rest⟩ := step
  obtain rfl : rest = none := hrest
  obtain rfl : place = .key := hplace
  simp only [Heap.removeMove, Heap.unset, Heap.field?_eq_slot?]
  cases h.slot? root (.field name) with
  | none => rfl
  | some v => cases hdelete : h.delete root (.text name) <;> rfl

/-- At a last step `name[]`, a removal takes the key away, which has to hold a list or null. -/
theorem effect_remove_of_last_every (hstep : Step.decode path = .ok step) (hrest : step.rest = none)
    (hplace : step.place = .every) :
    (remove root path).effect h =
      andThen (h.visit root (.field step.name) step.checkList fun _ h ↦ (.ok (), h)) fun _ h ↦
        h.unset root step.name := by
  rw [effect_remove_of_ok hstep]
  obtain ⟨text, name, place, rest⟩ := step
  obtain rfl : rest = none := hrest
  obtain rfl : place = .every := hplace
  simp only [Heap.removeMove, Heap.visit, Heap.unset, Heap.field?_eq_slot?]
  cases hslot : h.slot? root (.field name) with
  | none => simp [hslot]
  | some v =>
    by_cases hv : v = .null
    · subst hv
      simp only [Option.getD_some, if_true, andThen_ok, hslot]
      cases hdelete : h.delete root (.text name) <;> simp_all [changed]
    · simp only [Option.getD_some, hv, if_false, Step.checkList, ne_eq, not_false_eq_true, if_true]
      cases h.asList name text .write v with
      | error fault => rfl
      | ok list =>
        simp only [Except.map, andThen_ok, hslot]
        show andThen ((h.delete root (.text name)).map Removal.done, h) _ = _
        cases h.delete root (.text name) <;> rfl

/-- At a last step `name[n]`, a removal takes away the item of the list. -/
theorem effect_remove_of_last_item {n : Nat} (hstep : Step.decode path = .ok step)
    (hrest : step.rest = none) (hplace : step.place = .item n) :
    (remove root path).effect h =
      h.visit root (.field step.name) step.checkList fun list h ↦
        (.ok (), h.mapItems list fun items ↦ items.eraseIdx n) := by
  rw [effect_remove_of_ok hstep]
  obtain ⟨text, name, place, rest⟩ := step
  obtain rfl : rest = none := hrest
  obtain rfl : place = .item n := hplace
  simp only [Heap.removeMove, Heap.visit, Heap.field?_eq_slot?]
  cases hslot : h.slot? root (.field name) with
  | none => rfl
  | some v =>
    by_cases hv : v = .null
    · subst hv
      rfl
    · simp only [Option.getD_some, hv, if_false, Step.checkList]
      cases h.asList name text .write v <;> rfl

/-- At a key with more steps behind it, a removal goes on in the mapping under the key. -/
theorem effect_remove_of_more (hstep : Step.decode path = .ok step) (hrest : step.rest = some rest)
    (hplace : step.place = .key) :
    (remove root path).effect h =
      h.visit root (.field step.name) step.checkMapping fun child ↦ (remove child rest).effect := by
  rw [effect_remove_of_ok hstep]
  obtain ⟨text, name, place, rest'⟩ := step
  obtain rfl : rest' = some rest := hrest
  obtain rfl : place = .key := hplace
  simp only [Heap.removeMove, Heap.visit, Heap.field?_eq_slot?]
  cases hslot : h.slot? root (.field name) with
  | none => rfl
  | some v =>
    simp only [Option.getD_some, Heap.descend_none, Step.checkMapping, Step.label]
    split
    · rfl
    · cases h.asMapping name text .write v with
      | error fault => rfl
      | ok child => exact andThen_unit _

/-- Along a path of two keys, a removal takes the second one away in the mapping under the first one. -/
theorem effect_remove_of_two {last : Step} (hstep : Step.decode path = .ok step)
    (hrest : step.rest = some rest) (hplace : step.place = .key) (hlast : Step.decode rest = .ok last)
    (hend : last.rest = none) (hkey : last.place = .key) (root : Ref) :
    (remove root path).effect = fun h ↦
      h.visit root (.field step.name) step.checkMapping fun child h ↦ h.unset child last.name := by
  have hunset (child : Ref) : (remove child rest).effect = fun h ↦ h.unset child last.name :=
    funext fun h ↦ effect_remove_of_last hlast hend hkey
  funext h
  rw [effect_remove_of_more hstep hrest hplace]
  simp only [hunset]

/-- At a step `name[n]` with more steps behind it, a removal goes on in the mapping at the index. -/
theorem effect_remove_of_more_item {n : Nat} (hstep : Step.decode path = .ok step)
    (hrest : step.rest = some rest) (hplace : step.place = .item n) :
    (remove root path).effect h =
      h.visit root (.field step.name) step.checkList fun list h ↦
        h.visit list (.index n) step.checkMapping fun child ↦ (remove child rest).effect := by
  rw [effect_remove_of_ok hstep]
  obtain ⟨text, name, place, rest'⟩ := step
  obtain rfl : rest' = some rest := hrest
  obtain rfl : place = .item n := hplace
  simp only [Heap.removeMove, Heap.visit, Heap.field?_eq_slot?]
  cases hslot : h.slot? root (.field name) with
  | none => rfl
  | some v =>
    simp only [Option.getD_some, Heap.descend_some, Step.checkMapping, Step.checkList]
    split
    · rfl
    · cases hlist : h.asList name text .write v with
      | error fault => rfl
      | ok list =>
        simp only [Except.bind, andThen_map, andThen_ok, ← Heap.getElem?_of_asList hlist]
        by_cases hnull : list.2[n]?.getD .null = .null
        · simp only [hnull, if_true]
          rfl
        · simp only [hnull, if_false]
          cases h.asMapping _ text .write (list.2[n]?.getD .null) with
          | error fault => rfl
          | ok child => exact andThen_unit _

/-- At a step `name[]` with more steps behind it, a removal goes on in every mapping in the list. -/
theorem effect_remove_of_more_every (hstep : Step.decode path = .ok step)
    (hrest : step.rest = some rest) (hplace : step.place = .every) :
    (remove root path).effect h =
      h.visit root (.field step.name) step.checkList fun list h ↦
        sweep (fun child ↦ (remove child rest).effect) (h.mappingsAmong (h.items list)) h := by
  rw [effect_remove_of_ok hstep]
  obtain ⟨text, name, place, rest'⟩ := step
  obtain rfl : rest' = some rest := hrest
  obtain rfl : place = .every := hplace
  simp only [Heap.removeMove, Heap.visit, Heap.field?_eq_slot?]
  cases hslot : h.slot? root (.field name) with
  | none => rfl
  | some v =>
    simp only [Option.getD_some, Step.checkList]
    split
    · rfl
    · cases hlist : h.asList name text .write v with
      | error fault => rfl
      | ok list =>
        have hitems : h.items list.1 = list.2 := by
          rw [Heap.items, (Heap.of_asList hlist).2]
        simp only [Except.map, andThen_ok, hitems]

end Step

end Scan

/-! ### The heap before and the heap behind -/

/-- The last step of the path is `name[n]`. -/
def Path.EndsAtItem (path : String) : Prop := ∃ hop ∈ (hops path).getLast?, ∃ n, hop.place = .item n

namespace Path

variable {path rest : String} {step : Step}

theorem endsAtItem_of_last (hstep : Step.decode path = .ok step) (hrest : step.rest = none) :
    EndsAtItem path ↔ ∃ n, step.place = .item n := by
  simp [EndsAtItem, hops_of_last hstep hrest, Step.hop]

theorem endsAtItem_of_more (hstep : Step.decode path = .ok step) (hrest : step.rest = some rest) :
    EndsAtItem path ↔ EndsAtItem rest := by
  obtain ⟨hop, hops, hhops⟩ := List.exists_cons_of_ne_nil (hops_ne_nil rest)
  rw [EndsAtItem, EndsAtItem, hops_of_more hstep hrest, hhops, List.getLast?_cons_cons]

end Path

/-- No step `name[]` of the path has more steps behind it. -/
def Path.Single (path : String) : Prop := ∀ hop ∈ (hops path).dropLast, hop.place ≠ .every

namespace Path

variable {path rest : String} {step : Step}

theorem dropLast_hops_of_more (hstep : Step.decode path = .ok step) (hrest : step.rest = some rest) :
    (hops path).dropLast = step.hop :: (hops rest).dropLast := by
  rw [hops_of_more hstep hrest, List.dropLast_cons_of_ne_nil (hops_ne_nil rest)]

theorem single_of_more (hstep : Step.decode path = .ok step) (hrest : step.rest = some rest)
    (hsingle : Single path) : step.place ≠ .every ∧ Single rest := by
  rw [Single, dropLast_hops_of_more hstep hrest] at hsingle
  constructor
  · exact hsingle step.hop (List.mem_cons_self ..)
  · intro hop hhop
    exact hsingle hop (List.mem_cons_of_mem _ hhop)

end Path

section Relation

variable {R : Heap → Heap → Prop} {h : Heap}

theorem Heap.visit_rel {r : Ref} {s : Slot} {check : Heap → Value → Except Fault Ref}
    {work : Ref → Heap → Except Fault Unit × Heap} (hrefl : R h h)
    (hwork : ∀ c, R h (work c h).2) : R h (h.visit r s check work).2 := by
  unfold visit
  split
  · exact hrefl
  · cases check h ((h.slot? r s).getD .null) with
    | error e => exact hrefl
    | ok c => exact hwork c

theorem Heap.sweep_rel {work : Ref → Heap → Except Fault Unit × Heap} (hrefl : ∀ h, R h h)
    (htrans : ∀ h h' h'', R h h' → R h' h'' → R h h'') (hwork : ∀ c h, R h (work c h).2)
    (rs : List Ref) : R h (sweep work rs h).2 := by
  induction rs generalizing h with
  | nil => exact hrefl h
  | cons r rs ih =>
    have hfirst := hwork r h
    rw [sweep]
    generalize work r h = x at hfirst ⊢
    obtain ⟨e | _, h₁⟩ := x
    · exact hfirst
    · exact htrans _ _ _ hfirst ih

theorem Heap.visit_snd {r : Ref} {s : Slot} {check : Heap → Value → Except Fault Ref}
    {work : Ref → Heap → Except Fault Unit × Heap} (hwork : ∀ c h, (work c h).2 = h) :
    (h.visit r s check work).2 = h :=
  visit_rel (R := fun h h' ↦ h' = h) rfl fun c ↦ hwork c h

theorem Heap.sweep_snd {work : Ref → Heap → Except Fault Unit × Heap}
    (hwork : ∀ c h, (work c h).2 = h) (rs : List Ref) (h : Heap) : (sweep work rs h).2 = h :=
  sweep_rel (R := fun h h' ↦ h' = h) (fun _ ↦ rfl) (fun _ _ _ hfirst hlast ↦ hlast.trans hfirst)
    hwork rs

/-- A removal takes keys away, or items when its last step is `name[n]`, and does nothing else. What
holds between the heaps before and behind such a change, and can be put together, holds between the
heaps before and behind the removal, however it ends. -/
theorem remove_rel (hrefl : ∀ h, R h h) (htrans : ∀ h h' h'', R h h' → R h' h'' → R h h'')
    (hunset : ∀ h r name, R h (h.unset r name).2) (root : Ref) (path : String)
    (herase : Path.EndsAtItem path → ∀ h r n, R h (h.mapItems r fun items ↦ items.eraseIdx n))
    (h : Heap) : R h ((remove root path).effect h).2 := by
  induction path using Path.induction generalizing root h with
  | broken path e he =>
    rw [effect_remove_of_error he]
    exact hrefl h
  | last path step hstep hrest =>
    cases hplace : step.place with
    | key =>
      rw [effect_remove_of_last hstep hrest hplace]
      exact hunset h root step.name
    | item n =>
      rw [effect_remove_of_last_item hstep hrest hplace]
      exact Heap.visit_rel (hrefl h) fun list ↦
        herase ((Path.endsAtItem_of_last hstep hrest).mpr ⟨n, hplace⟩) h list n
    | every =>
      have hfirst : R h (h.visit root (.field step.name) step.checkList fun _ h ↦ (.ok (), h)).2 :=
        Heap.visit_rel (hrefl h) fun _ ↦ hrefl h
      rw [effect_remove_of_last_every hstep hrest hplace]
      generalize h.visit root (.field step.name) step.checkList _ = x at hfirst ⊢
      obtain ⟨e | _, h₁⟩ := x
      · exact hfirst
      · exact htrans _ _ _ hfirst (hunset h₁ root step.name)
  | more path step rest hstep hrest ih =>
    have hchild : ∀ child h, R h ((remove child rest).effect h).2 := fun child h ↦
      ih child (fun hends ↦ herase ((Path.endsAtItem_of_more hstep hrest).mpr hends)) h
    cases hplace : step.place with
    | key =>
      rw [effect_remove_of_more hstep hrest hplace]
      exact Heap.visit_rel (hrefl h) fun child ↦ hchild child h
    | item n =>
      rw [effect_remove_of_more_item hstep hrest hplace]
      exact Heap.visit_rel (hrefl h) fun list ↦
        Heap.visit_rel (hrefl h) fun child ↦ hchild child h
    | every =>
      rw [effect_remove_of_more_every hstep hrest hplace]
      exact Heap.visit_rel (hrefl h) fun list ↦ Heap.sweep_rel hrefl htrans hchild _

end Relation

end DottedPath
