import DottedPath.Proofs.Scan.Remove

/-!
# A read, slot by slot

A read goes from container to container as a removal does, and where a slot is missing or null it ends
with null (`Heap.seek`). A step `name[]` is read to its list at the end of a path; with more steps
behind it the read cannot go on. `effect_get_of_last` and the theorems behind it say that this is all
that `Scan.get` does.
-/

set_option autoImplicit false
set_option relaxedAutoImplicit false

namespace DottedPath

open Scan

namespace Heap

/-- Reads on in the container in a slot, which has to pass a check; there is null where the slot is
missing or null. -/
def seek (h : Heap) (r : Ref) (s : Slot) (check : Heap → Value → Except Fault Ref)
    (read : Ref → Except Fault Value × Heap) : Except Fault Value × Heap :=
  if (h.slot? r s).getD .null = .null then (.ok .null, h)
  else andThen (check h ((h.slot? r s).getD .null), h) fun c _ ↦ read c

theorem seek_of_null {h : Heap} {r : Ref} {s : Slot} (hnull : (h.slot? r s).getD .null = .null)
    (check : Heap → Value → Except Fault Ref) (read : Ref → Except Fault Value × Heap) :
    h.seek r s check read = (.ok .null, h) := if_pos hnull

theorem seek_of_ok {h : Heap} {r c : Ref} {s : Slot} {check : Heap → Value → Except Fault Ref}
    (hne : (h.slot? r s).getD .null ≠ .null) (hok : check h ((h.slot? r s).getD .null) = .ok c)
    (read : Ref → Except Fault Value × Heap) : h.seek r s check read = read c := by
  rw [seek, if_neg hne, hok, andThen_ok]

theorem seek_of_error {h : Heap} {r : Ref} {s : Slot} {check : Heap → Value → Except Fault Ref}
    {e : Fault} (hne : (h.slot? r s).getD .null ≠ .null)
    (herror : check h ((h.slot? r s).getD .null) = .error e)
    (read : Ref → Except Fault Value × Heap) : h.seek r s check read = (.error e, h) := by
  rw [seek, if_neg hne, herror, andThen_error]

/-- What a place addresses in a list: the item at an index, which is null when it is missing, or
else the list itself. -/
def addressed (h : Heap) (list : Ref) : Place → Value
  | .item n => (h.slot? list (.index n)).getD .null
  | _ => .object list

end Heap

namespace Step

/-- The mapping at a value on the way of a read. -/
def readMapping (step : Step) (h : Heap) (v : Value) : Except Fault Ref :=
  h.asMapping step.label step.text .read v

/-- The list at a value on the way of a read. -/
def readList (step : Step) (h : Heap) (v : Value) : Except Fault Ref :=
  (h.asList step.name step.text .read v).map Prod.fst

section Fails

variable {step : Step} {h : Heap} {v : Value} {e : Fault}

theorem readMapping_eq_error_iff :
    step.readMapping h v = .error e ↔
      h.kindOf v ≠ .mapping ∧ e = .shape ⟨step.label, step.text, .shape .mapping, v, .read⟩ :=
  Heap.asMapping_eq_error_iff

theorem readList_eq_error_iff :
    step.readList h v = .error e ↔
      h.kindOf v ≠ .list ∧ e = .shape ⟨step.name, step.text, .shape .list, v, .read⟩ :=
  map_eq_error_iff.trans Heap.asList_eq_error_iff

end Fails

end Step

namespace Scan

section Step

variable {path rest : String} {step : Step} {root : Ref} {h : Heap}

/-- At a last step that is a key, a read gives the value under the key. -/
theorem effect_get_of_last (hstep : Step.decode path = .ok step) (hrest : step.rest = none)
    (hplace : step.place = .key) :
    (get root path).effect h = (.ok ((h.slot? root (.field step.name)).getD .null), h) := by
  rw [follows_get.effect_of_ok hstep]
  obtain ⟨text, name, place, rest⟩ := step
  obtain rfl : rest = none := hrest
  obtain rfl : place = .key := hplace
  simp only [Heap.readMove, Heap.field?_eq_slot?]
  cases h.slot? root (.field name) <;> rfl

/-- At a last step to a list, a read gives what it addresses there. -/
theorem effect_get_of_last_list (hstep : Step.decode path = .ok step) (hrest : step.rest = none)
    (hplace : step.place ≠ .key) :
    (get root path).effect h =
      h.seek root (.field step.name) step.readList fun list ↦
        (.ok (h.addressed list step.place), h) := by
  rw [follows_get.effect_of_ok hstep]
  obtain ⟨text, name, place, rest⟩ := step
  obtain rfl : rest = none := hrest
  simp only [Heap.readMove, Heap.seek, Heap.field?_eq_slot?]
  cases h.slot? root (.field name) with
  | none => rfl
  | some v =>
    cases place with
    | key => exact absurd rfl hplace
    | every | item n =>
      by_cases hv : v = .null
      · subst hv
        rfl
      · simp only [Option.getD_some, hv, if_false, Step.readList]
        cases hlist : h.asList name text .read v with
        | error fault => rfl
        | ok list =>
          simp only [Except.map, andThen_ok, Heap.addressed, ← Heap.getElem?_of_asList hlist,
            (Heap.of_asList hlist).1]
          rfl

/-- At a key with more steps behind it, a read goes on in the mapping under the key. -/
theorem effect_get_of_more (hstep : Step.decode path = .ok step) (hrest : step.rest = some rest)
    (hplace : step.place = .key) :
    (get root path).effect h =
      h.seek root (.field step.name) step.readMapping fun child ↦ (get child rest).effect h := by
  rw [follows_get.effect_of_ok hstep]
  obtain ⟨text, name, place, rest'⟩ := step
  obtain rfl : rest' = some rest := hrest
  obtain rfl : place = .key := hplace
  simp only [Heap.readMove, Heap.seek, Heap.field?_eq_slot?]
  cases h.slot? root (.field name) with
  | none => rfl
  | some v =>
    simp only [Option.getD_some, Heap.descend_none, Step.readMapping, Step.label]
    split
    · rfl
    · cases h.asMapping name text .read v <;> rfl

/-- At a step `name[n]` with more steps behind it, a read goes on in the mapping at the index. -/
theorem effect_get_of_more_item {n : Nat} (hstep : Step.decode path = .ok step)
    (hrest : step.rest = some rest) (hplace : step.place = .item n) :
    (get root path).effect h =
      h.seek root (.field step.name) step.readList fun list ↦
        h.seek list (.index n) step.readMapping fun child ↦ (get child rest).effect h := by
  rw [follows_get.effect_of_ok hstep]
  obtain ⟨text, name, place, rest'⟩ := step
  obtain rfl : rest' = some rest := hrest
  obtain rfl : place = .item n := hplace
  simp only [Heap.readMove, Heap.seek, Heap.field?_eq_slot?]
  cases h.slot? root (.field name) with
  | none => rfl
  | some v =>
    simp only [Option.getD_some, Heap.descend_some, Step.readMapping, Step.readList]
    split
    · rfl
    · cases hlist : h.asList name text .read v with
      | error fault => rfl
      | ok list =>
        simp only [Except.bind, Except.map, andThen_ok, ← Heap.getElem?_of_asList hlist]
        by_cases hnull : list.2[n]?.getD .null = .null
        · simp only [hnull, if_true]
          rfl
        · simp only [hnull, if_false]
          cases h.asMapping _ text .read (list.2[n]?.getD .null) <;> rfl

/-- At a step `name[]` with more steps behind it, a read cannot go on in the list. -/
theorem effect_get_of_more_every (hstep : Step.decode path = .ok step)
    (hrest : step.rest = some rest) (hplace : step.place = .every) :
    (get root path).effect h =
      h.seek root (.field step.name) step.readList fun _ ↦
        (.error (.path step.name step.text .unindexed), h) := by
  rw [follows_get.effect_of_ok hstep]
  obtain ⟨text, name, place, rest'⟩ := step
  obtain rfl : rest' = some rest := hrest
  obtain rfl : place = .every := hplace
  simp only [Heap.readMove, Heap.seek, Heap.field?_eq_slot?]
  cases h.slot? root (.field name) with
  | none => rfl
  | some v =>
    simp only [Option.getD_some, Step.readList]
    split
    · rfl
    · cases h.asList name text .read v <;> rfl

end Step

end Scan

/-! ### What can stop a read -/

/-- What can stop a read: the shape of something on its way, a numeral with too many digits, or a
step `name[]` of the path with more steps behind it. -/
inductive Fault.OfRead (path : String) : Fault → Prop
  | shape {fault : ShapeFault} (hmode : fault.mode = .read) : OfRead path (.shape fault)
  | numeral {tooLong : LongNumeral} : OfRead path (.numeral tooLong)
  | unindexed {field text : String} (hevery : ∃ hop ∈ Path.hops path, hop.place = .every) :
    OfRead path (.path field text .unindexed)

section Faults

variable {path rest : String} {step : Step} {h : Heap} {root : Ref} {e : Fault}

theorem Heap.seek_eq_error {r : Ref} {s : Slot} {check : Heap → Value → Except Fault Ref}
    {read : Ref → Except Fault Value × Heap} (hseek : (h.seek r s check read).1 = .error e) :
    (∃ v, check h v = .error e) ∨ ∃ c, (read c).1 = .error e := by
  by_cases hnull : (h.slot? r s).getD .null = .null
  · rw [seek_of_null hnull] at hseek
    cases hseek
  · cases hcheck : check h ((h.slot? r s).getD .null) with
    | ok c =>
      rw [seek_of_ok hnull hcheck] at hseek
      exact .inr ⟨c, hseek⟩
    | error e' =>
      rw [seek_of_error hnull hcheck] at hseek
      obtain rfl : e' = e := Except.error.inj hseek
      exact .inl ⟨_, hcheck⟩

/-- What stops the rest of a path is what can stop the path. -/
theorem Fault.OfRead.of_more (hstep : Step.decode path = .ok step) (hrest : step.rest = some rest)
    (he : e.OfRead rest) : e.OfRead path := by
  cases he with
  | shape hmode => exact .shape hmode
  | numeral => exact .numeral
  | unindexed hevery =>
    obtain ⟨hop, hhop, hplace⟩ := hevery
    refine .unindexed ⟨hop, ?_, hplace⟩
    rw [Path.hops_of_more hstep hrest]
    exact List.mem_cons_of_mem _ hhop

theorem Fault.ofRead_of_get (hget : ((get root path).effect h).1 = .error e) : e.OfRead path := by
  induction path using Path.induction generalizing root with
  | broken path e' he =>
    rw [follows_get.effect_of_error he] at hget
    cases hget
    exact .numeral
  | last path step hstep hrest =>
    by_cases hplace : step.place = .key
    · rw [effect_get_of_last hstep hrest hplace] at hget
      cases hget
    · rw [effect_get_of_last_list hstep hrest hplace] at hget
      obtain ⟨v, hcheck⟩ | ⟨list, hread⟩ := Heap.seek_eq_error hget
      · obtain ⟨-, rfl⟩ := Step.readList_eq_error_iff.mp hcheck
        exact .shape rfl
      · cases hread
  | more path step rest hstep hrest ih =>
    cases hplace : step.place with
    | key =>
      rw [effect_get_of_more hstep hrest hplace] at hget
      obtain ⟨v, hcheck⟩ | ⟨child, hread⟩ := Heap.seek_eq_error hget
      · obtain ⟨-, rfl⟩ := Step.readMapping_eq_error_iff.mp hcheck
        exact .shape rfl
      · exact (ih hread).of_more hstep hrest
    | item n =>
      rw [effect_get_of_more_item hstep hrest hplace] at hget
      obtain ⟨v, hcheck⟩ | ⟨list, hread⟩ := Heap.seek_eq_error hget
      · obtain ⟨-, rfl⟩ := Step.readList_eq_error_iff.mp hcheck
        exact .shape rfl
      · obtain ⟨v, hcheck⟩ | ⟨child, hread⟩ := Heap.seek_eq_error hread
        · obtain ⟨-, rfl⟩ := Step.readMapping_eq_error_iff.mp hcheck
          exact .shape rfl
        · exact (ih hread).of_more hstep hrest
    | every =>
      rw [effect_get_of_more_every hstep hrest hplace] at hget
      obtain ⟨v, hcheck⟩ | ⟨list, hread⟩ := Heap.seek_eq_error hget
      · obtain ⟨-, rfl⟩ := Step.readList_eq_error_iff.mp hcheck
        exact .shape rfl
      · cases hread
        refine .unindexed ⟨step.hop, ?_, hplace⟩
        rw [Path.hops_of_more hstep hrest]
        exact List.mem_cons_self

end Faults

end DottedPath
