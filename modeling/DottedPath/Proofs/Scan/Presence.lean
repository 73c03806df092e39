import DottedPath.Proofs.SubScanner.Walk

/-!
# What is read and what is there

Reading a path and testing it are two walks of their own, which look at a key, at null, at a shape and
at an index in different orders. They fit together all the same (`get_and_has_fit`): what is read as
something other than null is there, what is not there is read as null, and a fault of the one is the
fault of the other.

The exceptions are steps `name[]` whose key is there and holds something other than a list
(`Heap.Parts`). At the end of a path such a key is there, whatever it holds, and is read only if it
holds null. With more steps behind it the test cannot go on without an index and says so, while the
read stops before, at the null or at the shape.
-/

set_option autoImplicit false
set_option relaxedAutoImplicit false

namespace DottedPath

open Scan

namespace Step

/-- What comes of reading a step `name[]` whose key holds a value that is no list. -/
def partedRead (step : Step) (v : Value) : Except Fault Value :=
  if v = .null then .ok .null
  else .error (.shape ⟨step.name, step.text, .shape .list, v, .read⟩)

/-- What comes of testing a step `name[]` whose key is there. -/
def partedTest (step : Step) : Except Fault Bool :=
  if step.isLast then .ok true else .error (.path step.name step.text .unindexed)

end Step

namespace Heap

/-- Along the first path from the first mapping a walk comes to the second mapping, with the second path
before it. -/
inductive Walks (h : Heap) : Ref → String → Ref → String → Prop
  | here (r : Ref) (path : String) : Walks h r path r path
  | onward {r c d : Ref} {path rest behind : String} {step : Step}
    (hstep : Step.decode path = .ok step) (hrest : step.rest = some rest)
    (hleads : h.Leads r step.hop.slots c) (hmapping : h.IsMapping c)
    (hwalks : Walks h c rest d behind) : Walks h r path d behind

/-- The step is `name[]` and its key is there, but holds no list; at the end of a path not null
either. -/
structure Parts (h : Heap) (r : Ref) (step : Step) (v : Value) : Prop where
  place : step.place = .every
  field : h.field? r step.name = some v
  shape : h.kindOf v ≠ .list
  last : step.rest = none → v ≠ .null

section Moves

variable {h : Heap} {r root : Ref} {step : Step} {v : Value} {path : String}

theorem exists_asList (hshape : h.kindOf v = .list) (field path : String) (mode : AccessMode) :
    ∃ list, h.asList field path mode v = .ok list := by
  cases hlist : h.asList field path mode v with
  | ok list => exact ⟨list, rfl⟩
  | error e => exact absurd hshape (asList_eq_error_iff.mp hlist).1

/-- What reading and testing make of one step: the same fault, results that fit together, or the same
mapping in which they go on; unless they part. -/
inductive MovesFit (h : Heap) (r : Ref) (step : Step) : Prop
  | fault {e : Fault} (hread : h.readMove r step = .error e) (hhas : h.hasMove r step = .error e)
  | done {v : Value} {b : Bool} (hread : h.readMove r step = .ok (.done v))
    (hhas : h.hasMove r step = .ok (.done b)) (hfit : v ≠ .null → b = true)
  | enter {c : Ref} {rest : String} (hrest : step.rest = some rest)
    (hleads : h.Leads r step.hop.slots c) (hmapping : h.IsMapping c)
  | parts {v : Value} (hparts : h.Parts r step v)

theorem isMapping_of_field? {name : String} (hfield : h.field? r name = some v) : h.IsMapping r := by
  rw [field?_eq_slot?] at hfield
  exact suitsAt_field_iff.mp (suitsAt_of_slot? hfield)

/-- At the end of a path. -/
theorem movesFit_of_last (hrest : step.rest = none) : h.MovesFit r step := by
  obtain ⟨text, name, place, rest⟩ := step
  obtain rfl : rest = none := hrest
  cases hfield : h.field? r name with
  | none =>
    exact .done (v := .null) (b := false) (by simp only [readMove, hfield])
      (by simp only [hasMove, hfield]) (absurd rfl)
  | some v =>
    cases place with
    | key =>
      exact .done (v := v) (b := true) (by simp only [readMove, hfield])
        (by simp only [hasMove, hfield]) fun _ ↦ rfl
    | every =>
      by_cases hnull : v = .null
      · exact .done (v := .null) (b := true) (by simp only [readMove, hfield, hnull, if_true])
          (by simp only [hasMove, hfield]) (absurd rfl)
      · by_cases hshape : h.kindOf v = .list
        · obtain ⟨list, hlist⟩ := exists_asList hshape name text .read
          exact .done (v := v) (b := true)
            (by simp only [readMove, hfield, hnull, if_false, hlist, Except.map])
            (by simp only [hasMove, hfield]) fun _ ↦ rfl
        · exact .parts ⟨rfl, hfield, hshape, fun _ ↦ hnull⟩
    | item n =>
      by_cases hnull : v = .null
      · exact .done (v := .null) (b := false) (by simp only [readMove, hfield, hnull, if_true])
          (by simp only [hasMove, hfield, hnull, if_true]) (absurd rfl)
      · cases hlist : h.asList name text .read v with
        | error e =>
          exact .fault (by simp only [readMove, hfield, hnull, if_false, hlist]; rfl)
            (by simp only [hasMove, hfield, hnull, if_false, hlist]; rfl)
        | ok list =>
          refine .done (by simp only [readMove, hfield, hnull, if_false, hlist, Except.map]; rfl)
            (by simp only [hasMove, hfield, hnull, if_false, hlist, Except.map]; rfl) fun hitem ↦ ?_
          rw [decide_eq_true_eq]
          by_contra hlong
          rw [List.getElem?_eq_none (Nat.le_of_not_lt hlong)] at hitem
          exact hitem rfl

/-- With more steps behind it, a step leads both walks to the same mapping, or nowhere. -/
theorem movesFit_of_descend {rest : String} (index : Option Nat) (hrest : step.rest = some rest)
    (hplace : step.place ≠ .every) (hfield : h.field? r step.name = some v)
    (hread : h.readMove r step = (h.descend step .read v index).map (.orElse .null hrest))
    (hhas : h.hasMove r step = (h.descend step .read v index).map (.orElse false hrest)) :
    h.MovesFit r step := by
  cases hdescend : h.descend step .read v index with
  | error e =>
    rw [hdescend] at hread hhas
    exact .fault hread hhas
  | ok child =>
    rw [hdescend] at hread hhas
    cases child with
    | none => exact .done hread hhas (absurd rfl)
    | some c =>
      obtain ⟨hdone, -⟩ | ⟨c', hmove, hleads, hmapping⟩ :=
        leads_or_runsOut_of_more hrest hplace (isMapping_of_field? hfield) hread
      · cases hdone
      · exact .enter hrest hleads hmapping

theorem movesFit_of_more {rest : String} (hrest : step.rest = some rest) : h.MovesFit r step := by
  obtain ⟨text, name, place, rest'⟩ := step
  obtain rfl : rest' = some rest := hrest
  cases hfield : h.field? r name with
  | none =>
    exact .done (v := .null) (b := false) (by simp only [readMove, hfield])
      (by simp only [hasMove, hfield]) (absurd rfl)
  | some v =>
    cases place with
    | key =>
      exact movesFit_of_descend none rfl (by simp) hfield (by simp only [readMove, hfield])
        (by simp only [hasMove, hfield])
    | item n =>
      exact movesFit_of_descend (some n) rfl (by simp) hfield (by simp only [readMove, hfield])
        (by simp only [hasMove, hfield])
    | every =>
      by_cases hshape : h.kindOf v = .list
      · obtain ⟨list, hlist⟩ := exists_asList hshape name text .read
        have hnull : v ≠ .null := by
          rintro rfl
          cases hshape
        refine .fault (e := .path name text .unindexed) ?_ (by simp only [hasMove, hfield])
        simp only [readMove, hfield, hnull, if_false, hlist]
        rfl
      · exact .parts ⟨rfl, hfield, hshape, by simp⟩

theorem movesFit (h : Heap) (r : Ref) (step : Step) : h.MovesFit r step := by
  cases hrest : step.rest with
  | none => exact movesFit_of_last hrest
  | some rest => exact movesFit_of_more hrest

end Moves

/-! ### Whole walks -/

/-- What is read and what is tested fit together: a value other than null is there, and a fault is one
of both. -/
inductive Fit : Except Fault Value → Except Fault Bool → Prop
  | done {v : Value} {b : Bool} (hfit : v ≠ .null → b = true) : Fit (.ok v) (.ok b)
  | fault (e : Fault) : Fit (.error e) (.error e)

section Walks

variable {h : Heap} {root r : Ref} {path text : String} {step : Step} {v : Value}

/-- Where the walks go to, they go on as if they started there. -/
theorem Walks.effect_eq (hwalks : h.Walks root path r text) :
    (get root path).effect h = (get r text).effect h ∧
      (has root path).effect h = (has r text).effect h := by
  induction hwalks with
  | here => exact ⟨rfl, rfl⟩
  | onward hstep hrest hleads hmapping _ ih =>
    obtain ⟨hread, hhas, -⟩ := effect_of_leads hstep hrest hleads hmapping
    rw [hread, hhas]
    exact ih

/-- Reading and testing fit together, or the walks come to a step at which they part. -/
theorem fit_or_parts (h : Heap) (root : Ref) (path : String) :
    Fit ((get root path).effect h).1 ((has root path).effect h).1 ∨
      ∃ r text step v, h.Walks root path r text ∧ Step.decode text = .ok step ∧ h.Parts r step v := by
  induction path using Path.induction generalizing root with
  | broken path e he =>
    rw [follows_get.effect_of_error he, follows_has.effect_of_error he]
    exact .inl (.fault _)
  | last path step hstep hrest =>
    rw [follows_get.effect_of_ok hstep, follows_has.effect_of_ok hstep]
    cases h.movesFit root step with
    | fault hread hhas =>
      rw [hread, hhas]
      exact .inl (.fault _)
    | done hread hhas hfit =>
      rw [hread, hhas]
      exact .inl (.done hfit)
    | enter hmore => simp [hrest] at hmore
    | parts hparts => exact .inr ⟨root, path, step, _, .here root path, hstep, hparts⟩
  | more path step rest hstep hrest ih =>
    cases h.movesFit root step with
    | fault hread hhas =>
      rw [follows_get.effect_of_ok hstep, follows_has.effect_of_ok hstep, hread, hhas]
      exact .inl (.fault _)
    | done hread hhas hfit =>
      rw [follows_get.effect_of_ok hstep, follows_has.effect_of_ok hstep, hread, hhas]
      exact .inl (.done hfit)
    | enter hmore hleads hmapping =>
      obtain rfl := Option.some.inj (hrest.symm.trans hmore)
      have honward := Walks.onward hstep hrest hleads hmapping (.here _ rest)
      rw [honward.effect_eq.1, honward.effect_eq.2]
      refine (ih _).imp_right ?_
      rintro ⟨r, text, step', v, hwalks, hstep', hparts⟩
      exact ⟨r, text, step', v, .onward hstep hrest hleads hmapping hwalks, hstep', hparts⟩
    | parts hparts => exact .inr ⟨root, path, step, _, .here root path, hstep, hparts⟩

/-- What comes of reading and of testing where they part. -/
theorem effect_of_parts (hstep : Step.decode text = .ok step) (hparts : h.Parts r step v) :
    ((get r text).effect h).1 = step.partedRead v ∧ ((has r text).effect h).1 = step.partedTest := by
  obtain ⟨hplace, hfield, hshape, hlast⟩ := hparts
  rw [follows_get.effect_of_ok hstep, follows_has.effect_of_ok hstep]
  obtain ⟨text', name, place, rest⟩ := step
  obtain rfl : place = .every := hplace
  have hlist : h.asList name text' .read v = _ := asList_eq_error_iff.mpr ⟨hshape, rfl⟩
  cases rest with
  | none =>
    have hnull : v ≠ .null := hlast rfl
    simp only [readMove, hasMove, hfield, hnull, if_false, hlist, Step.partedRead]
    exact ⟨rfl, rfl⟩
  | some rest =>
    by_cases hnull : v = .null
    · simp only [readMove, hasMove, hfield, hnull, if_true, Step.partedRead]
      exact ⟨rfl, rfl⟩
    · simp only [readMove, hasMove, hfield, hnull, if_false, hlist, Step.partedRead]
      exact ⟨rfl, rfl⟩

end Walks

end Heap

namespace Scan

/-- One of two outcomes is a fault and the other one is not, or they are faults of different sorts. -/
def Differ {α β : Type} : Except Fault α → Except Fault β → Prop
  | .ok _, .ok _ => False
  | .error e, .error e' => e.ctorIdx ≠ e'.ctorIdx
  | _, _ => True

/-- What is read other than null is there, and what is not there is read as null. A fault of a shape or
of a numeral that testing meets is met by reading, and a path that reading cannot follow cannot be
followed by testing. -/
structure Compatible (got : Except Fault Value) (found : Except Fault Bool) : Prop where
  there : ∀ v, got = .ok v → v ≠ .null → found = .ok true
  absent : found = .ok false → got = .ok .null
  shape : ∀ fault, found = .error (.shape fault) → got = .error (.shape fault)
  numeral : ∀ tooLong, found = .error (.numeral tooLong) → got = .error (.numeral tooLong)
  path : ∀ field text reason, got = .error (.path field text reason) →
    found = .error (.path field text reason)

section Outcomes

variable {got : Except Fault Value} {found : Except Fault Bool}

theorem compatible_of_fit (hfit : Heap.Fit got found) : Compatible got found := by
  cases hfit with
  | @done v b hfit =>
    refine ⟨?_, ?_, nofun, nofun, nofun⟩
    · rintro _ ⟨⟩ hne
      rw [hfit hne]
    · rintro ⟨⟩
      rw [Decidable.of_not_not fun hne ↦ Bool.false_ne_true (hfit hne)]
  | fault e =>
    exact ⟨nofun, nofun, fun _ h ↦ congrArg Except.error (Except.error.inj h),
      fun _ h ↦ congrArg Except.error (Except.error.inj h),
      fun _ _ _ h ↦ congrArg Except.error (Except.error.inj h)⟩

theorem not_differ_of_fit (hfit : Heap.Fit got found) : ¬ Differ got found := by
  cases hfit with
  | done => exact id
  | fault e => exact fun hne ↦ hne rfl

theorem compatible_parted (step : Step) (v : Value) :
    Compatible (step.partedRead v) step.partedTest := by
  unfold Step.partedRead Step.partedTest
  constructor
  all_goals split <;> split <;> simp_all

/-- At the end of a path where null is not read, and everywhere else, the outcomes differ where reading
and testing part. -/
theorem differ_parted {step : Step} {v : Value} (hlast : step.rest = none → v ≠ .null) :
    Differ (step.partedRead v) step.partedTest := by
  unfold Step.partedRead Step.partedTest Step.isLast
  cases hrest : step.rest with
  | none =>
    rw [if_neg (hlast hrest)]
    trivial
  | some rest =>
    by_cases hnull : v = .null
    · rw [if_pos hnull]
      trivial
    · rw [if_neg hnull]
      exact (by decide : (1 : Nat) ≠ 0).symm

end Outcomes

end Scan

/-- Reading a path and testing it in one heap, whatever the two parsers remember. The outcomes are
compatible. One of them is a fault and the other one is not, or they are faults of different sorts,
exactly when the walks come to a step `name[]` whose key is there and holds no list: at the end of the
path something other than null, so that the read meets a shape and the test finds the key; with more
steps behind it anything, so that the test cannot go on, while the read ends at a null and otherwise
meets a shape. -/
theorem get_and_has_fit {root : Ref} {path : String} {w w' : Workplace} (hheap : w'.heap = w.heap) :
    let got := (outcome (get root path w)).1
    let found := (outcome (has root path w')).1
    Compatible got found ∧
    (Differ got found ↔
      ∃ r text step v, w.heap.Walks root path r text ∧ Step.decode text = .ok step ∧
        w.heap.Parts r step v) ∧
    ∀ r text step v, w.heap.Walks root path r text → Step.decode text = .ok step →
      w.heap.Parts r step v → got = step.partedRead v ∧ found = step.partedTest := by
  intro got found
  have hgot : got = ((get root path).effect w.heap).1 := by
    rw [← follows_get.steady root path w]
  have hfound : found = ((has root path).effect w.heap).1 := by
    rw [← hheap, ← follows_has.steady root path w']
  have hparted : ∀ r text step v, w.heap.Walks root path r text → Step.decode text = .ok step →
      w.heap.Parts r step v → got = step.partedRead v ∧ found = step.partedTest := by
    intro r text step v hwalks hstep hparts
    rw [hgot, hfound, hwalks.effect_eq.1, hwalks.effect_eq.2]
    exact Heap.effect_of_parts hstep hparts
  obtain hfit | hparts := Heap.fit_or_parts w.heap root path
  · rw [← hgot, ← hfound] at hfit
    refine ⟨compatible_of_fit hfit, iff_of_false (not_differ_of_fit hfit) ?_, hparted⟩
    rintro ⟨r, text, step, v, hwalks, hstep, hparts⟩
    obtain ⟨hread, htest⟩ := hparted r text step v hwalks hstep hparts
    refine not_differ_of_fit hfit ?_
    rw [hread, htest]
    exact differ_parted hparts.last
  · refine ⟨?_, iff_of_true ?_ hparts, hparted⟩
    all_goals
      obtain ⟨r, text, step, v, hwalks, hstep, hparts⟩ := hparts
      obtain ⟨hread, htest⟩ := hparted r text step v hwalks hstep hparts
      rw [hread, htest]
    · exact compatible_parted step v
    · exact differ_parted hparts.last

/-- At `a[]` there is an integer and at `b[].c` a null is in the way: the integer is no list to be
read, but its key is there; behind the null nothing is read, but nothing can be tested either. -/
theorem get_and_has_fit_parted :
    let w : Workplace :=
      ⟨⟨#[.mapping .plain (.ofList [(.text "a", .integer 5), (.text "b", .null)])]⟩, .new 0, #[]⟩
    let w' : Workplace := { w with parser := .new 2 }
    w'.heap = w.heap ∧
      ((outcome (get 0 "a[]" w)).1 =
          .error (.shape ⟨"a", "a[]", .shape .list, .integer 5, .read⟩) ∧
        (outcome (has 0 "a[]" w')).1 = .ok true) ∧
      (outcome (get 0 "b[].c" w)).1 = .ok .null ∧
        (outcome (has 0 "b[].c" w')).1 = .error (.path "b" "b[].c" .unindexed) := by
  intro w w'
  have ha : Step.decode "a[]" = .ok ⟨"a[]", "a", .every, none⟩ := by decide +kernel
  have hb : Step.decode "b[].c" = .ok ⟨"b[].c", "b", .every, some "c"⟩ := by decide +kernel
  have hheap : w'.heap = w.heap := rfl
  have hfit := fun path ↦ @get_and_has_fit 0 path w w' hheap
  exact ⟨hheap, (hfit "a[]").2.2 0 "a[]" _ _ (.here 0 "a[]") ha ⟨rfl, rfl, nofun, nofun⟩,
    (hfit "b[].c").2.2 0 "b[].c" _ _ (.here 0 "b[].c") hb ⟨rfl, rfl, nofun, nofun⟩⟩

end DottedPath
