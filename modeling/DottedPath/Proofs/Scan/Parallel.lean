import DottedPath.Proofs.Path.Labels
import DottedPath.Proofs.Scan.Write

/-!
# Work along paths that are read in parallel

The steps of two paths that are read in parallel differ in their texts alone, and of these a scan
makes no use but to say in a fault where it was. So it does the same along both paths, up to the text
of the path in a fault (`Scan.SameButPath`): the steps of a read, a test and a removal are the same
when the texts are left out (`Heap.withoutPath_readMove`, `Heap.withoutPath_hasMove`,
`Heap.withoutPath_removeMove`), and so are the checks of a write (`Step.withoutPath_checkMapping` and
those behind it).

Paths with the same labels are read in parallel, so it makes no difference to a scan which of them it
is given (`labels_encode`).
-/

set_option autoImplicit false
set_option relaxedAutoImplicit false

namespace DottedPath

open Scan

/-- The fault without the text of the path in which it was met. -/
def Fault.withoutPath : Fault → Fault
  | .shape fault => .shape { fault with path := "" }
  | .path field _ reason => .path field "" reason
  | .assertion _ difference => .assertion "" difference
  | e => e

theorem mapError_map {ε ε' α β : Type} (x : Except ε α) (f : α → β) (g : ε → ε') :
    (x.map f).mapError g = (x.mapError g).map f := by
  cases x <;> rfl

theorem mapError_bind {ε ε' α β : Type} (x : Except ε α) (f : α → Except ε β) (g : ε → ε') :
    (x.bind f).mapError g = (x.mapError g).bind fun a ↦ (f a).mapError g := by
  cases x <;> rfl

/-- What comes of a check that succeeds is the same if it is so for what is made of it. -/
theorem mapError_map_congr {α β β' γ : Type} {x y : Except Fault α}
    (hxy : x.mapError Fault.withoutPath = y) {f : α → β} {f' : α → β'} {g : β → γ} {g' : β' → γ}
    (hfg : ∀ a, g (f a) = g' (f' a)) :
    ((x.map f).map g).mapError Fault.withoutPath = (y.map f').map g' := by
  subst hxy
  cases x with
  | error e => rfl
  | ok a => exact congrArg Except.ok (hfg a)

/-- What the step says without its texts. -/
def Step.withoutText (step : Step) : Step :=
  { step with text := "", rest := step.rest.map fun _ ↦ "" }

theorem Step.withoutText_congr {step step' : Step} (hhop : step.hop = step'.hop)
    (hrest : step.rest.isSome = step'.rest.isSome) : step.withoutText = step'.withoutText := by
  obtain ⟨text, name, place, rest⟩ := step
  obtain ⟨text', name', place', rest'⟩ := step'
  obtain ⟨rfl, rfl⟩ := Hop.mk.inj hhop
  cases rest <;> cases rest' <;> first | rfl | cases hrest

/-! ### Single steps -/

/-- What a move ends with, or the mapping that it leads to. -/
def Move.target {step : Step} {α : Type} (move : Move step α) : α ⊕ Ref :=
  move.elim .inl fun child _ ↦ .inr child

theorem Move.target_orElse {step step' : Step} {α : Type} (missing : α) {rest rest' : String}
    (hrest : step.rest = some rest) (hrest' : step'.rest = some rest') (child : Option Ref) :
    (Move.orElse missing hrest child).target = (Move.orElse missing hrest' child).target := by
  cases child <;> rfl

/-- The heap that a removal ends with, or the mappings that it leads to. -/
def Removal.target {step : Step} : Removal step → Heap ⊕ List Ref
  | .done heap => .inl heap
  | .enter children _ _ => .inr children

namespace Heap

variable (h : Heap)

theorem withoutPath_asMapping (field text : String) (mode : AccessMode) (v : Value) :
    (h.asMapping field text mode v).mapError Fault.withoutPath = h.asMapping field "" mode v := by
  unfold asMapping
  cases h.node v <;> rfl

theorem withoutPath_asList (field text : String) (mode : AccessMode) (v : Value) :
    (h.asList field text mode v).mapError Fault.withoutPath = h.asList field "" mode v := by
  unfold asList
  cases h.node v <;> rfl

theorem withoutPath_delete (r : Ref) (key : Key) :
    (h.delete r key).mapError Fault.withoutPath = h.delete r key := by
  unfold delete
  split <;> rfl

theorem withoutPath_descend (step : Step) (mode : AccessMode) (v : Value) (index : Option Nat) :
    (h.descend step mode v index).mapError Fault.withoutPath =
      h.descend step.withoutText mode v index := by
  cases index with
  | none =>
    rw [descend_none, descend_none]
    split
    · rfl
    · rw [mapError_map, withoutPath_asMapping]
      rfl
  | some n =>
    rw [descend_some, descend_some]
    split
    · rfl
    · rw [mapError_bind, withoutPath_asList]
      refine congrArg (Except.bind _) (funext fun list ↦ ?_)
      split
      · rfl
      · rw [mapError_map, withoutPath_asMapping]
        rfl

theorem withoutPath_readMove (r : Ref) (step : Step) :
    ((h.readMove r step).map Move.target).mapError Fault.withoutPath =
      (h.readMove r step.withoutText).map Move.target := by
  have hlist := h.withoutPath_asList step.name step.text .read
  have hdescend := h.withoutPath_descend step .read
  obtain ⟨text, name, place, _ | rest⟩ := step
  · change ((h.readMove r ⟨text, name, place, none⟩).map Move.target).mapError Fault.withoutPath =
      (h.readMove r ⟨"", name, place, none⟩).map Move.target
    simp only [readMove]
    cases h.field? r name with
    | none => rfl
    | some v =>
      cases place with
      | key => rfl
      | item n | every =>
        simp only
        split
        · rfl
        · exact mapError_map_congr (hlist v) fun _ ↦ rfl
  · change ((h.readMove r ⟨text, name, place, some rest⟩).map Move.target).mapError
      Fault.withoutPath = (h.readMove r ⟨"", name, place, some ""⟩).map Move.target
    simp only [readMove]
    cases h.field? r name with
    | none => rfl
    | some v =>
      cases place with
      | key | item n => exact mapError_map_congr (hdescend v _) (Move.target_orElse _ rfl rfl)
      | every =>
        simp only
        split
        · rfl
        · rw [← hlist v]
          cases h.asList name text .read v <;> rfl

theorem withoutPath_hasMove (r : Ref) (step : Step) :
    ((h.hasMove r step).map Move.target).mapError Fault.withoutPath =
      (h.hasMove r step.withoutText).map Move.target := by
  have hlist := h.withoutPath_asList step.name step.text .read
  have hdescend := h.withoutPath_descend step .read
  obtain ⟨text, name, place, _ | rest⟩ := step
  · change ((h.hasMove r ⟨text, name, place, none⟩).map Move.target).mapError Fault.withoutPath =
      (h.hasMove r ⟨"", name, place, none⟩).map Move.target
    simp only [hasMove]
    cases h.field? r name with
    | none => rfl
    | some v =>
      cases place with
      | key | every => rfl
      | item n =>
        simp only
        split
        · rfl
        · exact mapError_map_congr (hlist v) fun _ ↦ rfl
  · change ((h.hasMove r ⟨text, name, place, some rest⟩).map Move.target).mapError
      Fault.withoutPath = (h.hasMove r ⟨"", name, place, some ""⟩).map Move.target
    simp only [hasMove]
    cases h.field? r name with
    | none => rfl
    | some v =>
      cases place with
      | key | item n => exact mapError_map_congr (hdescend v _) (Move.target_orElse _ rfl rfl)
      | every => rfl

theorem withoutPath_removeMove (r : Ref) (step : Step) :
    ((h.removeMove r step).map Removal.target).mapError Fault.withoutPath =
      (h.removeMove r step.withoutText).map Removal.target := by
  have hlist := h.withoutPath_asList step.name step.text .write
  have hdescend := h.withoutPath_descend step .write
  have hdelete := h.withoutPath_delete r (.text step.name)
  obtain ⟨text, name, place, _ | rest⟩ := step
  · change ((h.removeMove r ⟨text, name, place, none⟩).map Removal.target).mapError
      Fault.withoutPath = (h.removeMove r ⟨"", name, place, none⟩).map Removal.target
    simp only [removeMove]
    cases h.field? r name with
    | none => rfl
    | some v =>
      cases place with
      | key => exact mapError_map_congr hdelete fun _ ↦ rfl
      | item n =>
        simp only
        split
        · rfl
        · exact mapError_map_congr (hlist v) fun _ ↦ rfl
      | every =>
        simp only
        split
        · rw [← hlist v]
          cases h.asList name text .write v with
          | error e => rfl
          | ok list => exact mapError_map_congr hdelete fun _ ↦ rfl
        · exact mapError_map_congr hdelete fun _ ↦ rfl
  · change ((h.removeMove r ⟨text, name, place, some rest⟩).map Removal.target).mapError
      Fault.withoutPath = (h.removeMove r ⟨"", name, place, some ""⟩).map Removal.target
    simp only [removeMove]
    cases h.field? r name with
    | none => rfl
    | some v =>
      cases place with
      | key | item n => exact mapError_map_congr (hdescend v _) fun _ ↦ rfl
      | every =>
        simp only
        split
        · rfl
        · exact mapError_map_congr (hlist v) fun _ ↦ rfl

end Heap

namespace Step

variable {step step' : Step}

theorem withoutPath_checkMapping (hhop : step.hop = step'.hop) (h : Heap) (v : Value) :
    (step.checkMapping h v).mapError Fault.withoutPath =
      (step'.checkMapping h v).mapError Fault.withoutPath := by
  simp only [checkMapping, Heap.withoutPath_asMapping, ← label_hop, hhop]

theorem withoutPath_checkList (hhop : step.hop = step'.hop) (h : Heap) (v : Value) :
    (step.checkList h v).mapError Fault.withoutPath =
      (step'.checkList h v).mapError Fault.withoutPath := by
  obtain ⟨hname, -⟩ := Hop.mk.inj hhop
  simp only [checkList, mapError_map, Heap.withoutPath_asList, hname]

theorem withoutPath_checkLimit (hhop : step.hop = step'.hop) (limit : Option Nat) :
    (step.checkLimit limit).mapError Fault.withoutPath =
      (step'.checkLimit limit).mapError Fault.withoutPath := by
  obtain ⟨text, name, place, rest⟩ := step
  obtain ⟨text', name', place', rest'⟩ := step'
  obtain ⟨rfl, rfl⟩ := Hop.mk.inj hhop
  cases limit with
  | none => rfl
  | some limit =>
    cases place with
    | key | every => rfl
    | item n =>
      simp only [checkLimit]
      split <;> rfl

end Step

/-! ### Whole scans -/

namespace Scan

section Work

variable {α β : Type}

/-- An outcome and a heap, without the text of the path in a fault. -/
def withoutPath (x : Except Fault α × Heap) : Except Fault α × Heap :=
  (x.1.mapError Fault.withoutPath, x.2)

/-- From the same heap, both pieces of work come to the same result, or to faults that differ in the
text of the path at most, and they leave the same heap. -/
def SameButPath (work work' : Scan α) : Prop :=
  ∀ w w' : Workplace, w.heap = w'.heap →
    withoutPath (outcome (work w)) = withoutPath (outcome (work' w'))

theorem Steady.sameButPath {work work' : Scan α} (hwork : Steady work) (hwork' : Steady work')
    (hsame : ∀ h, withoutPath (work.effect h) = withoutPath (work'.effect h)) :
    SameButPath work work' := by
  intro w w' hheap
  rw [hwork w, hwork' w', hheap]
  exact hsame w'.heap

theorem withoutPath_andThen {x y : Except Fault α × Heap}
    {next next' : α → Heap → Except Fault β × Heap} (hxy : withoutPath x = withoutPath y)
    (hnext : ∀ a h, withoutPath (next a h) = withoutPath (next' a h)) :
    withoutPath (andThen x next) = withoutPath (andThen y next') := by
  obtain ⟨e | a, h⟩ := x <;> obtain ⟨e' | b, h'⟩ := y <;> obtain ⟨hout, rfl⟩ := Prod.mk.inj hxy
  · exact congrArg (·, h) (congrArg Except.error (Except.error.inj hout))
  · cases hout
  · cases hout
  · obtain rfl : a = b := Except.ok.inj hout
    exact hnext a h

theorem withoutPath_sweep {work work' : Ref → Heap → Except Fault Unit × Heap}
    (hwork : ∀ r h, withoutPath (work r h) = withoutPath (work' r h)) (rs : List Ref) (h : Heap) :
    withoutPath (sweep work rs h) = withoutPath (sweep work' rs h) := by
  induction rs generalizing h with
  | nil => rfl
  | cons r rs ih => exact withoutPath_andThen (hwork r h) fun _ ↦ ih

theorem withoutPath_through {h : Heap} {r : Ref} {s : Slot} {blank : Cell}
    {check check' : Heap → Value → Except Fault Ref}
    {work work' : Ref → Heap → Except Fault Unit × Heap}
    (hcheck : ∀ v, (check h v).mapError Fault.withoutPath = (check' h v).mapError Fault.withoutPath)
    (hwork : ∀ c h, withoutPath (work c h) = withoutPath (work' c h)) :
    withoutPath (h.through r s blank check work) =
      withoutPath (h.through r s blank check' work') := by
  refine withoutPath_andThen ?_ fun c h ↦ withoutPath_andThen (hwork c h) fun _ _ ↦ rfl
  by_cases hnull : (h.slot? r s).getD .null = .null
  · rw [Heap.enter_of_null hnull, Heap.enter_of_null hnull]
  · rw [Heap.enter_of_ne hnull, Heap.enter_of_ne hnull]
    exact congrArg (·, h) (hcheck _)

theorem withoutPath_reach {step step' : Step} (hhop : step.hop = step'.hop) (limit : Option Nat)
    (root : Ref) {work work' : Ref → Slot → Heap → Except Fault Unit × Heap}
    (hwork : ∀ r s h, withoutPath (work r s h) = withoutPath (work' r s h)) (h : Heap) :
    withoutPath (step.reach limit root work h) = withoutPath (step'.reach limit root work' h) := by
  obtain ⟨hname, hplace⟩ := Hop.mk.inj hhop
  rw [Step.reach, Step.reach, hname, hplace]
  split
  · exact hwork root _ h
  · next slot _ =>
    refine withoutPath_andThen (congrArg (·, h) (Step.withoutPath_checkLimit hhop limit))
      fun _ h ↦ ?_
    exact withoutPath_through (Step.withoutPath_checkList hhop h) fun list h ↦ hwork list slot h

end Work

section Parallel

variable {α : Type} {path path' : String} {step step' : Step} {root : Ref} {h : Heap}
variable {look : Heap → Ref → (step : Step) → Except Fault (Move step α)}
variable {scan : Ref → String → Scan α}

/-- A walk goes on with the rest of its path where its first step leads. -/
theorem Follows.effect_eq_target (hscan : Follows look scan) (hstep : Step.decode path = .ok step)
    (rest : String) (hrest : ∀ r, step.rest = some r → r = rest) :
    (scan root path).effect h = andThen ((look h root step).map Move.target, h) fun target h ↦
      target.elim (fun a ↦ (.ok a, h)) fun child ↦ (scan child rest).effect h := by
  rw [hscan.effect_of_ok hstep]
  cases look h root step with
  | error e => rfl
  | ok move =>
    cases move with
    | done a => rfl
    | enter child r hr =>
      obtain rfl := hrest r hr
      rfl

theorem effect_remove_eq_target (hstep : Step.decode path = .ok step) (rest : String)
    (hrest : ∀ r, step.rest = some r → r = rest) :
    (remove root path).effect h =
      andThen ((h.removeMove root step).map Removal.target, h) fun target h ↦
        target.elim (fun heap ↦ (.ok (), heap)) fun children ↦
          sweep (fun child ↦ (remove child rest).effect) children h := by
  rw [effect_remove_of_ok hstep]
  cases h.removeMove root step with
  | error e => rfl
  | ok removal =>
    cases removal with
    | done heap => rfl
    | enter children r hr =>
      obtain rfl := hrest r hr
      rfl

/-- Steps that lead to the same place are the same to a function that uses the texts for its faults
alone. -/
theorem withoutPath_step {γ : Type} {f : Step → Except Fault γ}
    (hf : ∀ step, (f step).mapError Fault.withoutPath = f step.withoutText)
    (hhop : step.hop = step'.hop) (hrest : step.rest.isSome = step'.rest.isSome) :
    withoutPath (f step, h) = withoutPath (f step', h) := by
  rw [withoutPath, withoutPath, hf, hf, Step.withoutText_congr hhop hrest]

/-- A walk whose steps use the texts for their faults alone is the same along both paths. -/
theorem Follows.withoutPath_effect (hscan : Follows look scan)
    (hlook : ∀ h r step, ((look h r step).map Move.target).mapError Fault.withoutPath =
      (look h r step.withoutText).map Move.target)
    (hparallel : Path.Parallel path path') :
    withoutPath ((scan root path).effect h) = withoutPath ((scan root path').effect h) := by
  induction hparallel generalizing root h with
  | last hstep hstep' hrest hrest' hhop =>
    rw [hscan.effect_eq_target hstep "" (by simp [hrest]),
      hscan.effect_eq_target hstep' "" (by simp [hrest'])]
    have hfirst := withoutPath_step (h := h) (hlook h root) hhop (by rw [hrest, hrest'])
    exact withoutPath_andThen hfirst fun _ _ ↦ rfl
  | @more path path' rest rest' step step' hstep hstep' hrest hrest' hhop _ ih =>
    rw [hscan.effect_eq_target hstep rest (by simp [hrest]),
      hscan.effect_eq_target hstep' rest' (by simp [hrest'])]
    have hfirst := withoutPath_step (h := h) (hlook h root) hhop (by rw [hrest, hrest']; rfl)
    refine withoutPath_andThen hfirst fun target h ↦ ?_
    cases target with
    | inl a => rfl
    | inr child => exact ih

theorem withoutPath_get (hparallel : Path.Parallel path path') :
    withoutPath ((get root path).effect h) = withoutPath ((get root path').effect h) :=
  follows_get.withoutPath_effect Heap.withoutPath_readMove hparallel

theorem withoutPath_has (hparallel : Path.Parallel path path') :
    withoutPath ((has root path).effect h) = withoutPath ((has root path').effect h) :=
  follows_has.withoutPath_effect Heap.withoutPath_hasMove hparallel

theorem withoutPath_remove (hparallel : Path.Parallel path path') :
    withoutPath ((remove root path).effect h) = withoutPath ((remove root path').effect h) := by
  induction hparallel generalizing root h with
  | last hstep hstep' hrest hrest' hhop =>
    rw [effect_remove_eq_target hstep "" (by simp [hrest]),
      effect_remove_eq_target hstep' "" (by simp [hrest'])]
    have hfirst := withoutPath_step (h := h) (h.withoutPath_removeMove root) hhop
      (by rw [hrest, hrest'])
    exact withoutPath_andThen hfirst fun _ _ ↦ rfl
  | @more path path' rest rest' step step' hstep hstep' hrest hrest' hhop _ ih =>
    rw [effect_remove_eq_target hstep rest (by simp [hrest]),
      effect_remove_eq_target hstep' rest' (by simp [hrest'])]
    have hfirst := withoutPath_step (h := h) (h.withoutPath_removeMove root) hhop
      (by rw [hrest, hrest']; rfl)
    refine withoutPath_andThen hfirst fun target h ↦ ?_
    cases target with
    | inl heap => rfl
    | inr children => exact withoutPath_sweep (fun child h ↦ ih) children h

theorem withoutPath_set (hparallel : Path.Parallel path path') (limit : Option Nat) (v : Value) :
    withoutPath ((set limit root path v).effect h) =
      withoutPath ((set limit root path' v).effect h) := by
  induction hparallel generalizing root h with
  | last hstep hstep' hrest hrest' hhop =>
    rw [effect_set_of_last hstep hrest, effect_set_of_last hstep' hrest']
    exact withoutPath_reach hhop limit root (fun _ _ _ ↦ rfl) h
  | more hstep hstep' hrest hrest' hhop _ ih =>
    rw [effect_set_of_more hstep hrest, effect_set_of_more hstep' hrest']
    exact withoutPath_reach hhop limit root (fun r s h ↦ withoutPath_through
      (Step.withoutPath_checkMapping hhop h) fun child h ↦ ih) h

end Parallel

end Scan

/-- Assumes: a path without a numeral that is too long, without a step `name[]`, and with a last
step that is not blank unless it is the only one. The labels of its steps, joined by points, are a
path with the same names, kinds, indices and labels, and that path is the one which its own labels
make. Another such path has the same labels exactly when the parts of the two are the same up to
zeros in front of an index; and then reading, testing, removing and writing do the same along both,
from every heap, but for the text of the path in a fault. -/
theorem labels_encode {path : String} (hpath : Path.Encodable path) :
    ∃ steps, Path.Walk path steps none ∧
      (∃ steps', Path.Walk (Path.encoded steps) steps' none ∧
        steps'.map Step.reading = steps.map Step.reading ∧
        Path.encoded steps' = Path.encoded steps) ∧
      ∀ path' steps', Path.Encodable path' → Path.Walk path' steps' none →
        (Path.encoded steps = Path.encoded steps' ↔
          List.Forall₂ Step.SameText (Path.parts path) (Path.parts path')) ∧
        (Path.encoded steps = Path.encoded steps' → ∀ root,
          SameButPath (get root path) (get root path') ∧
          SameButPath (has root path) (has root path') ∧
          SameButPath (remove root path) (remove root path') ∧
          ∀ limit v, SameButPath (set limit root path v) (set limit root path' v)) := by
  obtain ⟨steps, stop, hwalk⟩ := Path.exists_walk path
  obtain rfl := hwalk.stop_eq_none_iff.mpr hpath.readable
  refine ⟨steps, hwalk, ?_, fun path' steps' hpath' hwalk' ↦
    ⟨Path.encoded_eq_iff hpath hpath' hwalk hwalk', fun hencoded root ↦ ?_⟩⟩
  · have hreadable := hpath.readable_encoded hwalk
    have hhops := hpath.hops_encoded hwalk
    obtain ⟨steps', stop', hwalk'⟩ := Path.exists_walk (Path.encoded steps)
    obtain rfl := hwalk'.stop_eq_none_iff.mpr hreadable
    refine ⟨steps', hwalk', ?_, by rw [hwalk'.encoded_eq, hhops, ← hwalk.encoded_eq]⟩
    exact (Path.parallel_of_hops hpath.readable hreadable hhops.symm).map_reading hwalk hwalk'
  · have hparallel := Path.parallel_of_hops hpath.readable hpath'.readable
      ((Path.encoded_eq_iff_hops hpath hpath' hwalk hwalk').mp hencoded)
    exact ⟨(follows_get.steady root path).sameButPath (follows_get.steady root path')
        fun _ ↦ withoutPath_get hparallel,
      (follows_has.steady root path).sameButPath (follows_has.steady root path')
        fun _ ↦ withoutPath_has hparallel,
      (steady_remove root path).sameButPath (steady_remove root path')
        fun _ ↦ withoutPath_remove hparallel,
      fun limit v ↦ (steady_set limit root path v).sameButPath (steady_set limit root path' v)
        fun _ ↦ withoutPath_set hparallel limit v⟩

/-- Blanks around the segments, zeros in front of an index and a point at the end are not in the
labels. -/
theorem labels_encode_zeros :
    let path := " a b[007] .\tc].d[x]. "
    let path' := "a b[7].c].d[x]"
    Path.Encodable path ∧ Path.Encodable path' ∧
      ∃ steps steps', Path.Walk path steps none ∧ Path.Walk path' steps' none ∧
        Path.encoded steps = path' ∧ Path.encoded steps' = path' ∧
        steps'.map Step.reading = steps.map Step.reading ∧
        List.Forall₂ Step.SameText (Path.parts path) (Path.parts path') ∧
        ∀ root, SameButPath (get root path) (get root path') ∧
          SameButPath (has root path) (has root path') ∧
          SameButPath (remove root path) (remove root path') ∧
          ∀ limit v, SameButPath (set limit root path v) (set limit root path' v) := by
  intro path path'
  have hpath : Path.Encodable path := ⟨by decide +kernel, by decide +kernel, by decide +kernel⟩
  have hpath' : Path.Encodable path' := ⟨by decide +kernel, by decide +kernel, by decide +kernel⟩
  obtain ⟨steps, hwalk, ⟨steps', hwalk', hreading, hagain⟩, hother⟩ := labels_encode hpath
  have hencoded : Path.encoded steps = path' := by
    rw [hwalk.encoded_eq]
    decide +kernel
  rw [hencoded] at hwalk' hagain
  obtain ⟨hiff, hsame⟩ := hother path' steps' hpath' hwalk'
  have heq : Path.encoded steps = Path.encoded steps' := hencoded.trans hagain.symm
  exact ⟨hpath, hpath', steps, steps', hwalk, hwalk', hencoded, hagain, hreading, hiff.mp heq,
    hsame heq⟩

end DottedPath
