import DottedPath.Proofs.Path.Join
import Mathlib.Data.List.Forall2

/-!
# Reading a whole path

Reading the first step of a path, then the first step of its rest, and so on, comes to an end after
finitely many steps: the rest is trimmed, is not blank and is shorter than the trimmed path
(`Step.rest_of_path`). What is read on the way is what splitting the path at its points once gives:
the steps are those of the parts of the path, in order, and only the last of them is a last one
(`Path.Walk.denotes`, `Path.Walk.isLast`).

A part is the text of a list step when it is a name and decimal digits in brackets
(`Step.Subscripted`), and in no other case. Such a text with more than `Step.maxDigits` digits is all
that can stop the reading (`Step.decode_eq_error_iff`, `Path.Walk.stop_eq_none_iff`).
-/

set_option autoImplicit false
set_option relaxedAutoImplicit false

namespace DottedPath

namespace Step

/-- The text is a name, which is not empty and holds no opening bracket, with ASCII digits in brackets
behind it, or with empty brackets. -/
structure Subscripted (part name digits : List Char) : Prop where
  text : part = name ++ '[' :: digits ++ [']']
  named : name ≠ []
  bracket : '[' ∉ name
  decimal : ∀ c ∈ digits, '0' ≤ c ∧ c ≤ '9'

theorem isDigit_iff (c : Char) : c.isDigit = true ↔ '0' ≤ c ∧ c ≤ '9' := by
  simp [Char.isDigit, Char.le_def]

theorem subscript?_eq_some_iff {part name digits : List Char} :
    subscript? part = some (name, digits) ↔ Subscripted part name digits := by
  constructor
  · intro h
    obtain ⟨htext, hnamed, hbracket⟩ := subscript?_eq_some h
    refine ⟨htext, hnamed, hbracket, fun c hc ↦ ?_⟩
    simp only [subscript?] at h
    split at h
    · simp only [Option.some.injEq, Prod.mk.injEq] at h
      obtain ⟨-, rfl⟩ := h
      exact (isDigit_iff c).mp (List.mem_takeWhile_imp hc)
    · cases h
  · rintro ⟨rfl, hnamed, hbracket, hdecimal⟩
    exact subscript?_of_digits hnamed hbracket fun c hc ↦ (isDigit_iff c).mpr (hdecimal c hc)

theorem subscript?_eq_none_iff {part : List Char} :
    subscript? part = none ↔ ∀ name digits, ¬ Subscripted part name digits := by
  simp only [Option.eq_none_iff_forall_ne_some, Prod.forall, ne_eq, subscript?_eq_some_iff]

theorem numeralFits_iff {part : List Char} :
    NumeralFits part ↔
      ∀ name digits, Subscripted part name digits → digits.length ≤ maxDigits := by
  simp only [NumeralFits, Option.mem_def, Prod.forall, subscript?_eq_some_iff]

/-! ### One step -/

/-- What a step is, given its text: a list step, with the index that its digits write if there are
any, or the key with that very text. -/
structure Denotes (part : List Char) (step : Step) : Prop where
  list : ∀ name digits, Subscripted part name digits →
    step.name = String.ofList name ∧ step.kind = .listField ∧
      step.index? = if digits = [] then none else some (Nat.ofDigitChars 10 digits 0)
  key : (∀ name digits, ¬ Subscripted part name digits) →
    step.name = String.ofList part ∧ step.index? = none ∧
      step.kind = if step.isLast then .scalar else .mapField

theorem number_eq (digits : List Char) : number digits = Nat.ofDigitChars 10 digits 0 := rfl

theorem kind_of_key {step : Step} (hplace : step.place = .key) :
    step.kind = if step.isLast then .scalar else .mapField := by
  rw [kind, hplace, isLast]
  cases step.rest <;> rfl

theorem denotes_of_hop {part : List Char} {step : Step} (hhop : Hop.ofPart part = step.hop) :
    Denotes part step := by
  have hname : step.name = (Hop.ofPart part).name := by rw [hhop, hop]
  have hplace : step.place = (Hop.ofPart part).place := by rw [hhop, hop]
  unfold Hop.ofPart at hname hplace
  constructor
  · intro name digits hsubscripted
    rw [subscript?_eq_some_iff.mpr hsubscripted] at hname hplace
    cases digits with
    | nil => exact ⟨hname, by rw [kind, hplace], by rw [index?, hplace, if_pos rfl]⟩
    | cons d ds =>
      refine ⟨hname, by rw [kind, hplace], ?_⟩
      rw [index?, hplace, if_neg (List.cons_ne_nil d ds)]
      exact congrArg some (number_eq (d :: ds))
  · intro hnone
    rw [subscript?_eq_none_iff.mpr hnone] at hname hplace
    exact ⟨hname, by rw [index?, hplace], kind_of_key hplace⟩

theorem target_eq_error_iff {part : List Char} {e : LongNumeral} :
    target part = .error e ↔
      ∃ name digits, Subscripted part name digits ∧ maxDigits < digits.length ∧
        e = ⟨digits.length⟩ := by
  simp only [← subscript?_eq_some_iff, target]
  cases hsubscript : subscript? part with
  | none => simp
  | some found =>
    obtain ⟨name, _ | ⟨d, ds⟩⟩ := found
    · simp
    · by_cases hlong : maxDigits < ds.length + 1
      · simp [hlong, eq_comm]
      · simp [hlong]

/-- A first step cannot be read when its text is that of a list step with too many digits, and in no
other case. -/
theorem decode_eq_error_iff {path : String} {e : LongNumeral} :
    decode path = .error e ↔
      ∃ name digits, Subscripted (headText (Text.trim path.toList)) name digits ∧
        maxDigits < digits.length ∧ e = ⟨digits.length⟩ := by
  rw [← target_eq_error_iff, decode]
  cases target (headText (Text.trim path.toList)) <;> simp

/-- What comes behind a step is trimmed, is not blank and is shorter than the trimmed path. -/
theorem rest_of_path {path rest : String} {step : Step} (h : decode path = .ok step)
    (hrest : step.rest = some rest) :
    Text.trim rest.toList = rest.toList ∧ Text.trim rest.toList ≠ [] ∧
      rest.length < (Text.trimmed path).length := by
  have htrim := trim_rest h hrest
  refine ⟨htrim, by rw [htrim]; exact rest_ne_nil h hrest, ?_⟩
  rw [← decode_trimmed] at h
  exact length_rest_lt h hrest

end Step

/-! ### All steps -/

namespace Path

/-- What comes of reading a path step after step: the steps up to the last one, or those before a
numeral with too many digits. -/
inductive Walk : String → List Step → Option LongNumeral → Prop
  | broken {path : String} {e : LongNumeral} (h : Step.decode path = .error e) : Walk path [] (some e)
  | last {path : String} {step : Step} (h : Step.decode path = .ok step) (hrest : step.rest = none) :
    Walk path [step] none
  | more {path rest : String} {step : Step} {steps : List Step} {stop : Option LongNumeral}
    (h : Step.decode path = .ok step) (hrest : step.rest = some rest) (hwalk : Walk rest steps stop) :
    Walk path (step :: steps) stop

theorem exists_walk (path : String) : ∃ steps stop, Walk path steps stop := by
  induction path using Path.induction with
  | broken path e h => exact ⟨[], some e, .broken h⟩
  | last path step h hrest => exact ⟨[step], none, .last h hrest⟩
  | more path step rest h hrest ih =>
    obtain ⟨steps, stop, hwalk⟩ := ih
    exact ⟨step :: steps, stop, .more h hrest hwalk⟩

section Walk

variable {path : String} {steps steps' : List Step} {stop stop' : Option LongNumeral}

theorem Walk.unique (hwalk : Walk path steps stop) (hwalk' : Walk path steps' stop') :
    steps' = steps ∧ stop' = stop := by
  induction hwalk generalizing steps' stop' with
  | broken h => cases hwalk' <;> simp_all
  | last h hrest => cases hwalk' <;> simp_all
  | more h hrest _ ih =>
    cases hwalk' with
    | broken h' => simp_all
    | last h' hrest' => simp_all
    | more h' hrest' hwalk' =>
      obtain rfl := Except.ok.inj (h.symm.trans h')
      obtain rfl := Option.some.inj (hrest.symm.trans hrest')
      obtain ⟨rfl, rfl⟩ := ih hwalk'
      exact ⟨rfl, rfl⟩

theorem Walk.ne_nil (hwalk : Walk path steps none) : steps ≠ [] := by
  cases hwalk <;> simp

/-- Reading a path is stopped unless all its numerals have few enough digits. -/
theorem Walk.stop_eq_none_iff (hwalk : Walk path steps stop) : stop = none ↔ Readable path := by
  induction hwalk with
  | broken h => simp [not_readable_of_error h]
  | last h hrest => simp [readable_of_last h hrest]
  | more h hrest _ ih => rw [ih, readable_of_more h hrest]

/-- The steps of a path denote its parts, one by one. -/
theorem Walk.denotes (hwalk : Walk path steps none) :
    List.Forall₂ Step.Denotes (parts path) steps := by
  generalize hstop : (none : Option LongNumeral) = stop at hwalk
  induction hwalk with
  | broken => cases hstop
  | last h hrest =>
    rw [parts_of_last h hrest]
    exact .cons (Step.denotes_of_hop (hop_of_decode h).1) .nil
  | more h hrest _ ih =>
    rw [parts_of_more h hrest]
    exact .cons (Step.denotes_of_hop (hop_of_decode h).1) (ih hstop)

theorem Walk.map_hop (hwalk : Walk path steps none) : steps.map Step.hop = hops path := by
  generalize hstop : (none : Option LongNumeral) = stop at hwalk
  induction hwalk with
  | broken => cases hstop
  | last hstep hrest => rw [hops_of_last hstep hrest, List.map_singleton]
  | more hstep hrest _ ih => rw [hops_of_more hstep hrest, List.map_cons, ih hstop]

/-- Of the steps of a path only the last one has no more steps behind it. -/
theorem Walk.isLast (hwalk : Walk path steps none) :
    (∀ step ∈ steps.dropLast, step.isLast = false) ∧
      ∀ step ∈ steps.getLast?, step.isLast = true := by
  generalize hstop : (none : Option LongNumeral) = stop at hwalk
  induction hwalk with
  | broken => cases hstop
  | last h hrest => simp [Step.isLast, hrest]
  | more h hrest hwalk ih =>
    obtain rfl := hstop
    obtain ⟨hinner, hend⟩ := ih rfl
    rw [List.dropLast_cons_of_ne_nil hwalk.ne_nil, List.getLast?_cons_of_ne_nil hwalk.ne_nil]
    refine ⟨?_, hend⟩
    rw [List.forall_mem_cons]
    exact ⟨by simp [Step.isLast, hrest], hinner⟩

end Walk

/-- Reading a path step after step is splitting it. The reading comes to an end, in one way, since what
is handed on from one level to the next is trimmed, not blank and shorter than the trimmed text of the
level. If no part of the path is the text of a list step with too many digits, the steps are those that
the parts denote, one by one, and only the last of them has nothing behind it. The reading of a level
fails exactly when the text up to its first point is one of a list step with too many digits. -/
theorem decoding_is_splitting (path : String) :
    (∃ steps stop, Walk path steps stop ∧
      ∀ steps' stop', Walk path steps' stop' → steps' = steps ∧ stop' = stop) ∧
    (∀ level rest step, Step.decode level = .ok step → step.rest = some rest →
      Text.trim rest.toList = rest.toList ∧ Text.trim rest.toList ≠ [] ∧
        rest.length < (Text.trimmed level).length) ∧
    ((∀ part ∈ parts path, ∀ name digits, Step.Subscripted part name digits →
        digits.length ≤ Step.maxDigits) →
      ∃ steps, Walk path steps none ∧ List.Forall₂ Step.Denotes (parts path) steps ∧
        (∀ step ∈ steps.dropLast, step.isLast = false) ∧
        ∀ step ∈ steps.getLast?, step.isLast = true) ∧
    ∀ level e, Step.decode level = .error e ↔
      ∃ name digits, Step.Subscripted (Step.headText (Text.trim level.toList)) name digits ∧
        Step.maxDigits < digits.length ∧ e = ⟨digits.length⟩ := by
  obtain ⟨steps, stop, hwalk⟩ := exists_walk path
  refine ⟨⟨steps, stop, hwalk, fun _ _ ↦ hwalk.unique⟩, fun level rest step ↦ Step.rest_of_path,
    fun hfits ↦ ?_, fun level e ↦ Step.decode_eq_error_iff⟩
  have hreadable : Readable path := fun part hpart ↦ Step.numeralFits_iff.mpr (hfits part hpart)
  obtain rfl := hwalk.stop_eq_none_iff.mpr hreadable
  exact ⟨steps, hwalk, hwalk.denotes, hwalk.isLast⟩

/-- Blanks around the texts of the steps, leading zeros, a blank part between two points and one behind
the last point, and brackets that do not make a list step. -/
theorem decoding_is_splitting_blanks :
    let path := " a [007].\t. b]c[x].d[].\u00a0"
    parts path = ["a [007]".toList, [], "b]c[x]".toList, "d[]".toList] ∧
    (∀ part ∈ parts path, ∀ name digits, Step.Subscripted part name digits →
      digits.length ≤ Step.maxDigits) ∧
    ∃ steps, Walk path steps none ∧ List.Forall₂ Step.Denotes (parts path) steps ∧
      (∀ step ∈ steps.dropLast, step.isLast = false) ∧
      ∀ step ∈ steps.getLast?, step.isLast = true := by
  intro path
  have hreadable : Readable path := by decide +kernel
  have hfits : ∀ part ∈ parts path, ∀ name digits, Step.Subscripted part name digits →
      digits.length ≤ Step.maxDigits :=
    fun part hpart ↦ Step.numeralFits_iff.mp (hreadable part hpart)
  exact ⟨by decide +kernel, hfits, (decoding_is_splitting path).2.2.1 hfits⟩

end Path

end DottedPath
