import DottedPath.Proofs.Path.Decoding
import Mathlib.Data.List.Induction

/-!
# Paths made of labels

The label of a step is itself a text of that step: the trimmed text of a key, and the name of a list
item with its index in decimal digits (`Step.respells_label`). Digits are those of the number that
they write behind some zeros (`Step.exists_zeros_append`), so the label has no more of them than the
path. The labels of all steps, joined by points, are read like the path that they come from
(`Path.Encodable.hops_encoded`), with two exceptions: a step `name[]` has the label of a key, and a
blank label behind the last point is lost. A path without these is `Path.Encodable`.

Two such paths have the same labels if and only if their parts are the same texts up to zeros in
front of an index (`Path.encoded_eq_iff`). Then they have the same hops, and are read in parallel,
step by step (`Path.parallel_of_hops`).
-/

set_option autoImplicit false
set_option relaxedAutoImplicit false

namespace DottedPath

namespace Step

/-- What a step says of itself, but for its texts: its name, its kind, its index and its label. -/
def reading (step : Step) : String × StepKind × Option Nat × String :=
  (step.name, step.kind, step.index?, step.label)

theorem reading_congr {step step' : Step} (hhop : step'.hop = step.hop)
    (hlast : step'.rest.isSome = step.rest.isSome) : step'.reading = step.reading := by
  obtain ⟨hname, hplace⟩ := Hop.mk.inj hhop
  simp only [reading, kind, index?, label, hname, hplace, hlast]

/-! ### Decimal digits -/

theorem digitChar_value {c : Char} (hc : c.isDigit = true) :
    c.toNat - '0'.toNat < 10 ∧ Nat.digitChar (c.toNat - '0'.toNat) = c := by
  have hrange : '0'.toNat ≤ c.toNat ∧ c.toNat ≤ '9'.toNat := by
    simpa [Char.le_def, UInt32.le_iff_toNat_le] using (isDigit_iff c).mp hc
  have hlt : c.toNat - '0'.toNat < 10 := by
    have hnine : '9'.toNat = '0'.toNat + 9 := rfl
    omega
  refine ⟨hlt, ?_⟩
  rw [← Char.toNat_inj, Nat.toNat_digitChar_of_lt_ten hlt]
  exact Nat.add_sub_cancel' hrange.1

theorem number_concat (digits : List Char) (c : Char) :
    number (digits ++ [c]) = 10 * number digits + (c.toNat - '0'.toNat) := by
  simp only [number, List.foldl_append, List.foldl_cons, List.foldl_nil]

theorem number_zeros_append (k : Nat) (digits : List Char) :
    number (List.replicate k '0' ++ digits) = number digits := by
  simp only [number_eq, Nat.ofDigitChars_append, Nat.ofDigitChars_replicate_zero, Nat.mul_zero]

/-- Digits are those of the number that they write, behind some zeros. -/
theorem exists_zeros_append {digits : List Char} (hne : digits ≠ [])
    (hdigits : ∀ c ∈ digits, c.isDigit = true) :
    ∃ k, digits = List.replicate k '0' ++ Nat.toDigits 10 (number digits) := by
  induction digits using List.reverseRecOn with
  | nil => exact absurd rfl hne
  | append_singleton digits c ih =>
    obtain ⟨hlt, hchar⟩ := digitChar_value (hdigits c (by simp))
    rw [number_concat]
    generalize c.toNat - '0'.toNat = d at hlt hchar
    by_cases hnil : digits = []
    · subst hnil
      exact ⟨0, by simp [number, Nat.toDigits_of_lt_base hlt, hchar]⟩
    · obtain ⟨k, hk⟩ := ih hnil fun c hc ↦ hdigits c (List.mem_append_left _ hc)
      -- The zero of an all-zero front is one more zero in front of the last digit.
      rcases Nat.eq_zero_or_pos (number digits) with hzero | hpos
      · refine ⟨k + 1, ?_⟩
        rw [hzero, Nat.toDigits_zero] at hk
        rw [hzero, Nat.mul_zero, Nat.zero_add, Nat.toDigits_of_lt_base hlt, hchar, hk,
          List.replicate_succ']
      · refine ⟨k, ?_⟩
        rw [← Nat.toDigits_append_toDigits (by decide) hpos hlt, Nat.toDigits_of_lt_base hlt, hchar,
          ← List.append_assoc, ← hk]

/-! ### The label as a text -/

theorem Subscripted.isDigit {part name digits : List Char} (h : Subscripted part name digits) :
    ∀ c ∈ digits, c.isDigit = true :=
  fun c hc ↦ (isDigit_iff c).mpr (h.decimal c hc)

theorem Subscripted.ofPart {part name digits : List Char} (h : Subscripted part name digits) :
    Hop.ofPart part =
      ⟨String.ofList name, if digits = [] then .every else .item (number digits)⟩ := by
  rw [Hop.ofPart, subscript?_eq_some_iff.mpr h]
  cases digits <;> rfl

/-- The name in a trimmed text of a list step. -/
theorem Subscripted.listName {part name digits : List Char} (h : Subscripted part name digits)
    (htrim : Text.trim part = part) (hpoint : '.' ∉ part) : Path.ListName (String.ofList name) := by
  obtain ⟨htext, hnamed, hbracket, -⟩ := h
  refine ⟨?_, ?_, ?_, ?_⟩ <;> rw [String.toList_ofList]
  · exact hnamed
  · intro hmem
    refine hpoint ?_
    rw [htext]
    simp [hmem]
  · exact hbracket
  · intro c hc
    refine Text.isBlank_head_trim part c ?_
    rw [htrim, htext]
    obtain ⟨d, ds, rfl⟩ := List.exists_cons_of_ne_nil hnamed
    exact hc

/-- The text of a step other than `name[]` is that of a key, or that of a list item with some zeros
in front of its index. -/
theorem key_or_item {part : List Char} (hplace : (Hop.ofPart part).place ≠ .every) :
    Hop.ofPart part = ⟨String.ofList part, .key⟩ ∨
      ∃ name k n, Subscripted part name (List.replicate k '0' ++ Nat.toDigits 10 n) ∧
        Hop.ofPart part = ⟨String.ofList name, .item n⟩ := by
  cases hsubscript : subscript? part with
  | none => exact .inl (by rw [Hop.ofPart, hsubscript])
  | some target =>
    obtain ⟨name, digits⟩ := target
    have hsub := subscript?_eq_some_iff.mp hsubscript
    have hne : digits ≠ [] := by
      rintro rfl
      exact hplace (by rw [hsub.ofPart, if_pos rfl])
    obtain ⟨k, hk⟩ := exists_zeros_append hne hsub.isDigit
    exact .inr ⟨name, k, number digits, hk ▸ hsub, by rw [hsub.ofPart, if_neg hne]⟩

/-- The text is one of the same step as a part: trimmed, without a point, and with few enough
digits; and it is blank only for a blank part. -/
structure Respells (part text : List Char) : Prop where
  trimmed : Text.trim text = text
  point : '.' ∉ text
  fits : NumeralFits text
  hop : Hop.ofPart text = Hop.ofPart part
  blank : text = [] → part = []

/-- The label of a step is a text of the step, unless the step is `name[]`. -/
theorem respells_label {part : List Char} (htrim : Text.trim part = part) (hpoint : '.' ∉ part)
    (hfits : NumeralFits part) (hplace : (Hop.ofPart part).place ≠ .every) :
    Respells part (Hop.ofPart part).label.toList := by
  obtain hkey | ⟨name, k, n, hsub, hitem⟩ := key_or_item hplace
  · have hlabel : (Hop.ofPart part).label.toList = part := by
      rw [hkey, Hop.label, String.toList_ofList]
    rw [hlabel]
    exact ⟨htrim, hpoint, hfits, rfl, id⟩
  · have hname := hsub.listName htrim hpoint
    have hlength : (Nat.toDigits 10 n).length ≤ maxDigits := by
      have hdigits := numeralFits_iff.mp hfits name _ hsub
      rw [List.length_append] at hdigits
      omega
    have htext := Path.stepText_item hname hlength
    have htrimmed : Text.trim (String.ofList name ++ "[" ++ toString n ++ "]").toList =
        (String.ofList name ++ "[" ++ toString n ++ "]").toList := by
      rw [Path.toList_item, Path.trim_subscript hname]
    have hlabel : (Hop.ofPart part).label = String.ofList name ++ "[" ++ toString n ++ "]" := by
      rw [hitem, Hop.label]
    rw [hlabel]
    refine ⟨htrimmed, htext.point, htrimmed ▸ htext.fits, ?_, fun hblank ↦ ?_⟩
    · rw [← htrimmed, Path.ofPart_item hname, hitem]
    · rw [Path.toList_item] at hblank
      simp at hblank

/-! ### Texts of the same step -/

/-- The texts are the same, or they differ in the zeros in front of an index. -/
def SameText (part part' : List Char) : Prop :=
  part = part' ∨ ∃ name numeral k k', Subscripted part name (List.replicate k '0' ++ numeral) ∧
    Subscripted part' name (List.replicate k' '0' ++ numeral)

/-- Texts of keys and of list items denote the same exactly when they are the same up to zeros in
front of an index. -/
theorem sameText_iff {part part' : List Char} (hplace : (Hop.ofPart part).place ≠ .every)
    (hplace' : (Hop.ofPart part').place ≠ .every) :
    SameText part part' ↔ Hop.ofPart part = Hop.ofPart part' := by
  constructor
  · rintro (rfl | ⟨name, numeral, k, k', hsub, hsub'⟩)
    · rfl
    · rw [hsub.ofPart] at hplace ⊢
      rw [hsub'.ofPart] at hplace' ⊢
      have hne : List.replicate k '0' ++ numeral ≠ [] := fun hnil ↦ hplace (if_pos hnil)
      have hne' : List.replicate k' '0' ++ numeral ≠ [] := fun hnil ↦ hplace' (if_pos hnil)
      rw [if_neg hne, if_neg hne', number_zeros_append, number_zeros_append]
  · intro hhop
    obtain hkey | ⟨name, k, n, hsub, hitem⟩ := key_or_item hplace <;>
      obtain hkey' | ⟨name', k', n', hsub', hitem'⟩ := key_or_item hplace'
    · rw [hkey, hkey'] at hhop
      exact .inl (String.ofList_inj.mp (Hop.mk.inj hhop).1)
    · rw [hkey, hitem'] at hhop
      cases (Hop.mk.inj hhop).2
    · rw [hitem, hkey'] at hhop
      cases (Hop.mk.inj hhop).2
    · rw [hitem, hitem'] at hhop
      obtain ⟨hname, hindex⟩ := Hop.mk.inj hhop
      obtain rfl := String.ofList_inj.mp hname
      obtain rfl := Place.item.inj hindex
      exact .inr ⟨name, Nat.toDigits 10 n, k, k', hsub, hsub'⟩

end Step

namespace Path

/-! ### Paths in parallel -/

/-- The two paths are read in parallel: their steps lead to the same places, one by one. -/
inductive Parallel : String → String → Prop
  | last {path path' : String} {step step' : Step} (hstep : Step.decode path = .ok step)
    (hstep' : Step.decode path' = .ok step') (hrest : step.rest = none) (hrest' : step'.rest = none)
    (hhop : step.hop = step'.hop) : Parallel path path'
  | more {path path' rest rest' : String} {step step' : Step} (hstep : Step.decode path = .ok step)
    (hstep' : Step.decode path' = .ok step') (hrest : step.rest = some rest)
    (hrest' : step'.rest = some rest') (hhop : step.hop = step'.hop)
    (hparallel : Parallel rest rest') : Parallel path path'

section Parallel

variable {path path' : String} {steps steps' : List Step}

/-- Readable paths with the same hops are read in parallel. -/
theorem parallel_of_hops (hreadable : Readable path) (hreadable' : Readable path')
    (hhops : hops path = hops path') : Parallel path path' := by
  induction path using Path.induction generalizing path' with
  | broken path e he => exact absurd hreadable (not_readable_of_error he)
  | last path step hstep hrest =>
    rw [hops_of_last hstep hrest] at hhops
    cases hstep' : Step.decode path' with
    | error e => exact absurd hreadable' (not_readable_of_error hstep')
    | ok step' =>
      cases hrest' : step'.rest with
      | none =>
        rw [hops_of_last hstep' hrest'] at hhops
        exact .last hstep hstep' hrest hrest' (List.cons.inj hhops).1
      | some rest' =>
        rw [hops_of_more hstep' hrest'] at hhops
        exact absurd (List.cons.inj hhops).2.symm (hops_ne_nil rest')
  | more path step rest hstep hrest ih =>
    rw [hops_of_more hstep hrest] at hhops
    cases hstep' : Step.decode path' with
    | error e => exact absurd hreadable' (not_readable_of_error hstep')
    | ok step' =>
      cases hrest' : step'.rest with
      | none =>
        rw [hops_of_last hstep' hrest'] at hhops
        exact absurd (List.cons.inj hhops).2 (hops_ne_nil rest)
      | some rest' =>
        rw [hops_of_more hstep' hrest'] at hhops
        obtain ⟨hhop, hbehind⟩ := List.cons.inj hhops
        exact .more hstep hstep' hrest hrest' hhop
          (ih ((readable_of_more hstep hrest).mp hreadable)
            ((readable_of_more hstep' hrest').mp hreadable') hbehind)

/-- Steps that are read in parallel say the same of themselves. -/
theorem Parallel.map_reading (hparallel : Parallel path path') (hwalk : Walk path steps none)
    (hwalk' : Walk path' steps' none) : steps'.map Step.reading = steps.map Step.reading := by
  induction hparallel generalizing steps steps' with
  | last hstep hstep' hrest hrest' hhop =>
    obtain ⟨rfl, -⟩ := (Walk.last hstep hrest).unique hwalk
    obtain ⟨rfl, -⟩ := (Walk.last hstep' hrest').unique hwalk'
    rw [List.map_singleton, List.map_singleton,
      Step.reading_congr hhop.symm (by rw [hrest, hrest'])]
  | @more _ _ _ _ step step' hstep hstep' hrest hrest' hhop _ ih =>
    cases hwalk with
    | last hagain hnone => simp_all
    | more hagain hsome hwalk =>
      cases hwalk' with
      | last hagain' hnone' => simp_all
      | more hagain' hsome' hwalk' =>
        obtain rfl := Except.ok.inj (hstep.symm.trans hagain)
        obtain rfl := Except.ok.inj (hstep'.symm.trans hagain')
        obtain rfl := Option.some.inj (hrest.symm.trans hsome)
        obtain rfl := Option.some.inj (hrest'.symm.trans hsome')
        have hlast : step'.rest.isSome = step.rest.isSome := by
          rw [hsome, hsome']
          rfl
        rw [List.map_cons, List.map_cons, ih hwalk hwalk', Step.reading_congr hhop.symm hlast]

end Parallel

/-! ### Labels joined by points -/

/-- The labels of some steps with points between them. -/
def encoded (steps : List Step) : String := join (steps.map fun step ↦ step.label.toList)

/-- The steps of the path are those of the path that their labels make: none of its numerals is too
long, none of its steps is `name[]`, and the last one is not blank, unless it is the only one. -/
structure Encodable (path : String) : Prop where
  readable : Readable path
  places : ∀ hop ∈ hops path, hop.place ≠ .every
  ending : 1 < (parts path).length → (parts path).getLast? ≠ some []

section Encoded

variable {path path' : String} {steps steps' : List Step}

/-- The labels of a path depend on its hops alone. -/
theorem Walk.encoded_eq (hwalk : Walk path steps none) :
    encoded steps = join ((hops path).map fun hop ↦ hop.label.toList) := by
  simp only [encoded, ← hwalk.map_hop, List.map_map, Function.comp_def, Step.label_hop]

theorem Encodable.respells (hpath : Encodable path) :
    ∀ part ∈ parts path, Step.Respells part (Hop.ofPart part).label.toList := by
  intro part hpart
  obtain ⟨htrim, hpoint⟩ := of_mem_parts hpart
  exact Step.respells_label htrim hpoint (hpath.readable part hpart)
    (hpath.places _ (List.mem_map_of_mem hpart))

/-- The parts of the path that the labels make are the labels. -/
theorem Encodable.parts_encoded (hpath : Encodable path) (hwalk : Walk path steps none) :
    parts (encoded steps) = (parts path).map fun part ↦ (Hop.ofPart part).label.toList := by
  have hparts : parts path ≠ [] := fun hnil ↦ hops_ne_nil path (by rw [hops, hnil, List.map_nil])
  rw [hwalk.encoded_eq, hops, List.map_map]
  refine parts_join ?_ (by simpa using hparts) ?_
  · intro text htext
    obtain ⟨part, hpart, rfl⟩ := List.mem_map.mp htext
    exact ⟨(hpath.respells part hpart).trimmed, (hpath.respells part hpart).point⟩
  · intro hlength hlast
    rw [List.length_map] at hlength
    rw [List.getLast?_map, Option.map_eq_some_iff] at hlast
    obtain ⟨part, hpart, hblank⟩ := hlast
    have hnil := (hpath.respells part (List.mem_of_getLast? hpart)).blank hblank
    exact hpath.ending hlength (hnil ▸ hpart)

theorem Encodable.hops_encoded (hpath : Encodable path) (hwalk : Walk path steps none) :
    hops (encoded steps) = hops path := by
  rw [hops, hpath.parts_encoded hwalk, List.map_map, hops]
  exact List.map_congr_left fun part hpart ↦ (hpath.respells part hpart).hop

theorem Encodable.readable_encoded (hpath : Encodable path) (hwalk : Walk path steps none) :
    Readable (encoded steps) := by
  intro text htext
  rw [hpath.parts_encoded hwalk] at htext
  obtain ⟨part, hpart, rfl⟩ := List.mem_map.mp htext
  exact (hpath.respells part hpart).fits

theorem forall₂_sameText_iff {ps qs : List (List Char)}
    (hps : ∀ part ∈ ps, (Hop.ofPart part).place ≠ .every)
    (hqs : ∀ part ∈ qs, (Hop.ofPart part).place ≠ .every) :
    List.Forall₂ Step.SameText ps qs ↔ ps.map Hop.ofPart = qs.map Hop.ofPart := by
  induction ps generalizing qs with
  | nil => simp [eq_comm]
  | cons p ps ih =>
    cases qs with
    | nil => simp
    | cons q qs =>
      obtain ⟨hp, hps⟩ := List.forall_mem_cons.mp hps
      obtain ⟨hq, hqs⟩ := List.forall_mem_cons.mp hqs
      rw [List.forall₂_cons, Step.sameText_iff hp hq, ih hps hqs, List.map_cons, List.map_cons,
        List.cons.injEq]

theorem encoded_eq_iff_hops (hpath : Encodable path) (hpath' : Encodable path')
    (hwalk : Walk path steps none) (hwalk' : Walk path' steps' none) :
    encoded steps = encoded steps' ↔ hops path = hops path' := by
  constructor
  · intro hencoded
    rw [← hpath.hops_encoded hwalk, hencoded, hpath'.hops_encoded hwalk']
  · intro hhops
    rw [hwalk.encoded_eq, hhops, ← hwalk'.encoded_eq]

/-- Paths have the same labels exactly when their parts are the same up to zeros in front of an
index. -/
theorem encoded_eq_iff (hpath : Encodable path) (hpath' : Encodable path')
    (hwalk : Walk path steps none) (hwalk' : Walk path' steps' none) :
    encoded steps = encoded steps' ↔ List.Forall₂ Step.SameText (parts path) (parts path') := by
  rw [encoded_eq_iff_hops hpath hpath' hwalk hwalk', forall₂_sameText_iff]
  · rfl
  · exact fun part hpart ↦ hpath.places _ (List.mem_map_of_mem hpart)
  · exact fun part hpart ↦ hpath'.places _ (List.mem_map_of_mem hpart)

end Encoded

end Path

end DottedPath
