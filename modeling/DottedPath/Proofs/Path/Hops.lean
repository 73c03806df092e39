import DottedPath.Path.Step
import Mathlib.Data.List.TakeWhile
import Mathlib.Tactic.ByContra

/-!
# What a path denotes

A path is read one step at a time, and each step hands on the text behind it. Taken as a whole, a
path denotes a list of hops: the texts between its points, trimmed, each of which names a key and a
place below it. A blank text behind the last point denotes nothing, unless there is no point.

Main statements. The first step of a path is the first of its hops and its rest denotes the others
(`hops_of_last`, `hops_of_more`), so a walk along a path visits exactly its hops; the walk meets a
numeral that is too long exactly when the path is not `Readable` (`not_readable_of_error`,
`readable_of_last`, `readable_of_more`). `Path.induction` is the induction along such a walk.
-/

set_option autoImplicit false
set_option relaxedAutoImplicit false

namespace DottedPath

/-- The key and the place below it that a step of a path leads to, however the path spells it. -/
structure Hop where
  name : String
  place : Place
  deriving DecidableEq, Inhabited

/-- The name of a hop, with the index if it has one. -/
def Hop.label (hop : Hop) : String :=
  match hop.place with
  | .item n => hop.name ++ "[" ++ toString n ++ "]"
  | _ => hop.name

namespace Step

/-- Where a step leads. -/
def hop (step : Step) : Hop := ⟨step.name, step.place⟩

theorem label_hop (step : Step) : step.hop.label = step.label := by
  obtain ⟨text, name, place, rest⟩ := step
  cases place <;> rfl

/-- Whether the numeral in the text of a step, if there is one, has few enough digits. -/
def NumeralFits (part : List Char) : Prop :=
  ∀ target ∈ subscript? part, target.2.length ≤ maxDigits

instance (part : List Char) : Decidable (NumeralFits part) := by
  unfold NumeralFits
  infer_instance

end Step

/-- The hop that the text of a step denotes. -/
def Hop.ofPart (part : List Char) : Hop :=
  match Step.subscript? part with
  | none => ⟨String.ofList part, .key⟩
  | some (name, []) => ⟨String.ofList name, .every⟩
  | some (name, digits) => ⟨String.ofList name, .item (Step.number digits)⟩

theorem Step.hop_of_target {part : List Char} {name : String} {place : Place}
    (h : target part = .ok (name, place)) :
    Hop.ofPart part = ⟨name, place⟩ ∧ NumeralFits part := by
  simp only [target] at h
  simp only [Hop.ofPart, NumeralFits]
  split at h
  · next hnone =>
    simp only [Except.ok.injEq, Prod.mk.injEq] at h
    simp [hnone, h]
  · next hsome =>
    simp only [Except.ok.injEq, Prod.mk.injEq] at h
    simp [hsome, h]
  · next hdigits hsome =>
    split at h
    · simp at h
    · next hlength =>
      simp only [Except.ok.injEq, Prod.mk.injEq] at h
      simp [hsome, h, Nat.le_of_not_lt hlength]

theorem Step.not_numeralFits_of_target {part : List Char} {e : LongNumeral}
    (h : target part = .error e) : ¬ NumeralFits part := by
  simp only [target] at h
  split at h
  · simp at h
  · simp at h
  · next hsome =>
    split at h
    · next hlength =>
      intro hfits
      exact absurd (hfits _ hsome) (Nat.not_le_of_lt hlength)
    · simp at h

namespace Path

/-- The texts between the points, trimmed. A blank one behind the last point is left out, unless
there is no point. -/
def partsOf (cs : List Char) : List (List Char) :=
  let parts := (cs.splitOn '.').map Text.trim
  if 1 < parts.length ∧ parts.getLast? = some [] then parts.dropLast else parts

/-- The trimmed texts of the steps of a path. -/
def parts (path : String) : List (List Char) := partsOf path.toList

/-- Where the steps of a path lead, one after the other. -/
def hops (path : String) : List Hop := (parts path).map Hop.ofPart

/-- Every numeral of the path has few enough digits to be read. -/
def Readable (path : String) : Prop := ∀ part ∈ parts path, Step.NumeralFits part

instance (path : String) : Decidable (Readable path) := by
  unfold Readable
  infer_instance

/-! ### Trimming before splitting -/

theorem isBlank_ne_point {c : Char} (h : Text.isBlank c = true) : c ≠ '.' := by
  rintro rfl
  exact absurd h (by decide)

theorem trim_cons_of_blank {c : Char} (h : Text.isBlank c = true) (cs : List Char) :
    Text.trim (c :: cs) = Text.trim cs := by
  simp [Text.trim, Text.trimStart, h]

theorem trim_append_of_blank {bs : List Char} (h : ∀ b ∈ bs, Text.isBlank b = true)
    (cs : List Char) : Text.trim (cs ++ bs) = Text.trim cs := by
  have hend : ∀ ds : List Char, Text.trimEnd (ds ++ bs) = Text.trimEnd ds := by
    intro ds
    simp only [Text.trimEnd, Text.trimStart, List.reverse_append, List.reverse_inj]
    exact List.dropWhile_append_of_pos fun b hb ↦ h b (List.mem_reverse.mp hb)
  have hblank : bs.dropWhile Text.isBlank = [] := by
    rw [List.dropWhile_eq_nil_iff]
    exact h
  simp only [Text.trim, Text.trimStart, List.dropWhile_append, hblank]
  split
  · next hempty => rw [List.isEmpty_iff.mp hempty]
  · exact hend _

theorem map_trim_splitOn_trimStart (cs : List Char) :
    ((Text.trimStart cs).splitOn '.').map Text.trim = (cs.splitOn '.').map Text.trim := by
  induction cs with
  | nil => rfl
  | cons c cs ih =>
    by_cases hc : Text.isBlank c = true
    · have hstart : Text.trimStart (c :: cs) = Text.trimStart cs := by
        simp [Text.trimStart, hc]
      rw [hstart, ih, List.splitOn_cons_eq_if_modifyHead]
      obtain ⟨head, tail, hsplit⟩ := List.exists_cons_of_ne_nil (List.splitOn_ne_nil '.' cs)
      simp [isBlank_ne_point hc, hsplit, trim_cons_of_blank hc]
    · have hstart : Text.trimStart (c :: cs) = c :: cs := by
        simp [Text.trimStart, hc]
      rw [hstart]

/-- Characters other than points at the end of a text end up at the end of its last part. -/
theorem splitOn_append_of_not_mem {bs : List Char} (h : '.' ∉ bs) (cs : List Char) :
    ∃ init last, cs.splitOn '.' = init ++ [last] ∧
      (cs ++ bs).splitOn '.' = init ++ [last ++ bs] := by
  induction cs with
  | nil => exact ⟨[], [], rfl, by simpa using List.splitOn_eq_singleton h⟩
  | cons c cs ih =>
    obtain ⟨init, last, hcs, happend⟩ := ih
    rw [List.cons_append, List.splitOn_cons_eq_if_modifyHead, List.splitOn_cons_eq_if_modifyHead,
      hcs, happend]
    by_cases hc : c = '.'
    · exact ⟨[] :: init, last, by simp [hc], by simp [hc]⟩
    · cases init with
      | nil => exact ⟨[], c :: last, by simp [hc], by simp [hc]⟩
      | cons head init => exact ⟨(c :: head) :: init, last, by simp [hc], by simp [hc]⟩

/-- What trimming takes away at the end of a text is blank. -/
theorem exists_trimEnd_append (cs : List Char) :
    ∃ bs, (∀ b ∈ bs, Text.isBlank b = true) ∧ cs = Text.trimEnd cs ++ bs := by
  refine ⟨(cs.reverse.takeWhile Text.isBlank).reverse, fun b hb ↦ ?_, ?_⟩
  · exact List.mem_takeWhile_imp (List.mem_reverse.mp hb)
  · have hsplit := List.takeWhile_append_dropWhile (p := Text.isBlank) (l := cs.reverse)
    rw [← List.reverse_inj, List.reverse_append, List.reverse_reverse] at hsplit
    exact hsplit.symm

theorem map_trim_splitOn_trim (cs : List Char) :
    ((Text.trim cs).splitOn '.').map Text.trim = (cs.splitOn '.').map Text.trim := by
  rw [← map_trim_splitOn_trimStart cs]
  obtain ⟨bs, hblank, hwhole⟩ := exists_trimEnd_append (Text.trimStart cs)
  have hpoint : '.' ∉ bs := fun hmem ↦ isBlank_ne_point (hblank _ hmem) rfl
  obtain ⟨init, last, htrim, happend⟩ := splitOn_append_of_not_mem hpoint (Text.trim cs)
  rw [show Text.trimStart cs = Text.trim cs ++ bs from hwhole, happend, htrim]
  simp [trim_append_of_blank hblank]

theorem partsOf_trim (cs : List Char) : partsOf (Text.trim cs) = partsOf cs := by
  simp only [partsOf, map_trim_splitOn_trim]

/-! ### The first step and the other hops -/

theorem takeWhile_append_of_dropWhile {cs tail : List Char} {c : Char}
    (h : cs.dropWhile (· ≠ '.') = c :: tail) :
    cs = cs.takeWhile (· ≠ '.') ++ '.' :: tail := by
  have hc : c = '.' := by
    have hhead := List.head?_dropWhile_not (· ≠ '.') cs
    rw [h] at hhead
    simpa using hhead
  have hsplit := List.takeWhile_append_dropWhile (p := (· ≠ '.')) (l := cs)
  rw [h, hc] at hsplit
  exact hsplit.symm

theorem not_mem_takeWhile (cs : List Char) : '.' ∉ cs.takeWhile (· ≠ '.') := by
  intro hmem
  simpa using List.mem_takeWhile_imp hmem

theorem partsOf_of_restText_nil {cs : List Char} (h : Step.restText cs = []) :
    partsOf cs = [Step.headText cs] := by
  cases hdrop : cs.dropWhile (· ≠ '.') with
  | nil =>
    have hpoint : '.' ∉ cs := by
      intro hmem
      simpa using List.dropWhile_eq_nil_iff.mp hdrop '.' hmem
    have hwhole : cs.takeWhile (· ≠ '.') = cs := by
      have hsplit := List.takeWhile_append_dropWhile (p := (· ≠ '.')) (l := cs)
      rwa [hdrop, List.append_nil] at hsplit
    rw [Step.headText, hwhole]
    simp [partsOf, List.splitOn_eq_singleton hpoint]
  | cons c tail =>
    have htail : Text.trim tail = [] := by rwa [Step.restText, hdrop] at h
    have hparts : (tail.splitOn '.').map Text.trim = [[]] := by
      rw [← map_trim_splitOn_trim tail, htail]
      rfl
    have hsplit : (cs.splitOn '.').map Text.trim = [Step.headText cs, []] := by
      rw [takeWhile_append_of_dropWhile hdrop,
        List.splitOn_append_cons_self_of_not_mem (not_mem_takeWhile cs), List.map_cons, hparts,
        ← takeWhile_append_of_dropWhile hdrop]
      rfl
    simp [partsOf, hsplit]

theorem partsOf_of_restText {cs : List Char} (h : Step.restText cs ≠ []) :
    partsOf cs = Step.headText cs :: partsOf (Step.restText cs) := by
  cases hdrop : cs.dropWhile (· ≠ '.') with
  | nil => exact absurd (by rw [Step.restText, hdrop]; rfl) h
  | cons c tail =>
    have htail : Step.restText cs = Text.trim tail := by rw [Step.restText, hdrop]; rfl
    have hsplit : (cs.splitOn '.').map Text.trim =
        Step.headText cs :: (tail.splitOn '.').map Text.trim := by
      rw [takeWhile_append_of_dropWhile hdrop,
        List.splitOn_append_cons_self_of_not_mem (not_mem_takeWhile cs), List.map_cons,
        ← takeWhile_append_of_dropWhile hdrop]
      rfl
    -- A single blank part behind the point would leave no rest, so nothing more is dropped here.
    have hblank : (tail.splitOn '.').map Text.trim ≠ [[]] := by
      intro hparts
      obtain ⟨part, hsingle, hpart⟩ := List.map_eq_singleton_iff.mp hparts
      have hjoin : ['.'].intercalate (tail.splitOn '.') = tail := List.intercalate_splitOn '.'
      rw [hsingle] at hjoin
      have hpart' : part = tail := by simpa using hjoin
      exact h (by rw [htail, ← hpart', hpart])
    rw [htail, partsOf_trim]
    simp only [partsOf, hsplit]
    obtain ⟨part, rest, hrest⟩ := List.exists_cons_of_ne_nil
      (show (tail.splitOn '.').map Text.trim ≠ [] by simp)
    rw [hrest] at hblank ⊢
    cases rest with
    | nil => simpa using hblank
    | cons part' rest =>
      by_cases hlast : (part' :: rest).getLast? = some []
      · simp [hlast]
      · simp [hlast]

section Decode

variable {path : String} {step : Step}

theorem hop_of_decode (h : Step.decode path = .ok step) :
    Hop.ofPart (Step.headText (Text.trim path.toList)) = step.hop ∧
      Step.NumeralFits (Step.headText (Text.trim path.toList)) := by
  simp only [Step.decode] at h
  split at h
  · simp at h
  · next htarget =>
    obtain rfl := Except.ok.inj h
    exact Step.hop_of_target htarget

theorem parts_of_last (h : Step.decode path = .ok step) (hrest : step.rest = none) :
    parts path = [Step.headText (Text.trim path.toList)] := by
  rw [parts, ← partsOf_trim]
  refine partsOf_of_restText_nil ?_
  simp only [Step.decode] at h
  split at h
  · simp at h
  · obtain rfl := Except.ok.inj h
    simp only [Step.rest?] at hrest
    split at hrest
    · assumption
    · simp at hrest

theorem parts_of_more {rest : String} (h : Step.decode path = .ok step)
    (hrest : step.rest = some rest) :
    parts path = Step.headText (Text.trim path.toList) :: parts rest := by
  obtain ⟨htext, hne⟩ := Step.toList_rest h hrest
  rw [parts, parts, ← partsOf_trim, htext]
  exact partsOf_of_restText (htext ▸ hne)

theorem hops_of_last (h : Step.decode path = .ok step) (hrest : step.rest = none) :
    hops path = [step.hop] := by
  simp [hops, parts_of_last h hrest, (hop_of_decode h).1]

theorem hops_of_more {rest : String} (h : Step.decode path = .ok step)
    (hrest : step.rest = some rest) : hops path = step.hop :: hops rest := by
  simp [hops, parts_of_more h hrest, (hop_of_decode h).1]

theorem readable_of_last (h : Step.decode path = .ok step) (hrest : step.rest = none) :
    Readable path := by
  simpa [Readable, parts_of_last h hrest] using (hop_of_decode h).2

theorem readable_of_more {rest : String} (h : Step.decode path = .ok step)
    (hrest : step.rest = some rest) : Readable path ↔ Readable rest := by
  simp [Readable, parts_of_more h hrest, (hop_of_decode h).2]

theorem not_readable_of_error {e : LongNumeral} (h : Step.decode path = .error e) :
    ¬ Readable path := by
  have hhead : Step.headText (Text.trim path.toList) ∈ parts path := by
    rw [parts, ← partsOf_trim]
    by_cases hrest : Step.restText (Text.trim path.toList) = []
    · simp [partsOf_of_restText_nil hrest]
    · simp [partsOf_of_restText hrest]
  intro hreadable
  simp only [Step.decode] at h
  split at h
  · next htarget => exact Step.not_numeralFits_of_target htarget (hreadable _ hhead)
  · simp at h

end Decode

/-- Induction along the walk of a path: the first step cannot be read, or it is the last one, or the
rest of the path comes behind it. -/
theorem induction {motive : String → Prop}
    (broken : ∀ path e, Step.decode path = .error e → motive path)
    (last : ∀ path step, Step.decode path = .ok step → step.rest = none → motive path)
    (more : ∀ path step rest, Step.decode path = .ok step → step.rest = some rest →
      motive rest → motive path) (path : String) : motive path := by
  cases h : Step.decode path with
  | error e => exact broken path e h
  | ok step =>
    cases hrest : step.rest with
    | none => exact last path step h hrest
    | some rest =>
      have := Step.length_rest_lt h hrest
      exact more path step rest h hrest (induction broken last more rest)
termination_by path.length

end Path

end DottedPath
