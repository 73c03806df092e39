import DottedPath.Proofs.Path.Decoding

/-!
# What a step calls its path

A step carries the text of the path from its own segment on, trimmed. Segments are what splitting the
path at its points gives, and joining those from some segment on gives the text again
(`Path.fromSegment`). Though each step trims what it hands on, this makes no difference to what the
steps behind it carry (`Path.textFrom_trim`), so that each step of a walk carries the text of the path
itself, from its segment on (`Path.Walk.text_eq`).
-/

set_option autoImplicit false
set_option relaxedAutoImplicit false

namespace DottedPath

namespace Path

/-- The text from a segment on, trimmed. -/
def textFrom (k : Nat) (cs : List Char) : List Char :=
  Text.trim (['.'].intercalate ((cs.splitOn '.').drop k))

/-- The text of the path from a segment on, trimmed. -/
def fromSegment (k : Nat) (path : String) : String := String.ofList (textFrom k path.toList)

theorem textFrom_zero (cs : List Char) : textFrom 0 cs = Text.trim cs := by
  rw [textFrom, List.drop_zero, List.intercalate_splitOn]

theorem textFrom_succ_append {as : List Char} (has : '.' ∉ as) (k : Nat) (bs : List Char) :
    textFrom (k + 1) (as ++ '.' :: bs) = textFrom k bs := by
  rw [textFrom, List.splitOn_append_cons_self_of_not_mem has, List.drop_succ_cons, textFrom]

theorem textFrom_succ_of_not_mem {cs : List Char} (hcs : '.' ∉ cs) (k : Nat) :
    textFrom (k + 1) cs = [] := by
  rw [textFrom, List.splitOn_eq_singleton hcs, List.drop_succ_cons, List.drop_nil]
  rfl

/-- Blanks around the whole text make no difference to the text from a segment on. -/
theorem textFrom_trim (k : Nat) (cs : List Char) : textFrom k (Text.trim cs) = textFrom k cs := by
  induction k generalizing cs with
  | zero => rw [textFrom_zero, textFrom_zero, Text.trim_trim]
  | succ k ih =>
    by_cases hpoint : '.' ∈ cs
    · obtain ⟨as, bs, rfl, has⟩ := List.eq_append_cons_of_mem hpoint
      have hstart : '.' ∉ Text.trimStart as := fun hmem ↦
        has ((List.dropWhile_sublist _).subset hmem)
      calc textFrom (k + 1) (Text.trim (as ++ '.' :: bs))
          = textFrom k (Text.trimEnd bs) := by
            rw [Text.trim_append_point, textFrom_succ_append hstart]
        _ = textFrom k (Text.trim bs) := by rw [← ih (Text.trimEnd bs), trim_trimEnd]
        _ = textFrom (k + 1) (as ++ '.' :: bs) := by rw [ih bs, textFrom_succ_append has]
    · have htrim : '.' ∉ Text.trim cs := fun hmem ↦ hpoint (Step.mem_of_mem_trim hmem)
      rw [textFrom_succ_of_not_mem htrim, textFrom_succ_of_not_mem hpoint]

/-- What comes behind the first step, from a segment on, is the path from the next segment on. -/
theorem fromSegment_rest {path rest : String} {step : Step} (hstep : Step.decode path = .ok step)
    (hrest : step.rest = some rest) (k : Nat) : fromSegment k rest = fromSegment (k + 1) path := by
  obtain ⟨htext, hne⟩ := Step.toList_rest hstep hrest
  rw [(Step.texts_trim path.toList).2] at htext
  have hpoint : '.' ∈ path.toList := by
    by_contra hpoint
    exact hne (by rw [htext, (Step.texts_of_not_mem hpoint).2])
  obtain ⟨as, bs, hpath, has⟩ := List.eq_append_cons_of_mem hpoint
  rw [hpath, Step.restText_append_point has] at htext
  rw [fromSegment, fromSegment, htext, hpath, textFrom_trim, textFrom_succ_append has]

/-- Each step of a walk carries the text of the path from its segment on. -/
theorem Walk.text_eq {path : String} {before after : List Step} {step : Step}
    {stop : Option LongNumeral} (hwalk : Walk path (before ++ step :: after) stop) :
    step.text = fromSegment before.length path := by
  have hfirst : ∀ {path : String} {step : Step}, Step.decode path = .ok step →
      step.text = fromSegment 0 path := by
    intro path step hstep
    rw [Step.text_of_decode hstep, fromSegment, textFrom_zero]
    rfl
  induction before generalizing path with
  | nil =>
    cases hwalk with
    | last hstep | more hstep => exact hfirst hstep
  | cons first before ih =>
    generalize hsteps : first :: before ++ step :: after = steps at hwalk
    cases hwalk with
    | broken => cases hsteps
    | last => simp at hsteps
    | more hstep hrest hwalk =>
      obtain ⟨rfl, rfl⟩ := List.cons.inj hsteps
      rw [ih hwalk, List.length_cons, fromSegment_rest hstep hrest]

end Path

end DottedPath
