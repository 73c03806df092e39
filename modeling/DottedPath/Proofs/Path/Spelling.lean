import DottedPath.Proofs.Path.Hops

/-!
# Spelling out an index

A step `name[]` has no index. Written with one it is the step `name[n]`, and every other step stays
as it is (`Step.withIndex`); this is all that changes in what the step denotes
(`Hop.ofPart_withIndex`). When texts between the points of a path are given indices, the path that
they make (`Path.join`) has the hops of the first one with these indices. Trimmed texts without points
are the parts of the path that they make (`Path.parts_join`), and a name with an index in brackets is
the text of one step (`Path.stepText_item`, `Path.ofPart_item`).
-/

set_option autoImplicit false
set_option relaxedAutoImplicit false

namespace DottedPath

namespace Step

/-- The text of a step with an index between its brackets, if there is none. -/
def withIndex (n : Nat) (part : List Char) : List Char :=
  match subscript? (Text.trim part) with
  | some (name, []) => name ++ '[' :: Nat.toDigits 10 n ++ [']']
  | _ => part

theorem subscript?_eq_some {head name digits : List Char} (h : subscript? head = some (name, digits)) :
    head = name ++ '[' :: digits ++ [']'] ∧ name ≠ [] ∧ '[' ∉ name := by
  simp only [subscript?] at h
  split at h
  · next hhead =>
    obtain ⟨hne, hwhole⟩ := hhead
    simp only [Option.some.injEq, Prod.mk.injEq] at h
    obtain ⟨rfl, rfl⟩ := h
    refine ⟨hwhole, hne, fun hmem ↦ ?_⟩
    simpa using List.mem_takeWhile_imp hmem
  · simp at h

theorem subscript?_of_digits {name digits : List Char} (hne : name ≠ []) (hname : '[' ∉ name)
    (hdigits : ∀ c ∈ digits, c.isDigit = true) :
    subscript? (name ++ '[' :: digits ++ [']']) = some (name, digits) := by
  have hbefore : ∀ c ∈ name, (decide (c ≠ '[')) = true := by
    intro c hc
    simp only [ne_eq, decide_eq_true_eq]
    rintro rfl
    exact hname hc
  have htake : (name ++ '[' :: (digits ++ [']'])).takeWhile (· ≠ '[') = name := by
    rw [List.takeWhile_append_of_pos hbefore]
    simp
  have hdrop : (name ++ '[' :: (digits ++ [']'])).dropWhile (· ≠ '[') = '[' :: (digits ++ [']']) := by
    rw [List.dropWhile_append_of_pos hbefore]
    simp
  have hnumeral : (digits ++ [']']).takeWhile Char.isDigit = digits := by
    rw [List.takeWhile_append_of_pos hdigits]
    simp
  simp only [List.append_assoc, List.cons_append, subscript?, htake, hdrop, List.drop_succ_cons,
    List.drop_zero, hnumeral]
  simp [hne]

theorem number_toDigits (n : Nat) : number (Nat.toDigits 10 n) = n :=
  Nat.ofDigitChars_ten_toDigits

theorem withIndex_of_eq (n : Nat) {part name : List Char}
    (h : subscript? (Text.trim part) = some (name, [])) :
    withIndex n part = name ++ '[' :: Nat.toDigits 10 n ++ [']'] := by
  rw [withIndex, h]

theorem withIndex_of_ne (n : Nat) {part : List Char}
    (h : ∀ name, subscript? (Text.trim part) ≠ some (name, [])) : withIndex n part = part := by
  unfold withIndex
  split
  · next name hname => exact absurd hname (h name)
  · rfl

theorem subscript?_withIndex (n : Nat) {part name : List Char}
    (h : subscript? (Text.trim part) = some (name, [])) :
    subscript? (withIndex n part) = some (name, Nat.toDigits 10 n) := by
  obtain ⟨-, hne, hname⟩ := subscript?_eq_some h
  rw [withIndex_of_eq n h]
  exact subscript?_of_digits hne hname fun c hc ↦
    Nat.isDigit_of_mem_toDigits (by decide) (by decide) hc

theorem mem_of_mem_trim {cs : List Char} {c : Char} (h : c ∈ Text.trim cs) : c ∈ cs := by
  have hstart : c ∈ Text.trimStart cs := (Text.trimEnd_isPrefix _).subset h
  exact (List.dropWhile_sublist _).subset hstart

/-- A step that is given an index is trimmed. -/
theorem trim_withIndex (n : Nat) (part : List Char) :
    Text.trim (withIndex n part) = withIndex n (Text.trim part) := by
  by_cases h : ∃ name, subscript? (Text.trim part) = some (name, [])
  · obtain ⟨name, hname⟩ := h
    have htrim : subscript? (Text.trim (Text.trim part)) = some (name, []) := by
      rwa [Text.trim_trim]
    rw [withIndex_of_eq n hname, withIndex_of_eq n htrim]
    obtain ⟨hwhole, hne, -⟩ := subscript?_eq_some hname
    obtain ⟨c, cs, rfl⟩ := List.exists_cons_of_ne_nil hne
    refine Text.trim_eq_self ?_ ?_
    · intro d hd
      refine Text.isBlank_head_trim part d ?_
      rw [hwhole]
      simpa using hd
    · intro d hd
      rw [List.getLast?_concat] at hd
      obtain rfl := Option.some.inj hd
      decide
  · have hother : ∀ name, subscript? (Text.trim part) ≠ some (name, []) :=
      fun name hname ↦ h ⟨name, hname⟩
    rw [withIndex_of_ne n hother, withIndex_of_ne n (by rwa [Text.trim_trim])]

theorem withIndex_eq_nil_iff (n : Nat) (part : List Char) : withIndex n part = [] ↔ part = [] := by
  by_cases h : ∃ name, subscript? (Text.trim part) = some (name, [])
  · obtain ⟨name, hname⟩ := h
    obtain ⟨hwhole, hne, -⟩ := subscript?_eq_some hname
    rw [withIndex_of_eq n hname]
    constructor
    · simp
    · rintro rfl
      simp [Text.trim, Text.trimStart, Text.trimEnd] at hwhole
  · rw [withIndex_of_ne n fun name hname ↦ h ⟨name, hname⟩]

theorem not_mem_withIndex (n : Nat) {part : List Char} (h : '.' ∉ part) :
    '.' ∉ withIndex n part := by
  by_cases hsub : ∃ name, subscript? (Text.trim part) = some (name, [])
  · obtain ⟨name, hname⟩ := hsub
    obtain ⟨hwhole, -, -⟩ := subscript?_eq_some hname
    have hpoint : '.' ∉ name := by
      intro hmem
      refine h (mem_of_mem_trim ?_)
      rw [hwhole]
      simp [hmem]
    have hdigits : '.' ∉ Nat.toDigits 10 n := by
      intro hmem
      exact absurd (Nat.isDigit_of_mem_toDigits (by decide) (by decide) hmem) (by decide)
    rw [withIndex_of_eq n hname]
    simp [hpoint, hdigits]
  · rwa [withIndex_of_ne n fun name hname ↦ hsub ⟨name, hname⟩]

end Step

/-- The hop with an index, if it addresses a list without one. -/
def Hop.withIndex (n : Nat) (hop : Hop) : Hop :=
  match hop.place with
  | .every => ⟨hop.name, .item n⟩
  | _ => hop

/-- Of what a trimmed text of a step denotes, an index written into it changes the place alone. -/
theorem Hop.ofPart_withIndex (n : Nat) {part : List Char} (htrim : Text.trim part = part) :
    ofPart (Step.withIndex n part) = (ofPart part).withIndex n := by
  by_cases h : ∃ name, Step.subscript? (Text.trim part) = some (name, [])
  · obtain ⟨name, hname⟩ := h
    have hdigits := Step.subscript?_withIndex n hname
    obtain ⟨d, ds, hds⟩ := List.exists_cons_of_ne_nil (Nat.toDigits_ne_nil (n := n) (b := 10))
    have hnumber := Step.number_toDigits n
    rw [hds] at hdigits hnumber
    rw [htrim] at hname
    simp [ofPart, hdigits, hname, withIndex, hnumber]
  · have hother : ∀ name, Step.subscript? (Text.trim part) ≠ some (name, []) :=
      fun name hname ↦ h ⟨name, hname⟩
    rw [Step.withIndex_of_ne n hother]
    rw [htrim] at hother
    simp only [ofPart]
    split
    · rfl
    · next name hname => exact absurd hname (hother name)
    · rfl

namespace Path

/-- The path with the given texts between its points. -/
def join (texts : List (List Char)) : String := String.ofList (['.'].intercalate texts)

theorem not_mem_of_mem_splitOn {cs text : List Char} (h : text ∈ cs.splitOn '.') : '.' ∉ text := by
  induction cs generalizing text with
  | nil =>
    obtain rfl : text = [] := by simpa using h
    exact List.not_mem_nil
  | cons c cs ih =>
    obtain ⟨head, tail, hsplit⟩ := List.exists_cons_of_ne_nil (List.splitOn_ne_nil '.' cs)
    rw [List.splitOn_cons_eq_if_modifyHead, hsplit] at h
    rw [hsplit] at ih
    by_cases hc : c = '.'
    · obtain rfl | hmem : text = [] ∨ text ∈ head :: tail := by simpa [hc] using h
      · exact List.not_mem_nil
      · exact ih hmem
    · obtain rfl | hmem : text = c :: head ∨ text ∈ tail := by simpa [hc] using h
      · simpa [Ne.symm hc] using ih (List.mem_cons_self ..)
      · exact ih (List.mem_cons_of_mem _ hmem)

theorem splitOn_join {texts : List (List Char)} (hpoint : ∀ text ∈ texts, '.' ∉ text)
    (hne : texts ≠ []) : (join texts).toList.splitOn '.' = texts := by
  rw [join, String.toList_ofList]
  exact List.splitOn_intercalate '.' hpoint hne

/-- The parts of a path are trimmed, and there is no point in them. -/
theorem of_mem_parts {path : String} {part : List Char} (hpart : part ∈ parts path) :
    Text.trim part = part ∧ '.' ∉ part := by
  have hmem : part ∈ (path.toList.splitOn '.').map Text.trim := by
    rw [parts, partsOf] at hpart
    split at hpart
    · exact (List.dropLast_sublist _).subset hpart
    · exact hpart
  obtain ⟨text, htext, rfl⟩ := List.mem_map.mp hmem
  exact ⟨Text.trim_trim text,
    fun hpoint ↦ not_mem_of_mem_splitOn htext (Step.mem_of_mem_trim hpoint)⟩

/-- Trimmed texts without points are the parts of the path that they make, provided that there is
none or one that is not blank behind the last point. -/
theorem parts_join {texts : List (List Char)}
    (htexts : ∀ text ∈ texts, Text.trim text = text ∧ '.' ∉ text) (hne : texts ≠ [])
    (hend : 1 < texts.length → texts.getLast? ≠ some []) :
    parts (join texts) = texts := by
  have htrim : texts.map Text.trim = texts :=
    List.map_congr_left (fun text htext ↦ (htexts text htext).1) |>.trans (List.map_id texts)
  rw [parts, partsOf, splitOn_join (fun text htext ↦ (htexts text htext).2) hne, htrim]
  exact if_neg fun hblank ↦ hend hblank.1 hblank.2

/-- The text of one step, which can be read. -/
structure StepText (text : String) : Prop where
  point : '.' ∉ text.toList
  fits : Step.NumeralFits (Text.trim text.toList)

/-! ### List steps -/

/-- The name of a list step: not empty, without a point and an opening bracket, and without a blank
at its start. -/
structure ListName (name : String) : Prop where
  named : name.toList ≠ []
  point : '.' ∉ name.toList
  bracket : '[' ∉ name.toList
  start : ∀ c ∈ name.toList.head?, Text.isBlank c = false

section ListName

variable {name : String} {digits : List Char}

theorem trim_subscript (hname : ListName name) (digits : List Char) :
    Text.trim (name.toList ++ '[' :: digits ++ [']']) = name.toList ++ '[' :: digits ++ [']'] := by
  obtain ⟨c, cs, hcs⟩ := List.exists_cons_of_ne_nil hname.named
  refine Text.trim_eq_self (fun d hd ↦ hname.start d ?_) fun d hd ↦ ?_
  · rw [hcs] at hd ⊢
    exact hd
  · rw [List.getLast?_concat] at hd
    obtain rfl := Option.some.inj hd
    decide

theorem subscript?_trim (hname : ListName name) (hdigits : ∀ c ∈ digits, c.isDigit = true) :
    Step.subscript? (Text.trim (name.toList ++ '[' :: digits ++ [']'])) =
      some (name.toList, digits) := by
  rw [trim_subscript hname]
  exact Step.subscript?_of_digits hname.named hname.bracket hdigits

/-- A name with few enough digits in brackets is the text of one step. -/
theorem stepText_subscript {text : String} (hname : ListName name)
    (htext : text.toList = name.toList ++ '[' :: digits ++ [']'])
    (hdigits : ∀ c ∈ digits, c.isDigit = true) (hlength : digits.length ≤ Step.maxDigits) :
    StepText text := by
  constructor
  · rw [htext]
    have hpoint : '.' ∉ digits := fun hmem ↦ absurd (hdigits _ hmem) (by decide)
    simp [hname.point, hpoint]
  · rw [htext, Step.NumeralFits, subscript?_trim hname hdigits]
    rintro _ hsome
    obtain rfl := Option.some.inj hsome
    exact hlength

theorem toList_every (name : String) :
    (name ++ "[]").toList = name.toList ++ '[' :: [] ++ [']'] := by
  simp

theorem toList_item (name : String) (i : Nat) :
    (name ++ "[" ++ toString i ++ "]").toList =
      name.toList ++ '[' :: Nat.toDigits 10 i ++ [']'] := by
  simp

theorem stepText_every (hname : ListName name) : StepText (name ++ "[]") :=
  stepText_subscript hname (toList_every name) (by simp) (by simp)

theorem ofPart_every (hname : ListName name) :
    Hop.ofPart (Text.trim (name ++ "[]").toList) = ⟨name, .every⟩ := by
  rw [toList_every, Hop.ofPart, subscript?_trim hname (by simp)]
  simp only [String.ofList_toList]

theorem isDigit_toDigits (i : Nat) : ∀ c ∈ Nat.toDigits 10 i, c.isDigit = true :=
  fun _ hc ↦ Nat.isDigit_of_mem_toDigits (by decide) (by decide) hc

/-- An index with no more digits than a numeral may have can be read. -/
theorem stepText_item (hname : ListName name) {i : Nat}
    (hi : (Nat.toDigits 10 i).length ≤ Step.maxDigits) :
    StepText (name ++ "[" ++ toString i ++ "]") :=
  stepText_subscript hname (toList_item name i) (isDigit_toDigits i) hi

theorem ofPart_item (hname : ListName name) (i : Nat) :
    Hop.ofPart (Text.trim (name ++ "[" ++ toString i ++ "]").toList) = ⟨name, .item i⟩ := by
  rw [toList_item, Hop.ofPart, subscript?_trim hname (isDigit_toDigits i)]
  have hnumber := Step.number_toDigits i
  cases hdigits : Nat.toDigits 10 i with
  | nil => exact absurd hdigits Nat.toDigits_ne_nil
  | cons d ds => rw [← hnumber, hdigits]; simp only [String.ofList_toList]

end ListName

end Path

end DottedPath
