/-!
# Blank characters and trimming

The blank characters are the white space of Unicode together with the four information separators
`U+001C` to `U+001F`, and nothing else. `trim` drops the blank characters at both ends of a text.

Main statements. A trimmed text neither starts nor ends with a blank (`isBlank_head_trim`,
`isBlank_getLast_trim`), trimming is idempotent (`trim_trim`) and never makes a text longer
(`length_trim_le`), and every white space character of the core library is blank
(`isBlank_of_isWhitespace`).
-/

set_option autoImplicit false
set_option relaxedAutoImplicit false

namespace DottedPath.Text

/-- The blank characters, as ranges of code points with both ends included. -/
def blankRanges : List (Nat × Nat) :=
  [(0x09, 0x0D), (0x1C, 0x20), (0x85, 0x85), (0xA0, 0xA0), (0x1680, 0x1680), (0x2000, 0x200A),
    (0x2028, 0x2029), (0x202F, 0x202F), (0x205F, 0x205F), (0x3000, 0x3000)]

/-- A character that trimming removes at the ends of a text. -/
def isBlank (c : Char) : Bool :=
  blankRanges.any fun range ↦ range.1 ≤ c.toNat && c.toNat ≤ range.2

/-- The text without the blank characters at its start. -/
def trimStart (cs : List Char) : List Char :=
  cs.dropWhile isBlank

/-- The text without the blank characters at its end. -/
def trimEnd (cs : List Char) : List Char :=
  (trimStart cs.reverse).reverse

/-- The text without the blank characters at both ends. -/
def trim (cs : List Char) : List Char :=
  trimEnd (trimStart cs)

/-- Trimming of a string. -/
def trimmed (s : String) : String :=
  String.ofList (trim s.toList)

theorem isBlank_of_isWhitespace (c : Char) (h : c.isWhitespace) : isBlank c := by
  simp only [Char.isWhitespace, Bool.or_eq_true, decide_eq_true_eq] at h
  rcases h with ((h | h) | h) | h <;> subst h <;> decide

theorem length_trimStart_le (cs : List Char) : (trimStart cs).length ≤ cs.length :=
  (List.dropWhile_sublist _).length_le

theorem length_trimEnd_le (cs : List Char) : (trimEnd cs).length ≤ cs.length := by
  simpa [trimEnd] using length_trimStart_le cs.reverse

theorem length_trim_le (cs : List Char) : (trim cs).length ≤ cs.length :=
  Nat.le_trans (length_trimEnd_le _) (length_trimStart_le cs)

theorem isBlank_head_trimStart (cs : List Char) (c : Char) (h : (trimStart cs).head? = some c) :
    isBlank c = false := by
  induction cs with
  | nil => simp [trimStart] at h
  | cons d ds ih =>
    by_cases hd : isBlank d
    · exact ih (by simpa [trimStart, List.dropWhile_cons, hd] using h)
    · have hc : d = c := by simpa [trimStart, List.dropWhile_cons, hd] using h
      simpa [← hc] using hd

theorem isBlank_getLast_trimEnd (cs : List Char) (c : Char)
    (h : (trimEnd cs).getLast? = some c) : isBlank c = false :=
  isBlank_head_trimStart cs.reverse c (by simpa [trimEnd] using h)

theorem trimStart_eq_self_iff (cs : List Char) :
    trimStart cs = cs ↔ ∀ c, cs.head? = some c → isBlank c = false := by
  constructor
  · intro h c hc
    exact isBlank_head_trimStart cs c (by rw [h]; exact hc)
  · intro h
    cases cs with
    | nil => rfl
    | cons d ds => simp [trimStart, h d rfl]

theorem trimEnd_eq_self_iff (cs : List Char) :
    trimEnd cs = cs ↔ ∀ c, cs.getLast? = some c → isBlank c = false := by
  have h := trimStart_eq_self_iff cs.reverse
  rw [List.head?_reverse] at h
  rw [← h, trimEnd, ← List.reverse_inj, List.reverse_reverse]

/-- What is left of a text after its end is trimmed is the text up to some place. -/
theorem trimEnd_isPrefix (cs : List Char) : trimEnd cs <+: cs := by
  have h : trimStart cs.reverse <:+ cs.reverse := List.dropWhile_suffix _
  simpa [trimEnd] using h.reverse

theorem isBlank_head_trim (cs : List Char) (c : Char) (h : (trim cs).head? = some c) :
    isBlank c = false := by
  obtain ⟨rest, hrest⟩ := trimEnd_isPrefix (trimStart cs)
  refine isBlank_head_trimStart cs c ?_
  rw [← hrest, List.head?_append]
  simp [show (trimEnd (trimStart cs)).head? = some c from h]

theorem isBlank_getLast_trim (cs : List Char) (c : Char) (h : (trim cs).getLast? = some c) :
    isBlank c = false :=
  isBlank_getLast_trimEnd _ c h

/-- A text with no blank at either end is left alone. -/
theorem trim_eq_self {cs : List Char} (start : ∀ c, cs.head? = some c → isBlank c = false)
    (stop : ∀ c, cs.getLast? = some c → isBlank c = false) : trim cs = cs := by
  rw [trim, (trimStart_eq_self_iff cs).2 start, (trimEnd_eq_self_iff cs).2 stop]

theorem trim_trim (cs : List Char) : trim (trim cs) = trim cs :=
  trim_eq_self (isBlank_head_trim cs) (isBlank_getLast_trim cs)

end DottedPath.Text
