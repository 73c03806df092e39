import DottedPath.Proofs.Heap.Slot
import DottedPath.Proofs.Path.Spelling

/-!
# Paths joined by a point

A path `p.q` is read like `p` and then like `q` (`Path.Continues`), provided that `q` is not blank and
that no blank text stands behind the last point of `p` (`continues_join`). What is handed on at each
step is the trimmed text of the rest, and trimming a path changes nothing in how it is read
(`Step.decode_trimmed`), so the text that comes behind the last step of `p` is the very text that a
reader of `q` alone works with.
-/

set_option autoImplicit false
set_option relaxedAutoImplicit false

namespace DottedPath

namespace Text

theorem trimStart_append_point (as bs : List Char) :
    trimStart (as ++ '.' :: bs) = trimStart as ++ '.' :: bs := by
  have hpoint : isBlank '.' = false := by decide
  induction as with
  | nil => simp [trimStart, hpoint]
  | cons a as ih =>
    by_cases ha : isBlank a = true
    · simpa [trimStart, ha] using ih
    · simp [trimStart, ha]

theorem trimEnd_append_point (as bs : List Char) :
    trimEnd (as ++ '.' :: bs) = as ++ '.' :: trimEnd bs := by
  have hstart := trimStart_append_point bs.reverse as.reverse
  rw [trimEnd, trimEnd, List.reverse_append, List.reverse_cons, List.append_assoc,
    List.singleton_append, hstart, List.reverse_append, List.reverse_cons, List.reverse_reverse]
  simp

/-- A point is no blank, so what is trimmed is at the ends of the texts around it. -/
theorem trim_append_point (as bs : List Char) :
    trim (as ++ '.' :: bs) = trimStart as ++ '.' :: trimEnd bs := by
  rw [trim, trimStart_append_point, trimEnd_append_point]

theorem trim_trimStart (cs : List Char) : trim (trimStart cs) = trim cs := by
  rw [trim, (trimStart_eq_self_iff _).2 (isBlank_head_trimStart cs), trim]

end Text

namespace Path

theorem trim_trimEnd (cs : List Char) : Text.trim (Text.trimEnd cs) = Text.trim cs := by
  obtain ⟨bs, hblank, hcs⟩ := exists_trimEnd_append cs
  conv_rhs => rw [hcs]
  rw [trim_append_of_blank hblank]

end Path

namespace Step

/-! ### Reading a text and its trimmed text -/

theorem ne_point_of_not_mem {cs : List Char} (h : '.' ∉ cs) : ∀ c ∈ cs, decide (c ≠ '.') = true := by
  intro c hc
  rw [decide_eq_true_eq]
  exact ne_of_mem_of_not_mem hc h

theorem headText_append_point {as : List Char} (h : '.' ∉ as) (bs : List Char) :
    headText (as ++ '.' :: bs) = Text.trim as := by
  rw [headText, List.takeWhile_append_of_pos (ne_point_of_not_mem h)]
  simp

theorem restText_append_point {as : List Char} (h : '.' ∉ as) (bs : List Char) :
    restText (as ++ '.' :: bs) = Text.trim bs := by
  rw [restText, List.dropWhile_append_of_pos (ne_point_of_not_mem h)]
  simp

theorem texts_of_not_mem {cs : List Char} (h : '.' ∉ cs) :
    headText cs = Text.trim cs ∧ restText cs = [] := by
  have hcs := ne_point_of_not_mem h
  constructor
  · rw [headText, List.takeWhile_eq_self_iff.mpr hcs]
  · rw [restText, List.dropWhile_eq_nil_iff.mpr hcs]
    rfl

theorem texts_trim (cs : List Char) :
    headText (Text.trim cs) = headText cs ∧ restText (Text.trim cs) = restText cs := by
  by_cases hpoint : '.' ∈ cs
  · obtain ⟨as, bs, rfl, has⟩ := List.eq_append_cons_of_mem hpoint
    have hstart : '.' ∉ Text.trimStart as := fun hmem ↦
      has ((List.dropWhile_sublist _).subset hmem)
    rw [Text.trim_append_point, headText_append_point hstart, headText_append_point has,
      restText_append_point hstart, restText_append_point has]
    exact ⟨Text.trim_trimStart as, Path.trim_trimEnd bs⟩
  · have htrim : '.' ∉ Text.trim cs := fun hmem ↦ hpoint (mem_of_mem_trim hmem)
    rw [(texts_of_not_mem htrim).1, (texts_of_not_mem htrim).2, (texts_of_not_mem hpoint).1,
      (texts_of_not_mem hpoint).2, Text.trim_trim]
    exact ⟨rfl, rfl⟩

/-- What the first step of a path is, without trimming the path first. -/
theorem decode_eq (path : String) :
    decode path = (target (headText path.toList)).map fun target ↦
      ⟨Text.trimmed path, target.1, target.2, rest? (restText path.toList)⟩ := by
  rw [decode, (texts_trim path.toList).1, (texts_trim path.toList).2]
  cases target (headText path.toList) <;> rfl

theorem rest_of_decode {path : String} {step : Step} (h : decode path = .ok step) :
    step.rest = rest? (restText path.toList) := by
  rw [decode_eq] at h
  obtain ⟨_, -, rfl⟩ := exists_of_map_eq_ok h
  rfl

theorem decode_error_of_headText_eq {p pq : String} {e : LongNumeral} (hp : decode p = .error e)
    (hhead : headText pq.toList = headText p.toList) : decode pq = .error e := by
  rw [decode_eq] at hp ⊢
  rw [hhead]
  cases htarget : target (headText p.toList) with
  | error e' => rwa [htarget] at hp
  | ok target => simp [htarget, Except.map] at hp

/-- Paths with the same text up to the first point have the same first step, apart from what comes
behind it. -/
theorem decode_of_headText_eq {p pq : String} {step : Step} (hp : decode p = .ok step)
    (hhead : headText pq.toList = headText p.toList) :
    decode pq =
      .ok { step with text := Text.trimmed pq, rest := rest? (restText pq.toList) } := by
  rw [decode_eq] at hp
  obtain ⟨_, htarget, rfl⟩ := exists_of_map_eq_ok hp
  rw [decode_eq, hhead, htarget]
  rfl

/-- The rest of a path behind a text that is not blank. -/
theorem rest?_trim {cs : List Char} (h : Text.trim cs ≠ []) :
    rest? (Text.trim cs) = some (Text.trimmed (String.ofList cs)) := by
  obtain ⟨d, ds, hds⟩ := List.exists_cons_of_ne_nil h
  rw [Text.trimmed, String.toList_ofList, hds, rest?]
  exact List.cons_ne_nil d ds

/-- Trimming a path changes nothing in how it is read. -/
theorem decode_trimmed (path : String) : decode (Text.trimmed path) = decode path := by
  simp [decode, Text.trimmed, Text.trim_trim]

end Step

namespace Path

theorem parts_trimmed (path : String) : parts (Text.trimmed path) = parts path := by
  simp [parts, Text.trimmed, partsOf_trim]

theorem hops_trimmed (path : String) : hops (Text.trimmed path) = hops path := by
  rw [hops, parts_trimmed, hops]

theorem readable_trimmed (path : String) : Readable (Text.trimmed path) ↔ Readable path := by
  rw [Readable, parts_trimmed, Readable]

/-! ### One path behind another -/

/-- The path `pq` is read like `p`, and behind its last step goes on with the trimmed text of `q`. -/
inductive Continues (q : String) : String → String → Prop
  | broken {p pq : String} {e : LongNumeral} (hp : Step.decode p = .error e)
    (hpq : Step.decode pq = .error e) : Continues q p pq
  | last {p pq : String} {step step' : Step} (hp : Step.decode p = .ok step)
    (hlast : step.rest = none) (hpq : Step.decode pq = .ok step') (hhop : step'.hop = step.hop)
    (hrest : step'.rest = some (Text.trimmed q)) : Continues q p pq
  | more {p pq rest rest' : String} {step step' : Step} (hp : Step.decode p = .ok step)
    (hrest : step.rest = some rest) (hpq : Step.decode pq = .ok step')
    (hhop : step'.hop = step.hop) (hrest' : step'.rest = some rest')
    (hcontinues : Continues q rest rest') : Continues q p pq

section Continues

variable {p q pq : String}

theorem Continues.trimmed (hcontinues : Continues q p pq) :
    Continues q (Text.trimmed p) (Text.trimmed pq) := by
  have hdecode := Step.decode_trimmed
  cases hcontinues with
  | broken hp hpq => exact .broken ((hdecode p).trans hp) ((hdecode pq).trans hpq)
  | last hp hlast hpq hhop hrest =>
    exact .last ((hdecode p).trans hp) hlast ((hdecode pq).trans hpq) hhop hrest
  | more hp hrest hpq hhop hrest' hcontinues =>
    exact .more ((hdecode p).trans hp) hrest ((hdecode pq).trans hpq) hhop hrest' hcontinues

/-- The hops of a path that goes on like another one are those of both. -/
theorem Continues.hops_eq (hcontinues : Continues q p pq) (hreadable : Readable p) :
    hops pq = hops p ++ hops q := by
  induction hcontinues with
  | broken hp _ => exact absurd hreadable (not_readable_of_error hp)
  | last hp hlast hpq hhop hrest =>
    rw [hops_of_more hpq hrest, hops_of_last hp hlast, hops_trimmed, hhop, List.singleton_append]
  | more hp hrest hpq hhop hrest' _ ih =>
    rw [hops_of_more hpq hrest', hops_of_more hp hrest, hhop, List.cons_append,
      ih ((readable_of_more hp hrest).mp hreadable)]

theorem Continues.slots_eq (hcontinues : Continues q p pq) (hreadable : Readable p) :
    slots pq = slots p ++ slots q := by
  rw [slots, hcontinues.hops_eq hreadable, List.flatMap_append, slots, slots]

theorem Continues.readable_iff (hcontinues : Continues q p pq) :
    Readable pq ↔ Readable p ∧ Readable q := by
  induction hcontinues with
  | broken hp hpq => simp [not_readable_of_error hp, not_readable_of_error hpq]
  | last hp hlast hpq _ hrest =>
    rw [readable_of_more hpq hrest, readable_trimmed]
    exact (and_iff_right (readable_of_last hp hlast)).symm
  | more hp hrest hpq _ hrest' _ ih =>
    rw [readable_of_more hpq hrest', readable_of_more hp hrest, ih]

end Continues

/-- The text behind the last point, or the whole text if there is none. -/
def behindLastPoint (cs : List Char) : List Char := (cs.reverse.takeWhile (· ≠ '.')).reverse

/-- No blank text stands behind the last point of the path, if it has one. -/
def Extensible (path : String) : Prop :=
  '.' ∈ path.toList → Text.trim (behindLastPoint path.toList) ≠ []

instance (path : String) : Decidable (Extensible path) := by
  unfold Extensible
  infer_instance

theorem behindLastPoint_of_not_mem {cs : List Char} (h : '.' ∉ cs) : behindLastPoint cs = cs := by
  have hcs := Step.ne_point_of_not_mem (mt List.mem_reverse.mp h)
  rw [behindLastPoint, List.takeWhile_eq_self_iff.mpr hcs, List.reverse_reverse]

theorem behindLastPoint_append (as bs : List Char) :
    behindLastPoint (as ++ '.' :: bs) = behindLastPoint bs := by
  simp only [behindLastPoint, List.reverse_append, List.reverse_cons, List.append_assoc,
    List.reverse_inj, List.takeWhile_append]
  split
  · next hall =>
    rw [(List.takeWhile_prefix _).eq_of_length hall]
    simp
  · rfl

theorem Extensible.of_append {p : String} {as bs : List Char} (hp : Extensible p)
    (htext : p.toList = as ++ '.' :: bs) :
    Text.trim bs ≠ [] ∧ Extensible (String.ofList bs) := by
  have hend : Text.trim (behindLastPoint bs) ≠ [] := by
    have hlast := hp (by rw [htext]; simp)
    rwa [htext, behindLastPoint_append] at hlast
  refine ⟨?_, fun _ ↦ by rwa [String.toList_ofList]⟩
  by_cases hpoint : '.' ∈ bs
  · obtain ⟨cs, ds, rfl⟩ := List.append_of_mem hpoint
    rw [Text.trim_append_point]
    simp
  · rwa [behindLastPoint_of_not_mem hpoint] at hend

/-- A path and the same path with another one behind it have the same text up to the first point. -/
theorem headText_join (p q : String) :
    Step.headText (p ++ "." ++ q).toList = Step.headText p.toList := by
  have htext : (p ++ "." ++ q).toList = p.toList ++ '.' :: q.toList := by simp
  rw [htext]
  by_cases hpoint : '.' ∈ p.toList
  · obtain ⟨as, bs, has, hmem⟩ := List.eq_append_cons_of_mem hpoint
    rw [has, List.append_assoc, List.cons_append, Step.headText_append_point hmem,
      Step.headText_append_point hmem]
  · rw [Step.headText_append_point hpoint, (Step.texts_of_not_mem hpoint).1]

/-- Assumes: a first path in which no blank text stands behind the last point, and a second one that
is not blank. Joined by a point, they are read one after the other. -/
theorem continues_join {p q : String} (hp : Extensible p) (hq : Text.trim q.toList ≠ []) :
    Continues q p (p ++ "." ++ q) := by
  have htext : (p ++ "." ++ q).toList = p.toList ++ '.' :: q.toList := by simp
  cases hstep : Step.decode p with
  | error e => exact .broken hstep (Step.decode_error_of_headText_eq hstep (headText_join p q))
  | ok step =>
    have hjoin := Step.decode_of_headText_eq hstep (headText_join p q)
    by_cases hpoint : '.' ∈ p.toList
    · -- The first step ends at the first point of `p`, and the same holds of what comes behind it.
      obtain ⟨as, bs, has, hmem⟩ := List.eq_append_cons_of_mem hpoint
      obtain ⟨hbs, hextensible⟩ := hp.of_append has
      have hrest : step.rest = some (Text.trimmed (String.ofList bs)) := by
        rw [Step.rest_of_decode hstep, has, Step.restText_append_point hmem, Step.rest?_trim hbs]
      have hbehind : (p ++ "." ++ q).toList = as ++ '.' :: (bs ++ '.' :: q.toList) := by
        rw [htext, has, List.append_assoc, List.cons_append]
      have hne : Text.trim (bs ++ '.' :: q.toList) ≠ [] := by
        rw [Text.trim_append_point]
        simp
      have hstring : String.ofList (bs ++ '.' :: q.toList) = String.ofList bs ++ "." ++ q := by
        simp [← String.toList_inj]
      rw [hbehind, Step.restText_append_point hmem, Step.rest?_trim hne, hstring] at hjoin
      have hshorter : bs.length < p.length := by
        rw [← String.length_toList, has, List.length_append, List.length_cons]
        omega
      refine .more hstep hrest hjoin rfl rfl (Continues.trimmed ?_)
      exact continues_join hextensible hq
    · have hlast : step.rest = none := by
        rw [Step.rest_of_decode hstep, (Step.texts_of_not_mem hpoint).2]
        rfl
      rw [htext, Step.restText_append_point hpoint, Step.rest?_trim hq, String.ofList_toList] at hjoin
      exact .last hstep hlast hjoin rfl rfl
termination_by p.length

end Path

end DottedPath
