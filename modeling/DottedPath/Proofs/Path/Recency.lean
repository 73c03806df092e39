import DottedPath.Proofs.Path.Memory
import DottedPath.Proofs.Path.Parser
import Mathlib.Data.Finset.Card
import Mathlib.Data.List.Dedup

/-!
# What a parser remembers

What a parser with a memory that forgets the oldest reading remembers after any uses is a matter of
recency: of the paths read since everything was last forgotten, told apart as texts, it remembers those
that were read last, as many as there is room for (`Parser.isSome_remembered?_after_iff`). A use tells
the memory no more than what has been read by it, which is the step of this induction
(`Parser.Told.use`).

Hence a reading is handed out a second time when its path has been read before, nothing has been
forgotten on purpose since, and fewer other paths than there is room for have been read in between
(`Parser.recency_of_run`). In every other case the step is read anew, which is noted.
-/

set_option autoImplicit false
set_option relaxedAutoImplicit false

namespace DottedPath

namespace Parser

/-! ### Distinct texts, the last one first -/

section Recent

variable {α : Type} [DecidableEq α]

theorem dedup_concat (l : List α) (a : α) : (l ++ [a]).dedup = l.dedup.filter (· ≠ a) ++ [a] := by
  induction l with
  | nil => simp
  | cons b l ih =>
    rw [List.cons_append, List.dedup_cons, List.dedup_cons, ih]
    by_cases hb : b ∈ l
    · simp [hb]
    · by_cases hba : b = a
      · subst hba
        simp [hb]
      · simp [hba, hb]

/-- Taking one item out of a list without repetitions makes room for one more. -/
theorem take_filter_take {l : List α} (hl : l.Nodup) (a : α) (k : Nat) :
    ((l.take (k + 1)).filter (· ≠ a)).take k = (l.filter (· ≠ a)).take k := by
  induction l generalizing k with
  | nil => rfl
  | cons b l ih =>
    obtain ⟨hb, hl⟩ := List.nodup_cons.mp hl
    by_cases hba : b = a
    · subst hba
      have hall : ∀ c ∈ l, decide (c ≠ b) = true := by
        intro c hc
        rw [decide_eq_true_eq]
        exact ne_of_mem_of_not_mem hc hb
      have htake : ∀ c ∈ l.take k, decide (c ≠ b) = true := fun c hc ↦
        hall c (List.mem_of_mem_take hc)
      rw [List.take_succ_cons, List.filter_cons_of_neg (by simp), List.filter_cons_of_neg (by simp),
        List.filter_eq_self.mpr hall, List.filter_eq_self.mpr htake, List.take_take, Nat.min_self]
    · cases k with
      | zero => simp
      | succ k => simpa [hba] using ih hl k

/-- An item is among the last `k` distinct ones of a list when fewer than `k` distinct ones come behind
its last occurrence. -/
theorem mem_take_dedup_iff {before after : List α} {a : α} (hafter : a ∉ after) (k : Nat) :
    a ∈ (before ++ a :: after).dedup.reverse.take k ↔ after.dedup.length < k := by
  obtain ⟨older, holder⟩ : ∃ older, older ++ a :: after.dedup = (before ++ a :: after).dedup := by
    rw [List.dedup_append, List.dedup_cons_of_notMem hafter]
    exact List.suffix_union_right before (a :: after.dedup)
  have hreverse : (before ++ a :: after).dedup.reverse =
      after.dedup.reverse ++ a :: older.reverse := by
    simp [← holder]
  rw [hreverse, List.take_append, List.length_reverse]
  have hbehind : a ∉ after.dedup.reverse.take k := fun hmem ↦
    hafter (by simpa using List.mem_of_mem_take hmem)
  rw [List.mem_append, or_iff_right hbehind]
  cases hroom : k - after.dedup.length with
  | zero =>
    simp only [List.take_zero, List.not_mem_nil, false_iff]
    omega
  | succ room =>
    simp only [List.take_succ_cons, List.mem_cons_self, true_iff]
    omega

/-- To use an item once more brings it to the front of the last distinct ones. -/
theorem take_dedup_concat (l : List α) (a : α) (k : Nat) :
    (a :: (l.dedup.reverse.take k).filter (· ≠ a)).take k = (l ++ [a]).dedup.reverse.take k := by
  rw [dedup_concat, List.reverse_append, List.reverse_singleton, List.singleton_append,
    ← List.filter_reverse]
  cases k with
  | zero => rfl
  | succ k =>
    rw [List.take_succ_cons, List.take_succ_cons,
      take_filter_take (List.nodup_reverse.mpr (List.nodup_dedup l))]

end Recent

/-! ### What has been read -/

/-- What has been read since everything was last forgotten, after one more use. -/
def extend (read : List String) : Use → List String
  | none => []
  | some path => if Decodes path then read ++ [path] else read

/-- The paths that were read since everything was last forgotten, in the order of their readings. -/
def history (us : List Use) : List String := us.foldl extend []

section Run

variable {p : Parser} {m : Memory} {path : String} {us before between : List Use} {c : Nat}

theorem history_concat (us : List Use) (u : Use) : history (us ++ [u]) = extend (history us) u :=
  List.foldl_append

theorem foldl_extend_of_clear (h : none ∈ us) (read : List String) :
    us.foldl extend read = history us := by
  induction us generalizing read with
  | nil => cases h
  | cons u us ih =>
    obtain rfl | hmem := List.mem_cons.mp h
    · rfl
    · rw [history, List.foldl_cons, List.foldl_cons, ih hmem, ih hmem]

theorem foldl_extend (h : none ∉ us) (read : List String) :
    us.foldl extend read = read ++ history us := by
  induction us generalizing read with
  | nil => simp [history]
  | cons u us ih =>
    obtain ⟨hu, hmem⟩ := not_or.mp (mt List.mem_cons.mpr h)
    obtain ⟨path, rfl⟩ := Option.ne_none_iff_exists'.mp (Ne.symm hu)
    rw [history, List.foldl_cons, List.foldl_cons, ih hmem, ih hmem, extend, extend]
    split <;> simp

theorem history_append (us : List Use) (h : none ∉ between) :
    history (us ++ between) = history us ++ history between := by
  rw [history, List.foldl_append, foldl_extend h]
  rfl

theorem history_append_of_clear (us : List Use) (h : none ∈ between) :
    history (us ++ between) = history between := by
  rw [history, List.foldl_append, foldl_extend_of_clear h]

/-- A path that cannot be read leaves no trace in what has been read. -/
theorem history_of_not_decodes (us vs : List Use) (h : ¬ Decodes path) :
    history (us ++ some path :: vs) = history (us ++ vs) := by
  simp only [history, List.foldl_append, List.foldl_cons, extend, if_neg h]

theorem mem_of_mem_history (h : path ∈ history us) : some path ∈ us := by
  induction us using List.reverseRecOn with
  | nil => cases h
  | append_singleton us u ih =>
    rw [history_concat] at h
    rw [List.mem_append, List.mem_singleton]
    cases u with
    | none => cases h
    | some path' =>
      rw [extend] at h
      split at h
      · rw [List.mem_append, List.mem_singleton] at h
        exact h.imp ih (congrArg some)
      · exact .inl (ih h)

/-! ### What the memory has been told -/

/-- The memory of the parser has had calls after which the list of the last used readings is that of
the last distinct ones among some paths. -/
def Told (p : Parser) (m : Memory) (c : Nat) (read : List String) : Prop :=
  ∃ cs, p.readings = m.after cs ∧
    ((Memory.recency c).after cs).map Reading.path = read.dedup.reverse.take c

theorem remembered?_eq_find? {cs : List Memory.Call} (hm : p.memory? = some m)
    (hreadings : p.readings = m.after cs) (path : String) :
    p.remembered? path = m.find? cs path := by
  rw [remembered?_of_memory? hm, hreadings, Memory.find?]

/-- A use of a parser tells its memory what has been read by it. -/
theorem Told.use {read : List String} (hm : p.memory? = some m) (hforgets : m.ForgetsOldest c)
    (hc : 0 < c) (htold : Told p m c read) (u : Use) : Told (p.use u).2 m c (extend read u) := by
  obtain ⟨cs, hreadings, hpaths⟩ := htold
  have hagree := hforgets.agree (Memory.forgetsOldest_recency hc) cs
  cases u with
  | none =>
    rw [use_none hm, hreadings]
    exact ⟨.clear :: cs, rfl, by simp [extend, Memory.after, Memory.call, Memory.recency]⟩
  | some path =>
    have hremembered := remembered?_eq_find? hm hreadings path
    rw [use_some, extend]
    by_cases hdecodes : Decodes path
    · obtain ⟨step, hdecode⟩ := exists_of_decodes hdecodes
      obtain ⟨reading, -, -, hknown⟩ := exists_reading hm hdecode
      rw [if_pos hdecodes]
      obtain ⟨hfound, -, hparser⟩ | ⟨hforgotten, -, -, hparser⟩ := hknown
      · have hrecent := (hagree path).symm.trans (hremembered.symm.trans hfound)
        rw [hparser, hreadings]
        refine ⟨.get path :: cs, rfl, ?_⟩
        rw [Memory.after_get_of_some hrecent, Memory.map_path_keep, reading.2, hpaths,
          take_dedup_concat]
      · have hrecent := (hagree path).symm.trans (hremembered.symm.trans hforgotten)
        rw [hparser, hreadings]
        refine ⟨.assign reading.1 :: .get path :: cs, rfl, ?_⟩
        rw [Memory.after_assign, Memory.after_get_of_none hrecent, Memory.map_path_keep, reading.2,
          hpaths, take_dedup_concat]
    · obtain ⟨e, he⟩ := exists_of_not_decodes hdecodes
      have hforgotten : p.remembered? path = none := Option.eq_none_iff_forall_ne_some.mpr
        fun reading h ↦ hdecodes (decodes_of_ok (decode_of_remembered? h))
      have hrecent := (hagree path).symm.trans (hremembered.symm.trans hforgotten)
      rw [if_neg hdecodes, parse_of_error hm he, hreadings]
      exact ⟨.get path :: cs, rfl, by rw [Memory.after_get_of_none hrecent, hpaths]⟩

/-- The paths that are remembered are the last distinct ones that have been told. -/
theorem Told.isSome_remembered?_iff {read : List String} (hm : p.memory? = some m)
    (hforgets : m.ForgetsOldest c) (hc : 0 < c) (htold : Told p m c read) :
    (p.remembered? path).isSome ↔ path ∈ read.dedup.reverse.take c := by
  obtain ⟨cs, hreadings, hpaths⟩ := htold
  have hagree := hforgets.agree (Memory.forgetsOldest_recency hc) cs path
  rw [remembered?_eq_find? hm hreadings, hagree, Memory.isSome_find?_recency_iff, hpaths]

theorem Told.size_eq {read : List String} (hm : p.memory? = some m) (hforgets : m.ForgetsOldest c)
    (hc : 0 < c) (htold : Told p m c read) : p.size = min c read.toFinset.card := by
  obtain ⟨cs, hreadings, hpaths⟩ := htold
  have hrecency := Memory.forgetsOldest_recency hc
  have hlength := congrArg List.length hpaths
  rw [List.length_map, List.length_take, List.length_reverse, ← List.card_toFinset] at hlength
  rw [size_of_memory? hm, hreadings, hforgets.size_congr hrecency (hforgets.agree hrecency cs)]
  exact hlength

/-- What is remembered after a use was remembered before, or it has been read anew by this use. -/
theorem Told.remembered?_of_use {read : List String} (hm : p.memory? = some m)
    (hforgets : m.ForgetsOldest c) (htold : Told p m c read) {u : Use} {reading : Reading}
    (h : (p.use u).2.remembered? path = some reading) :
    p.remembered? path = some reading ∨ u = some path ∧ reading.time = p.clock := by
  obtain ⟨cs, hreadings, -⟩ := htold
  have hafter : ∀ calls, (p.use u).2 = p.used (m.after calls) →
      m.find? calls path = some reading := by
    intro calls hcalls
    rw [hcalls] at h
    exact (remembered?_eq_find? (p := p.used (m.after calls)) hm rfl path).symm.trans h
  rw [remembered?_eq_find? hm hreadings]
  cases u with
  | none =>
    have hcleared := hafter (.clear :: cs) (by rw [use_none hm, hreadings]; rfl)
    rw [hforgets.find?_clear] at hcleared
    cases hcleared
  | some looked =>
    rw [use_some] at hafter
    by_cases hdecodes : Decodes looked
    · obtain ⟨step, hdecode⟩ := exists_of_decodes hdecodes
      obtain ⟨first, -, -, hknown⟩ := exists_reading hm hdecode
      rw [hreadings] at hknown
      obtain ⟨-, -, hparser⟩ | ⟨-, htime, -, hparser⟩ := hknown
      · have hfound := hafter (.get looked :: cs) hparser
        exact .inl (hforgets.find?_get cs looked path ▸ hfound)
      · have hfound := hafter (.assign first.1 :: .get looked :: cs) hparser
        obtain ⟨hpath, rfl⟩ | hbefore := hforgets.find?_assign_cases hfound
        · exact .inr ⟨by rw [hpath, first.2], htime⟩
        · exact .inl (hforgets.find?_get cs looked path ▸ hbefore)
    · obtain ⟨e, he⟩ := exists_of_not_decodes hdecodes
      have hparser := congrArg Prod.snd (parse_of_error hm he)
      rw [hreadings] at hparser
      have hfound := hafter (.get looked :: cs) hparser
      exact .inl (hforgets.find?_get cs looked path ▸ hfound)

/-- The answer to a path is what is remembered of it then. -/
theorem Told.remembered?_of_parse {read : List String} (hm : p.memory? = some m)
    (hforgets : m.ForgetsOldest c) (htold : Told p m c read)
    {answer : { reading : Reading // reading.path = path }}
    (hanswer : (p.parse path).1.reading = .ok answer) :
    (p.parse path).2.remembered? path = some answer.1 := by
  obtain ⟨cs, hreadings, -⟩ := htold
  have hafter : ∀ calls,
      (p.used (m.after calls)).remembered? path = m.find? calls path := fun calls ↦
    remembered?_eq_find? (p := p.used (m.after calls)) hm rfl path
  obtain ⟨step, hdecode⟩ := exists_of_decodes (known_of_reading hm hanswer).1
  obtain ⟨reading, hreading, -, hknown⟩ := exists_reading hm hdecode
  obtain rfl := Except.ok.inj (hreading.symm.trans hanswer)
  rw [hreadings] at hknown
  obtain ⟨hremembered, -, hparser⟩ | ⟨-, -, -, hparser⟩ := hknown
  · rw [hparser]
    refine (hafter (.get path :: cs)).trans ?_
    rw [hforgets.find?_get, ← remembered?_eq_find? hm hreadings, hremembered]
  · rw [hparser]
    refine (hafter (.assign reading.1 :: .get path :: cs)).trans ?_
    have hassigned := hforgets.find?_assign (.get path :: cs) reading.1
    rwa [reading.2] at hassigned

/-- A path that cannot be read changes nothing in what is remembered. -/
theorem Told.remembered?_of_error {read : List String} {e : LongNumeral} (hm : p.memory? = some m)
    (hforgets : m.ForgetsOldest c) (htold : Told p m c read) (he : Step.decode path = .error e)
    (other : String) : (p.parse path).2.remembered? other = p.remembered? other := by
  obtain ⟨cs, hreadings, -⟩ := htold
  rw [parse_of_error hm he, hreadings, remembered?_eq_find? hm hreadings]
  refine (remembered?_eq_find? (p := p.used (m.after (.get path :: cs))) hm rfl other).trans ?_
  exact hforgets.find?_get cs path other

/-! ### Recency -/

/-- The path has been read, everything has not been forgotten since, and fewer than `c` other paths have
been read since. -/
def Recalls (c : Nat) (us : List Use) (path : String) : Prop :=
  ∃ before between, us = before ++ some path :: between ∧ some path ∉ between ∧ none ∉ between ∧
    (history between).toFinset.card < c

/-- The reading is an answer that the parser has given in the course of some uses. -/
def HandedOut (start : Parser) (us : List Use) (reading : Reading) : Prop :=
  ∃ before path behind answer, us = before ++ some path :: behind ∧
    ((start.after before).parse path).1.reading = .ok answer ∧ answer.1 = reading

theorem exists_last_use (h : some path ∈ us) :
    ∃ before between, us = before ++ some path :: between ∧ some path ∉ between := by
  obtain ⟨as, bs, hus, has⟩ := List.eq_append_cons_of_mem (List.mem_reverse.mpr h)
  refine ⟨bs.reverse, as.reverse, ?_, mt List.mem_reverse.mp has⟩
  rw [← List.reverse_inj, hus]
  simp

/-- A path that was read is among the last ones until everything is forgotten, or as many other paths
have been read as there is room for. -/
theorem mem_take_history_iff (hdecodes : Decodes path) (hbetween : some path ∉ between) :
    path ∈ (history (before ++ some path :: between)).dedup.reverse.take c ↔
      none ∉ between ∧ (history between).toFinset.card < c := by
  have hsplit : before ++ some path :: between = (before ++ [some path]) ++ between := by simp
  have hother : path ∉ history between := fun hmem ↦ hbetween (mem_of_mem_history hmem)
  rw [hsplit, List.card_toFinset]
  by_cases hclear : none ∈ between
  · rw [history_append_of_clear _ hclear]
    refine iff_of_false (fun hmem ↦ hother ?_) fun h ↦ h.1 hclear
    simpa using List.mem_of_mem_take hmem
  · rw [history_append _ hclear, history_concat, extend, if_pos hdecodes, List.append_assoc,
      List.singleton_append, mem_take_dedup_iff hother, and_iff_right hclear]

theorem recalls_iff (hdecodes : Decodes path) :
    Recalls c us path ↔ path ∈ (history us).dedup.reverse.take c := by
  constructor
  · rintro ⟨before, between, rfl, hbetween, hrecent⟩
    exact (mem_take_history_iff hdecodes hbetween).mpr hrecent
  · intro hmem
    have hread : path ∈ history us := by simpa using List.mem_of_mem_take hmem
    obtain ⟨before, between, rfl, hbetween⟩ := exists_last_use (mem_of_mem_history hread)
    exact ⟨before, between, rfl, hbetween, (mem_take_history_iff hdecodes hbetween).mp hmem⟩

section New

variable {make : Nat → Memory} (hc : 0 < c) (hmake : (make c).ForgetsOldest c)

include hc

theorem memory?_after_new (us : List Use) : ((new c make).after us).memory? = some (make c) := by
  rw [memory?_after]
  exact if_pos hc

include hmake

theorem told_after (us : List Use) : Told ((new c make).after us) (make c) c (history us) := by
  induction us using List.reverseRecOn with
  | nil => exact ⟨[], rfl, by simp [history, Memory.after]⟩
  | append_singleton us u ih =>
    rw [after_concat, history_concat]
    exact ih.use (memory?_after_new hc us) hmake hc u

/-- The paths that a parser remembers are those read last since everything was last forgotten. -/
theorem isSome_remembered?_after_iff (us : List Use) (path : String) :
    (((new c make).after us).remembered? path).isSome ↔
      path ∈ (history us).dedup.reverse.take c :=
  (told_after hc hmake us).isSome_remembered?_iff (memory?_after_new hc us) hmake hc

theorem size_after (us : List Use) :
    ((new c make).after us).size = min c (history us).toFinset.card :=
  (told_after hc hmake us).size_eq (memory?_after_new hc us) hmake hc

/-- What is remembered without having been used is what was remembered before. -/
theorem remembered?_of_after {reading : Reading} (hus : some path ∉ us)
    (h : ((new c make).after (before ++ us)).remembered? path = some reading) :
    ((new c make).after before).remembered? path = some reading := by
  induction us using List.reverseRecOn with
  | nil => rwa [List.append_nil] at h
  | append_singleton us u ih =>
    rw [List.mem_append, List.mem_singleton, not_or] at hus
    rw [← List.append_assoc, after_concat] at h
    obtain hremembered | ⟨hu, -⟩ :=
      (told_after hc hmake _).remembered?_of_use (memory?_after_new hc _) hmake h
    · exact ih hus.1 hremembered
    · exact absurd hu.symm hus.2

theorem time_lt_clock {reading : Reading}
    (h : ((new c make).after us).remembered? path = some reading) :
    reading.time < ((new c make).after us).clock := by
  induction us using List.reverseRecOn with
  | nil =>
    have hnil := (remembered?_of_memory? (memory?_after_new hc []) path).symm.trans h
    cases hnil.symm.trans (hmake.find?_nil path)
  | append_singleton us u ih =>
    obtain ⟨readings, hused⟩ := exists_used ((new c make).after us) u
    have hclock : ((new c make).after (us ++ [u])).clock = ((new c make).after us).clock + 1 := by
      rw [after_concat, hused, used]
    rw [after_concat] at h
    obtain hremembered | ⟨-, htime⟩ :=
      (told_after hc hmake us).remembered?_of_use (memory?_after_new hc us) hmake h
    · exact hclock ▸ Nat.lt_succ_of_lt (ih hremembered)
    · omega

/-- An answer is no later than the use that it answers. -/
theorem time_le_length {answer : { reading : Reading // reading.path = path }}
    (h : (((new c make).after us).parse path).1.reading = .ok answer) :
    answer.1.time ≤ us.length := by
  have hclock : ((new c make).after us).clock = us.length := by simp [clock_after, new]
  obtain ⟨-, ⟨hremembered, -⟩ | ⟨-, htime, -⟩⟩ := known_of_reading (memory?_after_new hc us) h
  · exact hclock ▸ (time_lt_clock hc hmake hremembered).le
  · rw [htime, hclock]

/-- A reading of this very moment has not been handed out before. -/
theorem not_handedOut {reading : Reading} (htime : reading.time = ((new c make).after us).clock) :
    ¬ HandedOut (new c make) us reading := by
  rintro ⟨before, path, behind, answer, rfl, hanswer, rfl⟩
  have hearlier := time_le_length hc hmake hanswer
  have hclock : ((new c make).after (before ++ some path :: behind)).clock =
      (before ++ some path :: behind).length := by simp [clock_after, new]
  rw [htime, hclock, List.length_append, List.length_cons] at hearlier
  omega

/-- As long as a path is remembered, its reading is the one handed out last. -/
theorem eq_of_remembered? {previous : { reading : Reading // reading.path = path }}
    (hbetween : some path ∉ between)
    (hprevious : (((new c make).after before).parse path).1.reading = .ok previous)
    {reading : Reading}
    (hreading : ((new c make).after (before ++ some path :: between)).remembered? path =
      some reading) : reading = previous.1 := by
  have hsplit : before ++ some path :: between = (before ++ [some path]) ++ between := by simp
  rw [hsplit] at hreading
  have hkept := remembered?_of_after hc hmake hbetween hreading
  have hanswered := (told_after hc hmake before).remembered?_of_parse
    (memory?_after_new hc before) hmake hprevious
  rw [after_concat, use_some, hanswered] at hkept
  exact (Option.some.inj hkept).symm

/-- A path is answered with the reading that it was answered with before as long as it is
remembered. -/
theorem answer_eq_previous_iff {answer previous : { reading : Reading // reading.path = path }}
    (hbetween : some path ∉ between)
    (hprevious : (((new c make).after before).parse path).1.reading = .ok previous)
    (hanswer :
      (((new c make).after (before ++ some path :: between)).parse path).1.reading = .ok answer) :
    answer = previous ↔ none ∉ between ∧ (history between).toFinset.card < c := by
  obtain ⟨hdecodes, hknown⟩ := known_of_reading (memory?_after_new hc _) hanswer
  rw [← @mem_take_history_iff path before between c hdecodes hbetween,
    ← isSome_remembered?_after_iff hc hmake]
  obtain ⟨hremembered, -⟩ | ⟨hforgotten, htime, -⟩ := hknown
  · refine iff_of_true (Subtype.ext ?_) (by rw [hremembered, Option.isSome_some])
    exact eq_of_remembered? hc hmake hbetween hprevious hremembered
  · refine iff_of_false ?_ (by simp [hforgotten])
    rintro rfl
    exact not_handedOut hc hmake htime ⟨before, path, between, answer, rfl, hprevious, rfl⟩

/-- The answer to a path that is not recalled is of this moment and is noted; one that is recalled is
not noted. -/
theorem noted_of_reading {answer : { reading : Reading // reading.path = path }}
    (h : (((new c make).after us).parse path).1.reading = .ok answer) :
    (Recalls c us path → (((new c make).after us).parse path).1.noted = false) ∧
      (¬ Recalls c us path → answer.1.time = ((new c make).after us).clock ∧
        (((new c make).after us).parse path).1.noted = true) := by
  obtain ⟨hdecodes, hknown⟩ := known_of_reading (memory?_after_new hc us) h
  rw [recalls_iff hdecodes, ← isSome_remembered?_after_iff hc hmake]
  obtain ⟨hremembered, hnoted⟩ | ⟨hforgotten, htime, hnoted⟩ := hknown
  · exact ⟨fun _ ↦ hnoted, fun hno ↦ absurd (by simp [hremembered]) hno⟩
  · exact ⟨fun hyes ↦ by simp [hforgotten] at hyes, fun _ ↦ ⟨htime, hnoted⟩⟩

/-- A path that cannot be read changes nothing, neither at once nor after further uses. -/
theorem unchanged_of_error {e : LongNumeral} (he : Step.decode path = .error e) (us vs : List Use)
    (other : String) :
    ((((new c make).after us).parse path).2.after vs).size =
        ((new c make).after (us ++ vs)).size ∧
      (((((new c make).after us).parse path).2.after vs).remembered? other).isSome =
        (((new c make).after (us ++ vs)).remembered? other).isSome := by
  have hwith : (((new c make).after us).parse path).2.after vs =
      (new c make).after (us ++ some path :: vs) := by
    rw [← use_some, ← after_concat, ← after_append, List.append_assoc, List.singleton_append]
  have hhistory := history_of_not_decodes us vs (not_decodes_of_error he)
  rw [hwith, size_after hc hmake, size_after hc hmake, hhistory, Bool.eq_iff_iff,
    isSome_remembered?_after_iff hc hmake, isSome_remembered?_after_iff hc hmake, hhistory]
  exact ⟨rfl, Iff.rfl⟩

end New

end Run

/-- Assumes: a memory with room for `c > 0` readings that forgets the oldest one. What a parser with
such a memory does after any uses is then a matter of recency. Of the distinct paths read since
everything was last forgotten it remembers the last `c`, or all if there are fewer, each with its first
step. A path that cannot be read changes nothing in that, nor in what is forgotten later. A path that
can be read is answered with the very reading that the last reading of it gave if nothing has been
forgotten on purpose since and fewer than `c` distinct other paths have been read in between, and then
nothing is noted. Otherwise the answer is a reading that was never handed out before, and one record is
written. -/
theorem recency_of_run {make : Nat → Memory} {c : Nat} (hc : 0 < c)
    (hmake : (make c).ForgetsOldest c) (us : List Use) :
    let p := (new c make).after us
    (p.size = min c (history us).toFinset.card ∧
      (∀ path, (p.remembered? path).isSome ↔ path ∈ (history us).dedup.reverse.take p.size) ∧
      ∀ path reading, p.remembered? path = some reading → Step.decode path = .ok reading.step) ∧
    (∀ path e, Step.decode path = .error e → (p.parse path).1.reading = .error e ∧
      (∀ other, (p.parse path).2.remembered? other = p.remembered? other) ∧
      ∀ vs other, ((p.parse path).2.after vs).size = (p.after vs).size ∧
        (((p.parse path).2.after vs).remembered? other).isSome =
          ((p.after vs).remembered? other).isSome) ∧
    ∀ path step, Step.decode path = .ok step → ∃ answer,
      (p.parse path).1.reading = .ok answer ∧ answer.1.step = step ∧
      (∀ before between previous, us = before ++ some path :: between → some path ∉ between →
        (((new c make).after before).parse path).1.reading = .ok previous →
        (answer = previous ↔ none ∉ between ∧ (history between).toFinset.card < c)) ∧
      (Recalls c us path →
        ∀ w s w', w.parser = p → Scan.parse path w = .ok s w' → w'.records = w.records) ∧
      (¬ Recalls c us path → ¬ HandedOut (new c make) us answer.1 ∧
        ∀ w s w', w.parser = p → Scan.parse path w = .ok s w' →
          w'.records = w.records.push (.parsing path)) := by
  intro p
  have hm : p.memory? = some (make c) := memory?_after_new hc us
  have htold := told_after hc hmake us
  refine ⟨⟨size_after hc hmake us, fun path ↦ ?_, fun path reading ↦ decode_of_remembered?⟩,
    fun path e he ↦ ⟨?_, htold.remembered?_of_error hm hmake he, fun vs other ↦ ?_⟩,
    fun path step hdecode ↦ ?_⟩
  · rw [isSome_remembered?_after_iff hc hmake, size_after hc hmake, List.card_toFinset,
      ← List.length_reverse, ← List.take_eq_take_min]
  · rw [parse_of_error hm he]
  · rw [← after_append]
    exact unchanged_of_error hc hmake he us vs other
  · obtain ⟨answer, hanswer, hstep, -⟩ := exists_reading hm hdecode
    obtain ⟨hknown, hanew⟩ := noted_of_reading hc hmake hanswer
    refine ⟨answer, hanswer, hstep, ?_, fun hrecalls w s w' hw hparse ↦ ?_, fun hforgets ↦ ?_⟩
    · rintro before between previous rfl hbetween hprevious
      exact answer_eq_previous_iff hc hmake hbetween hprevious hanswer
    · rw [records_of_parse hparse, hw, hknown hrecalls]
      rfl
    · obtain ⟨htime, hnoted⟩ := hanew hforgets
      refine ⟨not_handedOut hc hmake htime, fun w s w' hw hparse ↦ ?_⟩
      rw [records_of_parse hparse, hw, hnoted]
      rfl

/-- In the list of the last two readings, `"b"` is still remembered after one other path, and `"a"` no
more after two. -/
theorem recency_of_run_two :
    let start := new 2 Memory.recency
    let us : List Use := [some "a", none, some "a", some "b", some " a"]
    0 < 2 ∧ (Memory.recency 2).ForgetsOldest 2 ∧
      (∀ path, ((start.after us).remembered? path).isSome ↔ path ∈ [" a", "b"]) ∧
      (∃ previous answer, ((start.after (us.take 3)).parse "b").1.reading = .ok previous ∧
        ((start.after us).parse "b").1.reading = .ok answer ∧ answer = previous) ∧
      ∃ answer, ((start.after us).parse "a").1.reading = .ok answer ∧
        ¬ HandedOut start us answer.1 := by
  intro start us
  have hmake : (Memory.recency 2).ForgetsOldest 2 := Memory.forgetsOldest_recency (by decide)
  have hdecode : ∀ path ∈ ["a", "b"], Step.decode path = .ok ⟨path, path, .key, none⟩ := by
    decide +kernel
  have hlast : (history us).dedup.reverse.take 2 = [" a", "b"] := by
    have hhistory : history us = ["a", "b", " a"] := by decide +kernel
    rw [hhistory]
    decide +kernel
  have hbetween : history [some " a"] = [" a"] := by decide +kernel
  have hforgets : ¬ Recalls 2 us "a" := by
    rw [recalls_iff (decodes_of_ok (hdecode "a" (by simp))), hlast]
    decide
  obtain ⟨previous, hprevious, -⟩ :=
    (recency_of_run (by decide) hmake (us.take 3)).2.2 "b" _ (hdecode "b" (by simp))
  obtain ⟨⟨hsize, hpaths, -⟩, -, hreads⟩ := recency_of_run (by decide) hmake us
  obtain ⟨answer, hanswer, -, hsame, -⟩ := hreads "b" _ (hdecode "b" (by simp))
  obtain ⟨anew, hanew, -, -, -, hfirst⟩ := hreads "a" _ (hdecode "a" (by simp))
  have hagain : answer = previous :=
    (hsame (us.take 3) [some " a"] previous rfl (by decide) hprevious).mpr
      ⟨by decide, by rw [hbetween]; decide⟩
  simp only [start]
  refine ⟨by decide, hmake, fun path ↦ ?_, ⟨previous, answer, hprevious, hanswer, hagain⟩, anew,
    hanew, (hfirst hforgets).1⟩
  rw [isSome_remembered?_after_iff (by decide) hmake, hlast]

end Parser

end DottedPath
