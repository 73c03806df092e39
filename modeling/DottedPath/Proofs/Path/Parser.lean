import DottedPath.Scan.Basic
import Mathlib.Data.List.Induction

/-!
# Answers of a parser

A path is answered with the reading in the memory, or it is read anew and stored, and only then is
there a record of it (`exists_reading`, `records_of_parse`). Whatever a use does, the parser keeps its
memory, and its clock goes on by one (`exists_used`).
-/

set_option autoImplicit false
set_option relaxedAutoImplicit false

namespace DottedPath

namespace Parser

/-! ### One use -/

/-- The first step of the path can be read. -/
def Decodes (path : String) : Prop := (Step.decode path).isOk = true

instance (path : String) : Decidable (Decodes path) := by
  unfold Decodes
  infer_instance

section Use

variable {p : Parser} {m : Memory} {path : String} {step : Step} {e : LongNumeral}

theorem exists_of_decodes (h : Decodes path) : ∃ step, Step.decode path = .ok step := by
  unfold Decodes at h
  cases hdecode : Step.decode path with
  | ok step => exact ⟨step, rfl⟩
  | error e => rw [hdecode] at h; cases h

theorem decodes_of_ok (h : Step.decode path = .ok step) : Decodes path := by
  rw [Decodes, h]
  rfl

theorem not_decodes_of_error (h : Step.decode path = .error e) : ¬ Decodes path := by
  rw [Decodes, h]
  exact Bool.false_ne_true

theorem exists_of_not_decodes (h : ¬ Decodes path) : ∃ e, Step.decode path = .error e := by
  cases hdecode : Step.decode path with
  | ok step => exact absurd (decodes_of_ok hdecode) h
  | error e => exact ⟨e, rfl⟩

theorem remembered?_of_memory? (hm : p.memory? = some m) (path : String) :
    p.remembered? path = m.get? p.readings path := by
  rw [remembered?, hm, Option.bind_some]

theorem size_of_memory? (hm : p.memory? = some m) : p.size = m.size p.readings := by
  rw [size, hm]

theorem path_of_remembered? {reading : Reading} (h : p.remembered? path = some reading) :
    reading.path = path := by
  obtain ⟨m, -, hfound⟩ := Option.bind_eq_some_iff.mp h
  exact m.path_of_get? hfound

theorem decode_of_remembered? {reading : Reading} (h : p.remembered? path = some reading) :
    Step.decode path = .ok reading.step := by
  have hdecoded := reading.decoded
  rwa [path_of_remembered? h] at hdecoded

theorem anew_of_ok (hdecode : Step.decode path = .ok step) (time : Nat) :
    Reading.anew time path = .ok ⟨⟨path, step, time, hdecode⟩, rfl⟩ := by
  unfold Reading.anew
  split
  · next h => cases hdecode.symm.trans h
  · next h =>
    obtain rfl := Except.ok.inj (hdecode.symm.trans h)
    rfl

theorem anew_of_error (he : Step.decode path = .error e) (time : Nat) :
    Reading.anew time path = .error e := by
  unfold Reading.anew
  split
  · next h =>
    obtain rfl := Except.error.inj (he.symm.trans h)
    rfl
  · next h => cases he.symm.trans h

/-- What reading a path comes to when the path is remembered. -/
theorem parse_of_remembered (hm : p.memory? = some m) {reading : Reading}
    (h : p.remembered? path = some reading) :
    p.parse path =
      (⟨.ok ⟨reading, path_of_remembered? h⟩, false⟩, p.used (m.touch p.readings path)) := by
  have hfound := (remembered?_of_memory? hm path).symm.trans h
  unfold parse
  split
  · next hnone => cases hnone.symm.trans hm
  · next m' hm' =>
    obtain rfl := Option.some.inj (hm.symm.trans hm')
    dsimp only
    split
    · next reading' h' =>
      obtain rfl := Option.some.inj (hfound.symm.trans h')
      rfl
    · next h' => cases hfound.symm.trans h'

/-- What reading a path comes to when the path is not remembered. -/
theorem parse_of_forgotten (hm : p.memory? = some m) (h : p.remembered? path = none) :
    p.parse path =
      match Reading.anew p.clock path with
      | .error e => (⟨.error e, true⟩, p.used (m.touch p.readings path))
      | .ok reading =>
        (⟨.ok reading, true⟩, p.used (m.assign (m.touch p.readings path) reading.1)) := by
  have hfound := (remembered?_of_memory? hm path).symm.trans h
  unfold parse
  split
  · next hnone => cases hnone.symm.trans hm
  · next m' hm' =>
    obtain rfl := Option.some.inj (hm.symm.trans hm')
    dsimp only
    split
    · next h' => cases hfound.symm.trans h'
    · rfl

theorem parse_of_error (hm : p.memory? = some m) (he : Step.decode path = .error e) :
    p.parse path = (⟨.error e, true⟩, p.used (m.touch p.readings path)) := by
  cases h : p.remembered? path with
  | some reading => cases he.symm.trans (decode_of_remembered? h)
  | none => rw [parse_of_forgotten hm h, anew_of_error he]

/-- A path that can be read is handed out as the reading that is remembered, or as a new one which is
stored. -/
theorem exists_reading (hm : p.memory? = some m) (hdecode : Step.decode path = .ok step) :
    ∃ reading : { reading : Reading // reading.path = path },
      (p.parse path).1.reading = .ok reading ∧ reading.1.step = step ∧
        ((p.remembered? path = some reading.1 ∧ (p.parse path).1.noted = false ∧
            (p.parse path).2 = p.used (m.touch p.readings path)) ∨
          p.remembered? path = none ∧ reading.1.time = p.clock ∧ (p.parse path).1.noted = true ∧
            (p.parse path).2 = p.used (m.assign (m.touch p.readings path) reading.1)) := by
  cases h : p.remembered? path with
  | some reading =>
    have hstep := Except.ok.inj ((decode_of_remembered? h).symm.trans hdecode)
    rw [parse_of_remembered hm h]
    exact ⟨⟨reading, path_of_remembered? h⟩, rfl, hstep, .inl ⟨rfl, rfl, rfl⟩⟩
  | none =>
    rw [parse_of_forgotten hm h, anew_of_ok hdecode]
    exact ⟨⟨⟨path, step, p.clock, hdecode⟩, rfl⟩, rfl, rfl, .inr ⟨rfl, rfl, rfl, rfl⟩⟩

theorem use_some (p : Parser) (path : String) : (p.use (some path)).2 = (p.parse path).2 := by
  unfold use
  dsimp only
  split <;> rfl

theorem use_none (hm : p.memory? = some m) : (p.use none).2 = p.used (m.clear p.readings) := by
  rw [use, clear, hm]

/-- What is known of an answer: it was remembered, or it has been read anew. -/
theorem known_of_reading (hm : p.memory? = some m)
    {answer : { reading : Reading // reading.path = path }}
    (h : (p.parse path).1.reading = .ok answer) :
    Decodes path ∧
      ((p.remembered? path = some answer.1 ∧ (p.parse path).1.noted = false) ∨
        p.remembered? path = none ∧ answer.1.time = p.clock ∧ (p.parse path).1.noted = true) := by
  cases hdecode : Step.decode path with
  | error e => rw [parse_of_error hm hdecode] at h; cases h
  | ok step =>
    obtain ⟨reading, hreading, -, hknown⟩ := exists_reading hm hdecode
    obtain rfl := Except.ok.inj (hreading.symm.trans h)
    refine ⟨decodes_of_ok hdecode, hknown.imp ?_ ?_⟩
    · exact fun ⟨hremembered, hnoted, _⟩ ↦ ⟨hremembered, hnoted⟩
    · exact fun ⟨hforgotten, htime, hnoted, _⟩ ↦ ⟨hforgotten, htime, hnoted⟩

/-- Reading a path through a parser writes a record when the parser notes it, and no other record. -/
theorem records_of_parse {w w' : Workplace} {s : { step : Step // Step.decode path = .ok step }}
    (h : Scan.parse path w = .ok s w') :
    w'.records = if (w.parser.parse path).1.noted then w.records.push (.parsing path)
      else w.records := by
  rw [Scan.parse_of_ok s.2] at h
  cases h
  rfl

end Use

/-! ### Runs -/

/-- A parser after some uses. -/
def after (p : Parser) (us : List Use) : Parser := us.foldl (fun p u ↦ (p.use u).2) p

theorem after_append (p : Parser) (us vs : List Use) : p.after (us ++ vs) = (p.after us).after vs :=
  List.foldl_append

theorem after_concat (p : Parser) (us : List Use) (u : Use) :
    p.after (us ++ [u]) = ((p.after us).use u).2 := after_append p us [u]

/-- A use changes the state of the memory, and the clock. -/
theorem exists_used (p : Parser) (u : Use) : ∃ readings, (p.use u).2 = p.used readings := by
  cases u with
  | none =>
    rw [use, clear]
    split <;> exact ⟨_, rfl⟩
  | some path =>
    rw [use_some, parse]
    split
    · exact ⟨_, rfl⟩
    · dsimp only
      split
      · exact ⟨_, rfl⟩
      · split <;> exact ⟨_, rfl⟩

theorem memory?_after (p : Parser) (us : List Use) : (p.after us).memory? = p.memory? := by
  induction us using List.reverseRecOn with
  | nil => rfl
  | append_singleton us u ih =>
    obtain ⟨readings, hused⟩ := exists_used (p.after us) u
    rw [after_concat, hused, ← ih]
    rfl

theorem clock_after (p : Parser) (us : List Use) : (p.after us).clock = p.clock + us.length := by
  induction us using List.reverseRecOn with
  | nil => rfl
  | append_singleton us u ih =>
    obtain ⟨readings, hused⟩ := exists_used (p.after us) u
    rw [after_concat, hused, used, ih, List.length_append, List.length_singleton, Nat.add_assoc]

end Parser

end DottedPath
