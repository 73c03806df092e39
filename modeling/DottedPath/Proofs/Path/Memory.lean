import DottedPath.Path.Memory
import Mathlib.Data.List.Nodup
import Mathlib.Data.List.Perm.Basic

/-!
# Memories that forget the oldest reading

What is known of a memory is told by the calls that it gets. It has room for some readings, and both a
look-up and an assignment renew a path. When a reading of a new path comes to a memory that is full,
the path that has gone unused for longest makes way, and no other one ever does
(`Memory.ForgetsOldest`).

The list of readings with the last used one in front is such a memory (`forgetsOldest_recency`), and
all others answer as it does (`ForgetsOldest.agree`).
-/

set_option autoImplicit false
set_option relaxedAutoImplicit false

namespace DottedPath

namespace Memory

/-! ### Calls -/

/-- What a memory is called for: a path is looked up, a reading is stored under its path, or everything
is forgotten. -/
inductive Call
  | get (path : String)
  | assign (reading : Reading)
  | clear

/-- The path that is used by a call. -/
def Call.path? : Call → Option String
  | get path => some path
  | assign reading => some reading.path
  | clear => none

/-- The state of a memory after a call. -/
def call (m : Memory) (readings : List Reading) : Call → List Reading
  | .get path => m.touch readings path
  | .assign reading => m.assign readings reading
  | .clear => m.clear readings

/-- The state of a memory after some calls, the last one first. -/
def after (m : Memory) : List Call → List Reading
  | [] => []
  | c :: cs => m.call (m.after cs) c

/-- The reading under a path after some calls. -/
def find? (m : Memory) (cs : List Call) (path : String) : Option Reading := m.get? (m.after cs) path

/-- How many calls there have been since a path was last used. -/
def idle (cs : List Call) (path : String) : Nat := cs.findIdx fun c ↦ c.path? = some path

/-- Of the paths in the memory, this one has gone unused for longest. -/
def Oldest (m : Memory) (cs : List Call) (path : String) : Prop :=
  (m.find? cs path).isSome ∧ ∀ other, (m.find? cs other).isSome → idle cs other ≤ idle cs path

/-- The path makes way for a reading: it is the oldest one in a memory that is full, and the path of
the reading is new there. -/
def MakesWay (m : Memory) (capacity : Nat) (cs : List Call) (reading : Reading) (path : String) :
    Prop :=
  m.find? cs reading.path = none ∧ m.size (m.after cs) = capacity ∧ m.Oldest cs path

/-- A memory with room for `capacity` readings that forgets the oldest one when there is no room for a
new one, and nothing else unless it is told to forget everything. -/
structure ForgetsOldest (m : Memory) (capacity : Nat) : Prop where
  find?_nil : ∀ path, m.find? [] path = none
  find?_clear : ∀ cs path, m.find? (.clear :: cs) path = none
  find?_get : ∀ cs path path', m.find? (.get path :: cs) path' = m.find? cs path'
  find?_assign : ∀ cs reading, m.find? (.assign reading :: cs) reading.path = some reading
  find?_of_makesWay : ∀ cs reading path, m.MakesWay capacity cs reading path →
    m.find? (.assign reading :: cs) path = none
  find?_of_not_makesWay : ∀ cs reading path, path ≠ reading.path →
    ¬ m.MakesWay capacity cs reading path → m.find? (.assign reading :: cs) path = m.find? cs path
  size_after : ∀ cs, ∃ paths : List String, paths.Nodup ∧ paths.length = m.size (m.after cs) ∧
    ∀ path, path ∈ paths ↔ (m.find? cs path).isSome

section Agree

variable {m m' : Memory} {c : Nat} {cs : List Call}

theorem idle_of_path? {u : Call} {path : String} (h : u.path? = some path) :
    idle (u :: cs) path = 0 := by
  simp [idle, List.findIdx_cons, h]

theorem idle_of_path?_ne {u : Call} {path : String} (h : u.path? ≠ some path) :
    idle (u :: cs) path = idle cs path + 1 := by
  simp [idle, List.findIdx_cons, h]

/-- Memories that hold the same paths are of the same size. -/
theorem ForgetsOldest.size_congr (hm : m.ForgetsOldest c) (hm' : m'.ForgetsOldest c)
    (h : ∀ path, m.find? cs path = m'.find? cs path) :
    m.size (m.after cs) = m'.size (m'.after cs) := by
  obtain ⟨paths, hnodup, hlength, hmem⟩ := hm.size_after cs
  obtain ⟨paths', hnodup', hlength', hmem'⟩ := hm'.size_after cs
  have hperm : paths.Perm paths' := (List.perm_ext_iff_of_nodup hnodup hnodup').mpr fun path ↦ by
    rw [hmem, hmem', h]
  rw [← hlength, ← hlength', hperm.length_eq]

/-- Two memories of this kind with the same capacity hold the same readings after the same calls. -/
theorem ForgetsOldest.agree (hm : m.ForgetsOldest c) (hm' : m'.ForgetsOldest c) (cs : List Call)
    (path : String) : m.find? cs path = m'.find? cs path := by
  induction cs generalizing path with
  | nil => rw [hm.find?_nil, hm'.find?_nil]
  | cons u cs ih =>
    cases u with
    | clear => rw [hm.find?_clear, hm'.find?_clear]
    | get looked => rw [hm.find?_get, hm'.find?_get, ih]
    | assign reading =>
      have hway : m.MakesWay c cs reading path ↔ m'.MakesWay c cs reading path := by
        simp only [MakesWay, Oldest, ih, hm.size_congr hm' ih]
      by_cases hpath : path = reading.path
      · rw [hpath, hm.find?_assign, hm'.find?_assign]
      · by_cases h : m.MakesWay c cs reading path
        · rw [hm.find?_of_makesWay cs reading path h,
            hm'.find?_of_makesWay cs reading path (hway.mp h)]
        · rw [hm.find?_of_not_makesWay cs reading path hpath h,
            hm'.find?_of_not_makesWay cs reading path hpath (mt hway.mpr h), ih]

/-- What a memory holds after an assignment has been assigned, or it was there before. -/
theorem ForgetsOldest.find?_assign_cases (hm : m.ForgetsOldest c) {new reading : Reading}
    {path : String} (h : m.find? (.assign new :: cs) path = some reading) :
    path = new.path ∧ reading = new ∨ m.find? cs path = some reading := by
  by_cases hpath : path = new.path
  · rw [hpath, hm.find?_assign] at h
    exact .inl ⟨hpath, (Option.some.inj h).symm⟩
  · by_cases hway : m.MakesWay c cs new path
    · rw [hm.find?_of_makesWay cs new path hway] at h
      cases h
    · exact .inr ((hm.find?_of_not_makesWay cs new path hpath hway).symm.trans h)

end Agree

/-! ### The last used reading in front -/

section Keep

variable {c : Nat} {readings : List Reading} {reading : Reading} {path : String} {cs : List Call}

theorem exists_last (h : readings ≠ []) : ∃ before last, readings = before ++ [last] :=
  ⟨readings.dropLast, readings.getLast h, (List.dropLast_append_getLast h).symm⟩

theorem isSome_find?_path_iff :
    (readings.find? fun reading ↦ reading.path = path).isSome ↔
      path ∈ readings.map Reading.path := by
  simp

theorem map_path_keep (c : Nat) (readings : List Reading) (reading : Reading) :
    (keep c readings reading).map Reading.path =
      (reading.path :: (readings.map Reading.path).filter (· ≠ reading.path)).take c := by
  simp only [keep, List.map_take, List.map_cons, List.filter_map]
  rfl

theorem find?_filter_path (h : path ≠ reading.path) :
    (readings.filter fun other ↦ other.path ≠ reading.path).find? (fun other ↦ other.path = path) =
      readings.find? fun other ↦ other.path = path := by
  rw [List.find?_filter]
  congr 1
  funext other
  by_cases hother : other.path = path <;> simp [hother, h]

/-- As long as there is room, nothing gets lost. -/
theorem find?_keep_of_le (path : String)
    (hroom : (readings.filter fun other ↦ other.path ≠ reading.path).length < c) :
    (keep c readings reading).find? (fun other ↦ other.path = path) =
      if path = reading.path then some reading
      else readings.find? fun other ↦ other.path = path := by
  rw [keep, List.take_of_length_le hroom]
  by_cases h : path = reading.path
  · simp [h]
  · rw [List.find?_cons_of_neg (by simpa using Ne.symm h), find?_filter_path h, if_neg h]

theorem length_filter_path_lt (h : reading.path ∈ readings.map Reading.path) :
    (readings.filter fun other ↦ other.path ≠ reading.path).length < readings.length := by
  obtain ⟨other, hother, hpath⟩ := List.mem_map.mp h
  exact List.length_filter_lt_length_iff_exists.mpr ⟨other, hother, by simp [hpath]⟩

theorem filter_path_eq_self (h : reading.path ∉ readings.map Reading.path) :
    (readings.filter fun other ↦ other.path ≠ reading.path) = readings := by
  refine List.filter_eq_self.mpr fun other hother ↦ ?_
  rw [decide_eq_true_eq]
  exact fun hpath ↦ h (List.mem_map.mpr ⟨other, hother, hpath⟩)

/-- What is used last is in front of all that has been used before. -/
theorem pairwise_keep {u : Call} (hu : u.path? = some reading.path)
    (h : readings.Pairwise fun r r' ↦ idle cs r.path < idle cs r'.path) :
    (keep c readings reading).Pairwise fun r r' ↦ idle (u :: cs) r.path < idle (u :: cs) r'.path := by
  have hother : ∀ r ∈ readings.filter fun other ↦ other.path ≠ reading.path,
      idle (u :: cs) r.path = idle cs r.path + 1 := by
    intro r hr
    refine idle_of_path?_ne fun hpath ↦ ?_
    have hne := List.of_mem_filter hr
    simp [Option.some.inj (hu.symm.trans hpath)] at hne
  refine List.Pairwise.sublist (List.take_sublist _ _) (List.pairwise_cons.mpr ⟨fun r hr ↦ ?_, ?_⟩)
  · rw [idle_of_path? hu, hother r hr]
    exact Nat.succ_pos _
  · refine (h.filter _).imp_of_mem fun {r r'} hr hr' hlt ↦ ?_
    rw [hother r hr, hother r' hr']
    exact Nat.succ_lt_succ hlt

end Keep

section Recency

variable {c : Nat} {cs : List Call} {reading : Reading} {path : String}

theorem isSome_find?_recency_iff :
    ((recency c).find? cs path).isSome ↔ path ∈ ((recency c).after cs).map Reading.path :=
  isSome_find?_path_iff

theorem find?_recency_eq_none_iff :
    (recency c).find? cs path = none ↔ path ∉ ((recency c).after cs).map Reading.path := by
  rw [← isSome_find?_recency_iff, Option.not_isSome_iff_eq_none]

/-- A path that is not there has no effect when it is looked up. -/
theorem after_get_of_none (h : (recency c).find? cs path = none) :
    (recency c).after (.get path :: cs) = (recency c).after cs := by
  have hnone : ((recency c).after cs).find? (fun reading ↦ reading.path = path) = none := h
  show renew c ((recency c).after cs) path = _
  rw [renew, hnone]

/-- A path that is there comes to the front when it is looked up. -/
theorem after_get_of_some (h : (recency c).find? cs path = some reading) :
    (recency c).after (.get path :: cs) = keep c ((recency c).after cs) reading := by
  have hsome : ((recency c).after cs).find? (fun reading ↦ reading.path = path) = some reading := h
  show renew c ((recency c).after cs) path = _
  rw [renew, hsome]

theorem after_assign (c : Nat) (cs : List Call) (reading : Reading) :
    (recency c).after (.assign reading :: cs) = keep c ((recency c).after cs) reading := rfl

theorem length_after_le (c : Nat) (cs : List Call) : ((recency c).after cs).length ≤ c := by
  induction cs with
  | nil => exact Nat.zero_le c
  | cons u cs ih =>
    cases u with
    | clear => exact Nat.zero_le c
    | assign reading => exact List.length_take_le _ _
    | get path =>
      cases h : (recency c).find? cs path with
      | none => rwa [after_get_of_none h]
      | some reading => exact after_get_of_some h ▸ List.length_take_le _ _

theorem pairwise_idle (c : Nat) (cs : List Call) :
    ((recency c).after cs).Pairwise fun r r' ↦ idle cs r.path < idle cs r'.path := by
  induction cs with
  | nil => exact .nil
  | cons u cs ih =>
    cases u with
    | clear => exact .nil
    | assign reading => exact pairwise_keep rfl ih
    | get path =>
      cases h : (recency c).find? cs path with
      | none =>
        have hmem := find?_recency_eq_none_iff.mp h
        rw [after_get_of_none h]
        refine ih.imp_of_mem fun {r r'} hr hr' hlt ↦ ?_
        have hother : ∀ r ∈ (recency c).after cs, idle (.get path :: cs) r.path = idle cs r.path + 1 :=
          fun r hr ↦ idle_of_path?_ne fun hpath ↦
            hmem (List.mem_map.mpr ⟨r, hr, (Option.some.inj hpath).symm⟩)
        rw [hother r hr, hother r' hr']
        exact Nat.succ_lt_succ hlt
      | some reading =>
        rw [after_get_of_some h]
        exact pairwise_keep (congrArg some ((recency c).path_of_get? h).symm) ih

theorem nodup_paths (c : Nat) (cs : List Call) : (((recency c).after cs).map Reading.path).Nodup :=
  List.pairwise_map.mpr <| (pairwise_idle c cs).imp fun {r r'} hlt heq ↦ by
    rw [heq] at hlt
    exact Nat.lt_irrefl _ hlt

/-- In a list the oldest path is the one at the end. -/
theorem oldest_iff {before : List Reading} {last : Reading}
    (hlast : (recency c).after cs = before ++ [last]) :
    (recency c).Oldest cs path ↔ path = last.path := by
  have hpairwise := pairwise_idle c cs
  rw [hlast, List.pairwise_append] at hpairwise
  have hbefore : ∀ r ∈ before, idle cs r.path < idle cs last.path := fun r hr ↦
    hpairwise.2.2 r hr last (List.mem_singleton_self last)
  simp only [Oldest, isSome_find?_recency_iff, hlast, List.map_append, List.map_cons, List.map_nil,
    List.mem_append, List.mem_singleton]
  constructor
  · rintro ⟨hmem | hpath, holdest⟩
    · obtain ⟨r, hr, rfl⟩ := List.mem_map.mp hmem
      exact absurd (holdest last.path (.inr rfl)) (Nat.not_le.mpr (hbefore r hr))
    · exact hpath
  · rintro rfl
    refine ⟨.inr rfl, fun other hother ↦ ?_⟩
    obtain hmem | rfl := hother
    · obtain ⟨r, hr, rfl⟩ := List.mem_map.mp hmem
      exact Nat.le_of_lt (hbefore r hr)
    · exact Nat.le_refl _

/-- As long as the memory is not full or the path of the reading is not new, nothing gets lost. -/
theorem find?_assign_of_room (hroom : reading.path ∈ ((recency c).after cs).map Reading.path ∨
    ((recency c).after cs).length < c) (path : String) :
    (recency c).find? (.assign reading :: cs) path =
      if path = reading.path then some reading else (recency c).find? cs path := by
  refine find?_keep_of_le path ?_
  obtain hmem | hlt := hroom
  · exact Nat.lt_of_lt_of_le (length_filter_path_lt hmem) (length_after_le c cs)
  · exact Nat.lt_of_le_of_lt (List.length_filter_le _ _) hlt

/-- When the memory is full and the path of the reading is new, the last path in the list is lost. -/
theorem find?_assign_of_full {before : List Reading} {last : Reading}
    (hlast : (recency c).after cs = before ++ [last]) (hlength : (before ++ [last]).length = c)
    (hnew : reading.path ∉ ((recency c).after cs).map Reading.path) (path : String) :
    (recency c).find? (.assign reading :: cs) path =
      if path = reading.path then some reading
      else if path = last.path then none else (recency c).find? cs path := by
  have hkeep : (recency c).after (.assign reading :: cs) = reading :: before := by
    rw [List.length_append, List.length_singleton] at hlength
    rw [after_assign, keep, filter_path_eq_self hnew, hlast, ← hlength, List.take_succ_cons,
      List.take_left]
  have hnodup := nodup_paths c cs
  rw [hlast, List.map_append, List.nodup_append] at hnodup
  show ((recency c).after (.assign reading :: cs)).find? (fun other ↦ other.path = path) = _
  rw [hkeep]
  by_cases h : path = reading.path
  · simp [h]
  · rw [List.find?_cons_of_neg (by simpa using Ne.symm h), if_neg h]
    by_cases hpath : path = last.path
    · rw [if_pos hpath, List.find?_eq_none]
      intro r hr hrpath
      exact hnodup.2.2 r.path (List.mem_map_of_mem hr) last.path (by simp)
        ((of_decide_eq_true hrpath).trans hpath)
    · rw [if_neg hpath]
      show _ = ((recency c).after cs).find? fun other ↦ other.path = path
      rw [hlast, List.find?_append, List.find?_singleton,
        if_neg (by simpa using Ne.symm hpath), Option.or_none]

theorem makesWay_recency_iff {before : List Reading} {last : Reading}
    (hlast : (recency c).after cs = before ++ [last]) :
    (recency c).MakesWay c cs reading path ↔
      reading.path ∉ ((recency c).after cs).map Reading.path ∧ (before ++ [last]).length = c ∧
        path = last.path := by
  rw [MakesWay, find?_recency_eq_none_iff, oldest_iff hlast, ← hlast]
  rfl

/-- The list of readings with the last used one in front forgets the oldest one. -/
theorem forgetsOldest_recency (hc : 0 < c) : (recency c).ForgetsOldest c where
  find?_nil _ := rfl
  find?_clear _ _ := rfl
  find?_get cs path path' := by
    cases h : (recency c).find? cs path with
    | none => exact congrArg (fun readings ↦ (recency c).get? readings path') (after_get_of_none h)
    | some reading =>
      have hreading := (recency c).path_of_get? h
      have hmem : reading.path ∈ ((recency c).after cs).map Reading.path := by
        rw [hreading, ← isSome_find?_recency_iff, h]
        rfl
      have hroom := Nat.lt_of_lt_of_le (length_filter_path_lt hmem) (length_after_le c cs)
      have hkeep := find?_keep_of_le path' hroom
      rw [← after_get_of_some h] at hkeep
      refine hkeep.trans ?_
      split
      · next hpath => rw [← h, hpath, hreading]
      · rfl
  find?_assign cs reading := by
    obtain ⟨k, rfl⟩ := Nat.exists_eq_add_one.mpr hc
    show (keep (k + 1) _ reading).find? (fun other ↦ other.path = reading.path) = some reading
    rw [keep, List.take_succ_cons, List.find?_cons_of_pos (by simp)]
  find?_of_makesWay cs reading path hway := by
    have hfound := hway.2.2.1
    rw [isSome_find?_recency_iff, List.mem_map] at hfound
    obtain ⟨held, hheld, -⟩ := hfound
    obtain ⟨before, last, hlast⟩ := exists_last (List.ne_nil_of_mem hheld)
    obtain ⟨hnew, hlength, hpath⟩ := (makesWay_recency_iff hlast).mp hway
    have hne : path ≠ reading.path := by
      rintro rfl
      exact hnew (by simp [hlast, hpath])
    rw [find?_assign_of_full hlast hlength hnew, if_neg hne, if_pos hpath]
  find?_of_not_makesWay cs reading path hne hway := by
    by_cases hroom : reading.path ∈ ((recency c).after cs).map Reading.path ∨
        ((recency c).after cs).length < c
    · rw [find?_assign_of_room hroom, if_neg hne]
    · obtain ⟨hnew, hfull⟩ := not_or.mp hroom
      have hlength : ((recency c).after cs).length = c :=
        Nat.le_antisymm (length_after_le c cs) (Nat.not_lt.mp hfull)
      obtain ⟨before, last, hlast⟩ := exists_last (List.ne_nil_of_length_pos (hlength ▸ hc))
      rw [hlast] at hlength
      have hpath : path ≠ last.path := fun hpath ↦
        hway ((makesWay_recency_iff hlast).mpr ⟨hnew, hlength, hpath⟩)
      rw [find?_assign_of_full hlast hlength hnew, if_neg hne, if_neg hpath]
  size_after cs := ⟨((recency c).after cs).map Reading.path, nodup_paths c cs, List.length_map _,
    fun _ ↦ isSome_find?_recency_iff.symm⟩

end Recency

end Memory

end DottedPath
