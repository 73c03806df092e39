/-!
# Tables in insertion order

A table is a list of entries with distinct keys. Putting an entry under a key that is present keeps
the place of the key and replaces its datum; a new key goes last (`keys_put`). Erasing keeps the
order of the other entries, so a key that is erased and put again goes last.

Main statements, for a lookup after a change: `find?_put_self`, `find?_put_of_ne`,
`find?_erase_self` and `find?_erase_of_ne`. A list of entries whose keys are distinct already is the
list of entries of its table (`entries_ofList`).
-/

set_option autoImplicit false
set_option relaxedAutoImplicit false

namespace DottedPath

/-- Entries with distinct keys, in the order in which the keys came. -/
structure Table (κ α : Type) where
  entries : List (κ × α)
  nodup_keys : (entries.map Prod.fst).Nodup

namespace Table

variable {κ α : Type}

/-- The table without entries. -/
def empty : Table κ α := ⟨[], List.nodup_nil⟩

instance : Inhabited (Table κ α) := ⟨empty⟩

/-- The keys, in their order. -/
def keys (t : Table κ α) : List κ := t.entries.map Prod.fst

/-- The data, in the order of their keys. -/
def data (t : Table κ α) : List α := t.entries.map Prod.snd

/-- The number of entries. -/
def size (t : Table κ α) : Nat := t.entries.length

theorem sublist_map_fst_zip {β : Type} (ks : List κ) (data : List β) :
    ((ks.zip data).map Prod.fst).Sublist ks := by
  induction ks generalizing data with
  | nil => simp
  | cons k ks ih =>
    cases data with
    | nil => simp
    | cons b data => simpa using ih data

/-- The keys of a table with other data, in order. -/
def withData {β : Type} (t : Table κ α) (data : List β) : Table κ β where
  entries := t.keys.zip data
  nodup_keys := by
    refine t.nodup_keys.sublist ?_
    exact sublist_map_fst_zip t.keys data

theorem entries_withData {β : Type} (t : Table κ α) (data : List β) :
    (t.withData data).entries = t.keys.zip data := rfl

theorem ext_entries {t u : Table κ α} (h : t.entries = u.entries) : t = u := by
  cases t
  cases u
  subst h
  rfl

variable [DecidableEq κ]

/-- The datum of the first entry with a key. -/
def findFirst? : List (κ × α) → κ → Option α
  | [], _ => none
  | (k', a) :: rest, k => if k' = k then some a else findFirst? rest k

/-- The entries with a datum replaced in its place, or added at the end. -/
def putEntry : List (κ × α) → κ → α → List (κ × α)
  | [], k, a => [(k, a)]
  | (k', a') :: rest, k, a => if k' = k then (k', a) :: rest else (k', a') :: putEntry rest k a

/-- The entries without the first one with a key. -/
def eraseEntry : List (κ × α) → κ → List (κ × α)
  | [], _ => []
  | (k', a') :: rest, k => if k' = k then rest else (k', a') :: eraseEntry rest k

theorem map_fst_putEntry (es : List (κ × α)) (k : κ) (a : α) :
    (putEntry es k a).map Prod.fst =
      if k ∈ es.map Prod.fst then es.map Prod.fst else es.map Prod.fst ++ [k] := by
  induction es with
  | nil => simp [putEntry]
  | cons e rest ih =>
    obtain ⟨k', a'⟩ := e
    by_cases hk : k' = k
    · simp [putEntry, hk]
    · have hk' : ¬k = k' := fun h ↦ hk h.symm
      simp only [putEntry, hk, if_false, List.map_cons, ih, List.mem_cons, hk', false_or]
      split <;> simp_all

theorem map_fst_eraseEntry (es : List (κ × α)) (k : κ) :
    (eraseEntry es k).map Prod.fst = (es.map Prod.fst).erase k := by
  induction es with
  | nil => rfl
  | cons e rest ih =>
    obtain ⟨k', a'⟩ := e
    by_cases hk : k' = k
    · simp [eraseEntry, hk]
    · simp [eraseEntry, hk, ih]

/-- The datum under a key. -/
def find? (t : Table κ α) (k : κ) : Option α := findFirst? t.entries k

/-- Puts a datum under a key: in the place of the key, or at the end when the key is new. -/
def put (t : Table κ α) (k : κ) (a : α) : Table κ α where
  entries := putEntry t.entries k a
  nodup_keys := by
    rw [map_fst_putEntry]
    split
    · exact t.nodup_keys
    · next h =>
      rw [List.nodup_append]
      refine ⟨t.nodup_keys, by simp, ?_⟩
      intro x hx y hy
      rw [List.mem_singleton] at hy
      subst hy
      exact fun hxy ↦ h (hxy ▸ hx)

/-- Removes the entry under a key. -/
def erase (t : Table κ α) (k : κ) : Table κ α where
  entries := eraseEntry t.entries k
  nodup_keys := by
    rw [map_fst_eraseEntry]
    exact t.nodup_keys.erase k

/-- The table of a list of entries, of which a later one replaces an earlier one under its key. -/
def ofList (es : List (κ × α)) : Table κ α :=
  es.foldl (fun t e ↦ t.put e.1 e.2) empty

theorem keys_put (t : Table κ α) (k : κ) (a : α) :
    (t.put k a).keys = if k ∈ t.keys then t.keys else t.keys ++ [k] :=
  map_fst_putEntry t.entries k a

theorem keys_erase (t : Table κ α) (k : κ) : (t.erase k).keys = t.keys.erase k :=
  map_fst_eraseEntry t.entries k

theorem findFirst?_eq_none_iff (es : List (κ × α)) (k : κ) :
    findFirst? es k = none ↔ k ∉ es.map Prod.fst := by
  induction es with
  | nil => simp [findFirst?]
  | cons e rest ih =>
    obtain ⟨k', a'⟩ := e
    by_cases hk : k' = k
    · simp [findFirst?, hk]
    · have hk' : ¬k = k' := fun h ↦ hk h.symm
      simp [findFirst?, hk, hk', ih]

theorem find?_eq_none_iff (t : Table κ α) (k : κ) : t.find? k = none ↔ k ∉ t.keys :=
  findFirst?_eq_none_iff t.entries k

theorem findFirst?_putEntry (es : List (κ × α)) (k k' : κ) (a : α) :
    findFirst? (putEntry es k a) k' = if k = k' then some a else findFirst? es k' := by
  induction es with
  | nil => simp [findFirst?, putEntry]
  | cons e rest ih =>
    obtain ⟨l, b⟩ := e
    by_cases hl : l = k
    · subst hl
      by_cases h : l = k' <;> simp [findFirst?, putEntry, h]
    · by_cases h : k = k'
      · subst h
        simp [findFirst?, putEntry, hl, ih]
      · rw [putEntry, if_neg hl, findFirst?, findFirst?, ih, if_neg h, if_neg h]

theorem find?_put_self (t : Table κ α) (k : κ) (a : α) : (t.put k a).find? k = some a := by
  simp [find?, put, findFirst?_putEntry]

theorem find?_put_of_ne (t : Table κ α) {k k' : κ} (a : α) (h : k ≠ k') :
    (t.put k a).find? k' = t.find? k' := by
  simp [find?, put, findFirst?_putEntry, h]

theorem find?_erase_self (t : Table κ α) (k : κ) : (t.erase k).find? k = none := by
  rw [find?_eq_none_iff, keys_erase]
  exact t.nodup_keys.not_mem_erase

theorem findFirst?_eraseEntry_of_ne (es : List (κ × α)) {k k' : κ} (h : k ≠ k') :
    findFirst? (eraseEntry es k) k' = findFirst? es k' := by
  induction es with
  | nil => rfl
  | cons e rest ih =>
    obtain ⟨l, b⟩ := e
    by_cases hl : l = k
    · subst hl
      simp [findFirst?, eraseEntry, h]
    · rw [eraseEntry, if_neg hl, findFirst?, findFirst?, ih]

theorem find?_erase_of_ne (t : Table κ α) {k k' : κ} (h : k ≠ k') :
    (t.erase k).find? k' = t.find? k' :=
  findFirst?_eraseEntry_of_ne t.entries h

theorem putEntry_of_not_mem (es : List (κ × α)) (k : κ) (a : α) (h : k ∉ es.map Prod.fst) :
    putEntry es k a = es ++ [(k, a)] := by
  induction es with
  | nil => rfl
  | cons e rest ih =>
    obtain ⟨k', a'⟩ := e
    rw [List.map_cons, List.mem_cons, not_or] at h
    have hk : ¬k' = k := fun hk ↦ h.1 hk.symm
    simp [putEntry, hk, ih h.2]

theorem entries_ofList (es : List (κ × α)) (h : (es.map Prod.fst).Nodup) :
    (ofList es).entries = es := by
  have step : ∀ (rest : List (κ × α)) (t : Table κ α),
      ((t.entries ++ rest).map Prod.fst).Nodup →
      (rest.foldl (fun u e ↦ u.put e.1 e.2) t).entries = t.entries ++ rest := by
    intro rest
    induction rest with
    | nil => intro t _; simp
    | cons e rest ih =>
      intro t hnodup
      have hput : (t.put e.1 e.2).entries = t.entries ++ [e] := by
        refine putEntry_of_not_mem t.entries e.1 e.2 fun hmem ↦ ?_
        rw [List.map_append, List.nodup_append] at hnodup
        exact hnodup.2.2 e.1 hmem e.1 (by simp) rfl
      rw [List.foldl_cons, ih (t.put e.1 e.2) (by simpa [hput] using hnodup), hput]
      simp
  simpa [ofList, empty] using step es empty (by simpa [empty] using h)

end Table

end DottedPath
