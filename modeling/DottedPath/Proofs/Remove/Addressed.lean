import DottedPath.Proofs.Remove.Thins
import DottedPath.Proofs.SubScanner.Interchange
import DottedPath.Proofs.Tree.Focus

/-!
# A removal takes what is addressed

A path without a step `name[]` before its end addresses one slot: the key of its last step, or the
item in the list under that key when the last step is `name[n]` (`Path.addressed`). The removal takes
away what stands there, and nothing else in any container: the entries or items before it and those
behind it close up (`Heap.TakesAway`). When the path meets a missing key, an index past the end of a
list or a null on its way, it falls short of that slot (`Heap.FallsShort`), and nothing changes.
These are all the ways in which the removal can end without a fault, and with a fault nothing changes
either (`effect_remove_removes`).
-/

set_option autoImplicit false
set_option relaxedAutoImplicit false

namespace DottedPath

open Scan

/-- The slots to what a removal at the path takes away. A step `name[]` at the end of the path is about
the key, not about a slot in the list there. -/
def Path.addressed (path : String) : List Slot := (slots path).filter (· ≠ .next)

namespace Path

variable {path rest : String} {step : Step}

theorem addressed_of_last (hstep : Step.decode path = .ok step) (hrest : step.rest = none)
    (hplace : ∀ n, step.place ≠ .item n) : addressed path = [.field step.name] := by
  rw [addressed, slots_of_last hstep hrest]
  cases hp : step.place with
  | item n => exact absurd hp (hplace n)
  | key => rw [Step.slots_of_key hp]; rfl
  | every => rw [Step.slots_of_every hp]; rfl

theorem addressed_of_last_item {n : Nat} (hstep : Step.decode path = .ok step)
    (hrest : step.rest = none) (hplace : step.place = .item n) :
    addressed path = [.field step.name, .index n] := by
  rw [addressed, slots_of_last hstep hrest, Step.slots_of_item hplace]
  rfl

theorem addressed_of_more (hstep : Step.decode path = .ok step) (hrest : step.rest = some rest)
    (hplace : step.place = .key) : addressed path = .field step.name :: addressed rest := by
  rw [addressed, slots_of_more hstep hrest, List.filter_append, Step.slots_of_key hplace, addressed]
  rfl

theorem addressed_of_more_item {n : Nat} (hstep : Step.decode path = .ok step)
    (hrest : step.rest = some rest) (hplace : step.place = .item n) :
    addressed path = .field step.name :: .index n :: addressed rest := by
  rw [addressed, slots_of_more hstep hrest, List.filter_append, Step.slots_of_item hplace, addressed]
  rfl

theorem addressed_ne_nil (path : String) : addressed path ≠ [] := by
  obtain ⟨name, slots, hslots⟩ := exists_slots_eq path
  simp [addressed, hslots]

end Path

/-- The second cell is the first one without the entry of a key, or without the item at an index: what
stood behind it has moved up. -/
inductive Cell.Without : Cell → Slot → Cell → Prop
  | key {kind : MappingKind} {t t' : Table Key Value} {es₁ es₂ : List (Key × Value)} {name : String}
    {v : Value} (hold : t.entries = es₁ ++ (.text name, v) :: es₂) (hnew : t'.entries = es₁ ++ es₂) :
    Without (.mapping kind t) (.field name) (.mapping kind t')
  | item {vs₁ vs₂ : List Value} {v : Value} :
    Without (.list (vs₁ ++ v :: vs₂)) (.index vs₁.length) (.list (vs₁ ++ vs₂))

theorem Cell.Without.exists_slot? {c c' : Cell} {s : Slot} (hwithout : c.Without s c') :
    ∃ v, c.slot? s = some v := by
  cases hwithout with
  | @key _ _ _ _ _ _ v hold _ => exact ⟨v, Table.find?_of_mem_entries (hold ▸ List.mem_append_cons_self)⟩
  | @item vs₁ vs₂ v => exact ⟨v, by simp [slot?]⟩

namespace Heap

/-- What stands in the slot that the slots lead to has been taken away from its container. All other
containers are as they were. -/
def TakesAway (h : Heap) (r : Ref) (slots : List Slot) (h' : Heap) : Prop :=
  ∃ before s c cell cell', slots = before ++ [s] ∧ h.Leads r before c ∧ h.get? c = some cell ∧
    h'.get? c = some cell' ∧ cell.Without s cell' ∧ ∀ x ≠ c, h'.get? x = h.get? x

/-- The slots lead to one that is missing, or to one that holds null with more slots behind it. -/
def FallsShort (h : Heap) (r : Ref) (slots : List Slot) : Prop :=
  ∃ before s behind c, slots = before ++ s :: behind ∧ h.Leads r before c ∧ h.SuitsAt c s ∧
    (h.slot? c s = none ∨ h.slot? c s = some .null ∧ behind ≠ [])

/-- How a removal of what is at the end of the slots can end. -/
inductive Removes (h : Heap) (r : Ref) (slots : List Slot) : Except Fault Unit × Heap → Prop
  | taken {h' : Heap} (htakes : h.TakesAway r slots h') : Removes h r slots (.ok (), h')
  | short (hshort : h.FallsShort r slots) : Removes h r slots (.ok (), h)
  | stopped (e : Fault) : Removes h r slots (.error e, h)

section Removes

variable {h h' : Heap} {r c root list : Ref} {s : Slot} {as bs slots : List Slot} {v : Value}
variable {items : List Value} {x : Except Fault Unit × Heap}

theorem TakesAway.behind (hleads : h.Leads r as c) (htakes : h.TakesAway c bs h') :
    h.TakesAway r (as ++ bs) h' := by
  obtain ⟨before, s, d, cell, cell', rfl, hbefore, hchange⟩ := htakes
  exact ⟨as ++ before, s, d, cell, cell', (List.append_assoc ..).symm, hleads.append hbefore, hchange⟩

theorem FallsShort.behind (hleads : h.Leads r as c) (hshort : h.FallsShort c bs) :
    h.FallsShort r (as ++ bs) := by
  obtain ⟨before, s, after, d, rfl, hbefore, hmissing⟩ := hshort
  exact ⟨as ++ before, s, after, d, (List.append_assoc ..).symm, hleads.append hbefore, hmissing⟩

theorem Removes.behind (hleads : h.Leads r as c) (hremoves : h.Removes c bs x) :
    h.Removes r (as ++ bs) x := by
  cases hremoves with
  | taken htakes => exact .taken (htakes.behind hleads)
  | short hshort => exact .short (hshort.behind hleads)
  | stopped e => exact .stopped e

/-- What can be taken away is found. -/
theorem TakesAway.exists_finds (htakes : h.TakesAway r slots h') : ∃ v, h.Finds r slots v := by
  obtain ⟨before, s, c, cell, cell', rfl, hleads, hget, -, hwithout, -⟩ := htakes
  obtain ⟨v, hv⟩ := hwithout.exists_slot?
  refine ⟨v, Finds.behind hleads (.here ?_)⟩
  rw [slot?, hget]
  exact hv

/-- What is found does not fall short. -/
theorem Finds.not_fallsShort (hfinds : h.Finds r slots v) : ¬ h.FallsShort r slots := by
  rintro ⟨before, s, behind, c, rfl, hleads, -, hmissing⟩
  obtain ⟨d, hleads', hfound⟩ := hfinds.of_append (List.cons_ne_nil s behind)
  obtain rfl := hleads.unique hleads'
  cases hfound with
  | here hslot => simp [hslot] at hmissing
  | through hslot _ => simp [hslot] at hmissing

/-! ### One slot -/

/-- Going through a slot with more slots behind it. -/
theorem removes_visit {check : Heap → Value → Except Fault Ref}
    {work : Ref → Heap → Except Fault Unit × Heap} (hsuits : h.SuitsAt r s) (hslots : slots ≠ [])
    (hcheck : ∀ v c, check h v = .ok c → v = .object c)
    (hwork : ∀ c, check h (.object c) = .ok c → h.Removes c slots (work c h)) :
    h.Removes r (s :: slots) (h.visit r s check work) := by
  by_cases hnull : (h.slot? r s).getD .null = .null
  · rw [visit_of_getD hnull]
    refine .short ⟨[], s, slots, r, rfl, .here r, hsuits, ?_⟩
    cases hslot : h.slot? r s with
    | none => exact .inl rfl
    | some v =>
      rw [hslot, Option.getD_some] at hnull
      exact .inr ⟨congrArg some hnull, hslots⟩
  · rw [visit, if_neg hnull]
    cases hchecked : check h ((h.slot? r s).getD .null) with
    | error e => exact .stopped e
    | ok c =>
      have hvalue := hcheck _ _ hchecked
      have hslot := slot?_of_getD hvalue (hvalue ▸ hnull)
      exact (hwork c (hvalue ▸ hchecked)).behind (.through hslot (.here c))

/-- Removing a key. -/
theorem removes_unset (hr : h.IsMapping r) (name : String) :
    h.Removes r [.field name] (h.unset r name) := by
  unfold unset
  cases hslot : h.slot? r (.field name) with
  | none => exact .short ⟨[], _, [], r, rfl, .here r, suitsAt_field_iff.mpr hr, .inl hslot⟩
  | some v =>
    obtain ⟨kind, entries, hget⟩ := hr
    have hfind : entries.find? (.text name) = some v := by
      rw [slot?, hget] at hslot
      exact hslot
    by_cases hreadOnly : h.isReadOnly r
    · simp only [delete, hreadOnly, if_true, changed]
      exact .stopped _
    · simp only [delete, hreadOnly, changed]
      obtain ⟨es₁, es₂, hold, -, -, hnew⟩ := Table.exists_split_of_find? hfind
      refine .taken ⟨[], _, r, _, .mapping kind (entries.erase (.text name)), rfl, .here r, hget, ?_,
        .key hold hnew, fun x hx ↦ ?_⟩
      · rw [get?_mapEntries, if_pos rfl, hget, Option.map_some]
      · rw [get?_mapEntries, if_neg hx]

/-- Removing an item. -/
theorem removes_eraseIdx (hlist : h.get? list = some (.list items)) (n : Nat) :
    h.Removes list [.index n] (.ok (), h.mapItems list fun items ↦ items.eraseIdx n) := by
  have hget : ∀ x, (h.mapItems list fun items ↦ items.eraseIdx n).get? x =
      if x = list then some (.list (items.eraseIdx n)) else h.get? x := by
    intro x
    rw [get?_mapItems, hlist, Option.map_some]
  by_cases hn : n < items.length
  · have hsplit : items = items.take n ++ items[n] :: items.drop (n + 1) := by
      rw [List.getElem_cons_drop, List.take_append_drop]
    have hlength : (items.take n).length = n := List.length_take_of_le hn.le
    refine .taken ⟨[], _, list, _, .list (items.eraseIdx n), rfl, .here list, hlist, ?_, ?_,
      fun x hx ↦ ?_⟩
    · rw [hget, if_pos rfl]
    · have hwithout := @Cell.Without.item (items.take n) (items.drop (n + 1)) items[n]
      rwa [← hsplit, hlength, ← List.eraseIdx_eq_take_drop_succ] at hwithout
    · rw [hget, if_neg hx]
  · have hsame : (h.mapItems list fun items ↦ items.eraseIdx n) = h := by
      refine ext_get? fun x ↦ ?_
      rw [hget, List.eraseIdx_of_length_le (Nat.le_of_not_lt hn)]
      split
      · next hx => rw [hx, hlist]
      · rfl
    have hmissing : h.slot? list (.index n) = none := by
      rw [slot?, hlist]
      exact List.getElem?_eq_none (Nat.le_of_not_lt hn)
    rw [hsame]
    exact .short ⟨[], _, [], list, rfl, .here list, ⟨_, hlist, trivial⟩, .inl hmissing⟩

end Removes

/-! ### Along a path -/

/-- A removal at a path that does not branch ends in one of these ways. -/
theorem effect_remove_removes {h : Heap} {root : Ref} {path : String} (hsingle : Path.Single path)
    (hroot : h.IsMapping root) :
    h.Removes root (Path.addressed path) ((remove root path).effect h) := by
  induction path using Path.induction generalizing root with
  | broken path e he =>
    rw [effect_remove_of_error he]
    exact .stopped _
  | last path step hstep hrest =>
    cases hplace : step.place with
    | key =>
      rw [Path.addressed_of_last hstep hrest (by simp [hplace]), effect_remove_of_last hstep hrest hplace]
      exact removes_unset hroot step.name
    | item n =>
      rw [Path.addressed_of_last_item hstep hrest hplace,
        effect_remove_of_last_item hstep hrest hplace]
      refine removes_visit (suitsAt_field_iff.mpr hroot) (List.cons_ne_nil _ _)
        (Step.eq_object_of_checkList h) fun list hcheck ↦ ?_
      obtain ⟨⟨list, items⟩, hlist, rfl⟩ := exists_of_map_eq_ok hcheck
      exact removes_eraseIdx (of_asList hlist).2 n
    | every =>
      rw [Path.addressed_of_last hstep hrest (by simp [hplace]),
        effect_remove_of_last_every hstep hrest hplace]
      have hsame : (h.visit root (.field step.name) step.checkList fun _ h ↦ (.ok (), h)).2 = h :=
        visit_snd fun _ _ ↦ rfl
      generalize h.visit root (.field step.name) step.checkList _ = x at hsame ⊢
      obtain ⟨e | _, h₁⟩ := x
      · obtain rfl : h₁ = h := hsame
        exact .stopped e
      · obtain rfl : h₁ = h := hsame
        exact removes_unset hroot step.name
  | more path step rest hstep hrest ih =>
    obtain ⟨hplace, hsingle⟩ := Path.single_of_more hstep hrest hsingle
    have hsuits : h.SuitsAt root (.field step.name) := suitsAt_field_iff.mpr hroot
    cases hp : step.place with
    | every => exact absurd hp hplace
    | key =>
      rw [Path.addressed_of_more hstep hrest hp, effect_remove_of_more hstep hrest hp]
      exact removes_visit hsuits (Path.addressed_ne_nil rest) (Step.eq_object_of_checkMapping h)
        fun child hcheck ↦ ih hsingle (of_asMapping hcheck).2
    | item n =>
      rw [Path.addressed_of_more_item hstep hrest hp, effect_remove_of_more_item hstep hrest hp]
      refine removes_visit hsuits (List.cons_ne_nil _ _) (Step.eq_object_of_checkList h)
        fun list hcheck ↦ ?_
      obtain ⟨⟨list, items⟩, hlist, rfl⟩ := exists_of_map_eq_ok hcheck
      exact removes_visit ⟨_, (of_asList hlist).2, trivial⟩ (Path.addressed_ne_nil rest)
        (Step.eq_object_of_checkMapping h) fun child hcheck ↦ ih hsingle (of_asMapping hcheck).2

end Heap

/-- Assumes: a root that is a mapping. However a removal ends, no container is new, and what is left of
each of them are entries or items that it had, in the same order. If the path has no step `name[]` with
more steps behind it, the removal has taken away what the path addresses and nothing else, or the path
has fallen short of it and nothing has changed, or a fault has stopped it and nothing has changed; and
if the path falls short, nothing changes in any case. -/
theorem removal_takes_what_is_addressed {root : Ref} {path : String} {w : Workplace}
    (hroot : w.heap.IsMapping root) :
    let result := outcome (Scan.remove root path w)
    w.heap.Thins result.2 ∧
      (Path.Single path → w.heap.Removes root (Path.addressed path) result ∧
        (w.heap.FallsShort root (Path.addressed path) → result.2 = w.heap)) := by
  intro result
  have hresult : result = (Scan.remove root path).effect w.heap := steady_remove root path w
  rw [hresult]
  refine ⟨thins_remove root path w.heap, fun hsingle ↦ ?_⟩
  have hremoves := Heap.effect_remove_removes hsingle hroot
  refine ⟨hremoves, fun hshort ↦ ?_⟩
  generalize (Scan.remove root path).effect w.heap = x at hremoves ⊢
  cases hremoves with
  | taken htakes =>
    obtain ⟨v, hfinds⟩ := htakes.exists_finds
    exact absurd hshort hfinds.not_fallsShort
  | short _ => rfl
  | stopped e => rfl

/-- At `b[1]` the second item of a list with two keys is taken away; at `a[0].c.d` the path ends at the
null under `c`, and nothing changes. -/
theorem removal_takes_what_is_addressed_item :
    let w : Workplace := ⟨⟨#[.mapping .ordered (.ofList [(.text "a", .object 1), (.text "b", .object 1)]),
      .list [.object 2, .integer 7, .text "x"], .mapping .plain (.ofList [(.text "c", .null)])]⟩,
      .new 0, #[]⟩
    w.heap.IsMapping 0 ∧ Path.Single "b[1]" ∧
      w.heap.Removes 0 [.field "b", .index 1] (outcome (Scan.remove 0 "b[1]" w)) ∧
      (outcome (Scan.remove 0 "b[1]" w)).2.get? 1 = some (.list [.object 2, .text "x"]) ∧
      (outcome (Scan.remove 0 "a[0].c.d" w)).2 = w.heap := by
  intro w
  have hroot : w.heap.IsMapping 0 := ⟨_, _, rfl⟩
  have hhops : Path.hops "b[1]" = [⟨"b", .item 1⟩] := by decide +kernel
  have hhops' : Path.hops "a[0].c.d" = [⟨"a", .item 0⟩, ⟨"c", .key⟩, ⟨"d", .key⟩] := by decide +kernel
  have hsingle : Path.Single "b[1]" := by simp [Path.Single, hhops]
  have hsingle' : Path.Single "a[0].c.d" := by simp [Path.Single, hhops']
  have haddressed : Path.addressed "b[1]" = [.field "b", .index 1] := by
    rw [Path.addressed, Path.slots, hhops]
    rfl
  have haddressed' : Path.addressed "a[0].c.d" =
      [.field "a", .index 0, .field "c", .field "d"] := by
    rw [Path.addressed, Path.slots, hhops']
    rfl
  have hshort : w.heap.FallsShort 0 (Path.addressed "a[0].c.d") := by
    rw [haddressed']
    exact ⟨[.field "a", .index 0], .field "c", [.field "d"], 2, rfl,
      .through rfl (.through rfl (.here 2)), ⟨_, rfl, trivial⟩, .inr ⟨rfl, by simp⟩⟩
  have hstep : Step.decode "b[1]" = .ok ⟨"b[1]", "b", .item 1, none⟩ := by decide +kernel
  have hleft : (outcome (Scan.remove 0 "b[1]" w)).2.get? 1 =
      some (.list [.object 2, .text "x"]) := by
    rw [Scan.steady_remove 0 "b[1]" w, Scan.effect_remove_of_last_item hstep rfl rfl]
    rfl
  have hremoves := ((removal_takes_what_is_addressed hroot).2 hsingle).1
  rw [haddressed] at hremoves
  exact ⟨hroot, hsingle, hremoves, hleft,
    ((removal_takes_what_is_addressed hroot).2 hsingle').2 hshort⟩

end DottedPath
