import DottedPath.Proofs.Scan.Read
import DottedPath.Proofs.Write.Numbering
import DottedPath.Proofs.Write.OneSlot

/-!
# Reading what was written

What a write has put at the end of a path is found there afterwards: reading gives that very value,
and the slot is there (`get_after_set`). An item that was appended is read by the index that it got
(`Heap.number`); every other slot is read as it was written.
-/

set_option autoImplicit false
set_option relaxedAutoImplicit false

namespace DottedPath

theorem Table.find?_of_entries_eq {κ α : Type} [DecidableEq κ] {t : Table κ α}
    {es₁ es₂ : List (κ × α)} {k : κ} {a : α} (h : t.entries = es₁ ++ (k, a) :: es₂) :
    t.find? k = some a := by
  have hnodup := t.nodup_keys
  rw [h] at hnodup
  have hentries : ∀ es : List (κ × α), ((es ++ (k, a) :: es₂).map Prod.fst).Nodup →
      findFirst? (es ++ (k, a) :: es₂) k = some a := by
    intro es
    induction es with
    | nil => simp [findFirst?]
    | cons e es ih =>
      obtain ⟨k', a'⟩ := e
      intro hes
      simp only [List.cons_append, List.map_cons, List.nodup_cons] at hes
      have hne : k' ≠ k := by
        rintro rfl
        exact hes.1 (by simp)
      simp [findFirst?, hne, ih hes.2]
  rw [find?, h]
  exact hentries es₁ hnodup

/-- The number of items of a list. -/
def Cell.count : Cell → Nat
  | list items => items.length
  | _ => 0

theorem Slot.count_blank (s : Slot) : s.blank.count = 0 := by
  cases s <;> rfl

/-- What is written into a slot is found in the slot that it came to stand in. -/
theorem Cell.Written.slot?_number {c c' : Cell} {s : Slot} {item : Value}
    (hwritten : c.Written s item c') : c'.slot? (s.number c.count) = some item := by
  cases hwritten with
  | replaceKey _ hnew => exact Table.find?_of_entries_eq hnew
  | addKey _ hnew => exact Table.find?_of_entries_eq hnew
  | replaceItem hn => simp [Slot.number, slot?, hn]
  | @pad items n _ hn =>
    have hlength : (items ++ List.replicate (n - items.length) Value.null).length = n := by
      rw [List.length_append, List.length_replicate]
      omega
    simp only [Slot.number, slot?]
    rw [List.getElem?_append_right (Nat.le_of_eq hlength), hlength, Nat.sub_self]
    rfl
  | append => simp [Slot.number, Cell.count, slot?]

namespace Heap

theorem count_of_get? {h : Heap} {r : Ref} {c : Cell} (hget : h.get? r = some c) :
    h.count (some r) = c.count := by
  cases c <;> simp [count, items, hget, Cell.count]

theorem Grown.finds {h : Heap} {v : Value} {fresh : Nat} {s : Slot} {slots : List Slot}
    {item : Value} {r : Ref} (hslot : h.slot? r s = some item)
    (hgrown : h.Grown v fresh slots item) : h.Finds r (s :: slots.map (Slot.number 0)) v := by
  induction slots generalizing fresh item r s with
  | nil =>
    obtain rfl : item = v := hgrown
    exact .here hslot
  | cons t slots ih =>
    obtain ⟨rfl, cell, inner, hget, hwritten, hinner⟩ := hgrown
    have hcell := hwritten.slot?_number
    rw [t.count_blank] at hcell
    refine .through hslot (ih ?_ hinner)
    rw [slot?, hget]
    exact hcell

theorem Leads.foldl_container? {h : Heap} {r c : Ref} {slots : List Slot}
    (hleads : h.Leads r slots c) : slots.foldl h.container? (some r) = some c := by
  induction hleads with
  | here r => rfl
  | through hslot _ ih =>
    rw [List.foldl_cons, container?, Option.bind_some, hslot, Option.bind_some, Value.ref?]
    exact ih

theorem Leads.next_not_mem {h : Heap} {r c : Ref} {slots : List Slot}
    (hleads : h.Leads r slots c) : .next ∉ slots := by
  induction hleads with
  | here r => exact List.not_mem_nil
  | through hslot _ ih =>
    rw [List.mem_cons, not_or]
    refine ⟨?_, ih⟩
    rintro rfl
    simp [slot?] at hslot

theorem Finds.append_of_leads {h h' : Heap} {r c : Ref} {before slots : List Slot} {v : Value}
    (hleads : h.Leads r before c)
    (hsame : ∀ x, Relation.ReflTransGen h.Holds r x → Relation.TransGen h.Holds x c →
      h'.get? x = h.get? x) (hfinds : h'.Finds c slots v) : h'.Finds r (before ++ slots) v := by
  induction hleads with
  | here r => exact hfinds
  | @through r d c s before hslot hleads ih =>
    have hholds := holds_of_slot? hslot
    refine .through (c := d) ?_ (ih (fun x hx hxc ↦ hsame x (.head hholds hx) hxc) hfinds)
    rw [slot?, hsame r .refl (.head' hholds hleads.reaches)]
    exact hslot

/-- Assumes: a write that changes one slot, from a root that reaches no cycle. Afterwards the value is
found at the slots of the write. -/
theorem ChangesSlot.finds_of_acyclicFrom {h h' : Heap} {root c : Ref} {slots before behind : List Slot} {slot : Slot}
    {v item : Value} (hacyclic : h.AcyclicFrom root)
    (hchange : h.ChangesSlot h' root slots v before slot behind c item) :
    h'.Finds root (h.number (some root) slots) v := by
  obtain ⟨old, new, hold, hnew, hwritten⟩ := hchange.written
  have hslot : h'.slot? c (slot.number (h.count (some c))) = some item := by
    rw [slot?, hnew, count_of_get? hold]
    exact hwritten.slot?_number
  -- Behind the slot that changes everything is new, so every append there makes a first item.
  have hbehind : h.number (h.container? (some c) slot) behind = behind.map (Slot.number 0) := by
    obtain rfl | hopen := hchange.open_or_last
    · rfl
    · have hnone : h.container? (some c) slot = none := by
        rw [container?, Option.bind_some]
        cases hc : h.slot? c slot with
        | none => rfl
        | some v =>
          obtain rfl : v = .null := by simpa [hc] using hopen
          rfl
      rw [hnone, number_none]
  have hnumber : h.number (some root) slots =
      before ++ slot.number (h.count (some c)) :: behind.map (Slot.number 0) := by
    rw [hchange.slots_eq, number_append, hchange.leads.foldl_container?, number, hbehind,
      number_of_not_mem h _ hchange.leads.next_not_mem]
  rw [hnumber]
  refine Finds.append_of_leads hchange.leads (fun x _ hxc ↦ ?_) (hchange.grown.finds hslot)
  have hx : x < h.size := by
    obtain ⟨y, ⟨cell, hget, -⟩, -⟩ := Relation.TransGen.head'_iff.mp hxc
    exact lt_size_of_get? hget
  exact hchange.others x hx fun hxeq ↦ hacyclic c hchange.leads.reaches (hxeq ▸ hxc)

/-- Assumes: a write that changes one slot of an acyclic heap. Afterwards the value is found at the
slots of the write. -/
theorem ChangesSlot.finds {h h' : Heap} {root c : Ref} {slots before behind : List Slot} {slot : Slot}
    {v item : Value} (hacyclic : h.Acyclic)
    (hchange : h.ChangesSlot h' root slots v before slot behind c item) :
    h'.Finds root (h.number (some root) slots) v :=
  hchange.finds_of_acyclicFrom (hacyclic.acyclicFrom root)

/-! ### Paths that can be written at -/

theorem exists_of_through {h h' : Heap} {r : Ref} {s : Slot} {blank : Cell}
    {check : Heap → Value → Except Fault Ref} {work : Ref → Heap → Except Fault Unit × Heap}
    (hthrough : h.through r s blank check work = (.ok (), h')) :
    ∃ c h₁ h₂, work c h₁ = (.ok (), h₂) := by
  obtain ⟨c, h₁, -, hrest⟩ := andThen_eq_ok hthrough
  obtain ⟨_, h₂, hdone, -⟩ := andThen_eq_ok hrest
  exact ⟨c, h₁, h₂, hdone⟩

theorem exists_of_reach {limit : Option Nat} {step : Step} {root : Ref} {h h' : Heap}
    {work : Ref → Slot → Heap → Except Fault Unit × Heap}
    (hreach : step.reach limit root work h = (.ok (), h')) :
    ∃ r s h₁ h₂, work r s h₁ = (.ok (), h₂) := by
  unfold Step.reach at hreach
  split at hreach
  · exact ⟨root, _, h, h', hreach⟩
  · next slot _ =>
    obtain ⟨_, h₁, -, hthrough⟩ := andThen_eq_ok hreach
    obtain ⟨c, h₂, h₃, hdone⟩ := exists_of_through hthrough
    exact ⟨c, slot, h₂, h₃, hdone⟩

/-- A write reads its path to the end before it stores anything. -/
theorem readable_of_set {limit : Option Nat} {root : Ref} {path : String} {v : Value} {h h' : Heap}
    (hset : (Scan.set limit root path v).effect h = (.ok (), h')) : Path.Readable path := by
  induction path using Path.induction generalizing root h h' with
  | broken path e he => simp [Scan.effect_set_of_error he] at hset
  | last path step hstep hrest => exact Path.readable_of_last hstep hrest
  | more path step rest hstep hrest ih =>
    rw [Scan.effect_set_of_more hstep hrest] at hset
    obtain ⟨r, s, h₁, h₂, hthrough⟩ := exists_of_reach hset
    obtain ⟨c, h₃, h₄, hdone⟩ := exists_of_through hthrough
    exact (Path.readable_of_more hstep hrest).mpr (ih hdone)

/-! ### The paths by which it is read -/

/-- The paths by which to read what is written at a path: the path itself when nothing is appended
along it, and the path with its indices, unless there are too many digits in one. -/
inductive ReadsBack (h : Heap) (root : Ref) (path : String) : String → Prop
  | itself (hplaces : ∀ hop ∈ Path.hops path, hop.place ≠ .every) : ReadsBack h root path path
  | numbered (hreadable : Path.Readable (h.numbered root path)) :
    ReadsBack h root path (h.numbered root path)

theorem next_not_mem_slots {path : String}
    (hplaces : ∀ hop ∈ Path.hops path, hop.place ≠ .every) : .next ∉ Path.slots path := by
  intro hmem
  obtain ⟨⟨name, place⟩, hhop, hslot⟩ := List.mem_flatMap.mp hmem
  cases place with
  | every => exact hplaces _ hhop rfl
  | key | item n => simp [Hop.slots, Place.slot?] at hslot

theorem ReadsBack.slots_eq {h : Heap} {root : Ref} {path path' : String}
    (hpath : h.ReadsBack root path path') :
    Path.slots path' = h.number (some root) (Path.slots path) := by
  cases hpath with
  | itself hplaces => rw [number_of_not_mem h _ (next_not_mem_slots hplaces)]
  | numbered _ => exact slots_numbered h root path

end Heap

/-- Assumes: an acyclic heap, a root that is a mapping, and a write there that succeeds. Reading then
gives the very value that was written, and the slot is there, by the path of the write with an index
for every item that was appended, and by the path itself if there is none. -/
theorem get_after_set {limit : Option Nat} {root : Ref} {path path' : String} {v : Value}
    {w w' : Workplace} (hacyclic : w.heap.Acyclic) (hroot : w.heap.IsMapping root)
    (hset : Scan.set limit root path v w = .ok () w') (hpath : w.heap.ReadsBack root path path') :
    (∃ w₁, Scan.get root path' w' = .ok v w₁ ∧ w₁.heap = w'.heap) ∧
      ∃ w₁, Scan.has root path' w' = .ok true w₁ ∧ w₁.heap = w'.heap := by
  have heffect := (Scan.steady_set limit root path v).effect_of_ok hset
  obtain ⟨before, slot, behind, c, item, hchange⟩ :=
    (Heap.writes_of_set heffect).changesSlot hacyclic (Heap.suitsAt_slots hroot path)
  have hreadable : Path.Readable path' := by
    cases hpath with
    | itself _ => exact Heap.readable_of_set heffect
    | numbered hreadable => exact hreadable
  have hfinds : w'.heap.Finds root (Path.slots path') v := by
    rw [hpath.slots_eq]
    exact hchange.finds hacyclic
  obtain ⟨hget, hhas⟩ := Scan.effect_of_finds hreadable hfinds
  exact ⟨(Scan.follows_get.steady root path').exists_of_effect hget,
    (Scan.follows_has.steady root path').exists_of_effect hhas⟩

/-- What is written at `a[].b` behind one item is read at `a[1].b`. -/
theorem get_after_set_behind_one :
    let w : Workplace :=
      ⟨⟨#[.mapping .plain (.ofList [(.text "a", .object 1)]), .list [.integer 1]]⟩, .new 0, #[]⟩
    w.heap.Acyclic ∧ w.heap.IsMapping 0 ∧ w.heap.ReadsBack 0 "a[].b" "a[1].b" ∧
      ∃ w', Scan.set none 0 "a[].b" (.integer 5) w = .ok () w' ∧
        (∃ w₁, Scan.get 0 "a[1].b" w' = .ok (.integer 5) w₁ ∧ w₁.heap = w'.heap) ∧
          ∃ w₁, Scan.has 0 "a[1].b" w' = .ok true w₁ ∧ w₁.heap = w'.heap := by
  intro w
  have hacyclic : w.heap.Acyclic := Heap.acyclic_of_lt (by decide)
  have hroot : w.heap.IsMapping 0 := ⟨_, _, rfl⟩
  have hnumbered : w.heap.numbered 0 "a[].b" = "a[1].b" := by decide +kernel
  have hpath : w.heap.ReadsBack 0 "a[].b" "a[1].b" := by
    rw [← hnumbered]
    exact .numbered (by decide +kernel)
  have hstep : Step.decode "a[].b" = .ok ⟨"a[].b", "a", .every, some "b"⟩ := by decide +kernel
  have hlast : Step.decode "b" = .ok ⟨"b", "b", .key, none⟩ := by decide +kernel
  obtain ⟨h', heffect⟩ : ∃ h', (Scan.set none 0 "a[].b" (.integer 5)).effect w.heap = (.ok (), h') :=
    ⟨_, Scan.effect_set_of_two hstep rfl hlast rfl ..⟩
  obtain ⟨w', hset, -⟩ := (Scan.steady_set _ _ _ _).exists_of_effect heffect
  exact ⟨hacyclic, hroot, hpath, w', hset, get_after_set hacyclic hroot hset hpath⟩

end DottedPath
