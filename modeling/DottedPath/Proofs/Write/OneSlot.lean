import DottedPath.Proofs.Heap.Reach
import DottedPath.Proofs.Scan.Write

/-!
# A write changes one slot

However long the path, a write that succeeds changes one of the containers that were there, in one
slot: the first slot on the path that does not hold a container, or the last one. The value that
comes to stand there is the value written, or a new container that leads to it through new containers
alone, one for each slot that is left (`Heap.Grown`). This is `set_changes_one_slot`.

On the way back each container is stored again in the slot that it came from. That these stores
change nothing rests on the heap being acyclic: what changed below is none of the containers above
(`AcyclicFrom.ne`), so each slot on the way still holds what it held (`eq_of_fill_self`).
-/

set_option autoImplicit false
set_option relaxedAutoImplicit false

namespace DottedPath

/-! ### A value put into a slot of a cell -/

/-- The second cell is the first with a value in a slot: a key that is there keeps its place and a
new key goes last, an item that is there is replaced, an item past the end comes behind as many nulls
as it takes, and an item without an index comes last. -/
inductive Cell.Written : Cell → Slot → Value → Cell → Prop
  | replaceKey {kind : MappingKind} {t t' : Table Key Value} {es₁ es₂ : List (Key × Value)}
    {name : String} {old item : Value} (hold : t.entries = es₁ ++ (.text name, old) :: es₂)
    (hnew : t'.entries = es₁ ++ (.text name, item) :: es₂) :
    Written (.mapping kind t) (.field name) item (.mapping kind t')
  | addKey {kind : MappingKind} {t t' : Table Key Value} {name : String} {item : Value}
    (habsent : .text name ∉ t.keys) (hnew : t'.entries = t.entries ++ [(.text name, item)]) :
    Written (.mapping kind t) (.field name) item (.mapping kind t')
  | replaceItem {items : List Value} {n : Nat} {item : Value} (hn : n < items.length) :
    Written (.list items) (.index n) item (.list (items.set n item))
  | pad {items : List Value} {n : Nat} {item : Value} (hn : items.length ≤ n) :
    Written (.list items) (.index n) item
      (.list (items ++ List.replicate (n - items.length) .null ++ [item]))
  | append {items : List Value} {item : Value} :
    Written (.list items) .next item (.list (items ++ [item]))

theorem Table.entries_put_split {κ α : Type} [DecidableEq κ] {t : Table κ α} {k : κ} {old : α}
    (h : t.find? k = some old) (a : α) :
    ∃ es₁ es₂, t.entries = es₁ ++ (k, old) :: es₂ ∧ (t.put k a).entries = es₁ ++ (k, a) :: es₂ := by
  have hentries : ∀ es : List (κ × α), findFirst? es k = some old →
      ∃ es₁ es₂, es = es₁ ++ (k, old) :: es₂ ∧ putEntry es k a = es₁ ++ (k, a) :: es₂ := by
    intro es
    induction es with
    | nil => simp [findFirst?]
    | cons e es ih =>
      obtain ⟨k', a'⟩ := e
      intro hfind
      simp only [findFirst?] at hfind
      split at hfind
      · next hkey =>
        obtain rfl := Option.some.inj hfind
        exact ⟨[], es, by simp [hkey], by simp [putEntry, hkey]⟩
      · next hkey =>
        obtain ⟨es₁, es₂, hes, hput⟩ := ih hfind
        exact ⟨(k', a') :: es₁, es₂, by simp [hes], by simp [putEntry, hkey, hput]⟩
  exact hentries t.entries h

theorem Cell.written_put {c : Cell} {s : Slot} (hsuits : s.Suits c) (item : Value) :
    c.Written s item (c.put s item) := by
  cases c with
  | mapping kind t =>
    cases s with
    | field name =>
      cases hfind : t.find? (.text name) with
      | none =>
        have habsent := (t.find?_eq_none_iff _).mp hfind
        exact .addKey habsent (Table.putEntry_of_not_mem _ _ _ habsent)
      | some old =>
        obtain ⟨es₁, es₂, hold, hnew⟩ := Table.entries_put_split hfind item
        exact .replaceKey hold hnew
    | index n | next => exact hsuits.elim
  | list items =>
    cases s with
    | field name => exact hsuits.elim
    | index n =>
      by_cases hn : n < items.length
      · simpa [Cell.put, hn] using Written.replaceItem hn
      · simpa [Cell.put, hn] using Written.pad (Nat.le_of_not_lt hn)
    | next => exact .append
  | _ => cases s <;> exact hsuits.elim

/-! ### What a write adds -/

namespace Heap

/-- An item leads through the given slots of new containers to a value: for each slot there is one
container, numbered from `fresh` on, in which only this slot is filled. -/
def Grown (h : Heap) (v : Value) : Nat → List Slot → Value → Prop
  | _, [], item => item = v
  | fresh, s :: slots, item => item = .object fresh ∧
    ∃ cell inner, h.get? fresh = some cell ∧ s.blank.Written s inner cell ∧
      Grown h v (fresh + 1) slots inner

/-- A write of a value at the end of some slots changes the slot `slot` of the container `c`. -/
structure ChangesSlot (h h' : Heap) (root : Ref) (slots : List Slot) (v : Value)
    (before : List Slot) (slot : Slot) (behind : List Slot) (c : Ref) (item : Value) : Prop where
  /-- The slot is on the path, -/
  slots_eq : slots = before ++ slot :: behind
  /-- the slots before it lead to the container through containers that were there, -/
  leads : h.Leads root before c
  /-- and it is the last slot, or it was missing or null. -/
  open_or_last : behind = [] ∨ (h.slot? c slot).getD .null = .null
  /-- The container changes by having the item in the slot. -/
  written : ∃ old new, h.get? c = some old ∧ h'.get? c = some new ∧ old.Written slot item new
  /-- All other containers that were there stay as they were. -/
  others : ∀ r < h.size, r ≠ c → h'.get? r = h.get? r
  /-- The item leads to the value through new containers, -/
  grown : h'.Grown v h.size behind item
  /-- which are all that is added. -/
  size_eq : h'.size = h.size + behind.length

theorem Grown.congr {h h' : Heap} {v : Value} {fresh : Nat} {slots : List Slot} {item : Value}
    (hget : ∀ r, fresh ≤ r → h'.get? r = h.get? r) (hgrown : h.Grown v fresh slots item) :
    h'.Grown v fresh slots item := by
  induction slots generalizing fresh item with
  | nil => exact hgrown
  | cons s slots ih =>
    obtain ⟨hitem, cell, inner, hcell, hwritten, hinner⟩ := hgrown
    refine ⟨hitem, cell, inner, ?_, hwritten, ih (fun r hr ↦ hget r (Nat.le_of_succ_le hr)) hinner⟩
    rw [hget fresh (Nat.le_refl fresh), hcell]

theorem lt_size_of_suitsAt {h : Heap} {r : Ref} {s : Slot} (hsuits : h.SuitsAt r s) :
    r < h.size := by
  obtain ⟨c, hget, -⟩ := hsuits
  exact lt_size_of_get? hget

/-- What comes to stand in a slot when a value is written behind it: the first of the new containers,
or the value itself when no slot is left. -/
def stem (fresh : Ref) (slots : List Slot) (v : Value) : Value :=
  match slots with
  | [] => v
  | _ :: _ => .object fresh

theorem changesSlot_of_fill {h h' : Heap} {r : Ref} {s : Slot} {v : Value}
    (hfill : h.fill r s v = .ok h') (hsuits : h.SuitsAt r s) :
    h.ChangesSlot h' r [s] v [] s [] r v := by
  obtain ⟨cell, hget, hcell⟩ := hsuits
  refine ⟨rfl, .here r, .inl rfl, ⟨cell, cell.put s v, hget, ?_, Cell.written_put hcell v⟩, ?_, rfl,
    size_fill hfill⟩
  · rw [get?_fill hfill, if_pos rfl, hget, Option.map_some]
  · intro x _ hx
    rw [get?_fill hfill, if_neg hx]

/-- A write at a slot in which nothing stands changes this slot, and all behind it is new. -/
theorem Writes.changesSlot_of_null {h h' : Heap} {r : Ref} {s : Slot} {slots : List Slot} {v : Value}
    (hwrites : h.Writes r (s :: slots) v h') (hnull : (h.slot? r s).getD .null = .null)
    (hsuits : h.SuitsAt r s) :
    h.ChangesSlot h' r (s :: slots) v [] s slots r (stem h.size slots v) := by
  obtain ⟨cell, hget, hcell⟩ := hsuits
  have hr : r < h.size := lt_size_of_get? hget
  induction slots generalizing h h' r s cell with
  | nil =>
    cases hwrites with
    | fill hfill => exact changesSlot_of_fill hfill ⟨cell, hget, hcell⟩
  | cons t slots ih =>
    cases hwrites with
    | enter hslot => simp [hslot] at hnull
    | @make _ h₁ _ _ _ _ _ _ _ hwrites hfill =>
      have hblank : ((h.alloc t.blank).slot? h.size t).getD .null = .null := by
        simp [slot?_alloc_self]
      have hchange := ih hwrites hblank t.blank (get?_alloc_self h _) t.suits_blank (by simp)
      obtain ⟨old, new, hold, hnew, hwritten⟩ := hchange.written
      obtain rfl : t.blank = old := by simpa using hold
      have hold₁ : ∀ x < h.size, h₁.get? x = h.get? x := by
        intro x hx
        have hlt : x < (h.alloc t.blank).size := by
          rw [size_alloc]
          exact Nat.lt_succ_of_lt hx
        rw [hchange.others x hlt (Nat.ne_of_lt hx), get?_alloc_of_lt h _ hx]
      have hfresh : ∀ x, h.size ≤ x → h'.get? x = h₁.get? x := by
        intro x hx
        rw [get?_fill hfill, if_neg (Nat.ne_of_gt (Nat.lt_of_lt_of_le hr hx))]
      refine ⟨rfl, .here r, .inr hnull, ?_, ?_, ?_, ?_⟩
      · refine ⟨cell, cell.put s (.object h.size), hget, ?_, Cell.written_put hcell _⟩
        rw [get?_fill hfill, if_pos rfl, hold₁ r hr, hget, Option.map_some]
      · intro x hx hxr
        rw [get?_fill hfill, if_neg hxr, hold₁ x hx]
      · refine ⟨rfl, new, _, by rw [hfresh _ (Nat.le_refl _), hnew], hwritten, ?_⟩
        have hgrown := hchange.grown
        rw [size_alloc] at hgrown ⊢
        exact hgrown.congr fun x hx ↦ hfresh x (Nat.le_of_succ_le hx)
      · rw [size_fill hfill, hchange.size_eq, size_alloc, List.length_cons]
        omega

/-- Assumes: a container that reaches no cycle and has slots such as the first one. A write there that
succeeds changes one slot. -/
theorem Writes.changesSlot_of_acyclicFrom {h h' : Heap} {r : Ref} {slots : List Slot} {v : Value}
    (hwrites : h.Writes r slots v h') (hacyclic : h.AcyclicFrom r)
    (hsuits : ∀ s ∈ slots.head?, h.SuitsAt r s) :
    ∃ before slot behind c item, h.ChangesSlot h' r slots v before slot behind c item := by
  induction hwrites with
  | fill hfill => exact ⟨_, _, _, _, _, changesSlot_of_fill hfill (hsuits _ rfl)⟩
  | @enter h h₁ h' r c s t slots v hslot hsuits₁ _ hfill ih =>
    obtain ⟨before, slot, behind, d, item, hchange⟩ :=
      ih (hacyclic.of_slot? hslot) fun u hu ↦ by
      obtain rfl : t = u := by simpa using hu
      exact hsuits₁
    have hr : r < h.size := lt_size_of_suitsAt (hsuits s rfl)
    have hne : r ≠ d := hacyclic.ne hslot hchange.leads
    -- Nothing above the change has changed, so the slot still holds the container.
    have hsame : h₁.slot? r s = some (.object c) := by
      rw [slot?, hchange.others r hr hne]
      exact hslot
    obtain rfl := eq_of_fill_self hsame hfill
    exact ⟨s :: before, slot, behind, d, item,
      { hchange with
        slots_eq := by rw [hchange.slots_eq, List.cons_append]
        leads := .through hslot hchange.leads }⟩
  | make hslot hwrites hfill =>
    exact ⟨_, _, _, _, _, (Writes.make hslot hwrites hfill).changesSlot_of_null hslot (hsuits _ rfl)⟩

/-- Assumes: an acyclic heap, and a container that has slots such as the first one. A write that
succeeds changes one slot. -/
theorem Writes.changesSlot {h h' : Heap} {r : Ref} {slots : List Slot} {v : Value}
    (hwrites : h.Writes r slots v h') (hacyclic : h.Acyclic)
    (hsuits : ∀ s ∈ slots.head?, h.SuitsAt r s) :
    ∃ before slot behind c item, h.ChangesSlot h' r slots v before slot behind c item :=
  hwrites.changesSlot_of_acyclicFrom (hacyclic.acyclicFrom r) hsuits

/-- Every path starts at a slot of its root mapping. -/
theorem suitsAt_slots {h : Heap} {root : Ref} (hroot : h.IsMapping root) (path : String) :
    ∀ s ∈ (Path.slots path).head?, h.SuitsAt root s := by
  intro s hs
  obtain ⟨name, slots, hslots⟩ := Path.exists_slots_eq path
  obtain rfl : Slot.field name = s := by simpa [hslots] using hs
  exact suitsAt_field_iff.mpr hroot

end Heap

/-- Assumes: an acyclic heap and a root that is a mapping. A write at any path that succeeds changes
one container among those that were there, in one slot. -/
theorem set_changes_one_slot {limit : Option Nat} {root : Ref} {path : String} {v : Value}
    {w w' : Workplace} (hacyclic : w.heap.Acyclic) (hroot : w.heap.IsMapping root)
    (hset : Scan.set limit root path v w = .ok () w') :
    ∃ before slot behind c item,
      w.heap.ChangesSlot w'.heap root (Path.slots path) v before slot behind c item := by
  have heffect := (Scan.steady_set limit root path v).effect_of_ok hset
  exact (Heap.writes_of_set heffect).changesSlot hacyclic (Heap.suitsAt_slots hroot path)

/-- Writing to `a[2].b` pads the list under `a` with a null, and puts a new mapping behind it. -/
theorem set_changes_one_slot_past_end :
    let w : Workplace :=
      ⟨⟨#[.mapping .plain (.ofList [(.text "a", .object 1)]), .list [.integer 1]]⟩, .new 0, #[]⟩
    w.heap.Acyclic ∧ w.heap.IsMapping 0 ∧ ∃ w', Scan.set none 0 "a[2].b" (.integer 5) w = .ok () w' ∧
      ∃ before slot behind c item, w.heap.ChangesSlot w'.heap 0 (Path.slots "a[2].b") (.integer 5)
        before slot behind c item := by
  intro w
  have hacyclic : w.heap.Acyclic := Heap.acyclic_of_lt (by decide)
  have hroot : w.heap.IsMapping 0 := ⟨_, _, rfl⟩
  have hstep : Step.decode "a[2].b" = .ok ⟨"a[2].b", "a", .item 2, some "b"⟩ := by decide +kernel
  have hlast : Step.decode "b" = .ok ⟨"b", "b", .key, none⟩ := by decide +kernel
  obtain ⟨h', heffect⟩ : ∃ h', (Scan.set none 0 "a[2].b" (.integer 5)).effect w.heap = (.ok (), h') :=
    ⟨_, Scan.effect_set_of_two hstep rfl hlast rfl ..⟩
  obtain ⟨w', hset, -⟩ := (Scan.steady_set _ _ _ _).exists_of_effect heffect
  exact ⟨hacyclic, hroot, w', hset, set_changes_one_slot hacyclic hroot hset⟩

end DottedPath
