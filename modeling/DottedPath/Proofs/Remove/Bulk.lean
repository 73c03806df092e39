import DottedPath.Proofs.Remove.Kept
import DottedPath.Proofs.SubScanner.Interchange
import Mathlib.Data.List.Forall2

/-!
# Removing from every item of a list

A step `name[]` with more steps behind it removes from every mapping in the list. In an acyclic heap
this is what comes of the removals at `name[0]`, `name[1]` and so on, each of which starts again at
the root, for the indices at which a mapping stands (`bulk_removal_in_order`).

Two things make it so. Where readable steps lead to a mapping, a removal behind them is the removal
in that mapping (`effect_remove_under`); and a removal in an item leaves everything above the list as
it is (`thinsOutside_remove`), so that the steps lead to the same mapping again whatever the removals
before have done in it. The two sequences then stay together, one removal after the other
(`sweep_eq_sweep`).

For the same reason it makes no difference whether the items are looked at before all the removals or
each when its turn comes (`effect_remove_every_in_turn`).
-/

set_option autoImplicit false
set_option relaxedAutoImplicit false

namespace DottedPath

open Scan

namespace Path

/-! ### Steps before a path -/

/-- The path with the texts of some steps before it, each with a point behind it. -/
def under : List String → String → String
  | [], path => path
  | text :: steps, path => text ++ "." ++ under steps path

/-- Where the steps with these texts lead. -/
def slotsUnder (steps : List String) : List Slot :=
  steps.flatMap fun text ↦ (Hop.ofPart (Text.trim text.toList)).slots

section Under

variable {steps : List String} {text path : String}

theorem under_concat (steps : List String) (text path : String) :
    under (steps ++ [text]) path = under steps (text ++ "." ++ path) := by
  induction steps with
  | nil => rfl
  | cons first steps ih => rw [List.cons_append, under, ih, under]

theorem toList_join (p q : String) : (p ++ "." ++ q).toList = p.toList ++ '.' :: q.toList := by
  simp

theorem trim_under_ne_nil (steps : List String) (hpath : Text.trim path.toList ≠ []) :
    Text.trim (under steps path).toList ≠ [] := by
  cases steps with
  | nil => exact hpath
  | cons text steps =>
    rw [under, toList_join, Text.trim_append_point]
    simp

theorem slotsUnder_cons (text : String) (steps : List String) :
    slotsUnder (text :: steps) =
      (Hop.ofPart (Text.trim text.toList)).slots ++ slotsUnder steps := rfl

theorem slotsUnder_concat (steps : List String) (text : String) :
    slotsUnder (steps ++ [text]) =
      slotsUnder steps ++ (Hop.ofPart (Text.trim text.toList)).slots := by
  simp [slotsUnder]

/-- The first step of a path that begins with the text of a step. -/
theorem exists_decode_join (htext : StepText text) (hpath : Text.trim path.toList ≠ []) :
    ∃ step, Step.decode (text ++ "." ++ path) = .ok step ∧
      step.hop = Hop.ofPart (Text.trim text.toList) ∧ step.rest = some (Text.trimmed path) := by
  rw [Step.decode_eq, toList_join, Step.headText_append_point htext.point,
    Step.restText_append_point htext.point, Step.rest?_trim hpath, String.ofList_toList]
  cases htarget : Step.target (Text.trim text.toList) with
  | error e => exact absurd htext.fits (Step.not_numeralFits_of_target htarget)
  | ok target => exact ⟨_, rfl, (Step.hop_of_target htarget).1.symm, rfl⟩

end Under

end Path

namespace Heap

/-- A mapping stands at the index among some items. -/
def MappingAt (h : Heap) (items : List Value) (i : Nat) (c : Ref) : Prop :=
  items[i]? = some (.object c) ∧ h.IsMapping c

/-- The indices at which mappings stand among some items. -/
def mappingIndices (h : Heap) (items : List Value) : List Nat :=
  (List.range items.length).filter fun i ↦ h.kindOf (items[i]?.getD .null) = .mapping

section Bulk

variable {h h' : Heap} {root child c d list : Ref} {steps : List String} {path rest name : String}
variable {slots : List Slot} {items : List Value}

/-! ### Going on from a mapping that steps lead to -/

theorem Leads.isMapping_under (hleads : h.Leads c (Path.slotsUnder steps) d) (hd : h.IsMapping d) :
    h.IsMapping c := by
  cases steps with
  | nil =>
    cases hleads
    exact hd
  | cons text steps =>
    rw [Path.slotsUnder_cons, Hop.slots] at hleads
    cases hleads with
    | through hslot _ => exact suitsAt_field_iff.mp (suitsAt_of_slot? hslot)

/-- Where readable steps lead to a mapping, a removal behind them is the removal in that mapping. -/
theorem effect_remove_under (hsteps : ∀ text ∈ steps, Path.StepText text)
    (hpath : Text.trim path.toList ≠ []) (hleads : h.Leads root (Path.slotsUnder steps) child)
    (hchild : h.IsMapping child) :
    (remove root (Path.under steps path)).effect h = (remove child path).effect h := by
  induction steps generalizing root with
  | nil =>
    cases hleads
    rfl
  | cons text steps ih =>
    obtain ⟨htext, hsteps⟩ := List.forall_mem_cons.mp hsteps
    obtain ⟨step, hstep, hhop, hrest⟩ :=
      Path.exists_decode_join htext (Path.trim_under_ne_nil steps hpath)
    rw [Path.slotsUnder_cons, ← hhop] at hleads
    obtain ⟨mid, hfirst, hbehind⟩ := hleads.of_append
    obtain ⟨-, -, hremove⟩ :=
      effect_of_leads hstep hrest hfirst (hbehind.isMapping_under hchild)
    calc (remove root (Path.under (text :: steps) path)).effect h
        = (remove mid (Text.trimmed (Path.under steps path))).effect h := hremove
      _ = (remove mid (Path.under steps path)).effect h :=
          effect_remove_congr (Step.decode_trimmed _) mid h
      _ = (remove child path).effect h := ih hsteps hbehind

/-- Slots lead to the same container as long as the containers on the way stay as they are. -/
theorem Leads.of_get? (hleads : h.Leads c slots d)
    (hkept : ∀ x ∈ h.above d, h'.get? x = h.get? x) : h'.Leads c slots d := by
  induction hleads with
  | here r => exact .here r
  | @through r c d s slots hslot hleads ih =>
    refine .through ?_ (ih hkept)
    rw [slot?, hkept r (.head (holds_of_slot? hslot) hleads.reaches)]
    exact hslot

/-! ### The mappings in a list and their indices -/

theorem kindOf_eq_mapping_iff {v : Value} :
    h.kindOf v = .mapping ↔ ∃ r, v = .object r ∧ h.IsMapping r := by
  constructor
  · intro hkind
    unfold kindOf at hkind
    split at hkind
    · next hnode =>
      obtain ⟨rfl, hget⟩ := of_node_eq_mapping hnode
      exact ⟨_, rfl, _, _, hget⟩
    · cases hkind
    · cases hkind
  · rintro ⟨r, rfl, kind, entries, hget⟩
    simp [kindOf, node, hget]

/-- An index has no more digits than the number of the items. -/
theorem MappingAt.length_toDigits_le {i k : Nat} (hchild : h.MappingAt items i child)
    (hlength : (Nat.toDigits 10 items.length).length ≤ k) : (Nat.toDigits 10 i).length ≤ k := by
  have hi : i < items.length := (List.getElem?_eq_some_iff.mp hchild.1).1
  have hdigits : 0 < (Nat.toDigits 10 items.length).length := Nat.length_toDigits_pos
  have hk : 0 < k := Nat.lt_of_lt_of_le hdigits hlength
  rw [Nat.length_toDigits_le_iff (by decide) hk] at hlength ⊢
  exact Nat.lt_trans hi hlength

theorem mappingIndices_concat (items : List Value) (v : Value) :
    h.mappingIndices (items ++ [v]) =
      h.mappingIndices items ++ if h.kindOf v = .mapping then [items.length] else [] := by
  have hbefore : ∀ i ∈ List.range items.length,
      decide (h.kindOf ((items ++ [v])[i]?.getD .null) = .mapping) =
        decide (h.kindOf (items[i]?.getD .null) = .mapping) := by
    intro i hi
    rw [List.getElem?_append_left (List.mem_range.mp hi)]
  rw [mappingIndices, List.length_append, List.length_singleton, List.range_succ,
    List.filter_append, List.filter_congr hbefore, mappingIndices]
  by_cases hv : h.kindOf v = .mapping <;> simp [hv]

theorem mappingsAmong_concat (items : List Value) (v : Value) :
    h.mappingsAmong (items ++ [v]) =
      h.mappingsAmong items ++ (if h.kindOf v = .mapping then v.ref?.toList else []) := by
  have hlast : h.mappingsAmong [v] = if h.kindOf v = .mapping then v.ref?.toList else [] := by
    by_cases hv : h.kindOf v = .mapping
    · obtain ⟨r, rfl, kind, entries, hget⟩ := kindOf_eq_mapping_iff.mp hv
      rw [if_pos hv]
      simp [mappingsAmong, node, hget, Value.ref?]
    · rw [if_neg hv]
      unfold kindOf at hv
      simp only [mappingsAmong]
      split at hv <;> simp_all
  rw [← hlast, mappingsAmong, List.filterMap_append]
  rfl

/-- The mappings in a list are those that stand at the indices of mappings, in order. -/
theorem forall₂_mappingIndices (h : Heap) (items : List Value) :
    List.Forall₂ (h.MappingAt items) (h.mappingIndices items) (h.mappingsAmong items) := by
  induction items using List.reverseRecOn with
  | nil => exact .nil
  | append_singleton items v ih =>
    have hbefore : List.Forall₂ (h.MappingAt (items ++ [v])) (h.mappingIndices items)
        (h.mappingsAmong items) := by
      refine ih.imp fun i c hi ↦ ⟨?_, hi.2⟩
      rw [List.getElem?_append_left (List.getElem?_eq_some_iff.mp hi.1).1, hi.1]
    rw [mappingIndices_concat, mappingsAmong_concat]
    refine List.rel_append hbefore ?_
    split
    · next hv =>
      obtain ⟨r, rfl, hr⟩ := kindOf_eq_mapping_iff.mp hv
      exact .cons ⟨List.getElem?_concat_length, hr⟩ .nil
    · exact .nil

/-! ### Two sequences of removals -/

/-- Two sequences of work stay together when the pieces of work that correspond to each other do the
same in every heap with some property, and keep the property. -/
theorem sweep_eq_sweep {R : Ref → Ref → Prop} {I : Heap → Prop} {rs ss : List Ref}
    {work work' : Ref → Heap → Except Fault Unit × Heap} (hrs : List.Forall₂ R rs ss)
    (hsame : ∀ r s h, R r s → I h → work r h = work' s h)
    (hkeep : ∀ r s h, R r s → I h → I (work' s h).2) (hh : I h) :
    sweep work rs h = sweep work' ss h := by
  induction hrs generalizing h with
  | nil => rfl
  | @cons r s rs ss hr _ ih =>
    have hnext := hkeep r s h hr hh
    rw [sweep, sweep, hsame r s h hr hh]
    generalize work' s h = x at hnext ⊢
    obtain ⟨e | _, h₁⟩ := x
    · rfl
    · exact ih hnext

/-- Work that does nothing where a test fails can be left out there. -/
theorem sweep_filter {test : Ref → Bool} {I : Heap → Prop} {rs : List Ref}
    {work : Ref → Heap → Except Fault Unit × Heap}
    (hskip : ∀ r h, test r = false → I h → work r h = (.ok (), h))
    (hkeep : ∀ r h, I h → I (work r h).2) (hh : I h) :
    sweep work rs h = sweep work (rs.filter test) h := by
  induction rs generalizing h with
  | nil => rfl
  | cons r rs ih =>
    cases htest : test r with
    | false =>
      rw [List.filter_cons_of_neg (by simp [htest]), sweep, hskip r h htest hh, andThen_ok, ih hh]
    | true =>
      have hnext := hkeep r h hh
      rw [List.filter_cons_of_pos htest, sweep, sweep]
      generalize work r h = x at hnext ⊢
      obtain ⟨e | _, h₁⟩ := x
      · rfl
      · exact ih hnext

/-- A removal from every item of a list goes on in the mappings in the list. -/
theorem effect_remove_every (hname : Path.ListName name)
    (hfield : h.field? root name = some (.object list)) (hlist : h.get? list = some (.list items))
    (hrest : Text.trim rest.toList ≠ []) :
    (remove root (name ++ "[]" ++ "." ++ rest)).effect h =
      sweep (fun child ↦ (remove child rest).effect) (h.mappingsAmong items) h := by
  obtain ⟨step, hstep, hhop, hmore⟩ := Path.exists_decode_join (Path.stepText_every hname) hrest
  rw [Path.ofPart_every hname] at hhop
  obtain ⟨rfl, hplace⟩ : step.name = name ∧ step.place = .every := by simpa [Step.hop] using hhop
  have hitems : h.items list = items := by rw [Heap.items, hlist]
  have hchildren : (fun child ↦ (remove child (Text.trimmed rest)).effect) =
      fun child ↦ (remove child rest).effect :=
    funext fun child ↦ funext fun h₁ ↦ effect_remove_congr (Step.decode_trimmed rest) child h₁
  rw [effect_remove_of_more_every hstep hmore hplace,
    visit_of_slot? (field?_eq_slot? h root _ ▸ hfield) (checkList_of_get? step hlist), hitems, hchildren]

/-- Where steps lead to a mapping with a list, a removal from an item of the list is the removal in the
mapping that stood there, in every heap in which the containers above the list are as they were. -/
theorem effect_remove_item {holder : Ref} {i : Nat} (hsteps : ∀ text ∈ steps, Path.StepText text)
    (hleads : h.Leads root (Path.slotsUnder steps) holder) (hname : Path.ListName name)
    (hfield : h.field? holder name = some (.object list)) (hlist : h.get? list = some (.list items))
    (hrest : Text.trim rest.toList ≠ []) (hi : (Nat.toDigits 10 i).length ≤ Step.maxDigits)
    (hchild : h.MappingAt items i child) (hthins : ThinsOutside (h.above list) h h') :
    (remove root (Path.under (steps ++ [name ++ "[" ++ toString i ++ "]"]) rest)).effect h' =
      (remove child rest).effect h' := by
  have habove : h.Leads root (Path.slotsUnder steps ++ [.field name]) list := by
    rw [field?_eq_slot?] at hfield
    exact hleads.append (.through hfield (.here list))
  have hitem : h'.slot? list (.index i) = some (.object child) := by
    rw [slot?, hthins.get?_eq list (self_mem_above h list), hlist]
    exact hchild.1
  refine effect_remove_under ?_ hrest ?_ (hthins.toThins.isMapping_iff.mpr hchild.2)
  · rw [List.forall_mem_append, List.forall_mem_singleton]
    exact ⟨hsteps, Path.stepText_item hname hi⟩
  · have hslots : Path.slotsUnder steps ++ Hop.slots ⟨name, .item i⟩ =
        (Path.slotsUnder steps ++ [.field name]) ++ [.index i] := by
      simp [Hop.slots, Place.slot?]
    rw [Path.slotsUnder_concat, Path.ofPart_item hname, hslots]
    exact (habove.of_get? hthins.get?_eq).append (.through hitem (.here child))

/-- A removal in an item of a list of an acyclic heap leaves the containers above the list alone. -/
theorem thinsOutside_remove_item {i : Nat} (hacyclic : h.Acyclic)
    (hlist : h.get? list = some (.list items)) (hchild : h.MappingAt items i child)
    (hthins : ThinsOutside (h.above list) h h') :
    ThinsOutside (h.above list) h ((remove child rest).effect h').2 := by
  have hholds : h.Holds list child := ⟨_, hlist, List.mem_of_getElem? hchild.1⟩
  have hupward : h'.Upward (h.above list) := hthins.toThins.upward (upward_above h list)
  exact hthins.trans (thinsOutside_remove hupward (not_mem_above hacyclic hholds))

/-! ### The items when their turn comes -/

/-- Removes in the item at an index of a list, if it is there at the time and is a mapping. -/
def removeInItem (list : Ref) (rest : String) (i : Nat) (h : Heap) : Except Fault Unit × Heap :=
  match h.node ((h.items list)[i]?.getD .null) with
  | .mapping child _ _ => (remove child rest).effect h
  | _ => (.ok (), h)

theorem ThinsOutside.items_eq (hthins : ThinsOutside (h.above list) h h')
    (hlist : h.get? list = some (.list items)) : h'.items list = items := by
  rw [Heap.items, hthins.get?_eq list (self_mem_above h list), hlist]

theorem exists_mappingAt {i : Nat} (hkind : h.kindOf (items[i]?.getD .null) = .mapping) :
    ∃ c, h.MappingAt items i c := by
  obtain ⟨c, hvalue, hc⟩ := kindOf_eq_mapping_iff.mp hkind
  cases hitem : items[i]? with
  | none => simp [hitem] at hvalue
  | some v => exact ⟨c, by rw [hitem, ← hvalue, hitem, Option.getD_some], hc⟩

theorem removeInItem_of_mappingAt {i : Nat} (hlist : h.get? list = some (.list items))
    (hchild : h.MappingAt items i child) (hthins : ThinsOutside (h.above list) h h') :
    removeInItem list rest i h' = (remove child rest).effect h' := by
  obtain ⟨kind, entries, hget⟩ := hthins.toThins.isMapping_iff.mpr hchild.2
  simp [removeInItem, hthins.items_eq hlist, hchild.1, node, hget]

theorem removeInItem_of_ne {i : Nat} (hlist : h.get? list = some (.list items))
    (hkind : h.kindOf (items[i]?.getD .null) ≠ .mapping)
    (hthins : ThinsOutside (h.above list) h h') : removeInItem list rest i h' = (.ok (), h') := by
  rw [removeInItem, hthins.items_eq hlist]
  split
  · next hnode =>
    obtain ⟨hvalue, hget⟩ := of_node_eq_mapping hnode
    refine absurd (kindOf_eq_mapping_iff.mpr ⟨_, hvalue, ?_⟩) hkind
    exact hthins.toThins.isMapping_iff.mp ⟨_, _, hget⟩
  · rfl

/-- In an acyclic heap, a removal from every item of a list is a loop over the list as it is while the
removal is under way. -/
theorem effect_remove_every_in_turn (hacyclic : h.Acyclic) (hname : Path.ListName name)
    (hfield : h.field? root name = some (.object list)) (hlist : h.get? list = some (.list items))
    (hrest : Text.trim rest.toList ≠ []) :
    (remove root (name ++ "[]" ++ "." ++ rest)).effect h =
      sweep (removeInItem list rest) (List.range items.length) h := by
  let I := ThinsOutside (h.above list) h
  have hskip : ∀ i h₁, decide (h.kindOf (items[i]?.getD .null) = .mapping) = false → I h₁ →
      removeInItem list rest i h₁ = (.ok (), h₁) :=
    fun i h₁ hkind ↦ removeInItem_of_ne hlist (of_decide_eq_false hkind)
  have hwork : ∀ i child h₁, h.MappingAt items i child → I h₁ →
      removeInItem list rest i h₁ = (remove child rest).effect h₁ :=
    fun i child h₁ ↦ removeInItem_of_mappingAt hlist
  have hkeep : ∀ i h₁, I h₁ → I (removeInItem list rest i h₁).2 := by
    intro i h₁ hthins
    by_cases hkind : h.kindOf (items[i]?.getD .null) = .mapping
    · obtain ⟨child, hchild⟩ := exists_mappingAt hkind
      rw [hwork i child h₁ hchild hthins]
      exact thinsOutside_remove_item hacyclic hlist hchild hthins
    · rw [hskip i h₁ (decide_eq_false hkind) hthins]
      exact hthins
  rw [effect_remove_every hname hfield hlist hrest, sweep_filter hskip hkeep (.refl _ h)]
  exact (sweep_eq_sweep (forall₂_mappingIndices h items) hwork
    (fun i child h₁ ↦ thinsOutside_remove_item hacyclic hlist) (.refl _ h)).symm

end Bulk

end Heap

/-- Assumes: an acyclic heap, readable steps that lead from the root to a mapping with a list under a
name, and a path behind it that is not blank. The number of the items, too, is one that can be read,
as it is of any list that a memory holds: more than `Step.maxDigits` digits would make indices that no
path can name.

A removal from every item of the list is the sequence of the removals from the items that are
mappings, each of which starts at the root, up to the first one that fails: it has the same outcome,
with the same fault if there is one, and leaves the same heap. The list keeps its items. -/
theorem bulk_removal_in_order {w : Workplace} {root holder list : Ref} {steps : List String}
    {name rest : String} {items : List Value} (hacyclic : w.heap.Acyclic)
    (hsteps : ∀ text ∈ steps, Path.StepText text)
    (hleads : w.heap.Leads root (Path.slotsUnder steps) holder) (hname : Path.ListName name)
    (hfield : w.heap.field? holder name = some (.object list))
    (hlist : w.heap.get? list = some (.list items))
    (hlength : (Nat.toDigits 10 items.length).length ≤ Step.maxDigits)
    (hrest : Text.trim rest.toList ≠ []) :
    Scan.SameOn w.heap (Scan.remove root (Path.under (steps ++ [name ++ "[]"]) rest))
      ((w.heap.mappingIndices items).forM fun i ↦
        Scan.remove root (Path.under (steps ++ [name ++ "[" ++ toString i ++ "]"]) rest)) ∧
    (outcome (Scan.remove root (Path.under (steps ++ [name ++ "[]"]) rest) w)).2.get? list =
      some (.list items) := by
  let h := w.heap
  have hholder : h.IsMapping holder := by
    rw [Heap.field?_eq_slot?] at hfield
    exact Heap.suitsAt_field_iff.mp (Heap.suitsAt_of_slot? hfield)
  have hbehind : Text.trim (name ++ "[]" ++ "." ++ rest).toList ≠ [] := by
    rw [Path.toList_join, Text.trim_append_point]
    simp
  have hbulk : (Scan.remove root (Path.under (steps ++ [name ++ "[]"]) rest)).effect h =
      sweep (fun child ↦ (Scan.remove child rest).effect) (h.mappingsAmong items) h := by
    rw [Path.under_concat, Heap.effect_remove_under hsteps hbehind hleads hholder,
      Heap.effect_remove_every hname hfield hlist hrest]
  have hsequence : ((h.mappingIndices items).forM fun i ↦
      Scan.remove root (Path.under (steps ++ [name ++ "[" ++ toString i ++ "]"]) rest)).effect h =
      sweep (fun child ↦ (Scan.remove child rest).effect) (h.mappingsAmong items) h := by
    rw [effect_forM fun i ↦ steady_remove root _]
    refine Heap.sweep_eq_sweep (I := Heap.ThinsOutside (h.above list) h)
      (h.forall₂_mappingIndices items) (fun i child h₁ hchild hthins ↦ ?_)
      (fun i child h₁ hchild hthins ↦ ?_) (.refl _ h)
    · exact Heap.effect_remove_item hsteps hleads hname hfield hlist hrest
        (hchild.length_toDigits_le hlength) hchild hthins
    · exact Heap.thinsOutside_remove_item hacyclic hlist hchild hthins
  constructor
  · exact sameOn_of_effect (steady_remove root _) (steady_forM (fun i ↦ steady_remove root _) _)
      (hbulk.trans hsequence.symm)
  · have hthins : Heap.ThinsOutside (h.above list) h
        ((Scan.remove root (Path.under (steps ++ [name ++ "[]"]) rest)).effect h).2 := by
      rw [hbulk]
      refine Heap.thinsOutside_sweep (h.upward_above list) (fun child hchild ↦ ?_)
        fun _ _ ↦ thinsOutside_remove
      have hitems : h.items list = items := by simp only [Heap.items, h, hlist]
      exact Heap.not_mem_above hacyclic (Heap.holds_of_mem_mappingsAmong (hitems ▸ hchild))
    rw [steady_remove root _ w, hthins.get?_eq list (Heap.self_mem_above h list), hlist]

/-- Two mappings with a number between them, of which the second is also under a key of the first. The
removal in the first one takes away what would stop the removal in the second. -/
theorem bulk_removal_in_order_shared :
    let items : List Value := [.object 3, .integer 7, .object 4]
    let w : Workplace := ⟨⟨#[.mapping .plain (.ofList [(.text "d", .object 1)]),
      .mapping .ordered (.ofList [(.text "a", .object 2)]), .list items,
      .mapping .plain (.ofList [(.text "b", .object 4)]),
      .mapping .plain (.ofList [(.text "b", .integer 1)])]⟩, .new 0, #[]⟩
    w.heap.Acyclic ∧ w.heap.mappingIndices items = [0, 2] ∧
      Scan.SameOn w.heap (Scan.remove 0 "d.a[].b.b")
        (["d.a[0].b.b", "d.a[2].b.b"].forM fun path ↦ Scan.remove 0 path) ∧
      (outcome (Scan.remove 0 "d.a[].b.b" w)).2.get? 2 = some (.list items) := by
  intro items w
  have hacyclic : w.heap.Acyclic := Heap.acyclic_of_lt (by decide)
  have hindices : w.heap.mappingIndices items = [0, 2] := by decide
  have hsteps : ∀ text ∈ ["d"], Path.StepText text := by
    rw [List.forall_mem_singleton]
    exact ⟨by decide, by decide +kernel⟩
  have hslots : Path.slotsUnder ["d"] = [.field "d"] := by decide +kernel
  have hleads : w.heap.Leads 0 (Path.slotsUnder ["d"]) 1 := by
    rw [hslots]
    exact .through rfl (.here 1)
  have hstart : ∀ c ∈ "a".toList.head?, Text.isBlank c = false := by
    intro c hc
    obtain rfl : 'a' = c := Option.some.inj hc
    decide
  have hname : Path.ListName "a" := ⟨by decide, by decide, by decide, hstart⟩
  have hlength : (Nat.toDigits 10 items.length).length ≤ Step.maxDigits := by decide
  have hrest : Text.trim "b.b".toList ≠ [] := by decide +kernel
  have hevery : Path.under (["d"] ++ ["a" ++ "[]"]) "b.b" = "d.a[].b.b" := by decide +kernel
  have hfirst : Path.under (["d"] ++ ["a" ++ "[" ++ toString 0 ++ "]"]) "b.b" = "d.a[0].b.b" := by
    decide +kernel
  have hsecond : Path.under (["d"] ++ ["a" ++ "[" ++ toString 2 ++ "]"]) "b.b" = "d.a[2].b.b" := by
    decide +kernel
  obtain ⟨hsame, hkept⟩ :=
    @bulk_removal_in_order w 0 1 2 ["d"] "a" "b.b" items hacyclic hsteps hleads hname rfl rfl hlength
      hrest
  rw [hindices, hevery] at hsame
  rw [hevery] at hkept
  refine ⟨hacyclic, hindices, ?_, hkept⟩
  rw [← hfirst, ← hsecond]
  exact hsame

end DottedPath
