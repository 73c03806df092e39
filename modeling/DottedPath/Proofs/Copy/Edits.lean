import DottedPath.OneShot
import DottedPath.Proofs.Copy.Removal
import DottedPath.Proofs.Tree.Scanner

/-!
# Edits of a copy

A single write or removal at a path of a tree copies the tree, edits the copy and copies what has
become of it. It leaves everything alone that was there, and what it gives is new (`Harmless`). The
scan in the copy comes to what the scan comes to in every other plain mapping with the same tree, so
the edit ends as an edit in place of such a mapping does: with the same tree, or with the same fault
(`Agrees`). Both are in `copying_edits_agree`.
-/

set_option autoImplicit false
set_option relaxedAutoImplicit false

namespace DottedPath

open Scan Heap

namespace OneShot

/-- Work of a scanner of its own on a tree, of which it gives the root in the end. -/
def copying (config : Config) (tree : Value) (work : Ref → Scan Unit) : Scan Value :=
  Scan.afresh config do
    let scanner ← Scan.own tree
    work scanner.root
    Scan.toTree scanner

/-- Work of a scanner that borrows a tree. -/
def inPlace (config : Config) (tree : Value) (work : Ref → Scan Unit) : Scan Unit :=
  Scan.afresh config do
    let scanner ← Scan.borrow tree
    work scanner.root

/-- An access leaves every cell that was there as it was, and what it gives is a mapping that holds
new containers alone, each of which is met once and no mapping among which is ordered or read-only. -/
structure Harmless (w : Workplace) (result : EStateM.Result Fault Workplace Value) : Prop where
  extends_ : w.heap.Extends (after result).heap
  fresh : ∀ copy ∈ gained? result, ∃ t rs, (after result).heap.Owns copy t rs ∧
    t.kind = .mapping ∧ ∀ r ∈ rs, w.heap.size ≤ r

/-- An access gives the tree that work in place leaves in a container, or both end with the same
fault but for the value that was found. -/
inductive Agrees (c : Ref) :
    EStateM.Result Fault Workplace Value → EStateM.Result Fault Workplace Unit → Prop
  | ok {copy : Value} {w w' : Workplace} {t : Tree} (hcopy : w.heap.Shows copy t)
    (hplace : w'.heap.Shows (.object c) t) : Agrees c (.ok copy w) (.ok () w')
  | error {e e' : Fault} {w w' : Workplace} (houtline : e.outline = e'.outline) :
    Agrees c (.error e w) (.error e' w')

/-- A copying access ends with a new plain tree, or with a fault of which this is the outline. -/
inductive Edits (w : Workplace) : EStateM.Result Fault Workplace Value → Except Fault Tree → Prop
  | ok {copy : Value} {w' : Workplace} {t : Tree} {rs : List Ref} (hext : w.heap.Extends w'.heap)
    (howns : w'.heap.Owns copy t rs) (hkind : t.kind = .mapping) (hfresh : ∀ r ∈ rs, w.heap.size ≤ r) :
    Edits w (.ok copy w') (.ok t)
  | error {e e' : Fault} {w' : Workplace} (hext : w.heap.Extends w'.heap) (houtline : e.outline = e') :
    Edits w (.error e w') (.error e')

/-- Work in place ends with a tree, or with a fault of which this is the outline. -/
inductive Leaves (c : Ref) : EStateM.Result Fault Workplace Unit → Except Fault Tree → Prop
  | ok {w : Workplace} {t : Tree} (hshows : w.heap.Shows (.object c) t) : Leaves c (.ok () w) (.ok t)
  | error {e e' : Fault} {w : Workplace} (houtline : e.outline = e') :
    Leaves c (.error e w) (.error e')

section Access

variable {config : Config} {w : Workplace} {tree v : Value} {t tv : Tree} {ss : List Ref}
variable {work : Ref → Scan Unit}

theorem Edits.harmless {result : EStateM.Result Fault Workplace Value} {y : Except Fault Tree}
    (hedits : Edits w result y) : Harmless w result := by
  cases hedits with
  | ok hext howns hkind hfresh =>
    refine ⟨hext, fun copy hcopy ↦ ?_⟩
    obtain rfl := Option.some.inj hcopy
    exact ⟨_, _, howns, hkind, hfresh⟩
  | error hext _ => exact ⟨hext, nofun⟩

theorem Edits.agrees {c : Ref} {result : EStateM.Result Fault Workplace Value}
    {result' : EStateM.Result Fault Workplace Unit} {y : Except Fault Tree}
    (hedits : Edits w result y) (hleaves : Leaves c result' y) : Agrees c result result' := by
  cases hedits with
  | ok _ howns _ _ =>
    cases hleaves with
    | ok hshows => exact .ok ⟨_, howns.lays⟩ hshows
  | error _ houtline =>
    cases hleaves with
    | error houtline' => exact .error (houtline.trans houtline'.symm)

/-- Of the cells that were there when a copy was made, work in the copy changes none. -/
theorem extends_of_copies {h h₁ h₂ : Heap} {copies : List Value} {ts : List Tree} {rs : List Ref}
    (hcopies : h.Copies h₁ copies ts rs) (hchange : h₁.ChangesOnly h₂ rs) : h.Extends h₂ where
  size_le := Nat.le_trans hcopies.extends_.size_le hchange.size_le
  get?_eq x hx := by
    have hold : x ∉ rs := fun hmem ↦ Nat.not_lt_of_le (hcopies.fresh x hmem) hx
    rw [hchange.get?_eq x (Nat.lt_of_lt_of_le hx hcopies.extends_.size_le) hold,
      hcopies.extends_.get?_eq x hx]

/-- A copying access comes to what its work comes to. -/
theorem edits_copying {y : Except Fault Tree} (htree : w.heap.Starts tree t)
    (hv : w.heap.Lays [v] [tv] ss) (hsteady : ∀ r, Steady (work r))
    (hwork : ComesTo (.field "") t v tv (fun r ↦ (work r).effect) y) :
    Edits w (copying config tree work w) y := by
  obtain ⟨scanner, w₁, rs, hown, hcopies⟩ :=
    exists_own (w := { w with parser := w.parser.fresh config.cacheSize }) htree
  have howns := hcopies.owns
  have hroot : w₁.heap.SuitsAt scanner.root (.field "") :=
    suitsAt_field_iff.mpr (howns.lays.isMapping.mp htree.kind)
  have hdisjoint : rs.Disjoint ss := fun x hx hxs ↦
    Nat.not_lt_of_le (hcopies.fresh x hx) (hv.lt_size hxs)
  have hyields := hwork w₁.heap scanner.root rs ss howns hroot (hv.of_extends hcopies.extends_) hdisjoint
  beta_reduce at hyields
  rw [← hsteady scanner.root w₁] at hyields
  simp only [copying, afresh, bind, EStateM.bind, hown]
  cases hrun : work scanner.root w₁ with
  | error e w₂ =>
    rw [hrun, outcome] at hyields
    cases hyields with
    | error houtline hchange => exact .error (extends_of_copies hcopies hchange) houtline
  | ok u w₂ =>
    rw [hrun, outcome] at hyields
    cases hyields with
    | @ok _ t₂ rs₂ hlays hkind _ hchange =>
      obtain ⟨copy, h', rs', htoTree, hcopies'⟩ := exists_toTree hlays
      have hext := extends_of_copies hcopies hchange
      simp only [htoTree]
      exact .ok (hext.trans hcopies'.extends_) hcopies'.owns (hkind.trans htree.kind) fun r hr ↦
        Nat.le_trans hext.size_le (hcopies'.fresh r hr)

/-- Work in place comes to the same. -/
theorem leaves_inPlace {c : Ref} {cs : List Ref} {y : Except Fault Tree}
    (hkind : t.kind = .mapping) (howns : w.heap.Owns (.object c) t cs)
    (hv : w.heap.Lays [v] [tv] ss) (hdisjoint : cs.Disjoint ss) (hsteady : ∀ r, Steady (work r))
    (hwork : ComesTo (.field "") t v tv (fun r ↦ (work r).effect) y) :
    Leaves c (inPlace config (.object c) work w) y := by
  have hroot := howns.lays.isMapping.mp hkind
  have hyields := hwork w.heap c cs ss howns (suitsAt_field_iff.mpr hroot) hv hdisjoint
  beta_reduce at hyields
  rw [← hsteady c { w with parser := w.parser.fresh config.cacheSize }] at hyields
  obtain ⟨kind, entries, hget⟩ := hroot
  have hnode : w.heap.node (.object c) = .mapping c kind entries := by simp [node, hget]
  simp only [inPlace, afresh, bind, EStateM.bind, borrow, inspect, hnode]
  cases hrun : work c { w with parser := w.parser.fresh config.cacheSize } with
  | error e w₂ =>
    rw [hrun, outcome] at hyields
    cases hyields with
    | error houtline _ => exact .error houtline
  | ok u w₂ =>
    rw [hrun, outcome] at hyields
    cases hyields with
    | ok hlays _ _ _ => exact .ok ⟨_, hlays⟩

end Access

end OneShot

/-- Assumes: data that are null or a mapping, and a value, both of which the heap lays out as trees.
A copying write and a copying removal leave everything as it was and give new containers alone. They
end as the write and the removal do in place of any plain mapping that is laid out as the same tree
without sharing, for the write apart from the value: with the same tree or with the same fault. -/
theorem copying_edits_agree (config : Config) (path : String) {w : Workplace} {tree v : Value}
    {t tv : Tree} {ss : List Ref} (htree : w.heap.Starts tree t) (hv : w.heap.Lays [v] [tv] ss) :
    OneShot.Harmless w (OneShot.withValue config tree path v w) ∧
      OneShot.Harmless w (OneShot.withoutValue tree path w) ∧
      ∀ c cs, w.heap.Owns (.object c) t cs →
        (cs.Disjoint ss → OneShot.Agrees c (OneShot.withValue config tree path v w)
          (OneShot.inPlace config (.object c) (fun r ↦ set config.maxIndex r path v) w)) ∧
        OneShot.Agrees c (OneShot.withoutValue tree path w)
          (OneShot.inPlace {} (.object c) (fun r ↦ remove r path) w) := by
  obtain ⟨y, hset⟩ := settles_set config.maxIndex path v tv t
  obtain ⟨z, hremove⟩ := settles_remove path t .null .null
  have hnull : w.heap.Lays [.null] [.null] [] := lays_leaf (isLeaf_of_ref?_eq_none rfl)
  have hsteady := fun r ↦ steady_set config.maxIndex r path v
  have hsteady' := fun r ↦ steady_remove r path
  have hwritten : OneShot.Edits w (OneShot.withValue config tree path v w) y :=
    OneShot.edits_copying htree hv hsteady hset
  have hpruned : OneShot.Edits w (OneShot.withoutValue tree path w) z :=
    OneShot.edits_copying htree hnull hsteady' hremove
  refine ⟨hwritten.harmless, hpruned.harmless, fun c cs howns ↦ ⟨fun hdisjoint ↦ ?_, ?_⟩⟩
  · exact hwritten.agrees (OneShot.leaves_inPlace htree.kind howns hv hdisjoint hsteady hset)
  · exact hpruned.agrees (OneShot.leaves_inPlace htree.kind howns hnull (List.disjoint_nil_right cs)
      hsteady' hremove)

/-- An ordered mapping is written behind the end of a list, and the place there is then removed: of a
tree that is plain and without sharing, the copies agree with the tree itself. -/
theorem copying_edits_agree_ordered :
    let w : Workplace := ⟨⟨#[.list [.integer 3], .mapping .plain (.ofList [(.text "a", .object 0)]),
      .mapping .ordered (.ofList [(.text "k", .integer 1)])]⟩, .new 0, #[]⟩
    let t : Tree := .mapping [(.text "a", .list [.leaf (.integer 3)])]
    w.heap.Starts (.object 1) t ∧ w.heap.Owns (.object 1) t [1, 0] ∧
      OneShot.Harmless w (OneShot.withValue {} (.object 1) "a[2]" (.object 2) w) ∧
      OneShot.Harmless w (OneShot.withoutValue (.object 1) "a[2]" w) ∧
      OneShot.Agrees 1 (OneShot.withValue {} (.object 1) "a[2]" (.object 2) w)
        (OneShot.inPlace {} (.object 1) (fun r ↦ set none r "a[2]" (.object 2)) w) ∧
      OneShot.Agrees 1 (OneShot.withoutValue (.object 1) "a[2]" w)
        (OneShot.inPlace {} (.object 1) (fun r ↦ remove r "a[2]") w) := by
  intro w t
  have hlist : w.heap.Lays [.object 0] [.list [.leaf (.integer 3)]] [0] :=
    lays_node rfl .list (lays_leaf (isLeaf_of_ref?_eq_none rfl))
  have hlays : w.heap.Lays [.object 1] [t] [1, 0] := lays_node rfl (.mapping rfl) hlist
  have htree : w.heap.Starts (.object 1) t := .mapping ⟨_, _, rfl⟩ ⟨_, hlays⟩
  have hv : w.heap.Lays [.object 2] [.mapping [(.text "k", .leaf (.integer 1))]] [2] :=
    lays_node rfl (.mapping rfl) (lays_leaf (isLeaf_of_ref?_eq_none rfl))
  have howns : w.heap.Owns (.object 1) t [1, 0] := by
    refine ⟨hlays, by decide, fun r hr kind entries hget ↦ ?_⟩
    rcases List.mem_pair.mp hr with rfl | rfl <;> cases hget
    rfl
  obtain ⟨hwritten, hpruned, hagree⟩ := copying_edits_agree {} "a[2]" htree hv
  obtain ⟨hset, hremove⟩ := hagree 1 [1, 0] howns
  exact ⟨htree, howns, hwritten, hpruned, hset (by simp), hremove⟩

end DottedPath
