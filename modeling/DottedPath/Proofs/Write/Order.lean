import DottedPath.Proofs.Heap.Veil
import DottedPath.Proofs.Tree.Run
import DottedPath.Proofs.Write.Sequence

/-!
# Writes in any order

Writes at paths that lead to different places do not depend on one another, although they make and
pad the same containers on their way: whatever their order, they all succeed or not, and leave the same
tree but for the order of keys. Of the writes at one path only the last one counts. This is
`writes_in_any_order`.

The values that are written go under a veil, so that the root keeps owning its tree, in which they are
leaves. A write under the veil plants such a leaf (`Veiled.set`), and writes one after the other plant
one leaf after the other (`Veiled.setAll`), in which no value is ever in the way of a write that is to
come. So what is true of sequences of plantings is true of these writes, and of the trees that are seen
when the veil is lifted.
-/

set_option autoImplicit false
set_option relaxedAutoImplicit false

namespace DottedPath

open Scan

namespace Scan

/-- Stores the values at their paths, one after the other. -/
def setAll (limit : Option Nat) (root : Ref) (writes : List (String × Value)) : Scan Unit :=
  writes.forM fun e ↦ set limit root e.1 e.2

/-- Both pieces of work end without a fault or neither does, and if they do, they leave the same tree
at the value, but for the order of keys. -/
def Alike (w : Workplace) (v : Value) (work work' : Scan Unit) : Prop :=
  ((∃ w₁, work w = .ok () w₁) ↔ ∃ w₂, work' w = .ok () w₂) ∧
    ∀ w₁ w₂, work w = .ok () w₁ → work' w = .ok () w₂ →
      ∃ t₁ t₂, w₁.heap.Shows v t₁ ∧ w₂.heap.Shows v t₂ ∧ t₁.unordered = t₂.unordered

theorem steady_setAll (limit : Option Nat) (root : Ref) (writes : List (String × Value)) :
    Steady (setAll limit root writes) := by
  induction writes with
  | nil => exact steady_pure ()
  | cons e writes ih => exact (steady_set limit root e.1 e.2).bind fun _ ↦ ih

theorem effect_setAll_cons (limit : Option Nat) (root : Ref) (e : String × Value)
    (writes : List (String × Value)) (h : Heap) :
    (setAll limit root (e :: writes)).effect h =
      andThen ((set limit root e.1 e.2).effect h) fun _ h ↦ (setAll limit root writes).effect h :=
  effect_bind (fun _ ↦ steady_setAll limit root writes) h

end Scan

/-! ### Writes of hidden values -/

namespace Heap

open UnorderedTree

/-- A heap some time after the first one: what is hidden is as it was, and under the veil the root is
a mapping that owns the tree. -/
structure Veiled (first : Heap) (root : Ref) (hidden : List Ref) (h : Heap) (u : UnorderedTree) :
    Prop where
  keeps : ∃ t, (h.veil hidden).Keeps root t ∧ t.unordered = u
  lt_size : ∀ x ∈ hidden, x < h.size
  get?_eq : ∀ x ∈ hidden, h.get? x = first.get? x
  keepsLeaves : first.KeepsLeaves h

/-- How work at a root ends that may be refused from the start, and how the same work in a tree
does. -/
inductive Plants (first : Heap) (root : Ref) (hidden : List Ref) (admitted : Prop) :
    Except Fault Unit × Heap → Option UnorderedTree → Prop
  | ok {h : Heap} {u : UnorderedTree} (hadmitted : admitted)
    (hveiled : Veiled first root hidden h u) : Plants first root hidden admitted (.ok (), h) (some u)
  | refused {fault : Fault} {h : Heap} {y : Option UnorderedTree} (hrefused : ¬ admitted) :
    Plants first root hidden admitted (.error fault, h) y
  | error {fault : Fault} {h : Heap} : Plants first root hidden admitted (.error fault, h) none

section Veiled

variable {first h h' : Heap} {root : Ref} {hidden : List Ref} {u u' : UnorderedTree}
variable {limit : Option Nat} {path : String} {v : Value} {writes : List (String × Value)}

theorem Veiled.isMapping (hveiled : Veiled first root hidden h u) :
    root ∉ hidden ∧ h.IsMapping root := by
  obtain ⟨t, hkeeps, -⟩ := hveiled.keeps
  obtain ⟨hroot, hsuits⟩ := suitsAt_veil_iff.mp (@suitsAt_field_iff _ _ "" |>.mpr hkeeps.isMapping)
  exact ⟨hroot, suitsAt_field_iff.mp hsuits⟩

theorem Veiled.isLeaf (hveiled : Veiled first root hidden h u)
    (hv : v.IsAmong hidden ∨ first.IsLeaf v) : (h.veil hidden).IsLeaf v := by
  rcases hv with hv | hleaf
  · exact isLeaf_of_isAmong hv hveiled.lt_size
  · exact (hleaf.of_keepsLeaves hveiled.keepsLeaves).veil hidden

/-- A write under the veil plants a leaf. -/
theorem Veiled.exists_plant (hveiled : Veiled first root hidden h u)
    (hv : (h.veil hidden).IsLeaf v) (hreadable : Path.Readable path)
    (hsmall : ∀ s ∈ Path.slots path, s.Small) :
    (∀ g, (h.veil hidden).Writes root (Path.slots path) v g →
      ∃ u', plant (.leaf v) (Path.slots path) u = some u') ∧
    ∀ u', plant (.leaf v) (Path.slots path) u = some u' →
      ∃ h', h.Writes root (Path.slots path) v h' ∧ Veiled first root hidden h' u' := by
  obtain ⟨t, ⟨hroot, rs, howns⟩, rfl⟩ := hveiled.keeps
  have hvowns : (h.veil hidden).Owns v (.leaf v) [] := ⟨lays_leaf hv, List.nodup_nil, by simp [Heap.Plain]⟩
  have hstores : (h.veil hidden).Stores root rs [] ((set none root path v).effect (h.veil hidden))
      (Tree.set none (.leaf v) (Path.hops path) t) :=
    stores_set hreadable hsmall howns hroot hvowns (by simp)
  have hkind : t.kind = .mapping := howns.lays.isMapping.mpr hroot
  have hplant := Tree.toOption_set (Path.hops_ne_nil path) hkind (.leaf v)
  rw [Tree.unordered_leaf] at hplant
  rw [Path.slots, ← hplant]
  refine ⟨fun g hwrites ↦ ?_, fun u' hu' ↦ ?_⟩
  · rw [set_of_writes hreadable (Path.allowed_none path) hwrites] at hstores
    generalize Tree.set none (.leaf v) (Path.hops path) t = y at hstores
    cases hstores with
    | ok _ _ _ => exact ⟨_, rfl⟩
  · cases hset : Tree.set none (.leaf v) (Path.hops path) t with
    | error fault =>
      rw [hset] at hu'
      cases hu'
    | ok t' =>
      rw [hset] at hu' hstores
      obtain rfl := Option.some.inj hu'
      generalize heffect : (set none root path v).effect (h.veil hidden) = x at hstores
      cases hstores with
      | ok howns' _ _ =>
        obtain ⟨h', hwrites, rfl, hsame⟩ :=
          (writes_of_set heffect).of_veil hveiled.isMapping.1 hveiled.lt_size
        refine ⟨h', hwrites, ⟨t', .of_owns howns' ((Tree.kind_set hset).trans hkind), rfl⟩,
          fun x hx ↦ Nat.lt_of_lt_of_le (hveiled.lt_size x hx) hwrites.size_le,
          fun x hx ↦ (hsame x hx).trans (hveiled.get?_eq x hx),
          hveiled.keepsLeaves.trans hwrites.keepsLeaves⟩

/-- A write of a hidden value, or of a leaf, plants a leaf, unless the path is refused. -/
theorem Veiled.set (hveiled : Veiled first root hidden h u)
    (hv : v.IsAmong hidden ∨ first.IsLeaf v) (hsmall : ∀ s ∈ Path.slots path, s.Small)
    (hclear : Clear (Value.IsAmong hidden) (Path.slots path) u) :
    Plants first root hidden (Path.Readable path ∧ Path.Allowed limit path)
      ((Scan.set limit root path v).effect h) (plant (.leaf v) (Path.slots path) u) := by
  by_cases hadmitted : Path.Readable path ∧ Path.Allowed limit path
  · obtain ⟨hplant, hwrite⟩ := hveiled.exists_plant (hveiled.isLeaf hv) hadmitted.1 hsmall
    cases hu : plant (.leaf v) (Path.slots path) u with
    | some u' =>
      obtain ⟨h', hwrites, hveiled'⟩ := hwrite u' hu
      rw [set_of_writes hadmitted.1 hadmitted.2 hwrites]
      exact .ok hadmitted hveiled'
    | none =>
      generalize heffect : (Scan.set limit root path v).effect h = x
      obtain ⟨fault | _, h'⟩ := x
      · exact .error
      · -- Such a write would be one under the veil, and plant something.
        obtain ⟨t, ⟨-, rs, howns⟩, rfl⟩ := hveiled.keeps
        have hwrites := (writes_of_set heffect).veil howns.lays hclear
          (suitsAt_slots hveiled.isMapping.2 path) hveiled.lt_size
        obtain ⟨u', hu'⟩ := hplant _ hwrites
        rw [hu] at hu'
        cases hu'
  · generalize heffect : (Scan.set limit root path v).effect h = x
    obtain ⟨fault | _, h'⟩ := x
    · exact .refused hadmitted
    · obtain ⟨hreadable, hallowed, -⟩ := effect_set_eq_ok_iff.mp heffect
      exact absurd ⟨hreadable, hallowed⟩ hadmitted

/-- Writes one after the other plant one leaf after the other, unless a path is refused. -/
theorem Veiled.setAll (hveiled : Veiled first root hidden h u) (hwrites : Independent writes)
    (hvalues : ∀ e ∈ writes, e.2.IsAmong hidden ∨ first.IsLeaf e.2)
    (hclear : ∀ e ∈ writes, Clear (Value.IsAmong hidden) (Path.slots e.1) u) :
    Plants first root hidden (∀ e ∈ writes, Path.Readable e.1 ∧ Path.Allowed limit e.1)
      ((Scan.setAll limit root writes).effect h) (plantAll writes u) := by
  induction writes generalizing h u with
  | nil => exact .ok nofun hveiled
  | cons e writes ih =>
    have hmem := List.mem_cons_self (a := e) (l := writes)
    have hnext := hwrites.next_notMem hmem
    have hstep := @Veiled.set _ _ _ _ _ limit _ _ hveiled (hvalues e hmem) (hwrites.small e hmem)
      (hclear e hmem)
    rw [effect_setAll_cons, plantAll]
    generalize (Scan.set limit root e.1 e.2).effect h = x at hstep
    generalize hy : plant (.leaf e.2) (Path.slots e.1) u = y at hstep
    cases hstep with
    | refused hrefused => exact .refused fun hall ↦ hrefused (hall e hmem)
    | error => exact .error
    | @ok h₁ u₁ hadmitted hveiled₁ =>
      -- What has been planted is at the end of the way of this write, and on no other's.
      have hclear₁ : ∀ f ∈ writes, Clear (Value.IsAmong hidden) (Path.slots f.1) u₁ := by
        intro f hf
        rcases hwrites.pairs e hmem f (List.mem_cons_of_mem e hf) with hsame | hpart
        · rw [← Path.slots_of_hops_eq hsame.1]
          exact clear_of_plant hnext hy
        · exact (hclear f (List.mem_cons_of_mem e hf)).of_plant hpart.slots hnext hy
      have hrest := ih hveiled₁ hwrites.tail (fun f hf ↦ hvalues f (List.mem_cons_of_mem e hf)) hclear₁
      rw [andThen_ok, Option.bind_some]
      generalize (Scan.setAll limit root writes).effect h₁ = x at hrest
      generalize plantAll writes u₁ = y at hrest
      cases hrest with
      | ok hall hveiled' => exact .ok (List.forall_mem_cons.mpr ⟨hadmitted, hall⟩) hveiled'
      | refused hrefused => exact .refused fun hall ↦ hrefused (List.forall_mem_cons.mp hall).2
      | error => exact .error

/-- Assumes: a root mapping that is laid out as a tree in containers that are all different and none
of which is read-only, and some of the values that are laid out in other containers. Independent writes
of these values plant them. -/
theorem plants_of_lays {t : Tree} {rs : List Ref} {vs : List Value} {ts : List Tree}
    (hroot : h.IsMapping root) (hlays : h.Lays [.object root] [t] rs) (hnodup : rs.Nodup)
    (hwritable : ∀ r ∈ rs, h.isReadOnly r = false) (hvalues : h.Lays vs ts hidden)
    (hdisjoint : rs.Disjoint hidden) (hwrites : Independent writes)
    (hsub : writes.map Prod.snd ⊆ vs) :
    Plants h root hidden (∀ e ∈ writes, Path.Readable e.1 ∧ Path.Allowed limit e.1)
      ((Scan.setAll limit root writes).effect h) (plantAll writes t.unordered) := by
  have hlays' := hlays.veil hdisjoint
  have hroot' := hlays'.isMapping.mp (hlays.isMapping.mpr hroot)
  have hveiled : Veiled h root hidden h t.unordered :=
    ⟨⟨t, ⟨hroot', rs, hlays', hnodup, plain_veil hwritable⟩, rfl⟩, fun x ↦ hvalues.lt_size,
      fun _ _ ↦ rfl, fun _ c hget hc ↦ ⟨c, hget, hc⟩⟩
  -- Nothing hidden is in the tree yet, so any of the writes may come first.
  exact hveiled.setAll hwrites
    (fun e he ↦ hvalues.isAmong_or_isLeaf (hsub (List.mem_map_of_mem he)))
    fun e _ ↦ hlays.clear hvalues.isContainer _

/-- The tree that is seen when the veil is lifted. -/
theorem Veiled.exists_shows {g : Value → UnorderedTree} (hveiled : Veiled first root hidden h u)
    (hshown : ∀ x ∈ hidden, ∃ t ss, first.Lays [.object x] [t] ss ∧ ss ⊆ hidden ∧
      t.unordered = g (.object x))
    (hother : ∀ v, ¬ v.IsAmong hidden → g v = .leaf v) :
    ∃ t, h.Shows (.object root) t ∧ t.unordered = u.graft g := by
  obtain ⟨t, ⟨-, rs, howns⟩, rfl⟩ := hveiled.keeps
  have hshown' : ∀ x ∈ hidden, ∃ t ss, h.Lays [.object x] [t] ss ∧ t.unordered = g (.object x) := by
    intro x hx
    obtain ⟨tx, ss, hx', hsub, hg⟩ := hshown x hx
    exact ⟨tx, ss, hx'.frame (fun y hy ↦ hveiled.get?_eq y (hsub hy)) hveiled.keepsLeaves, hg⟩
  obtain ⟨us, ss, hlays, hmap⟩ := howns.lays.lift hshown' hother
  rw [List.map_singleton] at hmap
  obtain ⟨t', rfl, ht'⟩ := List.map_eq_singleton_iff.mp hmap
  exact ⟨t', ⟨ss, hlays⟩, ht'.trans (Tree.unorderedBy_eq_graft g t)⟩

theorem Plants.exists_ok_iff {admitted : Prop} {x : Except Fault Unit × Heap}
    {y : Option UnorderedTree} (hplants : Plants first root hidden admitted x y) :
    (∃ h', x = (.ok (), h')) ↔ admitted ∧ ∃ u, y = some u := by
  cases hplants with
  | ok hadmitted _ => exact ⟨fun _ ↦ ⟨hadmitted, _, rfl⟩, fun _ ↦ ⟨_, rfl⟩⟩
  | refused hrefused => exact ⟨nofun, fun hboth ↦ absurd hboth.1 hrefused⟩
  | error => exact ⟨nofun, nofun⟩

theorem Plants.veiled {admitted : Prop} {y : Option UnorderedTree}
    (hplants : Plants first root hidden admitted (.ok (), h) y) :
    ∃ u, y = some u ∧ Veiled first root hidden h u := by
  cases hplants with
  | ok _ hveiled => exact ⟨_, rfl, hveiled⟩

end Veiled

end Heap

namespace Scan

/-- Pieces of work that plant the same leave the same tree. -/
theorem alike_of_plants {w : Workplace} {root : Ref} {vs : List Value} {ts : List Tree}
    {hidden : List Ref} {admitted admitted' : Prop} {y : Option UnorderedTree}
    {work work' : Scan Unit} (hvalues : w.heap.Lays vs ts hidden) (hwork : Steady work)
    (hwork' : Steady work') (hiff : admitted ↔ admitted')
    (hplants : Heap.Plants w.heap root hidden admitted (work.effect w.heap) y)
    (hplants' : Heap.Plants w.heap root hidden admitted' (work'.effect w.heap) y) :
    Alike w (.object root) work work' := by
  refine ⟨?_, fun w₁ w₂ hrun hrun' ↦ ?_⟩
  · rw [hwork.exists_ok_iff, hwork'.exists_ok_iff, hplants.exists_ok_iff, hplants'.exists_ok_iff, hiff]
  · rw [hwork.effect_of_ok hrun] at hplants
    rw [hwork'.effect_of_ok hrun'] at hplants'
    obtain ⟨u, rfl, hveiled⟩ := hplants.veiled
    obtain ⟨u', hu', hveiled'⟩ := hplants'.veiled
    obtain rfl := Option.some.inj hu'
    obtain ⟨g, hshown, hother⟩ := hvalues.exists_shown
    obtain ⟨t₁, ht₁, heq₁⟩ := hveiled.exists_shows hshown hother
    obtain ⟨t₂, ht₂, heq₂⟩ := hveiled'.exists_shows hshown hother
    exact ⟨t₁, t₂, ht₁, ht₂, heq₁.trans heq₂.symm⟩

end Scan

theorem Path.Same.admitted {limit : Option Nat} {p q : String} (hsame : Same p q)
    (hq : Readable q ∧ Allowed limit q) : Readable p ∧ Allowed limit p :=
  ⟨hsame.2.mpr hq.1, by
    rw [Allowed, hsame.1]
    exact hq.2⟩

/-- Assumes: a root mapping that is laid out as a tree in containers that are all different and none
of which is read-only, and independent writes of values that are laid out in other containers. In
every order of the writes in which those at the same hops come one after the other as before, all of
them succeed or not as in the first order, and if they do, the root holds the same tree but for the
order of keys. The same is true when every write is left out that a later one at the same hops
follows. -/
theorem writes_in_any_order {limit : Option Nat} {root : Ref} {w : Workplace} {t : Tree}
    {vs : List Tree} {rs ss : List Ref} {writes : List (String × Value)}
    (hroot : w.heap.IsMapping root) (hlays : w.heap.Lays [.object root] [t] rs) (hnodup : rs.Nodup)
    (hwritable : ∀ r ∈ rs, w.heap.isReadOnly r = false)
    (hvalues : w.heap.Lays (writes.map Prod.snd) vs ss) (hdisjoint : rs.Disjoint ss)
    (hwrites : Independent writes) :
    (∀ others, Reorders writes others →
      Scan.Alike w (.object root) (setAll limit root writes) (setAll limit root others)) ∧
    Scan.Alike w (.object root) (setAll limit root writes) (setAll limit root (lastWrites writes)) := by
  have hplants : ∀ others, others ⊆ writes → Heap.Plants w.heap root ss
      (∀ e ∈ others, Path.Readable e.1 ∧ Path.Allowed limit e.1)
      ((setAll limit root others).effect w.heap) (UnorderedTree.plantAll others t.unordered) :=
    fun others hsub ↦ Heap.plants_of_lays hroot hlays hnodup hwritable hvalues hdisjoint
      (hwrites.mono hsub) (List.map_subset _ hsub)
  have hfirst := hplants writes (List.Subset.refl writes)
  refine ⟨fun others horder ↦ ?_, ?_⟩
  · have hothers := hplants others horder.perm.symm.subset
    rw [← UnorderedTree.plantAll_of_reorders hwrites horder] at hothers
    exact Scan.alike_of_plants hvalues (steady_setAll limit root _) (steady_setAll limit root _)
      (forall_congr' fun e ↦ by rw [horder.perm.mem_iff]) hfirst hothers
  · have hlast := hplants _ (lastWrites_subset writes)
    rw [UnorderedTree.plantAll_lastWrites hwrites] at hlast
    exact Scan.alike_of_plants hvalues (steady_setAll limit root _) (steady_setAll limit root _)
      (hwrites.forall_lastWrites_iff fun _ _ ↦ Path.Same.admitted).symm hfirst hlast

/-- A list is padded for a mapping at its second place, and its first place is filled before or
after. The mapping gets a value twice, of which the first one is a list that nothing else refers to. -/
theorem writes_in_any_order_padded :
    let w : Workplace := ⟨⟨#[.mapping .ordered (.ofList [(.text "l", .object 1)]), .list [],
      .list [.integer 2]]⟩, .new 0, #[]⟩
    let first : String × Value := ("l[1].b", .object 2)
    let last : String × Value := ("l[1].b", .integer 7)
    let other : String × Value := ("l[0]", .integer 5)
    w.heap.IsMapping 0 ∧ Independent [first, other, last] ∧
      Reorders [first, other, last] [other, first, last] ∧
      lastWrites [first, other, last] = [other, last] ∧
      (∃ w₁, setAll none 0 [first, other, last] w = .ok () w₁) ∧
      Scan.Alike w (.object 0) (setAll none 0 [first, other, last])
        (setAll none 0 [other, first, last]) ∧
      Scan.Alike w (.object 0) (setAll none 0 [first, other, last]) (setAll none 0 [other, last]) := by
  intro w first last other
  have hdeep : Path.hops "l[1].b" = [⟨"l", .item 1⟩, ⟨"b", .key⟩] := by decide +kernel
  have hflat : Path.hops "l[0]" = [⟨"l", .item 0⟩] := by decide +kernel
  have hroot : w.heap.IsMapping 0 := ⟨_, _, rfl⟩
  have hlays : w.heap.Lays [.object 0] [.mapping [(.text "l", .list [])]] [0, 1] :=
    Heap.lays_node rfl (.mapping rfl) (Heap.lays_node rfl .list .nil)
  have hvalues : w.heap.Lays ([first, other, last].map Prod.snd)
      [.list [.leaf (.integer 2)], .leaf (.integer 5), .leaf (.integer 7)] [2] := by
    have hinteger : ∀ i, w.heap.IsLeaf (.integer i) := fun i ↦ Heap.isLeaf_of_ref?_eq_none rfl
    exact .node rfl .list (.leaf (hinteger 2) .nil) (.leaf (hinteger 5) (.leaf (hinteger 7) .nil))
  have hwrites : Independent [first, other, last] := by
    have hpart : Path.Part "l[1].b" "l[0]" :=
      ⟨[], _, _, _, _, hdeep, hflat, .inr ⟨1, 0, rfl, rfl, by decide⟩⟩
    refine ⟨by decide +kernel, by decide +kernel, ?_⟩
    simp [first, other, last, hpart, hpart.symm, Path.Same.refl]
  have horder : Reorders [first, other, last] [other, first, last] :=
    .swap (by simp [first, other, hdeep, hflat]) [last]
  have hlast : lastWrites [first, other, last] = [other, last] := by
    simp [lastWrites, first, other, last, hdeep, hflat]
  have hdisjoint : [0, 1].Disjoint [2] := by simp
  obtain ⟨hall, hdropped⟩ := @writes_in_any_order none 0 w _ _ _ _ _ hroot hlays (by decide)
    (by decide) hvalues hdisjoint hwrites
  rw [hlast] at hdropped
  refine ⟨hroot, hwrites, horder, hlast, ?_, hall _ horder, hdropped⟩
  have hplants := @Heap.plants_of_lays _ _ _ none _ _ _ _ _ hroot hlays (by decide) (by decide) hvalues
    hdisjoint hwrites (List.Subset.refl _)
  refine (steady_setAll none 0 _).exists_ok_iff.mpr (hplants.exists_ok_iff.mpr ⟨fun e he ↦ ?_, ?_⟩)
  · have hreadable : ∀ e ∈ [first, other, last], Path.Readable e.1 := by decide +kernel
    exact ⟨hreadable e he, Path.allowed_none e.1⟩
  · simp only [UnorderedTree.plantAll, first, other, last, Path.slots, hdeep, hflat]
    exact ⟨_, rfl⟩

end DottedPath
