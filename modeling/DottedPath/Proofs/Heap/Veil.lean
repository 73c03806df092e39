import DottedPath.Proofs.Tree.Plant
import DottedPath.Proofs.Write.Success

/-!
# Containers that are not looked into

Under a veil some containers of a heap are not seen to be containers, and the others are seen without
the order of their keys (`Heap.veil`). A value with its containers under the veil is a leaf, whatever
it shares with itself, so a root that holds it still owns its tree.

A write that does not come to a hidden container is the same write under the veil: one succeeds when
the other does, and their heaps differ in the veil only (`Writes.of_veil`, `Writes.veil`). That it does
not come to one is seen in the tree of the root (`UnorderedTree.Clear`). When the veil is lifted, the
tree of the root is what it was, with the trees of the hidden containers grafted onto its leaves
(`Lays.lift`).
-/

set_option autoImplicit false
set_option relaxedAutoImplicit false

namespace DottedPath

/-- The value is one of the containers. -/
def Value.IsAmong (rs : List Ref) (v : Value) : Prop := ∃ x ∈ rs, v = .object x

/-! ### Cells without the order of keys -/

/-- The kind of a mapping whose order is forgotten. -/
def MappingKind.unordered : MappingKind → MappingKind
  | ordered => plain
  | kind => kind

namespace Cell

theorem IsNode.recast {f : MappingKind → MappingKind} {c : Cell} {t : Tree} {ts : List Tree}
    (hnode : c.IsNode t ts) : (c.recast f).IsNode t ts := by
  cases hnode with
  | list => exact .list
  | mapping hkeys => exact .mapping hkeys

/-- A cell that is a node over some trees when its keys have no order is one over other trees too: when
these are the first ones with something grafted onto their leaves, so is the whole tree. -/
theorem IsNode.exists_of_recast {c : Cell} {t : Tree} {ts us : List Tree} {g : Value → UnorderedTree}
    (hnode : (c.recast .unordered).IsNode t ts) (hlength : c.contents.length = us.length)
    (hmap : us.map Tree.unordered = ts.map (Tree.unorderedBy g)) :
    ∃ u, c.IsNode u us ∧ u.unordered = t.unorderedBy g := by
  have hc : c.IsContainer := isContainer_recast_iff.mp hnode.isContainer
  obtain ⟨u, hu⟩ := Heap.exists_isNode hc hlength
  refine ⟨u, hu, ?_⟩
  cases hu with
  | list =>
    cases hnode
    rw [Tree.unordered_list, Tree.unorderedBy_list, hmap]
  | @mapping kind entries fs hfs =>
    obtain ⟨es, rfl, rfl, hes⟩ : ∃ es, t = .mapping es ∧ ts = es.map Prod.snd ∧
        es.map Prod.fst = entries.keys := by
      cases kind <;> cases hnode <;> exact ⟨_, rfl, rfl, ‹_›⟩
    exact Tree.unordered_mapping_eq (hfs.trans hes.symm) hmap

end Cell

namespace Heap

/-! ### The veil -/

/-- The heap with some containers hidden, and the others without the order of keys. -/
def veil (h : Heap) (hidden : List Ref) : Heap :=
  ⟨h.cells.mapIdx fun r c ↦ if r ∈ hidden then .notNumber else c.recast .unordered⟩

section Veil

variable {h h' g : Heap} {hidden : List Ref} {r : Ref} {s : Slot} {v : Value}

@[simp] theorem size_veil (h : Heap) (hidden : List Ref) : (h.veil hidden).size = h.size := by
  simp [size, veil]

theorem get?_veil (h : Heap) (hidden : List Ref) (r : Ref) :
    (h.veil hidden).get? r =
      (h.get? r).map fun c ↦ if r ∈ hidden then .notNumber else c.recast .unordered := by
  simp [get?, veil]

theorem get?_veil_of_notMem (hr : r ∉ hidden) :
    (h.veil hidden).get? r = (h.get? r).map (Cell.recast .unordered) := by
  simp [get?_veil, hr]

/-- What is seen to be a container is not hidden. -/
theorem notMem_of_get?_veil {c : Cell} (hget : (h.veil hidden).get? r = some c)
    (hc : c.IsContainer) : r ∉ hidden := by
  intro hr
  rw [get?_veil] at hget
  obtain ⟨c', -, rfl⟩ := Option.map_eq_some_iff.mp hget
  rw [if_pos hr] at hc
  exact hc.elim

theorem slot?_veil (hr : r ∉ hidden) (s : Slot) : (h.veil hidden).slot? r s = h.slot? r s := by
  rw [slot?, slot?, get?_veil_of_notMem hr]
  cases h.get? r with
  | none => rfl
  | some c => exact Cell.slot?_recast c s

theorem suitsAt_veil_iff : (h.veil hidden).SuitsAt r s ↔ r ∉ hidden ∧ h.SuitsAt r s := by
  constructor
  · rintro ⟨c, hget, hc⟩
    have hr : r ∉ hidden := notMem_of_get?_veil hget hc.isContainer
    rw [get?_veil_of_notMem hr] at hget
    obtain ⟨c', hget', rfl⟩ := Option.map_eq_some_iff.mp hget
    exact ⟨hr, c', hget', Cell.suits_recast_iff.mp hc⟩
  · rintro ⟨hr, c, hget, hc⟩
    refine ⟨c.recast .unordered, ?_, Cell.suits_recast_iff.mpr hc⟩
    rw [get?_veil_of_notMem hr, hget, Option.map_some]

theorem veil_alloc_blank (hsize : h.size ∉ hidden) (s : Slot) :
    (h.alloc s.blank).veil hidden = (h.veil hidden).alloc s.blank := by
  refine ext_get? fun x ↦ ?_
  rw [get?_veil, get?_alloc, get?_alloc, size_veil]
  by_cases hx : x = h.size
  · rw [if_pos hx, if_pos hx, Option.map_some, hx, if_neg hsize, Cell.recast_blank rfl]
  · rw [if_neg hx, if_neg hx, get?_veil]

theorem takes_veil_iff (hr : r ∉ hidden) : (h.veil hidden).Takes r s ↔ h.Takes r s := by
  have hget := get?_veil_of_notMem (h := h) hr
  cases s with
  | next => rfl
  | field name =>
    simp only [Takes, isReadOnly, hget]
    cases h.get? r with
    | none => rfl
    | some c =>
      cases c with
      | mapping kind entries => cases kind <;> rfl
      | _ => rfl
  | index n =>
    simp only [Takes, items, hget]
    cases h.get? r with
    | none => rfl
    | some c => cases c <;> rfl

/-- Filling a slot of a container that is not hidden does not depend on the veil. -/
theorem fill_veil (hr : r ∉ hidden) (hfill : h.fill r s v = .ok h') :
    (h.veil hidden).fill r s v = .ok (h'.veil hidden) := by
  obtain ⟨g, hg⟩ := exists_fill_iff.mpr ((takes_veil_iff hr).mpr (exists_fill_iff.mp ⟨h', hfill⟩))
  rw [hg]
  refine congrArg _ (ext_get? fun x ↦ ?_)
  rw [get?_fill hg, get?_veil, get?_veil, get?_veil, get?_fill hfill]
  split
  · next hx =>
    subst hx
    cases h.get? x with
    | none => rfl
    | some c => simp [hr, Cell.recast_put]
  · rfl

theorem exists_fill_of_veil (hr : r ∉ hidden) (hfill : (h.veil hidden).fill r s v = .ok g) :
    ∃ h', h.fill r s v = .ok h' ∧ h'.veil hidden = g := by
  obtain ⟨h', hh'⟩ := exists_fill_iff.mpr ((takes_veil_iff hr).mp (exists_fill_iff.mp ⟨g, hfill⟩))
  rw [fill_veil hr hh'] at hfill
  exact ⟨h', hh', Except.ok.inj hfill⟩

/-! ### Writes under the veil -/

theorem notMem_of_lt {n : Nat} (hhidden : ∀ x ∈ hidden, x < n) : n ∉ hidden :=
  fun hmem ↦ Nat.lt_irrefl n (hhidden n hmem)

theorem get?_of_fill (hr : r ∉ hidden) (hfill : h.fill r s v = .ok h') :
    ∀ x ∈ hidden, h'.get? x = h.get? x := by
  intro x hx
  rw [get?_fill hfill, if_neg fun (heq : x = r) ↦ hr (heq ▸ hx)]

/-- A write under the veil is a write without it, and does not touch what is hidden. -/
theorem Writes.of_veil {slots : List Slot} (hwrites : (h.veil hidden).Writes r slots v g)
    (hr : r ∉ hidden) (hhidden : ∀ x ∈ hidden, x < h.size) :
    ∃ h', h.Writes r slots v h' ∧ h'.veil hidden = g ∧ ∀ x ∈ hidden, h'.get? x = h.get? x := by
  generalize heq : h.veil hidden = k at hwrites
  induction hwrites generalizing h with
  | fill hfill =>
    subst heq
    obtain ⟨h', hfill', hveil⟩ := exists_fill_of_veil hr hfill
    exact ⟨h', .fill hfill', hveil, get?_of_fill hr hfill'⟩
  | enter hslot hsuits _ hfill ih =>
    subst heq
    obtain ⟨hc, hsuits'⟩ := suitsAt_veil_iff.mp hsuits
    rw [slot?_veil hr] at hslot
    obtain ⟨h₁, hwrites, rfl, hsame⟩ := ih hc hhidden rfl
    obtain ⟨h', hfill', hveil⟩ := exists_fill_of_veil hr hfill
    exact ⟨h', .enter hslot hsuits' hwrites hfill', hveil,
      fun x hx ↦ (get?_of_fill hr hfill' x hx).trans (hsame x hx)⟩
  | @make _ _ _ _ _ t _ _ hslot _ hfill ih =>
    subst heq
    have hsize := notMem_of_lt hhidden
    rw [slot?_veil hr] at hslot
    rw [size_veil] at ih hfill
    obtain ⟨h₁, hwrites, rfl, hsame⟩ := ih hsize
      (fun x hx ↦ Nat.lt_of_lt_of_le (hhidden x hx) (extends_alloc h t.blank).size_le)
      (veil_alloc_blank hsize t)
    obtain ⟨h', hfill', hveil⟩ := exists_fill_of_veil hr hfill
    refine ⟨h', .make hslot hwrites hfill', hveil, fun x hx ↦ ?_⟩
    rw [get?_of_fill hr hfill' x hx, hsame x hx, (extends_alloc h t.blank).get?_eq x (hhidden x hx)]

/-- What is laid out under the veil as a tree that is no hidden leaf is not hidden. -/
theorem notMem_of_lays {t : Tree} {rs : List Ref}
    (hlays : (h.veil hidden).Lays [.object r] [t] rs)
    (hleaf : ∀ v, v.IsAmong hidden → t.unordered ≠ .leaf v) : r ∉ hidden := by
  intro hr
  rcases hlays.single with ⟨-, rfl, -⟩ | ⟨r', c, ts, ss, heq, hget, hnode, -, -⟩
  · exact hleaf (.object r) ⟨r, hr, rfl⟩ (Tree.unordered_leaf _)
  · obtain rfl := Value.object.inj heq
    exact notMem_of_get?_veil hget hnode.isContainer hr

/-- A write that comes to no hidden container is a write under the veil. -/
theorem Writes.veil {slots : List Slot} {t : Tree} {rs : List Ref} (hwrites : h.Writes r slots v h')
    (hlays : (h.veil hidden).Lays [.object r] [t] rs)
    (hclear : UnorderedTree.Clear (Value.IsAmong hidden) slots t.unordered)
    (hsuits : ∀ s ∈ slots.head?, h.SuitsAt r s) (hhidden : ∀ x ∈ hidden, x < h.size) :
    (h.veil hidden).Writes r slots v (h'.veil hidden) := by
  induction hwrites generalizing t rs with
  | fill hfill => exact .fill (fill_veil (notMem_of_lays hlays hclear.1) hfill)
  | @enter h h₁ h' r c s s' slots v hslot hsuitsc _ hfill ih =>
    have hr := notMem_of_lays hlays hclear.1
    have hslot' : (h.veil hidden).slot? r s = some (.object c) := by rw [slot?_veil hr, hslot]
    have hsuits' := suitsAt_veil_iff.mpr ⟨hr, hsuits s rfl⟩
    obtain ⟨-, rs₂, -, -, hbelow, -⟩ := hlays.at_slot hsuits'
    rw [hslot', Option.getD_some] at hbelow
    have hclear' := hclear.2
    rw [← Tree.unordered_slot?] at hclear'
    have hwrites := ih hbelow hclear' (by rintro _ ⟨⟩; exact hsuitsc) hhidden
    exact .enter hslot' (suitsAt_veil_iff.mpr ⟨notMem_of_lays hbelow hclear'.1, hsuitsc⟩) hwrites
      (fill_veil hr hfill)
  | @make h h₁ h' r s s' slots v hslot _ hfill ih =>
    have hr := notMem_of_lays hlays hclear.1
    have hsize := notMem_of_lt hhidden
    have hslot' : ((h.veil hidden).slot? r s).getD .null = .null := by rw [slot?_veil hr, hslot]
    obtain ⟨-, rs₂, -, -, hbelow, -⟩ := hlays.at_slot (suitsAt_veil_iff.mpr ⟨hr, hsuits s rfl⟩)
    have hclear' := hclear.2
    rw [← Tree.unordered_slot?, hbelow.eq_null_iff.mp hslot', Tree.unordered_null] at hclear'
    have halloc := veil_alloc_blank hsize s'
    have hwrites := ih (t := Tree.blank s') (halloc ▸ size_veil h hidden ▸ (owns_alloc_blank _ _).lays)
      (Tree.unordered_blank s' ▸ hclear'.blank) (by
        rintro _ ⟨⟩
        exact ⟨_, get?_alloc_self h _, s'.suits_blank⟩)
      fun x hx ↦ Nat.lt_of_lt_of_le (hhidden x hx) (extends_alloc h s'.blank).size_le
    rw [halloc] at hwrites
    have hfill' := fill_veil hr hfill
    rw [← size_veil h hidden] at hwrites hfill'
    exact .make hslot' hwrites hfill'

end Veil

/-! ### What is laid out under the veil -/

section Lays

variable {h h' : Heap} {hidden rs ss : List Ref} {vs : List Value} {ts : List Tree} {v : Value}
variable {t : Tree}

theorem IsLeaf.veil (hleaf : h.IsLeaf v) (hidden : List Ref) : (h.veil hidden).IsLeaf v := by
  intro r hr
  obtain ⟨c, hget, hc⟩ := hleaf r hr
  refine ⟨_, by rw [get?_veil, hget, Option.map_some], ?_⟩
  split
  · exact id
  · exact fun hc' ↦ hc (Cell.isContainer_recast_iff.mp hc')

/-- A hidden container is a leaf. -/
theorem isLeaf_of_isAmong (hv : v.IsAmong hidden) (hhidden : ∀ x ∈ hidden, x < h.size) :
    (h.veil hidden).IsLeaf v := by
  obtain ⟨x, hx, rfl⟩ := hv
  intro r hr
  obtain rfl := Option.some.inj hr
  obtain ⟨c, hget⟩ : ∃ c, h.get? x = some c := ⟨_, Array.getElem?_eq_getElem (hhidden x hx)⟩
  exact ⟨.notNumber, by rw [get?_veil, hget, Option.map_some, if_pos hx], id⟩

/-- What does not come to a hidden container is laid out under the veil as it is without it. -/
theorem Lays.veil (hlays : h.Lays vs ts rs) (hdisjoint : rs.Disjoint hidden) :
    (h.veil hidden).Lays vs ts rs := by
  induction hlays with
  | nil => exact .nil
  | leaf hleaf _ ih => exact .leaf (hleaf.veil hidden) (ih hdisjoint)
  | @node r c t ts us vs rs ss hget hnode _ _ ihcontents ih =>
    have hr : r ∉ hidden := fun hmem ↦ hdisjoint (List.mem_cons_self ..) hmem
    refine .node (c := c.recast .unordered) ?_ hnode.recast ?_ (ih fun x hx ↦ hdisjoint (by simp [hx]))
    · rw [get?_veil_of_notMem hr, hget, Option.map_some]
    · rw [Cell.contents_recast]
      exact ihcontents fun x hx ↦ hdisjoint (by simp [hx])

theorem plain_veil (hwritable : ∀ r ∈ rs, h.isReadOnly r = false) : (h.veil hidden).Plain rs := by
  intro r hr kind entries hget
  rw [get?_veil_of_notMem (notMem_of_get?_veil hget trivial)] at hget
  obtain ⟨c, hget', hc⟩ := Option.map_eq_some_iff.mp hget
  have hkind := hwritable r hr
  rw [isReadOnly, hget'] at hkind
  cases c with
  | mapping kind' entries' =>
    cases kind' with
    | plain | ordered => exact (Cell.mapping.inj hc).1.symm
    | readOnly => cases hkind
  | _ => cases hc

/-- In each slot of a tree that a value is laid out as there is a tree that a value is laid out as. -/
theorem Lays.exists_inSlot (hlays : h.Lays [v] [t] rs) (s : Slot) :
    ∃ w ss, h.Lays [w] [(t.slot? s).getD .null] ss := by
  cases hslot : t.slot? s with
  | none => exact ⟨.null, [], lays_leaf (isLeaf_of_ref?_eq_none rfl)⟩
  | some u =>
    rcases hlays.single with ⟨-, rfl, -⟩ | ⟨r, c, ts, ss, rfl, hget, hnode, -, -⟩
    · cases s <;> cases hslot
    · have hsuits : s.Suits c := by
        cases hnode <;> cases s <;> trivial
      obtain ⟨-, rs₂, -, -, hbelow, -⟩ := hlays.at_slot ⟨c, hget, hsuits⟩
      rw [hslot] at hbelow
      exact ⟨_, rs₂, hbelow⟩

/-- Containers that are not hidden yet are not in the way as leaves. -/
theorem Lays.clear (hlays : h.Lays [v] [t] rs)
    (hhidden : ∀ x ∈ hidden, ∃ c, h.get? x = some c ∧ c.IsContainer) (slots : List Slot) :
    UnorderedTree.Clear (Value.IsAmong hidden) slots t.unordered := by
  induction slots generalizing v t rs with
  | nil => trivial
  | cons s slots ih =>
    obtain ⟨w, ss, hbelow⟩ := hlays.exists_inSlot s
    refine ⟨?_, Tree.unordered_slot? t s ▸ ih hbelow⟩
    rintro _ ⟨x, hx, rfl⟩ heq
    obtain ⟨c, hget, hc⟩ := hhidden x hx
    cases t with
    | leaf u =>
      rw [Tree.unordered_leaf, UnorderedTree.leaf.injEq] at heq
      obtain ⟨rfl, hleaf⟩ := (heq ▸ hlays).of_leaf
      exact hleaf.not_isContainer hget hc
    | list _ => simp at heq
    | mapping _ => simp at heq

/-! ### Lifting the veil -/

/-- When the veil is lifted, the trees of the hidden containers are seen in the place of leaves. -/
theorem Lays.lift {g : Value → UnorderedTree} (hlays : (h.veil hidden).Lays vs ts rs)
    (hshown : ∀ x ∈ hidden, ∃ t rs, h.Lays [.object x] [t] rs ∧ t.unordered = g (.object x))
    (hother : ∀ v, ¬ v.IsAmong hidden → g v = .leaf v) :
    ∃ us ss, h.Lays vs us ss ∧ us.map Tree.unordered = ts.map (Tree.unorderedBy g) := by
  induction hlays with
  | nil => exact ⟨[], [], .nil, rfl⟩
  | @leaf v vs ts rs hleaf _ ih =>
    obtain ⟨us, ss, hrest, hmap⟩ := ih
    by_cases hv : v.IsAmong hidden
    · obtain ⟨x, hx, rfl⟩ := hv
      obtain ⟨t, rs', ht, hg⟩ := hshown x hx
      exact ⟨t :: us, rs' ++ ss, ht.cons hrest, by
        rw [List.map_cons, List.map_cons, hmap, hg, Tree.unorderedBy_leaf]⟩
    · refine ⟨.leaf v :: us, ss, .leaf ?_ hrest, by
        rw [List.map_cons, List.map_cons, hmap, Tree.unordered_leaf, Tree.unorderedBy_leaf, hother v hv]⟩
      intro r hr
      obtain ⟨c, hget, hc⟩ := hleaf r hr
      have hmem : r ∉ hidden := fun hmem ↦ hv ⟨r, hmem, Value.eq_object_of_ref? hr⟩
      rw [get?_veil_of_notMem hmem] at hget
      obtain ⟨c', hget', rfl⟩ := Option.map_eq_some_iff.mp hget
      exact ⟨c', hget', fun hc' ↦ hc (Cell.isContainer_recast_iff.mpr hc')⟩
  | @node r c t ts us vs rs ss hget hnode _ _ ihcontents ih =>
    obtain ⟨us', ss', hrest, hmap⟩ := ih
    obtain ⟨ts', rs', hcontents, hmap'⟩ := ihcontents
    have hr := notMem_of_get?_veil hget hnode.isContainer
    rw [get?_veil_of_notMem hr] at hget
    obtain ⟨c', hget', rfl⟩ := Option.map_eq_some_iff.mp hget
    rw [Cell.contents_recast] at hcontents
    obtain ⟨t', hnode', ht'⟩ := hnode.exists_of_recast hcontents.length_eq hmap'
    refine ⟨t' :: us', _, .node hget' hnode' hcontents hrest, ?_⟩
    rw [List.map_cons, List.map_cons, hmap, ht']

/-- Each container that is met is laid out as a tree itself, in some of the containers. -/
theorem Lays.exists_lays_of_mem (hlays : h.Lays vs ts rs) {x : Ref} (hx : x ∈ rs) :
    ∃ t ss, h.Lays [.object x] [t] ss ∧ ss ⊆ rs := by
  induction hlays with
  | nil => simp at hx
  | leaf _ _ ih => exact ih hx
  | @node r c t ts us vs rs ss hget hnode hcontents _ ihcontents ih =>
    rcases List.mem_cons.mp hx with rfl | hx
    · exact ⟨t, x :: rs, lays_node hget hnode hcontents,
        List.cons_subset_cons x (List.subset_append_left rs ss)⟩
    · rcases List.mem_append.mp hx with hx | hx
      · obtain ⟨u, ss', hu, hsub⟩ := ihcontents hx
        exact ⟨u, ss', hu, fun y hy ↦ List.mem_cons_of_mem r (List.mem_append_left ss (hsub hy))⟩
      · obtain ⟨u, ss', hu, hsub⟩ := ih hx
        exact ⟨u, ss', hu, fun y hy ↦ List.mem_cons_of_mem r (List.mem_append_right rs (hsub hy))⟩

theorem Lays.isAmong_or_isLeaf (hlays : h.Lays vs ts rs) (hv : v ∈ vs) :
    v.IsAmong rs ∨ h.IsLeaf v := by
  induction hlays with
  | nil => simp at hv
  | leaf hleaf _ ih =>
    rcases List.mem_cons.mp hv with rfl | hv
    · exact .inr hleaf
    · exact ih hv
  | @node r _ _ _ _ _ rs ss _ _ _ _ _ ih =>
    rcases List.mem_cons.mp hv with rfl | hv
    · exact .inl ⟨r, List.mem_cons_self .., rfl⟩
    · refine (ih hv).imp_left ?_
      rintro ⟨x, hx, heq⟩
      exact ⟨x, List.mem_cons_of_mem r (List.mem_append_right rs hx), heq⟩

/-- What stands under a veil over these containers: their trees, and other values as leaves. -/
theorem Lays.exists_shown (hlays : h.Lays vs ts rs) :
    ∃ g : Value → UnorderedTree,
      (∀ x ∈ rs, ∃ t ss, h.Lays [.object x] [t] ss ∧ ss ⊆ rs ∧ t.unordered = g (.object x)) ∧
        ∀ v, ¬ v.IsAmong rs → g v = .leaf v := by
  classical
  have hall : ∀ v : Value, v.IsAmong rs → ∃ t ss, h.Lays [v] [t] ss ∧ ss ⊆ rs := by
    rintro _ ⟨x, hx, rfl⟩
    exact hlays.exists_lays_of_mem hx
  refine ⟨fun v ↦ if hv : v.IsAmong rs then (hall v hv).choose.unordered else .leaf v,
    fun x hx ↦ ?_, fun v hv ↦ dif_neg hv⟩
  have hv : (Value.object x).IsAmong rs := ⟨x, hx, rfl⟩
  obtain ⟨ss, hlays', hsub⟩ := (hall _ hv).choose_spec
  exact ⟨_, ss, hlays', hsub, by simp only [hv, dite_true]⟩

end Lays

end Heap

end DottedPath
