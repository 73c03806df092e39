import DottedPath.Proofs.Scan.Write
import DottedPath.Proofs.Tree.Owns

/-!
# A write is a write in a tree

A mapping that owns a tree owns, after a write, the tree with the written tree stored at the path;
and a write that fails does so where and as the write in the tree fails, and has changed nothing that
was there (`stores_set`). The value that is written has to own its tree, apart from the mapping, and
its containers become containers of the mapping.
-/

set_option autoImplicit false
set_option relaxedAutoImplicit false

namespace DottedPath

open Scan

/-- A list can be padded up to the slot, however short it is. -/
def Slot.Small (s : Slot) : Prop := ∀ n, s = .index n → n < Heap.tooMuchPadding

instance (s : Slot) : Decidable s.Small :=
  match s with
  | .index n => decidable_of_iff (n < Heap.tooMuchPadding) (by simp [Slot.Small])
  | .field _ | .next => .isTrue nofun

namespace Heap

/-- How a write in a container with the containers `rs` of a value with the containers `ss` ends, and
how the same write in a tree does. -/
inductive Stores (h : Heap) (r : Ref) (rs ss : List Ref) :
    Except Fault Unit × Heap → Except TreeFault Tree → Prop
  | ok {h' : Heap} {t : Tree} {rs' : List Ref} (howns : h'.Owns (.object r) t rs')
    (hfrom : ∀ x ∈ rs', x ∈ rs ∨ x ∈ ss ∨ h.size ≤ x) (hchange : h.ChangesOnly h' rs) :
    Stores h r rs ss (.ok (), h') (.ok t)
  | error {h' : Heap} {fault : Fault} {fault' : TreeFault} (htells : h'.Tells fault fault')
    (hext : h.Extends h') : Stores h r rs ss (.error fault, h') (.error fault')

theorem isReadOnly_of_plain {h : Heap} {r : Ref} (hplain : h.Plain [r]) :
    h.isReadOnly r = false := by
  unfold isReadOnly
  split
  · next hget => exact absurd (hplain r (List.mem_singleton_self r) _ _ hget) nofun
  · rfl

theorem takes_of_plain {h : Heap} {r : Ref} {s : Slot} (hplain : h.Plain [r]) (hsmall : s.Small) :
    h.Takes r s := by
  cases s with
  | field name => exact isReadOnly_of_plain hplain
  | index n => exact Nat.lt_of_le_of_lt (Nat.sub_le _ _) (hsmall n rfl)
  | next => trivial

theorem exists_fill {h : Heap} {r : Ref} {s : Slot} (hplain : h.Plain [r]) (hsmall : s.Small)
    (v : Value) : ∃ h', h.fill r s v = .ok h' :=
  exists_fill_iff.mpr (takes_of_plain hplain hsmall)

section Stores

variable {h : Heap} {r : Ref} {t tv : Tree} {v : Value} {rs ss : List Ref} {s : Slot}

theorem Owns.plain_root (howns : h.Owns (.object r) t rs) (hsuits : h.SuitsAt r s) :
    h.Plain [r] := by
  obtain ⟨rs₁, rs₂, rs₃, rfl, -⟩ := howns.at_slot hsuits
  intro x hx
  obtain rfl := List.mem_singleton.mp hx
  exact howns.plain x (List.mem_cons_self ..)

/-- A slot of an owner holds an owner. When work on the latter, or on something new, has left a value
that owns a tree, and this value is put into the slot, the first one owns its tree with this tree in
the slot. -/
theorem Owns.stores_at (howns : h.Owns (.object r) t rs) (hsuits : h.SuitsAt r s)
    (hsmall : s.Small) :
    ∃ rs₂, rs₂ ⊆ rs ∧ h.Owns ((h.slot? r s).getD .null) ((t.slot? s).getD .null) rs₂ ∧
      ∀ ss h₁ w tw ws, rs.Disjoint ss → h.ChangesOnly h₁ rs₂ → h₁.Owns w tw ws →
        (∀ x ∈ ws, x ∈ rs₂ ∨ x ∈ ss ∨ h.size ≤ x) →
        h.Stores r rs ss (changed h₁ (h₁.fill r s w)) (.ok (t.put s tw)) := by
  have hplain := howns.plain_root hsuits
  have hbound : ∀ x ∈ rs, x < h.size := fun x ↦ howns.lays.lt_size
  obtain ⟨rs₁, rs₂, rs₃, rfl, hslot, hput⟩ := howns.at_slot hsuits
  refine ⟨rs₂, fun x hx ↦ by simp [hx], hslot, fun ss h₁ w tw ws hdisjoint hchange hw hfrom ↦ ?_⟩
  have hold : h₁.get? r = h.get? r := hchange.get?_eq r (hbound r (List.mem_cons_self ..))
    (notMem_of_beside_slot howns.nodup r (List.mem_cons_self ..))
  have hplain₁ : h₁.Plain [r] := hplain.congr fun x hx ↦ by rw [List.mem_singleton.mp hx, hold]
  obtain ⟨h', hfill⟩ := exists_fill hplain₁ hsmall w
  obtain ⟨hchange', hfrom', -, howns'⟩ :=
    hput ss h₁ h' w tw ws hdisjoint hchange hfrom (size_fill hfill) (get?_fill hfill)
  rw [hfill]
  exact .ok (howns' hw) hfrom' hchange'

/-- Filling a slot of an owner with another owner. -/
theorem stores_fill (howns : h.Owns (.object r) t rs) (hsuits : h.SuitsAt r s) (hsmall : s.Small)
    (hv : h.Owns v tv ss) (hdisjoint : rs.Disjoint ss) :
    h.Stores r rs ss (changed h (h.fill r s v)) (.ok (t.put s tv)) := by
  obtain ⟨rs₂, -, -, hstore⟩ := howns.stores_at hsuits hsmall
  exact hstore ss h v tv ss hdisjoint ((Extends.refl h).changesOnly rs₂) hv fun x hx ↦ .inr (.inl hx)

/-- The shape that a write insists on, in a heap and in a tree. -/
structure Insists (h : Heap) (u : Slot) (field : String) (check : Heap → Value → Except Fault Ref) :
    Prop where
  ok : ∀ w tw ws, h.Lays [w] [tw] ws → tw.kind = (Tree.blank u).kind →
    ∃ c, w = .object c ∧ check h w = .ok c ∧ h.SuitsAt c u
  error : ∀ w tw ws, h.Lays [w] [tw] ws → tw.kind ≠ (Tree.blank u).kind →
    ∃ fault, check h w = .error fault ∧
      h.Tells fault (.shape field (Tree.blank u).kind tw .write)

theorem owns_alloc_blank (h : Heap) (u : Slot) :
    (h.alloc u.blank).Owns (.object h.size) (Tree.blank u) [h.size] := by
  have hnode : u.blank.IsNode (Tree.blank u) [] := by
    cases u with
    | field name =>
      have hkeys : ([] : List (Key × Tree)).map Prod.fst = Table.empty.keys := rfl
      exact .mapping hkeys
    | index n | next => exact .list
  refine ⟨lays_node (get?_alloc_self h _) hnode ?_, List.nodup_singleton _, ?_⟩
  · rw [Cell.contents_blank]
    exact .nil
  · intro x hx kind entries hget
    obtain rfl := List.mem_singleton.mp hx
    rw [get?_alloc_self] at hget
    cases u <;> simp_all [Slot.blank]

/-- Work in the container in a slot, or in a new one, in a heap and in a tree. -/
theorem stores_through {u : Slot} {field : String} {check : Heap → Value → Except Fault Ref}
    {work : Ref → Heap → Except Fault Unit × Heap} {work' : Tree → Except TreeFault Tree}
    (howns : h.Owns (.object r) t rs) (hsuits : h.SuitsAt r s) (hsmall : s.Small)
    (hdisjoint : rs.Disjoint ss) (hss : ∀ x ∈ ss, x < h.size) (hcheck : h.Insists u field check)
    (hwork : ∀ c h₁ t₁ rs₁, h.Extends h₁ → h₁.Owns (.object c) t₁ rs₁ → h₁.SuitsAt c u →
      rs₁.Disjoint ss → h₁.Stores c rs₁ ss (work c h₁) (work' t₁)) :
    h.Stores r rs ss (h.through r s u.blank check work) (t.change s field (Tree.blank u) work') := by
  obtain ⟨rs₂, hsub, hslot, hstore⟩ := howns.stores_at hsuits hsmall
  -- What the work leaves in the slot, if it succeeds, is put there.
  have hback : ∀ c h₁ t₁ rs₁, h.Extends h₁ → rs₁ ⊆ h.size :: rs₂ →
      h₁.Stores c rs₁ ss (work c h₁) (work' t₁) →
      h.Stores r rs ss (andThen (work c h₁) fun _ h₂ ↦ changed h₂ (h₂.fill r s (.object c)))
        ((work' t₁).map (t.put s)) := by
    intro c h₁ t₁ rs₁ hext hrs₁ hstores
    generalize work c h₁ = x at *
    generalize work' t₁ = y at *
    cases hstores with
    | error htells hext' => exact .error htells (hext.trans hext')
    | @ok h₂ t₂ rs' howns₂ hfrom hchange =>
      refine hstore ss h₂ (.object c) t₂ rs' hdisjoint ?_ howns₂ fun x hx ↦ ?_
      · refine (hext.changesOnly rs₂).trans hchange fun x hx hlt ↦ ?_
        rcases List.mem_cons.mp (hrs₁ hx) with rfl | hx
        · exact absurd hlt (Nat.lt_irrefl _)
        · exact hx
      · rcases hfrom x hx with hx | hx | hle
        · rcases List.mem_cons.mp (hrs₁ hx) with rfl | hx
          · exact .inr (.inr (Nat.le_refl _))
          · exact .inl hx
        · exact .inr (.inl hx)
        · exact .inr (.inr (Nat.le_trans hext.size_le hle))
  by_cases hnull : (h.slot? r s).getD .null = .null
  · have htree := hslot.lays.eq_null_iff.mp hnull
    have hlt : h.size ∉ ss := fun hmem ↦ Nat.lt_irrefl _ (hss _ hmem)
    rw [through, enter_of_null hnull, andThen_ok, Tree.change_of_null htree]
    refine hback _ _ _ [h.size] (extends_alloc h _) (fun x hx ↦ ?_) (hwork _ _ _ _
      (extends_alloc h _) (owns_alloc_blank h u) ⟨u.blank, get?_alloc_self h _, u.suits_blank⟩ ?_)
    · rw [List.mem_singleton.mp hx]
      exact List.mem_cons_self ..
    · exact fun x hx hx' ↦ hlt (List.mem_singleton.mp hx ▸ hx')
  · have htree := fun heq ↦ hnull (hslot.lays.eq_null_iff.mpr heq)
    rw [through, enter_of_ne hnull, Tree.change_of_ne htree]
    split
    · next hkind =>
      obtain ⟨c, hc, hok, hcsuits⟩ := hcheck.ok _ _ _ hslot.lays hkind
      have hdis : rs₂.Disjoint ss := fun x hx hx' ↦ hdisjoint (hsub hx) hx'
      rw [hok, andThen_ok]
      rw [hc] at hslot
      exact hback c h _ rs₂ (.refl h) (fun x hx ↦ List.mem_cons_of_mem _ hx)
        (hwork c h _ rs₂ (.refl h) hslot hcsuits hdis)
    · next hkind =>
      obtain ⟨fault, herror, htells⟩ := hcheck.error _ _ _ hslot.lays hkind
      rw [herror, andThen_error]
      exact .error htells (.refl h)

/-! ### Steps and hops -/

theorem insists_mapping (h : Heap) (step : Step) (name : String) :
    h.Insists (.field name) step.hop.label step.checkMapping where
  ok w tw ws hlays hkind := by
    cases tw with
    | mapping es =>
      obtain ⟨c, kind, entries, ss, rfl, hget, -, -⟩ := hlays.of_mapping
      exact ⟨c, rfl, by simp [Step.checkMapping, asMapping, node, hget], _, hget, trivial⟩
    | leaf v | list ts => simp [Tree.kind, Tree.blank] at hkind
  error w tw ws hlays hkind := by
    refine ⟨.shape ⟨step.label, step.text, .shape .mapping, w, .write⟩, ?_, .shape hlays⟩
    cases tw with
    | mapping es => exact absurd rfl hkind
    | leaf v =>
      obtain ⟨rfl, hleaf⟩ := hlays.of_leaf
      simp [Step.checkMapping, asMapping, node_of_isLeaf hleaf]
    | list ts =>
      obtain ⟨c, items, ss, rfl, hget, -, -⟩ := hlays.of_list
      simp [Step.checkMapping, asMapping, node, hget]

theorem insists_list (h : Heap) (step : Step) {s : Slot} (hs : s.blank = .list []) :
    h.Insists s step.name step.checkList where
  ok w tw ws hlays hkind := by
    cases tw with
    | list ts =>
      obtain ⟨c, items, ss, rfl, hget, -, -⟩ := hlays.of_list
      refine ⟨c, rfl, by simp [Step.checkList, asList, node, hget, Except.map], _, hget, ?_⟩
      cases s with
      | field name => simp [Slot.blank] at hs
      | index n | next => trivial
    | leaf v | mapping es => cases s <;> simp [Tree.kind, Tree.blank, Slot.blank] at hkind hs
  error w tw ws hlays hkind := by
    refine ⟨.shape ⟨step.name, step.text, .shape .list, w, .write⟩, ?_, ?_⟩
    · cases tw with
      | list ts => cases s <;> simp [Tree.kind, Tree.blank, Slot.blank] at hkind hs
      | leaf v =>
        obtain ⟨rfl, hleaf⟩ := hlays.of_leaf
        simp [Step.checkList, asList, node_of_isLeaf hleaf, Except.map]
      | mapping es =>
        obtain ⟨c, kind, entries, ss, rfl, hget, -, -⟩ := hlays.of_mapping
        simp [Step.checkList, asList, node, hget, Except.map]
    · have hkind' : (Tree.blank s).kind = .list := by
        cases s <;> first | rfl | simp [Slot.blank] at hs
      rw [hkind']
      exact .shape hlays

theorem checkLimit_tells (h : Heap) (step : Step) (limit : Option Nat) :
    (step.checkLimit limit = .ok () ∧ Tree.checkLimit limit step.hop = .ok ()) ∨
      ∃ fault fault', step.checkLimit limit = .error fault ∧
        Tree.checkLimit limit step.hop = .error fault' ∧ h.Tells fault fault' := by
  obtain ⟨text, name, place, rest⟩ := step
  cases limit with
  | none => exact .inl ⟨rfl, rfl⟩
  | some limit =>
    cases place with
    | key | every => exact .inl ⟨rfl, rfl⟩
    | item n =>
      by_cases hn : limit < n
      · exact .inr ⟨_, _, if_pos hn, if_pos hn, .aboveLimit⟩
      · exact .inl ⟨if_neg hn, if_neg hn⟩

/-- Work at the last slot of a step, in a heap and in a tree. -/
theorem stores_reach {step : Step} {limit : Option Nat}
    {work : Ref → Slot → Heap → Except Fault Unit × Heap}
    {work' : Slot → Tree → Except TreeFault Tree} (howns : h.Owns (.object r) t rs)
    (hroot : h.IsMapping r) (hsmall : ∀ s ∈ step.hop.slots, s.Small) (hdisjoint : rs.Disjoint ss)
    (hss : ∀ x ∈ ss, x < h.size)
    (hwork : ∀ s, s.Small → ∀ c h₁ t₁ rs₁, h.Extends h₁ → h₁.Owns (.object c) t₁ rs₁ →
      h₁.SuitsAt c s → rs₁.Disjoint ss → h₁.Stores c rs₁ ss (work c s h₁) (work' s t₁)) :
    h.Stores r rs ss (step.reach limit r work h) (Tree.reach limit step.hop work' t) := by
  have hsuits : ∀ name, h.SuitsAt r (.field name) := fun name ↦ suitsAt_field_iff.mpr hroot
  unfold Step.reach Tree.reach
  rw [show step.hop.place = step.place from rfl]
  cases hplace : step.place.slot? with
  | none =>
    exact hwork _ (hsmall _ (List.mem_cons_self ..)) r h t rs (.refl h) howns (hsuits _) hdisjoint
  | some slot =>
    have hslot : slot.Small := hsmall slot (by simp [Step.slots_of_slot? hplace])
    have hblank : slot.blank = .list [] ∧ Tree.blank slot = .list [] := by
      cases hp : step.place <;> simp [hp, Place.slot?] at hplace <;> subst hplace <;>
        exact ⟨rfl, rfl⟩
    simp only
    rcases checkLimit_tells h step limit with ⟨hok, hok'⟩ | ⟨fault, fault', herror, herror', htells⟩
    · rw [hok, hok', andThen_ok]
      have hthrough := stores_through howns (hsuits step.name)
        (hsmall _ (List.mem_cons_self ..)) hdisjoint hss (insists_list h step hblank.1)
        fun c h₁ t₁ rs₁ hext hc hcs hdis ↦ hwork slot hslot c h₁ t₁ rs₁ hext hc hcs hdis
      rw [hblank.1, hblank.2] at hthrough
      exact hthrough
    · rw [herror, herror', andThen_error]
      exact .error htells (.refl h)

/-- Assumes: a mapping that owns a tree, a value that owns another one apart from it, and a path
without too long a numeral or too great an index. A write does to the mapping what it does to the
tree. -/
theorem stores_set {limit : Option Nat} {path : String} (hreadable : Path.Readable path)
    (hsmall : ∀ s ∈ Path.slots path, s.Small) (howns : h.Owns (.object r) t rs)
    (hroot : h.IsMapping r) (hv : h.Owns v tv ss) (hdisjoint : rs.Disjoint ss) :
    h.Stores r rs ss ((set limit r path v).effect h) (Tree.set limit tv (Path.hops path) t) := by
  induction path using Path.induction generalizing h r t rs with
  | broken path e he => exact absurd hreadable (Path.not_readable_of_error he)
  | last path step hstep hrest =>
    rw [effect_set_of_last hstep hrest, Path.hops_of_last hstep hrest, Tree.set]
    rw [Path.slots_of_last hstep hrest] at hsmall
    refine stores_reach howns hroot hsmall hdisjoint (fun x ↦ hv.lays.lt_size) ?_
    intro s hs c h₁ t₁ rs₁ hext hc hsuits hdis
    exact stores_fill hc hsuits hs (hv.of_extends hext) hdis
  | more path step rest hstep hrest ih =>
    rw [effect_set_of_more hstep hrest, Path.hops_of_more hstep hrest, Tree.set]
    rw [Path.slots_of_more hstep hrest] at hsmall
    obtain ⟨hop, hops, hhops⟩ := List.exists_cons_of_ne_nil (Path.hops_ne_nil rest)
    refine stores_reach howns hroot (fun s hs ↦ hsmall s (List.mem_append_left _ hs)) hdisjoint
      (fun x ↦ hv.lays.lt_size) ?_
    intro s hs c h₁ t₁ rs₁ hext hc hsuits hdis
    simp only [hhops]
    rw [← hhops]
    refine stores_through (u := .field "") hc hsuits hs hdis
      (fun x hx ↦ (hv.of_extends hext).lays.lt_size hx) (insists_mapping h₁ step "") ?_
    intro d h₂ t₂ rs₂ hext₂ hd hdsuits hdis₂
    exact ih ((Path.readable_of_more hstep hrest).mp hreadable)
      (fun s hs ↦ hsmall s (List.mem_append_right _ hs)) hd (suitsAt_field_iff.mp hdsuits)
      ((hv.of_extends hext).of_extends hext₂) hdis₂

end Stores

end Heap

end DottedPath
