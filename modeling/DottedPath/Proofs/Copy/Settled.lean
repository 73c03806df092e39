import DottedPath.Proofs.Tree.Write

/-!
# Work that the tree of a container settles

What comes of a write in a mapping that owns a tree depends on the tree alone: how the scan ends, the
fault if there is one, and the tree of the mapping afterwards are the same in every heap and for every
such mapping (`settles_set`). A fault also holds the value that was found, which is another container
in another heap; without it, it is the same fault (`Fault.outline`).

The value of a write may be anything that is laid out as a tree, whatever it shares with itself, as
long as the mapping has no container of it. Then the mapping is laid out as its new tree, and only its
own containers have changed (`Heap.Yields`).
-/

set_option autoImplicit false
set_option relaxedAutoImplicit false

namespace DottedPath

open Scan

/-- The fault but for the value that was found. -/
def Fault.outline : Fault → Fault
  | shape fault => shape { fault with actual := .null }
  | e => e

namespace Tree

/-- Why a container of the tree cannot be filled at a slot: a list would have to be padded too far. -/
def refusal? : Tree → Slot → Option Fault
  | list items, .index n =>
    if n < items.length then none
    else if Heap.greatestPadding < n - items.length then some (.padding .noSuchSize)
    else if Heap.tooMuchPadding ≤ n - items.length then some (.padding .noRoom)
    else none
  | _, _ => none

/-- The tree with another one in a slot, unless the slot cannot be filled. -/
def filled (t : Tree) (s : Slot) (u : Tree) : Except Fault Tree :=
  match t.refusal? s with
  | some e => .error e
  | none => .ok (t.put s u)

end Tree

namespace Heap

/-- How work in a container that is laid out as a tree ends, next to a value with the containers `ss`:
the container is laid out as another tree, or there is a fault. Of the cells that were there only the
containers `rs` have changed. -/
inductive Yields (h : Heap) (r : Ref) (t : Tree) (rs ss : List Ref) :
    Except Fault Unit × Heap → Except Fault Tree → Prop
  | ok {h' : Heap} {t' : Tree} {rs' : List Ref} (hlays : h'.Lays [.object r] [t'] rs')
    (hkind : t'.kind = t.kind) (hfrom : ∀ x ∈ rs', x ∈ rs ∨ x ∈ ss ∨ h.size ≤ x)
    (hchange : h.ChangesOnly h' rs) : Yields h r t rs ss (.ok (), h') (.ok t')
  | error {h' : Heap} {e e' : Fault} (houtline : e.outline = e') (hchange : h.ChangesOnly h' rs) :
    Yields h r t rs ss (.error e, h') (.error e')

/-- What comes of the work, in every container that owns the tree, next to a value that is laid out as
its tree in other containers. -/
def ComesTo (s : Slot) (t : Tree) (v : Value) (tv : Tree)
    (work : Ref → Heap → Except Fault Unit × Heap) (y : Except Fault Tree) : Prop :=
  ∀ (h : Heap) r rs ss, h.Owns (.object r) t rs → h.SuitsAt r s → h.Lays [v] [tv] ss →
    rs.Disjoint ss → h.Yields r t rs ss (work r h) y

/-- The two trees settle what comes of the work. -/
def Settles (s : Slot) (t : Tree) (v : Value) (tv : Tree)
    (work : Ref → Heap → Except Fault Unit × Heap) : Prop :=
  ∃ y, ComesTo s t v tv work y

/-! ### One slot -/

section Slots

variable {h h₁ h' : Heap} {r : Ref} {t tv : Tree} {rs ss : List Ref} {s : Slot} {v w : Value}

theorem yields_refl (howns : h.Owns (.object r) t rs) (ss : List Ref) :
    h.Yields r t rs ss (.ok (), h) (.ok t) :=
  .ok howns.lays rfl (fun _ ↦ .inl) ((Extends.refl h).changesOnly rs)

/-- Whether a container can be filled is seen in its tree. -/
theorem fill_of_owns (howns : h.Owns (.object r) t rs) (hsuits : h.SuitsAt r s)
    (hsame : h₁.get? r = h.get? r) (w : Value) :
    (∃ h', h₁.fill r s w = .ok h' ∧ t.refusal? s = none) ∨
      ∃ e, h₁.fill r s w = .error e ∧ t.refusal? s = some e ∧ e.outline = e := by
  have hplain₁ : h₁.Plain [r] := (howns.plain_root hsuits).congr fun x hx ↦ by
    rw [List.mem_singleton.mp hx, hsame]
  obtain ⟨c, hget, hc⟩ := hsuits
  obtain ⟨ts, rs', hnode, hcontents, -⟩ := howns.lays.of_isContainer hget hc.isContainer
  cases s with
  | field name =>
    obtain ⟨h', hfill⟩ := exists_fill (s := .field name) hplain₁ (fun _ h ↦ Slot.noConfusion h) w
    exact .inl ⟨h', hfill, by cases t <;> rfl⟩
  | next => exact .inl ⟨_, rfl, by cases t <;> rfl⟩
  | index n =>
    cases hnode with
    | mapping hkeys => exact hc.elim
    | @list items _ =>
      have hitems : (h₁.items r).length = ts.length := by
        rw [Heap.items, hsame, hget]
        exact hcontents.length_eq
      simp only [fill, putItem, hitems, Tree.refusal?]
      split
      · exact .inl ⟨_, rfl, rfl⟩
      · split
        · exact .inr ⟨_, rfl, rfl, rfl⟩
        · split
          · exact .inr ⟨_, rfl, rfl, rfl⟩
          · exact .inl ⟨_, rfl, rfl⟩

/-- A slot of an owner holds an owner. When work on the latter, or on something new, has left a value
that is laid out as a tree, and this value is put into the slot, the first one is laid out as its tree
with this tree in the slot. -/
theorem Owns.yields_at (howns : h.Owns (.object r) t rs) (hsuits : h.SuitsAt r s) :
    ∃ rs₂, rs₂ ⊆ rs ∧ r ∉ rs₂ ∧
      h.Owns ((h.slot? r s).getD .null) ((t.slot? s).getD .null) rs₂ ∧
      ∀ ss h₁ h' w tw ws, rs.Disjoint ss → h.ChangesOnly h₁ rs₂ → h₁.Lays [w] [tw] ws →
        (∀ x ∈ ws, x ∈ rs₂ ∨ x ∈ ss ∨ h.size ≤ x) → h'.size = h₁.size →
        (∀ x, h'.get? x = if x = r then (h₁.get? r).map (·.put s w) else h₁.get? x) →
        h.Yields r t rs ss (.ok (), h') (.ok (t.put s tw)) := by
  obtain ⟨rs₁, rs₂, rs₃, rfl, hslot, hput⟩ := howns.at_slot hsuits
  refine ⟨rs₂, fun x hx ↦ by simp [hx],
    notMem_of_beside_slot howns.nodup r (List.mem_cons_self ..), hslot, ?_⟩
  intro ss h₁ h' w tw ws hdisjoint hchange hw hfrom hsize hget
  obtain ⟨hchange', hfrom', hlays, -⟩ := hput ss h₁ h' w tw ws hdisjoint hchange hfrom hsize hget
  exact .ok (hlays hw) (Tree.kind_put t s tw) hfrom' hchange'

/-- What work leaves in the container in a slot, or in a new one, is put into the slot. -/
theorem Owns.yields_filled (howns : h.Owns (.object r) t rs) (hsuits : h.SuitsAt r s)
    (hdisjoint : rs.Disjoint ss) :
    ∃ rs₂, rs₂ ⊆ rs ∧ h.Owns ((h.slot? r s).getD .null) ((t.slot? s).getD .null) rs₂ ∧
      ∀ h₁ c t₁ rs₁ x y, h.Extends h₁ → rs₁ ⊆ h.size :: rs₂ → h₁.Yields c t₁ rs₁ ss x y →
        h.Yields r t rs ss (andThen x fun _ h₂ ↦ changed h₂ (h₂.fill r s (.object c)))
          (y.bind (t.filled s)) := by
  obtain ⟨rs₂, hsub, hr, hslot, hput⟩ := howns.yields_at hsuits
  have hlt : r < h.size := by
    obtain ⟨c, hget, -⟩ := hsuits
    exact lt_size_of_get? hget
  refine ⟨rs₂, hsub, hslot, fun h₁ c t₁ rs₁ x y hext hrs₁ hyields ↦ ?_⟩
  have hchanges : ∀ h₂, h₁.ChangesOnly h₂ rs₁ → h.ChangesOnly h₂ rs₂ := by
    refine fun h₂ hchange ↦ (hext.changesOnly rs₂).trans hchange fun x hx hlt ↦ ?_
    rcases List.mem_cons.mp (hrs₁ hx) with rfl | hx
    · exact absurd hlt (Nat.lt_irrefl _)
    · exact hx
  cases hyields with
  | error houtline hchange => exact .error houtline ((hchanges _ hchange).mono hsub)
  | @ok h₂ t₂ rs' hlays _ hfrom hchange =>
    have hchange₂ := hchanges h₂ hchange
    have hfrom₂ : ∀ x ∈ rs', x ∈ rs₂ ∨ x ∈ ss ∨ h.size ≤ x := by
      intro x hx
      rcases hfrom x hx with hx | hx | hle
      · rcases List.mem_cons.mp (hrs₁ hx) with rfl | hx
        · exact .inr (.inr (Nat.le_refl _))
        · exact .inl hx
      · exact .inr (.inl hx)
      · exact .inr (.inr (Nat.le_trans hext.size_le hle))
    rw [andThen_ok, Except.bind, Tree.filled]
    rcases fill_of_owns howns hsuits (hchange₂.get?_eq r hlt hr) (.object c) with
      ⟨h', hfill, hnone⟩ | ⟨e, hfill, hsome, houtline⟩
    · rw [hfill, hnone]
      exact hput ss h₂ h' _ t₂ rs' hdisjoint hchange₂ hlays hfrom₂ (size_fill hfill) (get?_fill hfill)
    · rw [hfill, hsome]
      exact .error houtline (hchange₂.mono hsub)

end Slots

/-! ### Steps -/

section Steps

variable {s u : Slot} {t tv : Tree} {v : Value} {field : String} {fault : Fault}
variable {check : Heap → Value → Except Fault Ref} {work : Ref → Heap → Except Fault Unit × Heap}

/-- Work in the container in a slot, or in a new one, that is then put into the slot. -/
theorem settles_through (hinsists : ∀ h : Heap, h.Insists u field check)
    (hfault : ∀ h w e, check h w = .error e → e.outline = fault)
    (hwork : ∀ t, Settles u t v tv work) (s : Slot) (t : Tree) :
    Settles s t v tv fun r h ↦ h.through r s u.blank check work := by
  by_cases hnull : (t.slot? s).getD .null = .null
  · obtain ⟨y, hy⟩ := hwork (Tree.blank u)
    refine ⟨y.bind (t.filled s), fun h r rs ss howns hsuits hv hdisjoint ↦ ?_⟩
    obtain ⟨rs₂, -, hslot, hback⟩ := howns.yields_filled hsuits hdisjoint
    have hext := extends_alloc h u.blank
    beta_reduce
    rw [through, enter_of_null (hslot.lays.eq_null_iff.mpr hnull), andThen_ok]
    refine hback _ _ _ [h.size] _ _ hext (by simp) (hy _ _ _ _ (owns_alloc_blank h u)
      ⟨u.blank, get?_alloc_self h _, u.suits_blank⟩ (hv.of_extends hext) ?_)
    intro x hx hxs
    obtain rfl := List.mem_singleton.mp hx
    exact Nat.lt_irrefl _ (hv.lt_size hxs)
  by_cases hkind : ((t.slot? s).getD .null).kind = (Tree.blank u).kind
  · obtain ⟨y, hy⟩ := hwork ((t.slot? s).getD .null)
    refine ⟨y.bind (t.filled s), fun h r rs ss howns hsuits hv hdisjoint ↦ ?_⟩
    obtain ⟨rs₂, hsub, hslot, hback⟩ := howns.yields_filled hsuits hdisjoint
    obtain ⟨c, hc, hok, hcsuits⟩ := (hinsists h).ok _ _ _ hslot.lays hkind
    beta_reduce
    rw [through, enter_of_ne fun heq ↦ hnull (hslot.lays.eq_null_iff.mp heq), hok, andThen_ok]
    rw [hc] at hslot
    exact hback h c _ rs₂ _ _ (.refl h) (List.subset_cons_self _ _)
      (hy h c rs₂ ss hslot hcsuits hv fun x hx hxs ↦ hdisjoint (hsub hx) hxs)
  · refine ⟨.error fault, fun h r rs ss howns hsuits hv hdisjoint ↦ ?_⟩
    obtain ⟨rs₂, -, hslot, -⟩ := howns.yields_filled hsuits hdisjoint
    obtain ⟨e, herror, -⟩ := (hinsists h).error _ _ _ hslot.lays hkind
    beta_reduce
    rw [through, enter_of_ne fun heq ↦ hnull (hslot.lays.eq_null_iff.mp heq), herror, andThen_error]
    exact .error (hfault h _ e herror) ((Extends.refl h).changesOnly rs)

/-- Filling a slot with the value. -/
theorem settles_fill (s : Slot) (t : Tree) (v : Value) (tv : Tree) :
    Settles s t v tv fun r h ↦ changed h (h.fill r s v) := by
  refine ⟨t.filled s tv, fun h r rs ss howns hsuits hv hdisjoint ↦ ?_⟩
  obtain ⟨rs₂, -, -, -, hput⟩ := howns.yields_at hsuits
  have hrefl := Extends.refl h
  simp only [Tree.filled]
  rcases fill_of_owns howns hsuits rfl v with ⟨h', hfill, hnone⟩ | ⟨e, hfill, hsome, houtline⟩
  · rw [hfill, hnone]
    exact hput ss h h' v tv ss hdisjoint (hrefl.changesOnly rs₂) hv (fun x hx ↦ .inr (.inl hx))
      (size_fill hfill) (get?_fill hfill)
  · rw [hfill, hsome]
    exact .error houtline (hrefl.changesOnly rs)

/-- All keys are slots of the same containers. -/
theorem Settles.of_field {name : String} (hsettles : Settles (.field name) t v tv work)
    (name' : String) : Settles (.field name') t v tv work := by
  obtain ⟨y, hy⟩ := hsettles
  exact ⟨y, fun h r rs ss howns hsuits ↦
    hy h r rs ss howns (suitsAt_field_iff.mpr (suitsAt_field_iff.mp hsuits))⟩

theorem outline_of_checkMapping (step : Step) (h : Heap) (w : Value) (e : Fault)
    (hcheck : step.checkMapping h w = .error e) :
    e.outline = .shape ⟨step.label, step.text, .shape .mapping, .null, .write⟩ := by
  obtain ⟨-, rfl⟩ := Step.checkMapping_eq_error_iff.mp hcheck
  rfl

theorem outline_of_checkList (step : Step) (h : Heap) (w : Value) (e : Fault)
    (hcheck : step.checkList h w = .error e) :
    e.outline = .shape ⟨step.name, step.text, .shape .list, .null, .write⟩ := by
  obtain ⟨-, rfl⟩ := Step.checkList_eq_error_iff.mp hcheck
  rfl

theorem settles_reach {limit : Option Nat} {step : Step}
    {work : Ref → Slot → Heap → Except Fault Unit × Heap}
    (hwork : ∀ s t, Settles s t v tv fun r ↦ work r s) (t : Tree) :
    Settles (.field step.name) t v tv fun r ↦ step.reach limit r work := by
  unfold Step.reach
  cases hplace : step.place.slot? with
  | none => exact hwork _ t
  | some slot =>
    obtain ⟨hblank, -⟩ := Place.of_slot? hplace
    cases step.checkLimit limit with
    | error e =>
      exact ⟨.error e.outline, fun h _ rs _ _ _ _ _ ↦ .error rfl ((Extends.refl h).changesOnly rs)⟩
    | ok _ =>
      simp only [andThen_ok, ← hblank]
      exact settles_through (fun h ↦ insists_list h step hblank) (outline_of_checkList step)
        (hwork slot) _ t

end Steps

/-- What comes of a write in a mapping is settled by its tree and the tree of the value. -/
theorem settles_set (limit : Option Nat) (path : String) (v : Value) (tv t : Tree) :
    Settles (.field "") t v tv fun r ↦ (set limit r path v).effect := by
  induction path using Path.induction generalizing t with
  | broken path e he =>
    refine ⟨.error (.numeral e), fun h r rs ss _ _ _ _ ↦ ?_⟩
    beta_reduce
    rw [effect_set_of_error he]
    exact .error rfl ((Extends.refl h).changesOnly rs)
  | last path step hstep hrest =>
    have hset : ∀ r, (set limit r path v).effect = _ := fun r ↦ funext fun h ↦
      effect_set_of_last hstep hrest limit r v h
    simp only [hset]
    exact (settles_reach (fun s t ↦ settles_fill s t v tv) t).of_field ""
  | more path step rest hstep hrest ih =>
    have hset : ∀ r, (set limit r path v).effect = _ := fun r ↦ funext fun h ↦
      effect_set_of_more hstep hrest limit r v h
    simp only [hset]
    refine (settles_reach (fun s t ↦ ?_) t).of_field ""
    exact settles_through (u := .field "") (fun h ↦ insists_mapping h step "")
      (outline_of_checkMapping step) ih s t

end Heap

end DottedPath
