import DottedPath.Proofs.Copy.Settled
import DottedPath.Proofs.Tree.Remove

/-!
# Removals that the tree of a container settles

What comes of a removal in a mapping that owns a tree depends on the tree alone (`settles_remove`), as
it does for a write. A step `name[]` with more steps behind it visits the mappings in a list one after
the other; each visit leaves alone what the later ones need, so what comes of all of them is settled
by the trees of the items (`settles_all`).
-/

set_option autoImplicit false
set_option relaxedAutoImplicit false

namespace DottedPath

open Scan

namespace Heap

section Slots

variable {h : Heap} {r : Ref} {t : Tree} {rs ss : List Ref} {s : Slot}

/-- What a removal leaves in the container in a slot. -/
theorem Owns.yields_visited {c : Ref} (howns : h.Owns (.object r) t rs) (hsuits : h.SuitsAt r s)
    (hcontainer : h.slot? r s = some (.object c)) (hdisjoint : rs.Disjoint ss) :
    ∃ rs₂, rs₂ ⊆ rs ∧ h.Owns (.object c) ((t.slot? s).getD .null) rs₂ ∧
      ∀ t₁ x y, h.Yields c t₁ rs₂ ss x y → h.Yields r t rs ss x (y.map (t.put s)) := by
  obtain ⟨rs₂, hsub, hr, hslot, hput⟩ := howns.yields_at hsuits
  rw [hcontainer, Option.getD_some] at hslot
  refine ⟨rs₂, hsub, hslot, fun t₁ x y hyields ↦ ?_⟩
  cases hyields with
  | error houtline hchange => exact .error houtline (hchange.mono hsub)
  | @ok h₁ t₁ rs' hlays _ hfrom hchange =>
    exact hput ss h₁ h₁ _ t₁ rs' hdisjoint hchange hlays hfrom rfl
      (hchange.put_of_slot? hcontainer hr)

end Slots

/-! ### Steps -/

section Steps

variable {s u : Slot} {t tv : Tree} {v : Value} {field : String} {fault : Fault}
variable {check : Heap → Value → Except Fault Ref} {work : Ref → Heap → Except Fault Unit × Heap}

/-- Work in the container in a slot, unless the slot is missing or null. -/
theorem settles_visit (hinsists : ∀ h : Heap, h.Insists u field check)
    (hfault : ∀ h w e, check h w = .error e → e.outline = fault)
    (hwork : ∀ t, Settles u t v tv work) (s : Slot) (t : Tree) :
    Settles s t v tv fun r h ↦ h.visit r s check work := by
  by_cases hnull : (t.slot? s).getD .null = .null
  · refine ⟨.ok t, fun h r rs ss howns hsuits hv hdisjoint ↦ ?_⟩
    obtain ⟨-, rs₂, -, -, hslot, -⟩ := howns.at_slot hsuits
    beta_reduce
    rw [visit, if_pos (hslot.lays.eq_null_iff.mpr hnull)]
    exact yields_refl howns ss
  by_cases hkind : ((t.slot? s).getD .null).kind = (Tree.blank u).kind
  · obtain ⟨y, hy⟩ := hwork ((t.slot? s).getD .null)
    refine ⟨y.map (t.put s), fun h r rs ss howns hsuits hv hdisjoint ↦ ?_⟩
    obtain ⟨-, rs₂, -, -, hslot, -⟩ := howns.at_slot hsuits
    have hne := fun heq ↦ hnull (hslot.lays.eq_null_iff.mp heq)
    obtain ⟨c, hc, hok, hcsuits⟩ := (hinsists h).ok _ _ _ hslot.lays hkind
    have hcontainer : h.slot? r s = some (.object c) := by
      cases hs : h.slot? r s <;> simp_all
    obtain ⟨rs₂, hsub, howns₂, hback⟩ := howns.yields_visited hsuits hcontainer hdisjoint
    beta_reduce
    rw [visit, if_neg hne, hok, andThen_ok]
    exact hback _ _ _ (hy h c rs₂ ss howns₂ hcsuits hv fun x hx hxs ↦ hdisjoint (hsub hx) hxs)
  · refine ⟨.error fault, fun h r rs ss howns hsuits hv hdisjoint ↦ ?_⟩
    obtain ⟨-, rs₂, -, -, hslot, -⟩ := howns.at_slot hsuits
    have hne := fun heq ↦ hnull (hslot.lays.eq_null_iff.mp heq)
    obtain ⟨e, herror, -⟩ := (hinsists h).error _ _ _ hslot.lays hkind
    beta_reduce
    rw [visit, if_neg hne, herror, andThen_error]
    exact .error (hfault h _ e herror) ((Extends.refl h).changesOnly rs)

end Steps

/-! ### Taking away -/

section Remove

variable {h : Heap} {r : Ref} {t t' tv : Tree} {ts : List Tree} {v : Value} {vs : List Value}
variable {rs ss : List Ref} {work : Ref → Heap → Except Fault Unit × Heap}

/-- A removal that ends as one in a tree does and meets no fault. -/
theorem Prunes.yields {x : Except Fault Unit × Heap} (hprunes : h.Prunes r rs x (t', none))
    (hkind : t'.kind = t.kind) (ss : List Ref) : h.Yields r t rs ss x (.ok t') := by
  obtain ⟨⟨rs', hsub, howns⟩, hchange, hstops⟩ := hprunes
  obtain ⟨outcome, h'⟩ := x
  cases hstops
  exact .ok howns.lays hkind (fun y hy ↦ .inl (hsub hy)) hchange

theorem settles_unset (name : String) (t : Tree) (v : Value) (tv : Tree) :
    Settles (.field name) t v tv fun r h ↦ h.unset r name :=
  ⟨.ok (t.erase (.field name)), fun _ _ _ ss howns hsuits _ _ ↦
    (prunes_unset howns (suitsAt_field_iff.mp hsuits) name).yields (Tree.kind_erase t _) ss⟩

theorem settles_eraseIdx (n : Nat) (t : Tree) (v : Value) (tv : Tree) :
    Settles (.index n) t v tv fun r h ↦ (.ok (), h.mapItems r fun items ↦ items.eraseIdx n) :=
  ⟨.ok (t.erase (.index n)), fun _ _ _ ss howns hsuits _ _ ↦
    (prunes_eraseIdx howns hsuits).yields (Tree.kind_erase t _) ss⟩

/-- Looking at the list under a key, and then taking the key away. -/
theorem settles_every (step : Step) (t : Tree) (v : Value) (tv : Tree) :
    Settles (.field step.name) t v tv fun r h ↦
      andThen (h.visit r (.field step.name) step.checkList fun _ h ↦ (.ok (), h)) fun _ h ↦
        h.unset r step.name := by
  have hlook : ∀ t, Settles .next t v tv fun _ h ↦ (.ok (), h) := fun t ↦
    ⟨.ok t, fun _ _ _ ss howns _ _ _ ↦ yields_refl howns ss⟩
  obtain ⟨y, hy⟩ := settles_visit (fun h ↦ insists_list h step rfl) (outline_of_checkList step) hlook
    (.field step.name) t
  obtain ⟨z, hz⟩ := settles_unset step.name t v tv
  refine ⟨y.bind fun _ ↦ z, fun h r rs ss howns hsuits hv hdisjoint ↦ ?_⟩
  have hvisit := hy h r rs ss howns hsuits hv hdisjoint
  have hunset := hz h r rs ss howns hsuits hv hdisjoint
  have hsame : (h.visit r (.field step.name) step.checkList fun _ h ↦ (.ok (), h)).2 = h :=
    visit_snd fun _ _ ↦ rfl
  beta_reduce at hvisit hunset ⊢
  generalize (h.visit r (.field step.name) step.checkList fun _ h ↦ (.ok (), h)) = x at *
  cases hvisit with
  | error houtline hchange => exact .error houtline hchange
  | ok =>
    obtain rfl := hsame
    exact hunset

/-- How visits of the mappings among some values end that are laid out as trees. -/
inductive YieldsAll (h : Heap) (vs : List Value) (rs ss : List Ref) :
    Except Fault Unit × Heap → Except Fault (List Tree) → Prop
  | ok {h' : Heap} {ts' : List Tree} {rs' : List Ref} (hlays : h'.Lays vs ts' rs')
    (hfrom : ∀ x ∈ rs', x ∈ rs ∨ x ∈ ss ∨ h.size ≤ x) (hchange : h.ChangesOnly h' rs) :
    YieldsAll h vs rs ss (.ok (), h') (.ok ts')
  | error {h' : Heap} {e e' : Fault} (houtline : e.outline = e') (hchange : h.ChangesOnly h' rs) :
    YieldsAll h vs rs ss (.error e, h') (.error e')

/-- What comes of the first value stands beside what comes of the others. -/
theorem YieldsAll.cons {h₁ : Heap} {w : Value} {rs₁ rs₂ rs₁' : List Ref}
    {x : Except Fault Unit × Heap} {y : Except Fault (List Tree)} (hchange : h.ChangesOnly h₁ rs₁)
    (hlays : h₁.Lays [w] [t] rs₁') (hfrom : ∀ x ∈ rs₁', x ∈ rs₁ ∨ x ∈ ss ∨ h.size ≤ x)
    (hrs₂ : ∀ x ∈ rs₂, x ∉ rs₁ ∧ x ∉ ss ∧ x < h.size) (hrest : h₁.Lays vs ts rs₂)
    (hyields : h₁.YieldsAll vs rs₂ ss x y) :
    h.YieldsAll (w :: vs) (rs₁ ++ rs₂) ss x (y.map (t :: ·)) := by
  have hchanges : ∀ h₂, h₁.ChangesOnly h₂ rs₂ → h.ChangesOnly h₂ (rs₁ ++ rs₂) := fun h₂ hchange₂ ↦
    (hchange.mono (List.subset_append_left rs₁ rs₂)).trans hchange₂ fun x hx _ ↦
      List.mem_append_right rs₁ hx
  cases hyields with
  | error houtline hchange₂ => exact .error houtline (hchanges _ hchange₂)
  | @ok h₂ ts₂ rs₂' hlays₂ hfrom₂ hchange₂ =>
    have hapart : ∀ x ∈ rs₁', x ∉ rs₂ := by
      intro x hx hx₂
      obtain ⟨h₁, hss, hlt⟩ := hrs₂ x hx₂
      rcases hfrom x hx with hx | hx | hle
      · exact h₁ hx
      · exact hss hx
      · exact Nat.not_lt_of_le hle hlt
    have hfirst := hlays.frame (fun x hx ↦ hchange₂.get?_eq x (hlays.lt_size hx) (hapart x hx))
      (hrest.keepsLeaves hchange₂)
    refine .ok (hfirst.cons hlays₂) (fun x hx ↦ ?_) (hchanges _ hchange₂)
    rcases List.mem_append.mp hx with hx | hx
    · exact (hfrom x hx).imp_left (List.mem_append_left _ ·)
    · rcases hfrom₂ x hx with hx | hx | hle
      · exact .inl (List.mem_append_right _ hx)
      · exact .inr (.inl hx)
      · exact .inr (.inr (Nat.le_trans hchange.size_le hle))

/-- What comes of visits of all mappings among some values is settled by the trees of the values. -/
theorem settles_all (hwork : ∀ t, Settles (.field "") t v tv work) (ts : List Tree) :
    ∃ y, ∀ (h : Heap) vs rs ss, h.Lays vs ts rs → rs.Nodup → h.Plain rs → h.Lays [v] [tv] ss →
      rs.Disjoint ss → h.YieldsAll vs rs ss (sweep work (mappingRefs vs ts) h) y := by
  induction ts with
  | nil =>
    refine ⟨.ok [], fun h vs rs ss hlays _ _ _ _ ↦ ?_⟩
    cases hlays
    exact .ok .nil (fun _ hx ↦ .inl hx) ((Extends.refl h).changesOnly _)
  | cons t ts ih =>
    obtain ⟨y, hy⟩ := ih
    -- The first visit, if there is one, leaves alone what the others need.
    have hcons : ∀ z : Except Fault Tree, (∀ (h : Heap) w vs rs₁ ss, h.Owns w t rs₁ →
        h.Lays [v] [tv] ss → rs₁.Disjoint ss →
        (mappingRefs (w :: vs) (t :: ts) = mappingRefs vs ts ∧ z = .ok t) ∨
          ∃ c, w = .object c ∧ mappingRefs (w :: vs) (t :: ts) = c :: mappingRefs vs ts ∧
            h.Yields c t rs₁ ss (work c h) z) →
        ∃ y, ∀ (h : Heap) vs rs ss, h.Lays vs (t :: ts) rs → rs.Nodup → h.Plain rs →
          h.Lays [v] [tv] ss → rs.Disjoint ss →
          h.YieldsAll vs rs ss (sweep work (mappingRefs vs (t :: ts)) h) y := by
      intro z hz
      refine ⟨z.bind fun t' ↦ y.map (t' :: ·), fun h vs rs ss hlays hnodup hplain hv hdisjoint ↦ ?_⟩
      obtain _ | ⟨w, vs⟩ := vs
      · cases hlays
      obtain ⟨t', us, rs₁, rs₂, heq, rfl, hw, hvs⟩ := hlays.of_cons
      obtain ⟨rfl, rfl⟩ := List.cons.inj heq
      obtain ⟨hnodup₁, hnodup₂, happend⟩ := List.nodup_append.mp hnodup
      obtain ⟨hplain₁, hplain₂⟩ := plain_append.mp hplain
      have hrs₂ : ∀ x ∈ rs₂, x ∉ rs₁ ∧ x ∉ ss ∧ x < h.size := fun x hx ↦
        ⟨fun hx₁ ↦ happend x hx₁ x hx rfl, fun hxs ↦ hdisjoint (List.mem_append_right rs₁ hx) hxs,
          hvs.lt_size hx⟩
      have hdis₁ : rs₁.Disjoint ss := fun x hx ↦ hdisjoint (List.mem_append_left rs₂ hx)
      have hdis₂ : rs₂.Disjoint ss := fun x hx ↦ hdisjoint (List.mem_append_right rs₁ hx)
      rcases hz h w vs rs₁ ss ⟨hw, hnodup₁, hplain₁⟩ hv hdis₁ with
        ⟨hrefs, rfl⟩ | ⟨c, rfl, hrefs, hyields⟩
      · rw [hrefs]
        exact .cons ((Extends.refl h).changesOnly rs₁) hw (fun x hx ↦ .inl hx) hrs₂ hvs
          (hy h vs rs₂ ss hvs hnodup₂ hplain₂ hv hdis₂)
      rw [hrefs, sweep]
      generalize work c h = x at hyields
      cases hyields with
      | error houtline hchange =>
        exact .error houtline (hchange.mono (List.subset_append_left rs₁ rs₂))
      | @ok h₁ t₁ rs₁' hlays₁ hkind hfrom hchange =>
        have hsame : ∀ x ∈ rs₂, h₁.get? x = h.get? x := fun x hx ↦
          hchange.get?_eq x (hrs₂ x hx).2.2 (hrs₂ x hx).1
        have hvs₁ := hvs.frame hsame (hw.keepsLeaves hchange)
        have hv₁ := hv.frame (fun x hx ↦ hchange.get?_eq x (hv.lt_size hx) fun hx₁ ↦ hdis₁ hx₁ hx)
          (hw.keepsLeaves hchange)
        exact .cons hchange hlays₁ hfrom hrs₂ hvs₁
          (hy h₁ vs rs₂ ss hvs₁ hnodup₂ (hplain₂.congr hsame) hv₁ hdis₂)
    cases t with
    | leaf w => exact hcons (.ok _) fun h w vs rs₁ ss _ _ _ ↦ .inl ⟨by cases w <;> rfl, rfl⟩
    | list items => exact hcons (.ok _) fun h w vs rs₁ ss _ _ _ ↦ .inl ⟨by cases w <;> rfl, rfl⟩
    | mapping es =>
      obtain ⟨z, hz⟩ := hwork (.mapping es)
      refine hcons z fun h w vs rs₁ ss howns hv hdisjoint ↦ .inr ?_
      obtain ⟨c, kind, entries, ss', rfl, hget, -, -⟩ := howns.lays.of_mapping
      exact ⟨c, rfl, rfl, hz h c rs₁ ss howns ⟨_, hget, trivial⟩ hv hdisjoint⟩

/-- A visit of all mappings in a list. -/
theorem settles_sweep (hwork : ∀ t, Settles (.field "") t v tv work) (t : Tree) :
    Settles .next t v tv fun r h ↦ sweep work (h.mappingsAmong (h.items r)) h := by
  cases t with
  | leaf w =>
    refine ⟨.ok .null, fun h r rs ss howns hsuits _ _ ↦ ?_⟩
    obtain ⟨c, hget, hc⟩ := hsuits
    exact absurd hc.isContainer (howns.lays.of_leaf.2.not_isContainer hget)
  | mapping es =>
    refine ⟨.ok .null, fun h r rs ss howns hsuits _ _ ↦ ?_⟩
    obtain ⟨c, hget, hc⟩ := hsuits
    obtain ⟨r', kind, entries, ss', hr, hget', -, -⟩ := howns.lays.of_mapping
    obtain rfl := Value.object.inj hr
    rw [hget] at hget'
    obtain rfl := Option.some.inj hget'
    exact hc.elim
  | list ts =>
    obtain ⟨y, hy⟩ := settles_all hwork ts
    refine ⟨y.map .list, fun h r rs ss howns hsuits hv hdisjoint ↦ ?_⟩
    obtain ⟨r', items, rs₁, hr, hget, hcontents, rfl⟩ := howns.lays.of_list
    obtain rfl := Value.object.inj hr
    obtain ⟨hr, hnodup⟩ := List.nodup_cons.mp howns.nodup
    have hplain : h.Plain rs₁ := fun x hx ↦ howns.plain x (List.mem_cons_of_mem _ hx)
    have hitems : h.items r = items := by rw [Heap.items, hget]
    have hsub : rs₁ ⊆ r :: rs₁ := List.subset_cons_self r rs₁
    have hall := hy h items rs₁ ss hcontents hnodup hplain hv fun x hx ↦ hdisjoint (hsub hx)
    beta_reduce
    rw [hitems, mappingsAmong_of_lays hcontents]
    generalize sweep work (mappingRefs items ts) h = x at hall
    cases hall with
    | error houtline hchange => exact .error houtline (hchange.mono hsub)
    | @ok h' ts' rs' hlays hfrom hchange =>
      have hget' : h'.get? r = some (.list items) := by
        rw [hchange.get?_eq r (lt_size_of_get? hget) hr, hget]
      refine .ok (lays_node hget' .list hlays) rfl (fun x hx ↦ ?_) (hchange.mono hsub)
      rcases List.mem_cons.mp hx with rfl | hx
      · exact .inl (List.mem_cons_self ..)
      · exact (hfrom x hx).imp_left (hsub ·)

/-- What comes of a removal in a mapping is settled by its tree. -/
theorem settles_remove (path : String) (t : Tree) (v : Value) (tv : Tree) :
    Settles (.field "") t v tv fun r ↦ (remove r path).effect := by
  induction path using Path.induction generalizing t with
  | broken path e he =>
    refine ⟨.error (.numeral e), fun h r rs ss _ _ _ _ ↦ ?_⟩
    beta_reduce
    rw [effect_remove_of_error he]
    exact .error rfl ((Extends.refl h).changesOnly rs)
  | last path step hstep hrest =>
    cases hplace : step.place with
    | key =>
      have hremove : ∀ r, (remove r path).effect = _ := fun r ↦ funext fun h ↦
        effect_remove_of_last hstep hrest hplace
      simp only [hremove]
      exact (settles_unset step.name t v tv).of_field ""
    | every =>
      have hremove : ∀ r, (remove r path).effect = _ := fun r ↦ funext fun h ↦
        effect_remove_of_last_every hstep hrest hplace
      simp only [hremove]
      exact (settles_every step t v tv).of_field ""
    | item n =>
      have hremove : ∀ r, (remove r path).effect = _ := fun r ↦ funext fun h ↦
        effect_remove_of_last_item hstep hrest hplace
      simp only [hremove]
      exact (settles_visit (u := .index n) (fun h ↦ insists_list h step rfl)
        (outline_of_checkList step) (fun t ↦ settles_eraseIdx n t v tv) _ t).of_field ""
  | more path step rest hstep hrest ih =>
    have hbelow (s : Slot) (t : Tree) :=
      settles_visit (u := .field "") (fun h ↦ insists_mapping h step "") (outline_of_checkMapping step)
        ih s t
    cases hplace : step.place with
    | key =>
      have hremove : ∀ r, (remove r path).effect = _ := fun r ↦ funext fun h ↦
        effect_remove_of_more hstep hrest hplace
      simp only [hremove]
      exact (hbelow (.field step.name) t).of_field ""
    | every =>
      have hremove : ∀ r, (remove r path).effect = _ := fun r ↦ funext fun h ↦
        effect_remove_of_more_every hstep hrest hplace
      simp only [hremove]
      exact (settles_visit (u := .next) (fun h ↦ insists_list h step rfl) (outline_of_checkList step)
        (settles_sweep ih) _ t).of_field ""
    | item n =>
      have hremove : ∀ r, (remove r path).effect = _ := fun r ↦ funext fun h ↦
        effect_remove_of_more_item hstep hrest hplace
      simp only [hremove]
      exact (settles_visit (u := .index n) (fun h ↦ insists_list h step rfl)
        (outline_of_checkList step) (hbelow (.index n)) _ t).of_field ""

end Remove

end Heap

end DottedPath
