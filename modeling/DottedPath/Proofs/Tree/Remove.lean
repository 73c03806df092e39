import DottedPath.Proofs.Scan.Remove
import DottedPath.Proofs.Tree.Read
import DottedPath.Proofs.Tree.Write

/-!
# A removal is a removal in a tree

A mapping that owns a tree owns, after a removal, what the removal in the tree leaves, and the
removal is stopped by a fault exactly when the one in the tree is (`prunes_remove`). A removal that
visits all mappings in a list has done its work in those that come before the fault.
-/

set_option autoImplicit false
set_option relaxedAutoImplicit false

namespace DottedPath

open Scan

namespace Heap

/-- A removal ends without a fault as the removal in a tree does, or with a fault that tells what the
fault of the other one does. -/
inductive Stops (h : Heap) : Except Fault Unit → Option TreeFault → Prop
  | ok : Stops h (.ok ()) none
  | error {fault : Fault} {fault' : TreeFault} (htells : h.Tells fault fault') :
    Stops h (.error fault) (some fault')

/-- A removal in a container with the containers `rs` ends as the removal in a tree does, and leaves
the container as the owner of the tree that the latter leaves. -/
structure Prunes (h : Heap) (r : Ref) (rs : List Ref) (x : Except Fault Unit × Heap)
    (y : Tree × Option TreeFault) : Prop where
  owns : ∃ rs', rs' ⊆ rs ∧ x.2.Owns (.object r) y.1 rs'
  changes : h.ChangesOnly x.2 rs
  stops : x.2.Stops x.1 y.2

section Slots

variable {h : Heap} {r : Ref} {t : Tree} {rs : List Ref} {s : Slot}

theorem prunes_refl (howns : h.Owns (.object r) t rs) : h.Prunes r rs (.ok (), h) (t, none) :=
  ⟨⟨rs, fun _ hx ↦ hx, howns⟩, (Extends.refl h).changesOnly rs, .ok⟩

/-- What a removal leaves in a container in a slot is left in the tree in the slot. -/
theorem Owns.prunes_at {c : Ref} (howns : h.Owns (.object r) t rs) (hsuits : h.SuitsAt r s)
    (hslot : h.slot? r s = some (.object c)) :
    ∃ rs₂, rs₂ ⊆ rs ∧ h.Owns (.object c) ((t.slot? s).getD .null) rs₂ ∧
      ∀ x y, h.Prunes c rs₂ x y → h.Prunes r rs x (t.put s y.1, y.2) := by
  obtain ⟨rs₁, rs₂, rs₃, rfl, howns₂, hput⟩ := howns.at_slot hsuits
  rw [hslot, Option.getD_some] at howns₂
  have hsub : rs₂ ⊆ r :: (rs₁ ++ rs₂ ++ rs₃) := fun x hx ↦ by simp [hx]
  refine ⟨rs₂, hsub, howns₂, fun x y hprunes ↦ ?_⟩
  obtain ⟨⟨rs', hsub', howns'⟩, hchange, hstops⟩ := hprunes
  have hr : r ∉ rs₂ := notMem_of_beside_slot howns.nodup r (List.mem_cons_self ..)
  obtain ⟨hchange', -, -, hroot⟩ := hput [] x.2 x.2 _ y.1 rs' (List.disjoint_nil_right _) hchange
    (fun z hz ↦ .inl (hsub' hz)) rfl (hchange.put_of_slot? hslot hr)
  refine ⟨⟨_, ?_, hroot howns'⟩, hchange', hstops⟩
  intro z hz
  rcases List.mem_append.mp ((slot_perm r rs₁ rs' rs₃).mem_iff.mp hz) with hz | hz
  · exact beside_slot_subset r rs₁ rs₂ rs₃ hz
  · exact hsub (hsub' hz)

/-- A visit of the container in a slot, in a heap and in a tree. -/
theorem prunes_visit {u : Slot} {field : String} {check : Heap → Value → Except Fault Ref}
    {work : Ref → Heap → Except Fault Unit × Heap} {work' : Tree → Tree × Option TreeFault}
    (howns : h.Owns (.object r) t rs) (hsuits : h.SuitsAt r s) (hcheck : h.Insists u field check)
    (hwork : ∀ c t₁ rs₁, h.Owns (.object c) t₁ rs₁ → h.SuitsAt c u →
      h.Prunes c rs₁ (work c h) (work' t₁)) :
    h.Prunes r rs (h.visit r s check work) (t.prune s field (Tree.blank u).kind work') := by
  obtain ⟨-, rs₂, -, -, hslot, -⟩ := howns.at_slot hsuits
  by_cases hnull : (h.slot? r s).getD .null = .null
  · rw [visit, if_pos hnull, Tree.prune_of_null (hslot.lays.eq_null_iff.mp hnull)]
    exact prunes_refl howns
  · rw [visit, if_neg hnull, Tree.prune_of_ne fun heq ↦ hnull (hslot.lays.eq_null_iff.mpr heq)]
    split
    · next hkind =>
      obtain ⟨c, hc, hok, hcsuits⟩ := hcheck.ok _ _ _ hslot.lays hkind
      have hslot' : h.slot? r s = some (.object c) := by
        cases hs : h.slot? r s <;> simp_all
      obtain ⟨rs₂, -, howns₂, hput⟩ := howns.prunes_at hsuits hslot'
      rw [hok, andThen_ok]
      exact hput _ _ (hwork c _ rs₂ howns₂ hcsuits)
    · next hkind =>
      obtain ⟨fault, herror, htells⟩ := hcheck.error _ _ _ hslot.lays hkind
      rw [herror, andThen_error]
      exact ⟨⟨rs, fun _ hx ↦ hx, howns⟩, (Extends.refl h).changesOnly rs, .error htells⟩

/-! ### What is taken away -/

/-- Emptying a slot of an owner. -/
theorem prunes_erase {h' : Heap} {w : Value} (howns : h.Owns (.object r) t rs)
    (hslot : h.slot? r s = some w) (hsize : h'.size = h.size)
    (hget : ∀ x, h'.get? x = if x = r then (h.get? r).map (·.erase s) else h.get? x) :
    h.Prunes r rs (.ok (), h') (t.erase s, none) := by
  obtain ⟨c, hc, hcell⟩ := Option.bind_eq_some_iff.mp hslot
  obtain ⟨tw, rs₁, rs₂, rs₃, -, rfl, -, hput⟩ := howns.lays.focus hc hcell
  have hnodup := nodup_beside_slot howns.nodup
  have hother : ∀ x, x ≠ r → h'.get? x = h.get? x := by
    intro x hx
    rw [hget, if_neg hx]
  have hchange : h.ChangesOnly h' (r :: (rs₁ ++ rs₂ ++ rs₃)) := by
    refine ⟨Nat.le_of_eq hsize.symm, fun x _ hx ↦ hother x ?_⟩
    rintro rfl
    exact hx (List.mem_cons_self ..)
  have hrest : ∀ x ∈ rs₁ ++ rs₃, x ≠ r := by
    rintro x hx rfl
    exact (List.nodup_cons.mp hnodup).1 hx
  have hlays := (hput h' (howns.lays.keepsLeaves hchange) fun x hx ↦ hother x (hrest x hx)).2
    (by rw [hget, if_pos rfl, hc, Option.map_some])
  have hsub := beside_slot_subset r rs₁ rs₂ rs₃
  refine ⟨⟨_, hsub, hlays, hnodup, ?_⟩, hchange, .ok⟩
  intro x hx kind entries hcell'
  by_cases hxr : x = r
  · subst hxr
    simp only at hcell'
    rw [hget, if_pos rfl, hc, Option.map_some] at hcell'
    obtain ⟨entries', rfl⟩ : ∃ entries', c = .mapping kind entries' := by
      cases c <;> cases s <;> simp_all [Cell.erase]
    exact howns.plain x (List.mem_cons_self ..) kind entries' hc
  · simp only at hcell'
    rw [hother x hxr] at hcell'
    exact howns.plain x (hsub hx) kind entries hcell'

/-- Taking away a key of an owner. -/
theorem prunes_unset (howns : h.Owns (.object r) t rs) (hroot : h.IsMapping r) (name : String) :
    h.Prunes r rs (h.unset r name) (t.erase (.field name), none) := by
  have hsuits : h.SuitsAt r (.field name) := suitsAt_field_iff.mpr hroot
  have hwritable := isReadOnly_of_plain (howns.plain_root hsuits)
  unfold unset
  cases hslot : h.slot? r (.field name) with
  | none =>
    rcases howns.lays.slot? hsuits with ⟨-, hnone⟩ | ⟨v, tv, hv, -⟩
    · rw [Tree.erase_of_slot? hnone]
      exact prunes_refl howns
    · simp [hslot] at hv
  | some v =>
    simp only [delete, hwritable, Bool.false_eq_true, if_false, changed]
    refine prunes_erase howns hslot (size_mapEntries ..) fun x ↦ ?_
    rw [get?_mapEntries]
    congr 2
    funext c
    cases c <;> rfl

/-- Taking away an item of an owner. -/
theorem prunes_eraseIdx (howns : h.Owns (.object r) t rs) {n : Nat} (hsuits : h.SuitsAt r (.index n)) :
    h.Prunes r rs (.ok (), h.mapItems r fun items ↦ items.eraseIdx n) (t.erase (.index n), none) := by
  have hget : ∀ x, (h.mapItems r fun items ↦ items.eraseIdx n).get? x =
      if x = r then (h.get? r).map (·.erase (.index n)) else h.get? x := by
    intro x
    rw [get?_mapItems]
    congr 2
    funext c
    cases c <;> rfl
  rcases howns.lays.slot? hsuits with ⟨hnone, hnone'⟩ | ⟨v, tv, hv, -, -⟩
  · have hsame : (h.mapItems r fun items ↦ items.eraseIdx n) = h := by
      refine ext_get? fun x ↦ ?_
      rw [hget]
      split
      · next hx =>
        subst hx
        obtain ⟨c, hc, hcsuits⟩ := hsuits
        cases c with
        | list items =>
          have hn : items.length ≤ n := by simpa [Heap.slot?, hc, Cell.slot?] using hnone
          rw [hc, Option.map_some, Cell.erase, List.eraseIdx_of_length_le hn]
        | _ => exact hcsuits.elim
      · rfl
    rw [hsame, Tree.erase_of_slot? hnone']
    exact prunes_refl howns
  · exact prunes_erase howns hv (size_mapItems ..) hget

end Slots

/-! ### Visits of all mappings in a list -/

/-- The mappings among values that are laid out as trees. -/
def mappingRefs : List Value → List Tree → List Ref
  | .object r :: vs, .mapping _ :: ts => r :: mappingRefs vs ts
  | _ :: vs, _ :: ts => mappingRefs vs ts
  | _, _ => []

theorem mappingsAmong_of_lays {h : Heap} {vs : List Value} {ts : List Tree} {rs : List Ref}
    (hlays : h.Lays vs ts rs) : h.mappingsAmong vs = mappingRefs vs ts := by
  induction hlays with
  | nil => rfl
  | @leaf v vs ts rs hleaf _ ih =>
    have hrefs : mappingRefs (v :: vs) (.leaf v :: ts) = mappingRefs vs ts := by
      cases v <;> rfl
    rw [hrefs, ← ih]
    simp [mappingsAmong, node_of_isLeaf hleaf]
  | @node r c t ts us vs rs ss hget hnode _ _ _ ih =>
    cases hnode with
    | list =>
      have hrefs : ∀ items, mappingRefs (.object r :: vs) (.list items :: us) = mappingRefs vs us :=
        fun _ ↦ rfl
      rw [hrefs, ← ih]
      simp [mappingsAmong, node, hget]
    | mapping hkeys =>
      rw [mappingRefs, ← ih]
      simp [mappingsAmong, node, hget]

/-- Visits of the mappings among some values end as the visits of the trees do, and leave the values
as the owners of the trees that the latter leave. -/
structure PrunesAll (h : Heap) (vs : List Value) (rs : List Ref) (x : Except Fault Unit × Heap)
    (y : List Tree × Option TreeFault) : Prop where
  owns : ∃ rs', rs' ⊆ rs ∧ x.2.Lays vs y.1 rs' ∧ rs'.Nodup ∧ x.2.Plain rs'
  changes : h.ChangesOnly x.2 rs
  stops : x.2.Stops x.1 y.2

/-- What comes of the first value stands beside what comes of the others. -/
theorem Owns.prunesAll_cons {h : Heap} {v : Value} {vs : List Value} {t : Tree} {ts : List Tree}
    {rs₁ rs₂ rs₁' : List Ref} {x : Except Fault Unit × Heap} {fault : Option TreeFault}
    (howns : x.2.Owns v t rs₁') (hsub : rs₁' ⊆ rs₁) (hdisjoint : ∀ z ∈ rs₂, z ∉ rs₁)
    (hrest : ∃ rs₂', rs₂' ⊆ rs₂ ∧ x.2.Lays vs ts rs₂' ∧ rs₂'.Nodup ∧ x.2.Plain rs₂')
    (hchange : h.ChangesOnly x.2 (rs₁ ++ rs₂)) (hstops : x.2.Stops x.1 fault) :
    h.PrunesAll (v :: vs) (rs₁ ++ rs₂) x (t :: ts, fault) := by
  obtain ⟨rs₂', hsub₂, hlays, hnodup, hplain⟩ := hrest
  refine ⟨⟨rs₁' ++ rs₂', ?_, howns.lays.cons hlays, ?_, plain_append.mpr ⟨howns.plain, hplain⟩⟩,
    hchange, hstops⟩
  · exact List.append_subset.mpr ⟨fun z hz ↦ List.mem_append_left _ (hsub hz),
      fun z hz ↦ List.mem_append_right _ (hsub₂ hz)⟩
  · refine List.nodup_append.mpr ⟨howns.nodup, hnodup, ?_⟩
    rintro z hz₁ z' hz₂ rfl
    exact hdisjoint z (hsub₂ hz₂) (hsub hz₁)

theorem prunesAll_sweep {work : Ref → Heap → Except Fault Unit × Heap}
    {work' : Tree → Tree × Option TreeFault}
    (hwork : ∀ (h : Heap) c t rs, h.Owns (.object c) t rs → h.IsMapping c →
      h.Prunes c rs (work c h) (work' t))
    {vs : List Value} {h : Heap} {ts : List Tree} {rs : List Ref} (hlays : h.Lays vs ts rs)
    (hnodup : rs.Nodup) (hplain : h.Plain rs) :
    h.PrunesAll vs rs (sweep work (mappingRefs vs ts) h) (Tree.pruneMappings work' ts) := by
  induction vs generalizing h ts rs with
  | nil =>
    cases hlays
    exact ⟨⟨[], fun _ hx ↦ hx, .nil, hnodup, hplain⟩, (Extends.refl h).changesOnly _, .ok⟩
  | cons v vs ih =>
    obtain ⟨t, us, rs₁, rs₂, rfl, rfl, hv, hvs⟩ := hlays.of_cons
    obtain ⟨hnodup₁, hnodup₂, hdisjoint⟩ := List.nodup_append.mp hnodup
    obtain ⟨hplain₁, hplain₂⟩ := plain_append.mp hplain
    have hdis : ∀ x ∈ rs₂, x ∉ rs₁ := fun x hx₂ hx₁ ↦ hdisjoint x hx₁ x hx₂ rfl
    have hown : h.Owns v t rs₁ := ⟨hv, hnodup₁, hplain₁⟩
    have hsame : ∀ h₁, h.ChangesOnly h₁ rs₁ → ∀ x ∈ rs₂, h₁.get? x = h.get? x := fun h₁ hchange x hx ↦
      hchange.get?_eq x (hvs.lt_size hx) (hdis x hx)
    have hskip : mappingRefs (v :: vs) (t :: us) = mappingRefs vs us →
        Tree.pruneMappings work' (t :: us) =
          (t :: (Tree.pruneMappings work' us).1, (Tree.pruneMappings work' us).2) →
        h.PrunesAll (v :: vs) (rs₁ ++ rs₂) (sweep work (mappingRefs (v :: vs) (t :: us)) h)
          (Tree.pruneMappings work' (t :: us)) := by
      intro hrefs hprune
      obtain ⟨hrest, hchange, hstops⟩ := ih hvs hnodup₂ hplain₂
      have hown' := hown.frame (hvs.keepsLeaves hchange) fun x hx ↦
        hchange.get?_eq x (hv.lt_size hx) fun hx₂ ↦ hdis x hx₂ hx
      rw [hrefs, hprune]
      exact hown'.prunesAll_cons (List.Subset.refl rs₁) hdis hrest
        (hchange.mono fun x hx ↦ List.mem_append_right _ hx) hstops
    cases t with
    | leaf w =>
      refine hskip ?_ rfl
      cases v <;> rfl
    | list items =>
      refine hskip ?_ rfl
      cases v <;> rfl
    | mapping es =>
      obtain ⟨c, kind, entries, ss, rfl, hget, -, -⟩ := hv.of_mapping
      obtain ⟨⟨rs₁', hsub, howns⟩, hchange, hstops⟩ := hwork h c _ rs₁ hown ⟨kind, entries, hget⟩
      have hrest := hvs.frame (hsame _ hchange) (hv.keepsLeaves hchange)
      have hplain₂' := hplain₂.congr (hsame _ hchange)
      have hchange₁ := hchange.mono fun x hx ↦ List.mem_append_left rs₂ hx
      rw [mappingRefs, sweep, Tree.pruneMappings]
      generalize work c h = x at *
      generalize work' (.mapping es) = y at *
      obtain ⟨outcome, h₁⟩ := x
      obtain ⟨t', fault'⟩ := y
      cases hstops with
      | error htells =>
        exact Owns.prunesAll_cons (x := (_, h₁)) howns hsub hdis
          ⟨rs₂, List.Subset.refl rs₂, hrest, hnodup₂, hplain₂'⟩ hchange₁ (.error htells)
      | ok =>
        rw [andThen_ok]
        obtain ⟨hrest', hchange', hstops'⟩ := ih hrest hnodup₂ hplain₂'
        have howns' := howns.frame (hrest.keepsLeaves hchange') fun x hx ↦
          hchange'.get?_eq x (howns.lays.lt_size hx) fun hx₂ ↦ hdis x hx₂ (hsub hx)
        exact howns'.prunesAll_cons hsub hdis hrest'
          (hchange₁.trans hchange' fun x hx _ ↦ List.mem_append_right _ hx) hstops'

/-- A visit of all mappings in a list that owns a tree. -/
theorem prunes_sweep {work : Ref → Heap → Except Fault Unit × Heap}
    {work' : Tree → Tree × Option TreeFault}
    (hwork : ∀ (h : Heap) c t rs, h.Owns (.object c) t rs → h.IsMapping c →
      h.Prunes c rs (work c h) (work' t))
    {h : Heap} {r : Ref} {t : Tree} {rs : List Ref} {s : Slot} (howns : h.Owns (.object r) t rs)
    (hsuits : h.SuitsAt r s) (hs : s.blank = .list []) :
    h.Prunes r rs (sweep work (h.mappingsAmong (h.items r)) h) (t.pruneItems work') := by
  obtain ⟨c, hget, hc⟩ := hsuits
  obtain ⟨items, rfl⟩ : ∃ items, c = .list items := by
    cases s <;> cases c <;> first | exact ⟨_, rfl⟩ | exact hc.elim | simp [Slot.blank] at hs
  obtain ⟨ts, ss, hnode, hcontents, rfl⟩ := howns.lays.of_isContainer hget trivial
  cases hnode
  replace hcontents : h.Lays items ts ss := hcontents
  have hitems : h.items r = items := by rw [Heap.items, hget]
  obtain ⟨hrs, hnodup⟩ := List.nodup_cons.mp howns.nodup
  have hplain : h.Plain ss := fun x hx ↦ howns.plain x (List.mem_cons_of_mem _ hx)
  obtain ⟨⟨ss', hsub, hlays', hnodup', hplain'⟩, hchange, hstops⟩ :=
    prunesAll_sweep hwork hcontents hnodup hplain
  have hamong : h.mappingsAmong items = mappingRefs items ts := mappingsAmong_of_lays hcontents
  rw [hitems, hamong]
  have hr : (sweep work (mappingRefs items ts) h).2.get? r = some (.list items) := by
    rw [hchange.get?_eq r (howns.lays.lt_size (List.mem_cons_self ..)) hrs, hget]
  refine ⟨⟨r :: ss', List.cons_subset_cons r hsub, lays_node hr .list hlays', ?_, ?_⟩,
    hchange.mono fun x hx ↦ List.mem_cons_of_mem _ hx, hstops⟩
  · exact List.nodup_cons.mpr ⟨fun hmem ↦ hrs (hsub hmem), hnodup'⟩
  · intro x hx kind entries hcell
    rcases List.mem_cons.mp hx with rfl | hx
    · rw [hr] at hcell
      cases hcell
    · exact hplain' x hx kind entries hcell

/-! ### Whole removals -/

/-- A last step `name[]` takes the key away, unless there is something else than a list or null. -/
theorem prunes_every {h : Heap} {r : Ref} {t : Tree} {rs : List Ref} (howns : h.Owns (.object r) t rs)
    (hroot : h.IsMapping r) {step : Step} (hplace : step.place = .every) :
    h.Prunes r rs
      (andThen (h.visit r (.field step.name) step.checkList fun _ h ↦ (.ok (), h)) fun _ h ↦
        h.unset r step.name) (Tree.remove [step.hop] t) := by
  have hsuits : h.SuitsAt r (.field step.name) := suitsAt_field_iff.mpr hroot
  have hunset := prunes_unset howns hroot step.name
  obtain ⟨-, rs₂, -, -, hslot, -⟩ := howns.at_slot hsuits
  have hcheck := insists_list h step (s := .next) rfl
  by_cases hnull : (h.slot? r (.field step.name)).getD .null = .null
  · rw [visit, if_pos hnull, andThen_ok,
      Tree.remove_every_of_null hplace (hslot.lays.eq_null_iff.mp hnull)]
    exact hunset
  · have hne := fun heq ↦ hnull (hslot.lays.eq_null_iff.mpr heq)
    rw [visit, if_neg hnull]
    by_cases hkind : ((t.slot? (.field step.name)).getD .null).kind = .list
    · obtain ⟨items, hlist⟩ := Tree.exists_of_kind_eq_list hkind
      obtain ⟨c, -, hok, -⟩ := hcheck.ok _ _ _ hslot.lays hkind
      rw [hok, andThen_ok, andThen_ok, Tree.remove_every_of_list hplace hlist]
      exact hunset
    · obtain ⟨fault, herror, htells⟩ := hcheck.error _ _ _ hslot.lays hkind
      rw [herror, andThen_error, andThen_error, Tree.remove_every_of_ne hplace hne hkind]
      exact ⟨⟨rs, fun _ hx ↦ hx, howns⟩, (Extends.refl h).changesOnly rs, .error htells⟩

/-- Assumes: a mapping that owns a tree, and a path without too long a numeral. A removal does to the
mapping what it does to the tree. -/
theorem prunes_remove {path : String} (hreadable : Path.Readable path) {h : Heap} {r : Ref} {t : Tree}
    {rs : List Ref} (howns : h.Owns (.object r) t rs) (hroot : h.IsMapping r) :
    h.Prunes r rs ((remove r path).effect h) (Tree.remove (Path.hops path) t) := by
  induction path using Path.induction generalizing h r t rs with
  | broken path e he => exact absurd hreadable (Path.not_readable_of_error he)
  | last path step hstep hrest =>
    have hsuits : h.SuitsAt r (.field step.name) := suitsAt_field_iff.mpr hroot
    rw [Path.hops_of_last hstep hrest]
    cases hplace : step.place with
    | key =>
      have htree : Tree.remove [step.hop] t = (t.erase (.field step.name), none) := by
        rw [Step.hop, hplace]
        rfl
      rw [effect_remove_of_last hstep hrest hplace, htree]
      exact prunes_unset howns hroot step.name
    | every =>
      rw [effect_remove_of_last_every hstep hrest hplace]
      exact prunes_every howns hroot hplace
    | item n =>
      have htree : Tree.remove [step.hop] t = t.prune (.field step.name) step.name .list
          fun items ↦ (items.erase (.index n), none) := by
        rw [Step.hop, hplace]
        rfl
      rw [effect_remove_of_last_item hstep hrest hplace, htree]
      exact prunes_visit howns hsuits (insists_list h step (s := .index n) rfl)
        fun c t₁ rs₁ hc hcsuits ↦ prunes_eraseIdx hc hcsuits
  | more path step rest hstep hrest ih =>
    have hsuits : h.SuitsAt r (.field step.name) := suitsAt_field_iff.mpr hroot
    have hnext : ∀ (h : Heap) c t rs, h.Owns (.object c) t rs → h.IsMapping c →
        h.Prunes c rs ((remove c rest).effect h) (Tree.remove (Path.hops rest) t) :=
      fun h c t rs hc hroot ↦ ih ((Path.readable_of_more hstep hrest).mp hreadable) hc hroot
    rw [Path.hops_of_more hstep hrest]
    obtain ⟨hop, hops, hhops⟩ := List.exists_cons_of_ne_nil (Path.hops_ne_nil rest)
    rw [hhops] at hnext ⊢
    cases hplace : step.place with
    | key =>
      have htree : Tree.remove (step.hop :: hop :: hops) t =
          t.prune (.field step.name) step.hop.label .mapping (Tree.remove (hop :: hops)) := by
        rw [Step.hop, hplace]
        rfl
      rw [effect_remove_of_more hstep hrest hplace, htree]
      exact prunes_visit howns hsuits (insists_mapping h step "") fun c t₁ rs₁ hc hcsuits ↦
        hnext h c t₁ rs₁ hc (suitsAt_field_iff.mp hcsuits)
    | every =>
      have htree : Tree.remove (step.hop :: hop :: hops) t =
          t.prune (.field step.name) step.name .list (Tree.pruneItems (Tree.remove (hop :: hops))) := by
        rw [Step.hop, hplace]
        rfl
      rw [effect_remove_of_more_every hstep hrest hplace, htree]
      exact prunes_visit howns hsuits (insists_list h step (s := .next) rfl)
        fun c t₁ rs₁ hc hcsuits ↦ prunes_sweep hnext hc hcsuits rfl
    | item n =>
      have htree : Tree.remove (step.hop :: hop :: hops) t =
          t.prune (.field step.name) step.name .list fun items ↦
            items.prune (.index n) step.hop.label .mapping (Tree.remove (hop :: hops)) := by
        rw [Step.hop, hplace]
        rfl
      rw [effect_remove_of_more_item hstep hrest hplace, htree]
      exact prunes_visit howns hsuits (insists_list h step (s := .index n) rfl)
        fun c t₁ rs₁ hc hcsuits ↦ prunes_visit hc hcsuits (insists_mapping h step "")
          fun d t₂ rs₂ hd hdsuits ↦ hnext h d t₂ rs₂ hd (suitsAt_field_iff.mp hdsuits)

end Heap

end DottedPath
