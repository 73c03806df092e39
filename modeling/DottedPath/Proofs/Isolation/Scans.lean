import DottedPath.Proofs.Isolation.Area
import DottedPath.Proofs.Remove.Kept

/-!
# Scans are confined

A write is confined to every area that has the root and the value and encloses what its containers
hold (`confined_set`), a removal to every such area that has the root (`confined_remove`), whether
they succeed or meet a fault. A read gives only what is in such an area (`within_get`), so the
mapping of a sub-scanner is in it or new (`confined_subMapping`).
-/

set_option autoImplicit false
set_option relaxedAutoImplicit false

namespace DottedPath

open Scan

namespace Table

variable {κ α : Type} [DecidableEq κ]

theorem mem_data_of_put {t : Table κ α} {k : κ} {a b : α} (hb : b ∈ (t.put k a).data) :
    b ∈ t.data ∨ b = a := by
  have hentries : ∀ es : List (κ × α), b ∈ (putEntry es k a).map Prod.snd →
      b ∈ es.map Prod.snd ∨ b = a := by
    intro es
    induction es with
    | nil => simp [putEntry]
    | cons e es ih =>
      rw [putEntry]
      split <;> simp only [List.map_cons, List.mem_cons] <;> tauto
  exact hentries t.entries hb

theorem mem_data_of_erase {t : Table κ α} {k : κ} {b : α} (hb : b ∈ (t.erase k).data) :
    b ∈ t.data := by
  have hentries : ∀ es : List (κ × α), b ∈ (eraseEntry es k).map Prod.snd → b ∈ es.map Prod.snd := by
    intro es
    induction es with
    | nil => simp [eraseEntry]
    | cons e es ih =>
      rw [eraseEntry]
      split <;> simp only [List.map_cons, List.mem_cons] <;> tauto
  exact hentries t.entries hb

end Table

namespace Heap

section Cells

variable {h h' : Heap} {area : Set Ref} {r : Ref}

/-- Work that replaces one container of an area by another one with contents within the area is
confined to the area. -/
theorem confined_of_map {f : Cell → Cell} (harea : h.Encloses area)
    (hr : h.IsContainer r → r ∈ area) (hsize : h'.size = h.size)
    (hget : ∀ x, h'.get? x = if x = r then (h.get? r).map f else h.get? x)
    (hleaf : ∀ c, ¬ c.IsContainer → f c = c)
    (hcontents : ∀ c, ∀ v ∈ (f c).contents, v ∈ c.contents ∨ h.Within area v) :
    h.Confined h' area := by
  have hcontainer : ∀ x < h.size, h'.IsContainer x → h.IsContainer x := by
    rintro x - ⟨c', hc', hcontainer⟩
    by_contra hx
    rw [hget] at hc'
    split at hc'
    · next hxr =>
      subst hxr
      obtain ⟨c, hc, rfl⟩ := Option.map_eq_some_iff.mp hc'
      have hno : ¬ c.IsContainer := fun hcontainer ↦ hx ⟨c, hc, hcontainer⟩
      rw [hleaf c hno] at hcontainer
      exact hno hcontainer
    · exact hx ⟨c', hc', hcontainer⟩
  have hwithin : ∀ v, h.Within area v → h'.Within (h.grown area) v := by
    intro v hv x hx
    obtain ⟨hlt, hmem⟩ := hv x hx
    rw [hsize]
    exact ⟨hlt, fun hx' ↦ .inl (hmem (hcontainer x hlt hx'))⟩
  refine ⟨Nat.le_of_eq hsize.symm, fun x hx hxa ↦ ?_, hcontainer, ?_⟩
  · rw [hget]
    split
    · next hxr =>
      subst hxr
      cases hc : h.get? x with
      | none => rfl
      | some c =>
        have hno : ¬ c.IsContainer := fun hcontainer ↦ hxa (hr ⟨c, hc, hcontainer⟩)
        rw [Option.map_some, hleaf c hno]
    · rfl
  · rintro x (hx | hx) c' hc' v hv
    · rw [hget] at hc'
      split at hc'
      · next hxr =>
        subst hxr
        obtain ⟨c, hc, rfl⟩ := Option.map_eq_some_iff.mp hc'
        rcases hcontents c v hv with hmem | hwith
        · exact hwithin v (harea x hx c hc v hmem)
        · exact hwithin v hwith
      · exact hwithin v (harea x hx c' hc' v hv)
    · rw [← hsize] at hx
      exact absurd (lt_size_of_get? hc') (Nat.not_lt_of_le hx)

theorem confined_mapEntries {change : Table Key Value → Table Key Value} (harea : h.Encloses area)
    (hr : h.IsContainer r → r ∈ area)
    (hchange : ∀ entries, ∀ v ∈ (change entries).data, v ∈ entries.data ∨ h.Within area v) :
    h.Confined (h.mapEntries r change) area := by
  refine confined_of_map harea hr (size_mapEntries ..) (get?_mapEntries h r change) ?_ ?_
  · intro c hc
    cases c with
    | mapping kind entries => exact absurd trivial hc
    | _ => rfl
  · intro c v hv
    cases c with
    | mapping kind entries => exact hchange entries v hv
    | _ => exact .inl hv

theorem confined_mapItems {change : List Value → List Value} (harea : h.Encloses area)
    (hr : h.IsContainer r → r ∈ area)
    (hchange : ∀ items, ∀ v ∈ change items, v ∈ items ∨ h.Within area v) :
    h.Confined (h.mapItems r change) area := by
  refine confined_of_map harea hr (size_mapItems ..) (get?_mapItems h r change) ?_ ?_
  · intro c hc
    cases c with
    | list items => exact absurd trivial hc
    | _ => rfl
  · intro c v hv
    cases c with
    | list items => exact hchange items v hv
    | _ => exact .inl hv

theorem confined_assign {key : Key} {v : Value} (harea : h.Encloses area)
    (hr : h.IsContainer r → r ∈ area) (hv : h.Within area v) (hassign : h.assign r key v = .ok h') :
    h.Confined h' area := by
  unfold assign at hassign
  split at hassign
  · cases hassign
  · obtain rfl := Except.ok.inj hassign
    refine confined_mapEntries harea hr fun entries w hw ↦ ?_
    rcases Table.mem_data_of_put hw with hmem | rfl
    · exact .inl hmem
    · exact .inr hv

theorem confined_delete {key : Key} (harea : h.Encloses area) (hr : h.IsContainer r → r ∈ area)
    (hdelete : h.delete r key = .ok h') : h.Confined h' area := by
  unfold delete at hdelete
  split at hdelete
  · cases hdelete
  · obtain rfl := Except.ok.inj hdelete
    exact confined_mapEntries harea hr fun entries w hw ↦ .inl (Table.mem_data_of_erase hw)

theorem confined_push {v : Value} (harea : h.Encloses area) (hr : h.IsContainer r → r ∈ area)
    (hv : h.Within area v) : h.Confined (h.mapItems r fun items ↦ items ++ [v]) area := by
  refine confined_mapItems harea hr fun items w hw ↦ ?_
  rcases List.mem_append.mp hw with hmem | hmem
  · exact .inl hmem
  · rw [List.mem_singleton.mp hmem]
    exact .inr hv

theorem confined_setItem {n : Nat} {v : Value} (harea : h.Encloses area)
    (hr : h.IsContainer r → r ∈ area) (hv : h.Within area v) :
    h.Confined (h.mapItems r fun items ↦ items.set n v) area := by
  refine confined_mapItems harea hr fun items w hw ↦ ?_
  rcases List.mem_or_eq_of_mem_set hw with hmem | rfl
  · exact .inl hmem
  · exact .inr hv

theorem confined_eraseItem {n : Nat} (harea : h.Encloses area) (hr : h.IsContainer r → r ∈ area) :
    h.Confined (h.mapItems r fun items ↦ items.eraseIdx n) area :=
  confined_mapItems harea hr fun _ _ hw ↦ .inl (List.mem_of_mem_eraseIdx hw)

theorem confined_putItem {n : Nat} {v : Value} (harea : h.Encloses area)
    (hr : h.IsContainer r → r ∈ area) (hv : h.Within area v) (hput : h.putItem r n v = .ok h') :
    h.Confined h' area := by
  simp only [putItem] at hput
  split at hput
  · obtain rfl := Except.ok.inj hput
    exact confined_setItem harea hr hv
  · split at hput
    · cases hput
    · split at hput
      · cases hput
      · obtain rfl := Except.ok.inj hput
        refine confined_mapItems harea hr fun items w hw ↦ ?_
        simp only [List.mem_append, List.mem_singleton] at hw
        rcases hw with (hmem | hmem) | rfl
        · exact .inl hmem
        · rw [List.eq_of_mem_replicate hmem]
          exact .inr (within_of_ref?_eq_none rfl)
        · exact .inr hv

theorem confined_fill {s : Slot} {v : Value} (harea : h.Encloses area)
    (hr : h.IsContainer r → r ∈ area) (hv : h.Within area v) (hfill : h.fill r s v = .ok h') :
    h.Confined h' area := by
  cases s with
  | field name => exact confined_assign harea hr hv hfill
  | index n => exact confined_putItem harea hr hv hfill
  | next =>
    obtain rfl := Except.ok.inj hfill
    exact confined_push harea hr hv

/-- A new container in which nothing stands. -/
theorem confined_alloc {c : Cell} (harea : h.Encloses area) (hc : c.contents = []) :
    h.Confined (h.alloc c) area where
  size_le := (extends_alloc h c).size_le
  get?_eq x hx _ := (extends_alloc h c).get?_eq x hx
  isContainer x hx := (IsContainer.congr ((extends_alloc h c).get?_eq x hx)).mp
  encloses := by
    rintro x hx c' hget v hv y hy
    rw [get?_alloc] at hget
    split at hget
    · obtain rfl := Option.some.inj hget
      simp [hc] at hv
    · have hxa : x ∈ area := hx.resolve_right (Nat.not_le_of_lt (lt_size_of_get? hget))
      obtain ⟨hlt, hmem⟩ := harea x hxa c' hget v hv y hy
      have hext := extends_alloc h c
      exact ⟨Nat.lt_of_lt_of_le hlt hext.size_le,
        fun hy' ↦ .inl (hmem ((IsContainer.congr (hext.get?_eq y hlt)).mp hy'))⟩

theorem within_alloc (h : Heap) (c : Cell) (area : Set Ref) :
    (h.alloc c).Within (h.grown area) (.object h.size) := by
  refine within_object ?_ fun _ ↦ .inr (Nat.le_refl _)
  rw [size_alloc]
  exact Nat.lt_succ_self _

theorem confined_changed {change : Except Fault Heap} (harea : h.Encloses area)
    (hchange : ∀ h', change = .ok h' → h.Confined h' area) :
    h.Confined (changed h change).2 area := by
  cases change with
  | ok h' => exact hchange h' rfl
  | error fault => exact .refl harea

end Cells

/-! ### Walks from container to container -/

section Walks

variable {h : Heap} {area : Set Ref} {r : Ref} {s : Slot} {check : Heap → Value → Except Fault Ref}

/-- What is in a slot of a container of the area is within the area. -/
theorem within_of_slot? {v : Value} (harea : h.Encloses area) (hr : h.Within area (.object r))
    (hslot : h.slot? r s = some v) : h.Within area v := by
  obtain ⟨c, hget, hc⟩ := Option.bind_eq_some_iff.mp hslot
  have hmem := Cell.mem_contents_of_slot? hc
  have hcontainer : h.IsContainer r := ⟨c, hget, isContainer_of_mem_contents hmem⟩
  exact harea r ((hr r rfl).2 hcontainer) c hget v hmem

theorem within_getD_slot? (harea : h.Encloses area) (hr : h.Within area (.object r)) :
    h.Within area ((h.slot? r s).getD .null) := by
  cases hslot : h.slot? r s with
  | none => exact within_of_ref?_eq_none rfl
  | some v => exact within_of_slot? harea hr hslot

theorem Confined.andThen {α β : Type} {x : Except Fault α × Heap}
    {next : α → Heap → Except Fault β × Heap} (hx : h.Confined x.2 area)
    (hnext : ∀ a, x.1 = .ok a → x.2.Confined (next a x.2).2 (h.grown area)) :
    h.Confined (andThen x next).2 area := by
  obtain ⟨fault | a, h'⟩ := x
  · exact hx
  · exact hx.trans (hnext a rfl)

/-- The container that a write goes on in is within the area, or new. -/
theorem confined_enter {blank : Cell} (harea : h.Encloses area) (hr : h.Within area (.object r))
    (hblank : blank.contents = []) (hcheck : ∀ h v c, check h v = .ok c → v = .object c) :
    h.Confined (h.enter r s blank check).2 area ∧
      ∀ c, (h.enter r s blank check).1 = .ok c →
        (h.enter r s blank check).2.Within (h.grown area) (.object c) := by
  by_cases hnull : (h.slot? r s).getD .null = .null
  · rw [enter_of_null hnull]
    refine ⟨confined_alloc harea hblank, fun c hc ↦ ?_⟩
    obtain rfl := Except.ok.inj hc
    exact within_alloc h blank area
  · rw [enter_of_ne hnull]
    refine ⟨.refl harea, fun c hc ↦ ?_⟩
    rw [← hcheck _ _ _ hc]
    exact (within_getD_slot? harea hr).mono (subset_grown h area)

theorem confined_through {blank : Cell} {work : Ref → Heap → Except Fault Unit × Heap}
    (harea : h.Encloses area) (hr : h.Within area (.object r)) (hblank : blank.contents = [])
    (hcheck : ∀ h v c, check h v = .ok c → v = .object c)
    (hwork : ∀ c h₁, h.Confined h₁ area → h₁.Within (h.grown area) (.object c) →
      h₁.Confined (work c h₁).2 (h.grown area)) :
    h.Confined (h.through r s blank check work).2 area := by
  obtain ⟨henter, hchild⟩ := confined_enter (s := s) harea hr hblank hcheck
  refine henter.andThen fun c hc ↦ ?_
  have hdone := hwork c _ henter (hchild c hc)
  refine hdone.andThen fun _ _ ↦ ?_
  refine confined_changed hdone.encloses fun h' hfill ↦ ?_
  have hroot := (hr.of_confined henter).of_confined hdone
  exact confined_fill hdone.encloses (hroot r rfl).2 ((hchild c hc).of_confined hdone) hfill

theorem confined_visit {work : Ref → Heap → Except Fault Unit × Heap} (harea : h.Encloses area)
    (hr : h.Within area (.object r)) (hcheck : ∀ h v c, check h v = .ok c → v = .object c)
    (hwork : ∀ c, h.Within area (.object c) → h.Confined (work c h).2 area) :
    h.Confined (h.visit r s check work).2 area := by
  unfold visit
  split
  · exact .refl harea
  · cases hok : check h ((h.slot? r s).getD .null) with
    | error fault => exact .refl harea
    | ok c =>
      refine hwork c ?_
      rw [← hcheck _ _ _ hok]
      exact within_getD_slot? harea hr

theorem confined_sweep {work : Ref → Heap → Except Fault Unit × Heap} {rs : List Ref}
    (hwork : ∀ c (h : Heap) area, h.Encloses area → h.Within area (.object c) →
      h.Confined (work c h).2 area)
    (harea : h.Encloses area) (hrs : ∀ c ∈ rs, h.Within area (.object c)) :
    h.Confined (sweep work rs h).2 area := by
  induction rs generalizing h area with
  | nil => exact .refl harea
  | cons c rs ih =>
    have hfirst := hwork c h area harea (hrs c (List.mem_cons_self ..))
    exact hfirst.andThen fun _ _ ↦ ih hfirst.encloses fun d hd ↦
      (hrs d (List.mem_cons_of_mem _ hd)).of_confined hfirst

end Walks

end Heap

/-! ### Whole scans -/

section Scans

variable {h : Heap} {area : Set Ref} {root : Ref}

theorem Step.confined_reach {limit : Option Nat} {step : Step}
    {work : Ref → Slot → Heap → Except Fault Unit × Heap} (harea : h.Encloses area)
    (hroot : h.Within area (.object root))
    (hwork : ∀ r s h₁, h.Confined h₁ area → h₁.Within (h.grown area) (.object r) →
      h₁.Confined (work r s h₁).2 (h.grown area)) :
    h.Confined (step.reach limit root work h).2 area := by
  have hrefl := Heap.Confined.refl harea
  unfold reach
  split
  · exact hrefl.trans (hwork root _ h hrefl (hroot.mono (Heap.subset_grown h area)))
  · next slot _ =>
    cases step.checkLimit limit with
    | error fault => exact hrefl
    | ok _ =>
      exact Heap.confined_through harea hroot rfl Step.eq_object_of_checkList fun c h₁ hconfined hc ↦
        hwork c slot h₁ hconfined hc

/-- A write is confined to the area of the root and the value. -/
theorem confined_set (limit : Option Nat) (path : String) {v : Value} (harea : h.Encloses area)
    (hroot : h.Within area (.object root)) (hv : h.Within area v) :
    h.Confined ((set limit root path v).effect h).2 area := by
  induction path using Path.induction generalizing h area root with
  | broken path e he =>
    rw [effect_set_of_error he]
    exact .refl harea
  | last path step hstep hrest =>
    rw [effect_set_of_last hstep hrest]
    refine Step.confined_reach harea hroot fun r s h₁ hconfined hr ↦ ?_
    refine Heap.confined_changed hconfined.encloses fun h' hfill ↦ ?_
    exact Heap.confined_fill hconfined.encloses (hr r rfl).2 (hv.of_confined hconfined) hfill
  | more path step rest hstep hrest ih =>
    rw [effect_set_of_more hstep hrest]
    refine Step.confined_reach harea hroot fun r s h₁ hconfined hr ↦ ?_
    refine Heap.confined_through hconfined.encloses hr rfl Step.eq_object_of_checkMapping ?_
    intro c h₂ hconfined₂ hc
    exact ih hconfined₂.encloses hc ((hv.of_confined hconfined).of_confined hconfined₂)

theorem Heap.confined_unset (harea : h.Encloses area) (hroot : h.Within area (.object root))
    (name : String) : h.Confined (h.unset root name).2 area := by
  unfold unset
  split
  · exact .refl harea
  · exact confined_changed harea fun h' hdelete ↦ confined_delete harea (hroot root rfl).2 hdelete

theorem Heap.within_items (harea : h.Encloses area) (hroot : h.Within area (.object root)) {v : Value}
    (hv : v ∈ h.items root) : h.Within area v := by
  obtain ⟨n, hn, rfl⟩ := List.mem_iff_getElem.mp hv
  refine within_of_slot? (s := .index n) harea hroot ?_
  rw [← getElem?_items_eq_slot?, List.getElem?_eq_getElem hn]

/-- A removal is confined to the area of the root. -/
theorem confined_remove (path : String) (harea : h.Encloses area)
    (hroot : h.Within area (.object root)) :
    h.Confined ((remove root path).effect h).2 area := by
  induction path using Path.induction generalizing h area root with
  | broken path e he =>
    rw [effect_remove_of_error he]
    exact .refl harea
  | last path step hstep hrest =>
    cases hplace : step.place with
    | key =>
      rw [effect_remove_of_last hstep hrest hplace]
      exact Heap.confined_unset harea hroot step.name
    | every =>
      rw [effect_remove_of_last_every hstep hrest hplace]
      have hlook : h.Confined (h.visit root (.field step.name) step.checkList
          fun _ h ↦ (.ok (), h)).2 area :=
        Heap.confined_visit harea hroot Step.eq_object_of_checkList fun _ _ ↦ .refl harea
      exact hlook.andThen fun _ _ ↦
        Heap.confined_unset hlook.encloses (hroot.of_confined hlook) step.name
    | item n =>
      rw [effect_remove_of_last_item hstep hrest hplace]
      exact Heap.confined_visit harea hroot Step.eq_object_of_checkList fun c hc ↦
        Heap.confined_eraseItem harea (hc c rfl).2
  | more path step rest hstep hrest ih =>
    cases hplace : step.place with
    | key =>
      rw [effect_remove_of_more hstep hrest hplace]
      exact Heap.confined_visit harea hroot Step.eq_object_of_checkMapping fun c hc ↦ ih harea hc
    | every =>
      rw [effect_remove_of_more_every hstep hrest hplace]
      refine Heap.confined_visit harea hroot Step.eq_object_of_checkList fun c hc ↦ ?_
      refine Heap.confined_sweep (fun d h₁ area₁ harea₁ hd ↦ ih harea₁ hd) harea fun d hd ↦ ?_
      exact Heap.within_items harea hc (Heap.mem_mappingsAmong_iff.mp hd).1
    | item n =>
      rw [effect_remove_of_more_item hstep hrest hplace]
      refine Heap.confined_visit harea hroot Step.eq_object_of_checkList fun c hc ↦ ?_
      exact Heap.confined_visit harea hc Step.eq_object_of_checkMapping fun d hd ↦ ih harea hd

/-! ### Reads and sub-scanners -/

theorem Heap.within_asMapping {field path : String} {mode : AccessMode} {v : Value} {c : Ref}
    (hv : h.Within area v) (hmapping : h.asMapping field path mode v = .ok c) :
    h.Within area (.object c) := by
  rwa [← (of_asMapping hmapping).1]

theorem Heap.within_item {field path : String} {mode : AccessMode} {v : Value}
    {list : Ref × List Value} (harea : h.Encloses area) (hv : h.Within area v)
    (hlist : h.asList field path mode v = .ok list) (n : Nat) :
    h.Within area (list.2[n]?.getD .null) := by
  rw [getElem?_of_asList hlist]
  exact within_getD_slot? harea (by rwa [← (of_asList hlist).1])

theorem Heap.within_descend {step : Step} {mode : AccessMode} {v : Value} {n? : Option Nat}
    {child? : Option Ref} (harea : h.Encloses area) (hv : h.Within area v)
    (hdescend : h.descend step mode v n? = .ok child?) : ∀ c ∈ child?, h.Within area (.object c) := by
  intro c hc
  obtain rfl := Option.mem_def.mp hc
  cases n? with
  | none =>
    rw [descend_none] at hdescend
    split at hdescend
    · cases hdescend
    · obtain ⟨d, hmapping, hd⟩ := exists_of_map_eq_ok hdescend
      obtain rfl := Option.some.inj hd
      exact within_asMapping hv hmapping
  | some n =>
    rw [descend_some] at hdescend
    split at hdescend
    · cases hdescend
    · cases hlist : h.asList step.name step.text mode v with
      | error fault => simp [hlist, Except.bind] at hdescend
      | ok list =>
        simp only [hlist, Except.bind] at hdescend
        split at hdescend
        · cases hdescend
        · obtain ⟨d, hmapping, hd⟩ := exists_of_map_eq_ok hdescend
          obtain rfl := Option.some.inj hd
          exact within_asMapping (within_item harea hv hlist n) hmapping

theorem Heap.within_orElse {step : Step} {rest : String} {hrest : step.rest = some rest}
    {child? : Option Ref} (hchild : ∀ c ∈ child?, h.Within area (.object c)) :
    (Move.orElse .null hrest child?).elim (h.Within area) fun child _ ↦
      h.Within area (.object child) := by
  cases child? with
  | none => exact within_of_ref?_eq_none rfl
  | some c => exact hchild c rfl

/-- What a step of a read gives, and where it leads to, is within the area. -/
theorem Heap.within_readMove {step : Step} {move : Move step Value} (harea : h.Encloses area)
    (hroot : h.Within area (.object root)) (hmove : h.readMove root step = .ok move) :
    move.elim (h.Within area) fun child _ ↦ h.Within area (.object child) := by
  have hnull : h.Within area .null := within_of_ref?_eq_none rfl
  unfold readMove at hmove
  split at hmove
  · rw [← Except.ok.inj hmove]
    exact hnull
  · next v hfield =>
    rw [field?_eq_slot?] at hfield
    have hv := within_of_slot? harea hroot hfield
    split at hmove
    · rw [← Except.ok.inj hmove]
      exact hv
    · split at hmove
      · rw [← Except.ok.inj hmove]
        exact hnull
      · obtain ⟨list, hlist, rfl⟩ := exists_of_map_eq_ok hmove
        exact hv
    · split at hmove
      · rw [← Except.ok.inj hmove]
        exact hnull
      · obtain ⟨list, hlist, rfl⟩ := exists_of_map_eq_ok hmove
        exact within_item harea hv hlist _
    · split at hmove
      · rw [← Except.ok.inj hmove]
        exact hnull
      · cases hlist : h.asList step.name step.text .read v with
        | error fault => simp [hlist, bind, Except.bind] at hmove
        | ok list => simp [hlist, bind, Except.bind] at hmove
    · obtain ⟨child?, hdescend, rfl⟩ := exists_of_map_eq_ok hmove
      exact within_orElse (within_descend harea hv hdescend)
    · obtain ⟨child?, hdescend, rfl⟩ := exists_of_map_eq_ok hmove
      exact within_orElse (within_descend harea hv hdescend)

/-- What is read is within the area of the root. -/
theorem within_get {path : String} {v : Value} (harea : h.Encloses area)
    (hroot : h.Within area (.object root)) (hget : ((get root path).effect h).1 = .ok v) :
    h.Within area v := by
  induction path using Path.induction generalizing root with
  | broken path e he => simp [follows_get.effect_of_error he] at hget
  | last path step hstep hrest =>
    rw [follows_get.outcome_of_ok hstep] at hget
    cases hmove : h.readMove root step with
    | error fault => simp [hmove, Except.bind] at hget
    | ok move =>
      have hwithin := Heap.within_readMove harea hroot hmove
      cases move with
      | done w =>
        obtain rfl : w = v := by simpa [hmove, Except.bind, Move.elim] using hget
        exact hwithin
      | enter child rest hrest' => simp [hrest] at hrest'
  | more path step rest hstep hrest ih =>
    rw [follows_get.outcome_of_ok hstep] at hget
    cases hmove : h.readMove root step with
    | error fault => simp [hmove, Except.bind] at hget
    | ok move =>
      have hwithin := Heap.within_readMove harea hroot hmove
      rw [hmove] at hget
      cases move with
      | done w =>
        obtain rfl : w = v := by simpa [Except.bind, Move.elim] using hget
        exact hwithin
      | enter child rest' hrest' =>
        obtain rfl : rest' = rest := by simpa [hrest] using hrest'.symm
        exact ih hwithin hget

theorem within_getAs {path : String} {expected : Expected} {v : Value} (harea : h.Encloses area)
    (hroot : h.Within area (.object root))
    (hget : ((getAs root path (some expected)).effect h).1 = .ok v) : h.Within area v := by
  rw [effect_getAs] at hget
  rcases hread : (get root path).effect h with ⟨fault | w, h₁⟩
  · simp [hread] at hget
  · simp only [hread, andThen_ok] at hget
    split at hget
    · exact within_get harea hroot (by rw [hread, hget])
    · cases hget

/-- Opening or making a mapping is confined to the area of the root, and the mapping is within the
area or new. -/
theorem confined_subMapping (limit : Option Nat) (path : String) (harea : h.Encloses area)
    (hroot : h.Within area (.object root)) :
    h.Confined ((subMapping limit root path).effect h).2 area ∧
      ∀ c, ((subMapping limit root path).effect h).1 = .ok c →
        ((subMapping limit root path).effect h).2.Within (h.grown area) (.object c) := by
  have hread : ∀ v, ((getAs root path (some (.shape .mapping))).effect h).1 = .ok v →
      h.Within area v := fun v ↦ within_getAs harea hroot
  have hheap := effect_getAs_snd root path (.shape .mapping) h
  rw [effect_subMapping]
  generalize (getAs root path (some (.shape .mapping))).effect h = x at hread hheap
  obtain ⟨fault | v, h₁⟩ := x
  · obtain rfl : h₁ = h := hheap
    exact ⟨.refl harea, nofun⟩
  obtain rfl : h₁ = h := hheap
  rw [andThen_ok]
  split
  · next hnode =>
    refine ⟨.refl harea, fun c hc ↦ ?_⟩
    obtain rfl := Except.ok.inj hc
    rw [← (Heap.of_node_eq_mapping hnode).1]
    exact (hread v rfl).mono (Heap.subset_grown h₁ area)
  · have halloc := Heap.confined_alloc (c := .mapping .plain .empty) harea rfl
    have hnew := Heap.within_alloc h₁ (.mapping .plain .empty) area
    have hset := confined_set limit path halloc.encloses (hroot.of_confined halloc) hnew
    have hmade := halloc.trans hset
    rcases hresult : (set limit root path (.object h₁.size)).effect
      (h₁.alloc (.mapping .plain .empty)) with ⟨fault | _, h₂⟩
    · rw [hresult] at hmade
      exact ⟨hmade, nofun⟩
    · rw [hresult] at hmade hset
      refine ⟨hmade, fun c hc ↦ ?_⟩
      obtain rfl := Except.ok.inj hc
      exact Heap.within_object ((hnew.of_confined hset) _ rfl).1 fun _ ↦ .inr (Nat.le_refl _)

end Scans

end DottedPath
