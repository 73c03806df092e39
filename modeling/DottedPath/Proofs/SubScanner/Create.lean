import DottedPath.Proofs.Remove.Bulk
import DottedPath.Proofs.Scan.Misfit
import DottedPath.Proofs.Write.Verdict

/-!
# A sub-scanner is found or made

A sub-scanner is opened on the mapping that is read at its path. Where null is read, a new mapping is
written there; this mapping is then the one that is read, so that opening the sub-scanner again finds
it (`sub_scanner_finds_or_makes`). The four ways in which it goes are told apart in
`opens_subMapping`: the read fails, or it gives something that is no mapping, a mapping, or null.

Where null has been read, the path leads to a slot in which nothing stands (`Heap.RunsOut`), so the
write that follows meets nothing of a wrong shape on its way (`misfitIn?_set_of_runsOut`). It can
still fail, at an index above the limit or a list that cannot be padded so far. Since no mapping on
its way is read-only, it is not refused then (`extends_of_set_error_of_writable`), and all that was
there is as it was.
-/

set_option autoImplicit false
set_option relaxedAutoImplicit false

namespace DottedPath

open Scan

namespace Heap

/-! ### Paths along which nothing stands -/

section RunsOut

variable {h h' : Heap} {r c d : Ref} {s t : Slot} {slots : List Slot}

theorem RunsOut.suitsAt (hout : h.RunsOut r (s :: slots)) : h.SuitsAt r s := by
  obtain ⟨before, u, behind, c, heq, hleads, hsuits, -⟩ := hout
  cases hleads with
  | here =>
    obtain rfl : s = u := (List.cons.inj heq).1
    exact hsuits
  | through hslot _ =>
    obtain rfl := (List.cons.inj heq).1
    exact suitsAt_of_slot? hslot

/-- Nothing stands in the first slot, or it leads to a container from which the others run out. -/
theorem RunsOut.null_or_through (hout : h.RunsOut r (s :: slots)) :
    (h.slot? r s).getD .null = .null ∨
      ∃ d, h.slot? r s = some (.object d) ∧ h.RunsOut d slots := by
  obtain ⟨before, u, behind, c, heq, hleads, hsuits, hnull⟩ := hout
  cases hleads with
  | here =>
    obtain rfl : s = u := (List.cons.inj heq).1
    exact .inl hnull
  | @through _ d _ _ before hslot hleads =>
    obtain ⟨rfl, rfl⟩ := List.cons.inj heq
    exact .inr ⟨d, hslot, before, u, behind, c, rfl, hleads, hsuits, hnull⟩

theorem RunsOut.of_extends (hout : h.RunsOut r slots) (hext : h.Extends h') : h'.RunsOut r slots := by
  obtain ⟨before, s, behind, c, rfl, hleads, hsuits, hnull⟩ := hout
  have hget := hext.get?_eq c (lt_size_of_suitsAt hsuits)
  exact ⟨before, s, behind, c, rfl, hleads.of_extends hext, by rwa [SuitsAt, hget],
    by rwa [slot?, hget]⟩

/-- What is added to a heap is not on the way of a path along which nothing stands. -/
theorem RunsOut.writable (hout : h.RunsOut r slots) (hwritable : h.Writable r slots)
    (hext : h.Extends h') : h'.Writable r slots := by
  induction slots generalizing r with
  | nil =>
    rintro before u after d heq -
    simp at heq
  | cons s slots ih =>
    have hget := hext.get?_eq r (lt_size_of_suitsAt hout.suitsAt)
    rintro before u after d heq hleads
    cases hleads with
    | here =>
      rw [isReadOnly, hget]
      exact hwritable.head
    | @through _ c _ _ before hslot hleads =>
      obtain ⟨rfl, rfl⟩ := List.cons.inj heq
      rw [slot?, hget] at hslot
      obtain hnull | ⟨c', hslot', hout'⟩ := hout.null_or_through
      · rw [slot?, hslot] at hnull
        cases hnull
      · obtain rfl : c = c' := by
          rw [slot?, hslot] at hslot'
          exact Value.object.inj (Option.some.inj hslot')
        exact ih hout' (@Writable.right h r c [s] _ hwritable (.through hslot' (.here c)))
          before u after d rfl hleads

end RunsOut

/-! ### Writes along which nothing is read-only -/

section Refusal

variable {h h' : Heap} {limit : Option Nat} {place : Option Ref} {step : Step} {root : Ref}
variable {path : String} {v : Value} {e : Fault}

/-- If there is a fault, it is not one of a container that refuses to be changed. -/
def Unrefused (fault? : Option Fault) : Prop := ∀ refusal, fault? ≠ some (.refused refusal)

theorem unrefused_none : Unrefused none := nofun

theorem Unrefused.or {first? last? : Option Fault} (hfirst : Unrefused first?)
    (hlast : Unrefused last?) : Unrefused (first?.or last?) := by
  cases first? with
  | none => exact hlast
  | some e => exact hfirst

theorem unrefused_limitFault? : Unrefused (step.limitFault? limit) := by
  intro refusal
  unfold Step.limitFault?
  repeat' split
  all_goals simp

theorem unrefused_shapeFault? (field : String) (kind : NodeKind) (v : Value) :
    Unrefused (h.shapeFault? step field kind v) := by
  intro refusal
  unfold shapeFault?
  split <;> simp

theorem unrefused_stepFault? : Unrefused (h.stepFault? limit place step) := by
  refine unrefused_limitFault?.or (Unrefused.or ?_ ?_)
  · unfold fieldFault?
    repeat' split
    all_goals first | exact unrefused_none | exact unrefused_shapeFault? _ _ _
  · unfold itemFault?
    repeat' split
    all_goals first | exact unrefused_none | exact unrefused_shapeFault? _ _ _

theorem unrefused_stepPadding? : Unrefused (h.stepPadding? place step) := by
  intro refusal
  unfold stepPadding? paddingFault?
  repeat' split
  all_goals simp

theorem unrefused_firstFault? (steps : List Step) : Unrefused (h.firstFault? limit place steps) := by
  induction steps generalizing place with
  | nil => exact unrefused_none
  | cons step steps ih => exact unrefused_stepFault?.or ih

theorem unrefused_lastPadding? (steps : List Step) : Unrefused (h.lastPadding? place steps) := by
  induction steps generalizing place with
  | nil => exact unrefused_none
  | cons step steps ih => exact ih.or unrefused_stepPadding?

theorem unrefused_writeFault? (steps : List Step) (stop : Option LongNumeral) :
    Unrefused (h.writeFault? limit place steps stop) := by
  have hstop : Unrefused (stop.map .numeral) := by
    intro refusal
    cases stop <;> simp
  exact (unrefused_firstFault? steps).or (hstop.or (unrefused_lastPadding? steps))

/-- Assumes: an acyclic heap, a root that is a mapping, and no read-only mapping on the way of a write
there. If it fails, every cell that was there is as it was. -/
theorem extends_of_set_error_of_writable (hacyclic : h.Acyclic) (hroot : h.IsMapping root)
    (hwritable : h.Writable root (Path.slots path))
    (hset : (set limit root path v).effect h = (.error e, h')) : h.Extends h' := by
  obtain ⟨steps, stop, hwalk⟩ := Path.exists_walk path
  have hverdict := (@judges_set limit path v steps stop hwalk).fst_eq hacyclic
    (suitsAt_slots hroot path) hwritable
  rw [hset] at hverdict
  refine (spotless_set hacyclic hroot e h' hset).2 ?_
  rintro rfl
  exact unrefused_writeFault? steps stop _ (eq_some_of_verdict hverdict)

end Refusal

/-! ### Shapes on the way -/

theorem misfitAt_of_runsOut {h : Heap} {r : Ref} {s : Slot} {slots : List Slot}
    {check : Heap → Value → Except Fault Ref} {behind : Ref → Option ShapeFault}
    (hout : h.RunsOut r (s :: slots))
    (hcheck : ∀ d, h.RunsOut d slots → check h (.object d) = .ok d)
    (hbehind : ∀ d, h.RunsOut d slots → behind d = none) : h.misfitAt r s check behind = none := by
  obtain hnull | ⟨d, hslot, hout'⟩ := hout.null_or_through
  · exact misfitAt_of_null hnull
  · have hvalue : (h.slot? r s).getD .null = .object d := by rw [hslot, Option.getD_some]
    rw [misfitAt_of_ok (c := d) (by simp [hvalue]) (by rw [hvalue, hcheck d hout']),
      hbehind d hout']

end Heap

namespace Scan

variable {h h' : Heap} {root c : Ref} {path : String} {v : Value} {limit : Option Nat}

/-- Where nothing stands along a path, a write there meets nothing of a wrong shape. -/
theorem misfitIn?_set_of_runsOut (hout : h.RunsOut root (Path.slots path)) :
    misfitIn? ((set limit root path v).effect h) = none := by
  induction path using Path.induction generalizing root with
  | broken path e he => rw [effect_set_of_error he]; rfl
  | last path step hstep hrest =>
    cases hplace : step.place.slot? with
    | none =>
      exact (misfitIn?_of_last_key hstep hrest (Place.slot?_eq_none_iff.mp hplace) limit root v h).2.2
    | some slot =>
      rw [Path.slots_of_last hstep hrest, Step.slots_of_slot? hplace] at hout
      obtain hset | ⟨-, hnone⟩ :
          misfitIn? ((set limit root path v).effect h) = _ ∨ _ ∧ _ = none :=
        misfitIn?_set_of_last hstep hrest hplace
      · rw [hset]
        exact Heap.misfitAt_of_runsOut hout
          (fun list hlist ↦ Heap.checkList_of_suitsAt hplace hlist.suitsAt) fun _ _ ↦ rfl
      · exact hnone
  | more path step rest hstep hrest ih =>
    obtain ⟨name, slots, hslots⟩ := Path.exists_slots_eq rest
    have hmapping : ∀ d, h.RunsOut d (Path.slots rest) → step.checkMapping h (.object d) = .ok d := by
      intro d hd
      rw [hslots] at hd
      exact Heap.checkMapping_of_suitsAt hd.suitsAt
    rw [Path.slots_of_more hstep hrest] at hout
    obtain hset | ⟨-, hnone⟩ := misfitIn?_set_of_more hstep hrest limit root v h
    · rw [hset, Heap.misfitAlong]
      cases hplace : step.place.slot? with
      | none =>
        rw [Step.slots_of_key (Place.slot?_eq_none_iff.mp hplace)] at hout
        exact Heap.misfitAt_of_runsOut hout hmapping fun d ↦ ih
      | some slot =>
        rw [Step.slots_of_slot? hplace] at hout
        exact Heap.misfitAt_of_runsOut hout
          (fun list hlist ↦ Heap.checkList_of_suitsAt hplace hlist.suitsAt)
          fun list hlist ↦ Heap.misfitAt_of_runsOut hlist hmapping fun d ↦ ih
    · exact hnone

/-! ### The ways in which a sub-scanner is opened -/

theorem Steady.exists_error_iff {α : Type} {work : Scan α} (hwork : Steady work) {w : Workplace}
    {e : Fault} : (∃ w', work w = .error e w') ↔ (work.effect w.heap).1 = .error e := by
  rw [← hwork w]
  cases work w <;> simp [outcome]

theorem Steady.exists_ok_iff_fst {α : Type} {work : Scan α} (hwork : Steady work) {w : Workplace}
    {a : α} : (∃ w', work w = .ok a w') ↔ (work.effect w.heap).1 = .ok a := by
  rw [← hwork w]
  cases work w <;> simp [outcome]

/-- How the mapping at a path is opened: the read fails, or it gives something that is no mapping, or a
mapping, or null, and then a new mapping is written. -/
inductive Opens (limit : Option Nat) (root : Ref) (path : String) (h : Heap) :
    Except Fault Ref × Heap → Prop
  | unread {e : Fault} (hget : (get root path).effect h = (.error e, h)) :
    Opens limit root path h (.error e, h)
  | misfit {v : Value} (hget : (get root path).effect h = (.ok v, h)) (hv : v ≠ .null)
    (hkind : h.kindOf v ≠ .mapping) : Opens limit root path h
      (.error (.shape ⟨Text.trimmed path, Text.trimmed path, .shape .mapping, v, .read⟩), h)
  | found {c : Ref} (hget : (get root path).effect h = (.ok (.object c), h)) (hc : h.IsMapping c) :
    Opens limit root path h (.ok c, h)
  | unmade {e : Fault} {h' : Heap} (hget : (get root path).effect h = (.ok .null, h))
    (hset : (set limit root path (.object h.size)).effect (h.alloc (.mapping .plain .empty)) =
      (.error e, h')) : Opens limit root path h (.error e, h')
  | made {h' : Heap} (hget : (get root path).effect h = (.ok .null, h))
    (hset : (set limit root path (.object h.size)).effect (h.alloc (.mapping .plain .empty)) =
      (.ok (), h')) : Opens limit root path h (.ok h.size, h')

theorem opens_subMapping (limit : Option Nat) (root : Ref) (path : String) (h : Heap) :
    Opens limit root path h ((subMapping limit root path).effect h) := by
  have hsame := follows_get.effect_snd root path h
  rcases hget : (get root path).effect h with ⟨e | v, h₁⟩
  · obtain rfl : h₁ = h := by rw [← hsame, hget]
    rw [effect_subMapping, effect_getAs, hget, andThen_error, andThen_error]
    exact .unread hget
  · obtain rfl : h₁ = h := by rw [← hsame, hget]
    by_cases hv : v = .null
    · subst hv
      rw [effect_subMapping_of_null hget]
      rcases hset : (set limit root path (.object h₁.size)).effect
        (h₁.alloc (.mapping .plain .empty)) with ⟨e | _, h'⟩
      · exact .unmade hget hset
      · exact .made hget hset
    · by_cases hkind : h₁.kindOf v = .mapping
      · obtain ⟨c, rfl, hc⟩ := Heap.kindOf_eq_mapping_iff.mp hkind
        rw [effect_subMapping_of_isMapping hc hget]
        exact .found hget hc
      · have hfits : h₁.fits v (.shape .mapping) = false := by simpa [Heap.fits] using hkind
        rw [effect_subMapping, effect_getAs, hget, andThen_ok, if_neg (by simp [hv, hfits])]
        exact .misfit hget hv hkind

section Made

variable {e : Fault}

/-- A path without a step `name[]` that is read to null leads to a slot in which nothing stands. -/
theorem runsOut_of_get (hroot : h.IsMapping root)
    (hplaces : ∀ hop ∈ Path.hops path, hop.place ≠ .every)
    (hget : (get root path).effect h = (.ok .null, h)) : h.RunsOut root (Path.slots path) := by
  obtain ⟨-, hfinds⟩ | ⟨-, hout⟩ := Heap.finds_or_runsOut_of_get hroot hplaces hget
  · exact hfinds.runsOut
  · exact hout

theorem isMapping_alloc (hroot : h.IsMapping root) (c : Cell) : (h.alloc c).IsMapping root := by
  obtain ⟨kind, entries, hget⟩ := hroot
  exact ⟨kind, entries, by rw [Heap.get?_alloc_of_lt h _ (Heap.lt_size_of_get? hget), hget]⟩

/-- The new mapping is the one that is read afterwards, and there is nothing in it. -/
theorem get_of_made (hacyclic : h.Acyclic) (hroot : h.IsMapping root)
    (hplaces : ∀ hop ∈ Path.hops path, hop.place ≠ .every)
    (hwritable : h.Writable root (Path.slots path))
    (hget : (get root path).effect h = (.ok .null, h))
    (hset : (set limit root path (.object h.size)).effect (h.alloc (.mapping .plain .empty)) =
      (.ok (), h')) :
    (get root path).effect h' = (.ok (.object h.size), h') ∧
      h'.get? h.size = some (.mapping .plain .empty) := by
  have hext := Heap.extends_alloc h (.mapping .plain .empty)
  have hacyclic' : (h.alloc (.mapping .plain .empty)).Acyclic := hacyclic.alloc rfl
  have hwrites := Heap.writes_of_set hset
  have hout := runsOut_of_get hroot hplaces hget
  have hwritable' := hout.writable hwritable hext
  constructor
  · obtain ⟨before, slot, behind, c, item, hchange⟩ :=
      hwrites.changesSlot hacyclic' (Heap.suitsAt_slots (isMapping_alloc hroot _) path)
    have hfinds := hchange.finds hacyclic'
    rw [Heap.number_of_not_mem _ _ (Heap.next_not_mem_slots hplaces)] at hfinds
    exact (effect_of_finds (Heap.readable_of_set hset) hfinds).1
  · obtain ⟨before, s, behind, c, hslots, hleads, hsuits, hnull⟩ := hout
    have hcell := hext.get?_eq c (Heap.lt_size_of_suitsAt hsuits)
    rw [hslots] at hwrites hwritable'
    rw [Heap.writes_append_iff hacyclic' (hleads.of_extends hext) (by rwa [Heap.SuitsAt, hcell])
      hwritable'.left] at hwrites
    exact (Heap.get?_of_first (t := .field "") hnull hsuits hwrites).2

/-- What is written where null was read meets nothing of a wrong shape. -/
theorem misfitIn?_of_unmade (hroot : h.IsMapping root)
    (hplaces : ∀ hop ∈ Path.hops path, hop.place ≠ .every)
    (hget : (get root path).effect h = (.ok .null, h))
    (hset : (set limit root path v).effect (h.alloc (.mapping .plain .empty)) = (.error e, h')) :
    e.shape? = none := by
  have hout := (runsOut_of_get hroot hplaces hget).of_extends
    (Heap.extends_alloc h (.mapping .plain .empty))
  have hnone := @misfitIn?_set_of_runsOut _ root path v limit hout
  rwa [hset] at hnone

end Made

/-! ### What is left -/

/-- Assumes: an acyclic heap, a root that is a mapping, and a path without a step `name[]` along which
no mapping is read-only. If a sub-scanner cannot be opened there, every cell that was there is as it
was. -/
theorem extends_of_subMapping_error {e : Fault} (hacyclic : h.Acyclic) (hroot : h.IsMapping root)
    (hplaces : ∀ hop ∈ Path.hops path, hop.place ≠ .every)
    (hwritable : h.Writable root (Path.slots path))
    (hopen : (subMapping limit root path).effect h = (.error e, h')) : h.Extends h' := by
  have hways := opens_subMapping limit root path h
  rw [hopen] at hways
  cases hways with
  | unread | misfit => exact .refl h
  | unmade hget hset =>
    have hext := Heap.extends_alloc h (.mapping .plain .empty)
    exact hext.trans (Heap.extends_of_set_error_of_writable (hacyclic.alloc rfl)
      (isMapping_alloc hroot _) ((runsOut_of_get hroot hplaces hget).writable hwritable hext) hset)

/-- Assumes: a root that is a mapping, and a path without a step `name[]`. Opening a sub-scanner there
meets a wrong shape when the read does, or when what is read is neither null nor a mapping. -/
theorem subMapping_eq_shape_iff (hroot : h.IsMapping root)
    (hplaces : ∀ hop ∈ Path.hops path, hop.place ≠ .every) :
    (∃ fault, ((subMapping limit root path).effect h).1 = .error (.shape fault)) ↔
      (∃ fault, ((get root path).effect h).1 = .error (.shape fault)) ∨
        ∃ v, ((get root path).effect h).1 = .ok v ∧ v ≠ .null ∧ h.kindOf v ≠ .mapping := by
  have hways := opens_subMapping limit root path h
  generalize (subMapping limit root path).effect h = x at hways
  cases hways with
  | unread hget => simp [hget]
  | misfit hget hv hkind => simp [hget, hv, hkind]
  | found hget hc => simp [hget, Heap.kindOf_eq_mapping_iff, hc]
  | made hget _ => simp [hget]
  | @unmade e _ hget hset =>
    have hshape := misfitIn?_of_unmade hroot hplaces hget hset
    have hnever : ∀ fault, e ≠ .shape fault := by
      rintro fault rfl
      cases hshape
    simp [hget, hnever]

/-- Assumes: an acyclic heap, a root that is a mapping, and a path without a step `name[]` along which
no mapping is read-only. A sub-scanner that is opened there is on the mapping that is read there
afterwards, which is the one that was read before, or a new one if that was null. -/
theorem get_of_subMapping_ok (hacyclic : h.Acyclic) (hroot : h.IsMapping root)
    (hplaces : ∀ hop ∈ Path.hops path, hop.place ≠ .every)
    (hwritable : h.Writable root (Path.slots path))
    (hopen : (subMapping limit root path).effect h = (.ok c, h')) :
    h'.IsMapping c ∧ (get root path).effect h' = (.ok (.object c), h') ∧
      ∃ v, (get root path).effect h = (.ok v, h) ∧ (v ≠ .null → v = .object c ∧ h' = h) ∧
        (v = .null → c = h.size ∧ h'.get? c = some (.mapping .plain .empty)) := by
  have hways := opens_subMapping limit root path h
  rw [hopen] at hways
  cases hways with
  | found hget hc => exact ⟨hc, hget, .object c, hget, fun _ ↦ ⟨rfl, rfl⟩, nofun⟩
  | made hget hset =>
    obtain ⟨hnow, hempty⟩ := get_of_made hacyclic hroot hplaces hwritable hget hset
    exact ⟨⟨_, _, hempty⟩, hnow, .null, hget, fun hne ↦ absurd rfl hne, fun _ ↦ ⟨rfl, hempty⟩⟩

end Scan

/-- To open a sub-scanner is to find a mapping or to make one, and nothing in between. If it fails,
nothing that was there has changed. If it succeeds, its mapping is the one that is now read at the
path; it is the one that was read there before, with nothing changed, or if that was null a new one in
which nothing stands; and to open it again gives the same mapping and changes nothing. It meets a
wrong shape exactly when the read meets one or gives something that is neither null nor a mapping.

Assumes: no container is its own descendant, the document is a mapping, the path has no step `name[]`,
and no mapping on the way is a read-only one. -/
theorem sub_scanner_finds_or_makes {limit : Option Nat} {root : Ref} {path : String} {w : Workplace}
    (hacyclic : w.heap.Acyclic) (hroot : w.heap.IsMapping root)
    (hplaces : ∀ hop ∈ Path.hops path, hop.place ≠ .every)
    (hwritable : w.heap.Writable root (Path.slots path)) :
    (∀ e w', Scan.subMapping limit root path w = .error e w' → w.heap.Extends w'.heap) ∧
    (∀ c w', Scan.subMapping limit root path w = .ok c w' →
      w'.heap.IsMapping c ∧
      (∃ w₁, Scan.get root path w' = .ok (.object c) w₁ ∧ w₁.heap = w'.heap) ∧
      (∃ v w₁, Scan.get root path w = .ok v w₁ ∧ (v ≠ .null → v = .object c ∧ w'.heap = w.heap) ∧
        (v = .null → c = w.heap.size ∧ w'.heap.get? c = some (.mapping .plain .empty))) ∧
      ∃ w₁, Scan.subMapping limit root path w' = .ok c w₁ ∧ w₁.heap = w'.heap) ∧
    ((∃ fault w', Scan.subMapping limit root path w = .error (.shape fault) w') ↔
      (∃ fault w', Scan.get root path w = .error (.shape fault) w') ∨
        ∃ v w', Scan.get root path w = .ok v w' ∧ v ≠ .null ∧ w.heap.kindOf v ≠ .mapping) := by
  have hsub := steady_subMapping limit root path
  have hget := follows_get.steady root path
  refine ⟨fun e w' hrun ↦ extends_of_subMapping_error hacyclic hroot hplaces hwritable
    (hsub.effect_of_error hrun), fun c w' hrun ↦ ?_, ?_⟩
  · obtain ⟨hc, hnow, v, hbefore, hfound, hmade⟩ :=
      get_of_subMapping_ok hacyclic hroot hplaces hwritable (hsub.effect_of_ok hrun)
    obtain ⟨w₁, hread, -⟩ := hget.exists_of_effect hbefore
    exact ⟨hc, hget.exists_of_effect hnow, ⟨v, w₁, hread, hfound, hmade⟩,
      hsub.exists_of_effect (effect_subMapping_of_isMapping hc hnow)⟩
  · simp only [exists_and_right, hsub.exists_error_iff, hget.exists_error_iff, hget.exists_ok_iff_fst]
    exact subMapping_eq_shape_iff hroot hplaces

/-- In the list under `a` there is null. The sub-scanner at `a[0].b` is on a new mapping, behind another
new one in the place of the null. -/
theorem sub_scanner_finds_or_makes_in_list :
    let w : Workplace :=
      ⟨⟨#[.mapping .ordered (.ofList [(.text "a", .object 1)]), .list [.null]]⟩, .new 0, #[]⟩
    w.heap.Acyclic ∧ w.heap.IsMapping 0 ∧ (∀ hop ∈ Path.hops "a[0].b", hop.place ≠ .every) ∧
      w.heap.Writable 0 (Path.slots "a[0].b") ∧ ∃ w', Scan.subMapping none 0 "a[0].b" w = .ok 2 w' ∧
        (∃ w₁, Scan.get 0 "a[0].b" w' = .ok (.object 2) w₁ ∧ w₁.heap = w'.heap) ∧
        ∃ w₁, Scan.subMapping none 0 "a[0].b" w' = .ok 2 w₁ ∧ w₁.heap = w'.heap := by
  intro w
  have hacyclic : w.heap.Acyclic := Heap.acyclic_of_lt (by decide)
  have hroot : w.heap.IsMapping 0 := ⟨_, _, rfl⟩
  have hplaces : ∀ hop ∈ Path.hops "a[0].b", hop.place ≠ .every := by decide +kernel
  have hwritable : w.heap.Writable 0 (Path.slots "a[0].b") := by
    rintro before s after (_ | _ | c) - - <;> simp [Heap.isReadOnly, Heap.get?, w]
  have hstep : Step.decode "a[0].b" = .ok ⟨"a[0].b", "a", .item 0, some "b"⟩ := by decide +kernel
  have hlast : Step.decode "b" = .ok ⟨"b", "b", .key, none⟩ := by decide +kernel
  have hget : (Scan.get 0 "a[0].b").effect w.heap = (.ok .null, w.heap) := by
    rw [effect_get_of_more_item hstep rfl rfl]
    rfl
  have hopen : ∃ h', (Scan.subMapping none 0 "a[0].b").effect w.heap = (.ok 2, h') := by
    rw [effect_subMapping_of_null hget]
    show ∃ h', andThen ((Scan.set none 0 "a[0].b" (.object 2)).effect _) _ = (.ok 2, h')
    rw [Scan.effect_set_of_two hstep rfl hlast rfl]
    exact ⟨_, rfl⟩
  obtain ⟨h', hopen⟩ := hopen
  obtain ⟨w', hrun, rfl⟩ := (steady_subMapping _ _ _).exists_of_effect hopen
  obtain ⟨-, hnow, -, hagain⟩ :=
    (sub_scanner_finds_or_makes hacyclic hroot hplaces hwritable).2.1 2 w' hrun
  exact ⟨hacyclic, hroot, hplaces, hwritable, w', hrun, hnow, hagain⟩

end DottedPath
