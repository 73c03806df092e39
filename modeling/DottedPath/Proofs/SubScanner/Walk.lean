import DottedPath.Proofs.Path.Join
import DottedPath.Proofs.Scan.Remove
import DottedPath.Proofs.Write.Success

/-!
# Going on from the mapping at a path

Where the slots of a path `p` lead to a mapping, a scan that is read like `p` and then like `q` is the
scan at `q` from that mapping (`effect_of_continues`). For a write the indices of `p` have to be within
the limit and the mappings on the way have to be writable (`Heap.Writable`), since each container is
stored again on the way back (`effect_set_of_continues`).

A read along `p` that ends with a value has found it at the end of the slots, or has found null on the
way (`finds_or_runsOut_of_get`).
-/

set_option autoImplicit false
set_option relaxedAutoImplicit false

namespace DottedPath

open Scan

namespace Scan

/-! ### Paths that are read alike -/

section Congr

variable {path path' : String}

theorem Follows.effect_congr {α : Type}
    {look : Heap → Ref → (step : Step) → Except Fault (Move step α)} {scan : Ref → String → Scan α}
    (hscan : Follows look scan) (hdecode : Step.decode path = Step.decode path') (root : Ref)
    (h : Heap) : (scan root path).effect h = (scan root path').effect h := by
  cases hpath : Step.decode path with
  | error e => rw [hscan.effect_of_error hpath, hscan.effect_of_error (hdecode ▸ hpath)]
  | ok step => rw [hscan.effect_of_ok hpath, hscan.effect_of_ok (hdecode ▸ hpath)]

theorem effect_remove_congr (hdecode : Step.decode path = Step.decode path') (root : Ref) (h : Heap) :
    (remove root path).effect h = (remove root path').effect h := by
  cases hpath : Step.decode path with
  | error e => rw [effect_remove_of_error hpath, effect_remove_of_error (hdecode ▸ hpath)]
  | ok step => rw [effect_remove_of_ok hpath, effect_remove_of_ok (hdecode ▸ hpath)]

theorem effect_set_congr (hdecode : Step.decode path = Step.decode path') (limit : Option Nat)
    (root : Ref) (v : Value) (h : Heap) :
    (set limit root path v).effect h = (set limit root path' v).effect h := by
  cases hpath : Step.decode path with
  | error e => rw [effect_set_of_error hpath, effect_set_of_error (hdecode ▸ hpath)]
  | ok step => rw [effect_set_of_ok hpath, effect_set_of_ok (hdecode ▸ hpath)]

end Congr

end Scan

namespace Heap

/-- No container on the way along the slots refuses to be assigned to. -/
def Writable (h : Heap) (r : Ref) (slots : List Slot) : Prop :=
  ∀ before s after c, slots = before ++ s :: after → h.Leads r before c → h.isReadOnly c = false

section Lead

variable {h h' : Heap} {r c d root child : Ref} {s : Slot} {slots as bs : List Slot} {v : Value}
variable {p q pq : String} {step : Step} {limit : Option Nat}

theorem Writable.head (hwritable : h.Writable r (s :: slots)) : h.isReadOnly r = false :=
  hwritable [] s slots r rfl (.here r)

theorem Writable.left (hwritable : h.Writable r (as ++ bs)) : h.Writable r as := by
  rintro before s after c rfl hleads
  exact hwritable before s (after ++ bs) c (by simp) hleads

theorem Writable.right (hwritable : h.Writable r (as ++ bs)) (hleads : h.Leads r as c) :
    h.Writable c bs := by
  rintro before s after d rfl hbehind
  exact hwritable (as ++ before) s after d (by simp) (hleads.append hbehind)

theorem takes_of_slot? (hslot : h.slot? r s = some v) (hwritable : h.isReadOnly r = false) :
    h.Takes r s := by
  cases s with
  | field name => exact hwritable
  | next => trivial
  | index n =>
    rw [← getElem?_items_eq_slot?] at hslot
    have hn := (List.getElem?_eq_some_iff.mp hslot).1
    show n - (h.items r).length < tooMuchPadding
    rw [Nat.sub_eq_zero_of_le (Nat.le_of_lt hn)]
    decide

theorem Leads.isMapping (hleads : h.Leads r (Path.slots p) d) : h.IsMapping r := by
  obtain ⟨name, slots, hslots⟩ := Path.exists_slots_eq p
  rw [hslots] at hleads
  cases hleads with
  | through hslot _ => exact suitsAt_field_iff.mp (suitsAt_of_slot? hslot)

/-! ### Reading along a path -/

/-- The slots lead to one in which nothing stands. -/
def RunsOut (h : Heap) (r : Ref) (slots : List Slot) : Prop :=
  ∃ before s behind c, slots = before ++ s :: behind ∧ h.Leads r before c ∧ h.SuitsAt c s ∧
    (h.slot? c s).getD .null = .null

theorem RunsOut.left (hout : h.RunsOut r as) (bs : List Slot) : h.RunsOut r (as ++ bs) := by
  obtain ⟨before, s, behind, c, rfl, hleads, hsuits, hnull⟩ := hout
  exact ⟨before, s, behind ++ bs, c, by simp, hleads, hsuits, hnull⟩

theorem RunsOut.right (hleads : h.Leads r as c) (hout : h.RunsOut c bs) : h.RunsOut r (as ++ bs) := by
  obtain ⟨before, s, behind, d, rfl, hbehind, hsuits, hnull⟩ := hout
  exact ⟨as ++ before, s, behind, d, by simp, hleads.append hbehind, hsuits, hnull⟩

theorem Finds.behind (hleads : h.Leads r as c) (hfinds : h.Finds c bs v) : h.Finds r (as ++ bs) v := by
  induction hleads with
  | here r => exact hfinds
  | through hslot _ ih => exact .through hslot (ih hfinds)

theorem Finds.leads (hfinds : h.Finds r slots (.object c)) : h.Leads r slots c := by
  generalize hv : Value.object c = v at hfinds
  induction hfinds with
  | here hslot => exact .through (hv ▸ hslot) (.here c)
  | through hslot _ ih => exact .through hslot (ih hv)

theorem Finds.runsOut (hfinds : h.Finds r slots .null) : h.RunsOut r slots := by
  generalize hv : Value.null = v at hfinds
  induction hfinds with
  | @here r s v hslot =>
    exact ⟨[], s, [], r, rfl, .here r, suitsAt_of_slot? hslot, by rw [hslot, ← hv]; rfl⟩
  | @through r c s _ _ hslot _ ih => exact (ih hv).right (.through hslot (.here c))

theorem runsOut_field {w : Option Value} (hroot : h.IsMapping root)
    (hslot : h.slot? root (.field step.name) = w) (hnull : w.getD .null = .null) :
    h.RunsOut root step.hop.slots :=
  ⟨[], .field step.name, _, root, rfl, .here root, suitsAt_field_iff.mpr hroot, hslot ▸ hnull⟩

theorem runsOut_index {name : String} {n : Nat} {items : List Value}
    (hslot : h.slot? root (.field name) = some (.object c)) (hlist : h.get? c = some (.list items))
    (hnull : items[n]?.getD .null = .null) : h.RunsOut root [.field name, .index n] := by
  refine ⟨[.field name], .index n, [], c, rfl, .through hslot (.here c), ⟨_, hlist, trivial⟩, ?_⟩
  rw [slot?, hlist]
  exact hnull

/-- A read that ends at the last step has found its value at the end of the slots, or null. -/
theorem finds_or_runsOut_of_last (hrest : step.rest = none) (hplace : step.place ≠ .every)
    (hroot : h.IsMapping root) (hread : h.readMove root step = .ok (.done v)) :
    h.Finds root step.hop.slots v ∨ v = .null ∧ h.RunsOut root step.hop.slots := by
  obtain ⟨text, name, place, rest⟩ := step
  obtain rfl : rest = none := hrest
  simp only [readMove, field?_eq_slot?] at hread
  cases hslot : h.slot? root (.field name) with
  | none =>
    rw [hslot] at hread
    obtain rfl : v = .null := by simpa using hread.symm
    exact .inr ⟨rfl, runsOut_field hroot hslot rfl⟩
  | some w =>
    simp only [hslot] at hread
    cases place with
    | every => exact absurd rfl hplace
    | key =>
      obtain rfl : v = w := by simpa using hread.symm
      exact .inl (.here hslot)
    | item n =>
      simp only at hread
      split at hread
      · next hw =>
        obtain rfl : v = .null := by simpa using hread.symm
        exact .inr ⟨rfl, runsOut_field hroot hslot hw⟩
      · obtain ⟨list, hlist, hv⟩ := exists_of_map_eq_ok hread
        obtain ⟨rfl, hget⟩ := of_asList hlist
        obtain rfl : list.2[n]?.getD .null = v := by simpa using hv
        cases hitem : list.2[n]? with
        | none => exact .inr ⟨rfl, runsOut_index hslot hget (by rw [hitem]; rfl)⟩
        | some item =>
          refine .inl (.through hslot (.here ?_))
          rw [slot?, hget]
          exact hitem

/-- A read at a step with more steps behind it goes on in the mapping that the slots of the step lead
to, or has found null. -/
theorem leads_or_runsOut_of_more {rest : String} (hrest : step.rest = some rest)
    (hplace : step.place ≠ .every) (hroot : h.IsMapping root) {move : Move step Value}
    (hread : h.readMove root step = .ok move) :
    (move = .done .null ∧ h.RunsOut root step.hop.slots) ∨
      ∃ child, move = .enter child rest hrest ∧ h.Leads root step.hop.slots child ∧
        h.IsMapping child := by
  obtain ⟨text, name, place, rest'⟩ := step
  obtain rfl : rest' = some rest := hrest
  simp only [readMove, field?_eq_slot?] at hread
  cases hslot : h.slot? root (.field name) with
  | none =>
    rw [hslot] at hread
    exact .inl ⟨by simpa using hread.symm, runsOut_field hroot hslot rfl⟩
  | some w =>
    simp only [hslot] at hread
    cases place with
    | every => exact absurd rfl hplace
    | key =>
      obtain ⟨child, hdescend, rfl⟩ := exists_of_map_eq_ok hread
      rw [descend_none] at hdescend
      split at hdescend
      · next hw =>
        obtain rfl := Except.ok.inj hdescend
        exact .inl ⟨rfl, runsOut_field hroot hslot hw⟩
      · obtain ⟨c, hmapping, rfl⟩ := exists_of_map_eq_ok hdescend
        obtain ⟨rfl, hc⟩ := of_asMapping hmapping
        exact .inr ⟨c, rfl, .through hslot (.here c), hc⟩
    | item n =>
      obtain ⟨child, hdescend, rfl⟩ := exists_of_map_eq_ok hread
      rw [descend_some] at hdescend
      split at hdescend
      · next hw =>
        obtain rfl := Except.ok.inj hdescend
        exact .inl ⟨rfl, runsOut_field hroot hslot hw⟩
      · cases hlist : h.asList name text .read w with
        | error e => simp [hlist, Except.bind] at hdescend
        | ok list =>
          obtain ⟨rfl, hget⟩ := of_asList hlist
          simp only [hlist, Except.bind] at hdescend
          split at hdescend
          · next hnull =>
            obtain rfl := Except.ok.inj hdescend
            exact .inl ⟨rfl, runsOut_index hslot hget hnull⟩
          · next hnull =>
            obtain ⟨c, hmapping, rfl⟩ := exists_of_map_eq_ok hdescend
            obtain ⟨hitem, hc⟩ := of_asMapping hmapping
            refine .inr ⟨c, rfl, .through hslot (.through (c := c) ?_ (.here c)), hc⟩
            cases hn : list.2[n]? with
            | none => simp [hn] at hitem
            | some item =>
              rw [slot?, hget, ← hitem, hn, Option.getD_some]
              exact hn

/-- Assumes: a root that is a mapping, and a path without a step `name[]`. A read along the path has
found its value at the end of the slots, or null at the first slot in which nothing stands; only in
the first case has the path been read to its end. -/
theorem finds_or_runsOut_of_get {path : String} (hroot : h.IsMapping root)
    (hplaces : ∀ hop ∈ Path.hops path, hop.place ≠ .every)
    (hget : (get root path).effect h = (.ok v, h')) :
    (Path.Readable path ∧ h.Finds root (Path.slots path) v) ∨
      v = .null ∧ h.RunsOut root (Path.slots path) := by
  induction path using Path.induction generalizing root with
  | broken path e he => simp [follows_get.effect_of_error he] at hget
  | last path step hstep hrest =>
    rw [Path.hops_of_last hstep hrest, List.forall_mem_singleton] at hplaces
    rw [follows_get.effect_of_ok hstep] at hget
    obtain ⟨move, _, hmove, hdone⟩ := andThen_eq_ok hget
    rw [Path.slots_of_last hstep hrest]
    cases move with
    | enter child rest hmore => simp [hrest] at hmore
    | done w =>
      obtain rfl : w = v := by simpa [Move.elim] using congrArg Prod.fst hdone
      exact (finds_or_runsOut_of_last hrest hplaces hroot (congrArg Prod.fst hmove)).imp_left
        fun hfinds ↦ ⟨Path.readable_of_last hstep hrest, hfinds⟩
  | more path step rest hstep hrest ih =>
    rw [Path.hops_of_more hstep hrest, List.forall_mem_cons] at hplaces
    rw [follows_get.effect_of_ok hstep] at hget
    obtain ⟨move, h₁, hmove, hdone⟩ := andThen_eq_ok hget
    rw [Path.slots_of_more hstep hrest]
    obtain rfl : h = h₁ := congrArg Prod.snd hmove
    rcases leads_or_runsOut_of_more hrest hplaces.1 hroot (congrArg Prod.fst hmove) with
      ⟨rfl, hout⟩ | ⟨child, rfl, hleads, hchild⟩
    · obtain rfl : v = .null := by simpa [Move.elim] using (congrArg Prod.fst hdone).symm
      exact .inr ⟨rfl, hout.left _⟩
    · rcases ih hchild hplaces.2 hdone with ⟨hreadable, hfinds⟩ | ⟨rfl, hout⟩
      · exact .inl ⟨(Path.readable_of_more hstep hrest).mpr hreadable, hfinds.behind hleads⟩
      · exact .inr ⟨rfl, hout.right hleads⟩

/-! ### Scans behind a path -/

/-- One step to a mapping, in which the rest of the path is read. -/
theorem effect_of_leads {path rest : String} (hstep : Step.decode path = .ok step)
    (hrest : step.rest = some rest) (hleads : h.Leads root step.hop.slots child)
    (hchild : h.IsMapping child) :
    (get root path).effect h = (get child rest).effect h ∧
      (has root path).effect h = (has child rest).effect h ∧
      (remove root path).effect h = (remove child rest).effect h := by
  obtain ⟨hread, hhas, hremove⟩ := moves_of_leads hrest hleads hchild
  rw [follows_get.effect_of_ok hstep, follows_has.effect_of_ok hstep, effect_remove_of_ok hstep,
    hread, hhas, hremove]
  exact ⟨rfl, rfl, andThen_unit _⟩

/-- Behind a path whose slots lead to a mapping, reading, testing and removing are what they are in
that mapping. -/
theorem effect_of_continues (hcontinues : Path.Continues q p pq) (hreadable : Path.Readable p)
    (hleads : h.Leads root (Path.slots p) child) (hchild : h.IsMapping child) :
    (get root pq).effect h = (get child q).effect h ∧
      (has root pq).effect h = (has child q).effect h ∧
      (remove root pq).effect h = (remove child q).effect h := by
  induction hcontinues generalizing root with
  | broken hp _ => exact absurd hreadable (Path.not_readable_of_error hp)
  | last hp hlast hpq hhop hrest =>
    rw [Path.slots_of_last hp hlast, ← hhop] at hleads
    obtain ⟨hget, hhas, hremove⟩ := effect_of_leads hpq hrest hleads hchild
    have htrimmed := Step.decode_trimmed q
    rw [hget, hhas, hremove, follows_get.effect_congr htrimmed, follows_has.effect_congr htrimmed,
      effect_remove_congr htrimmed]
    exact ⟨rfl, rfl, rfl⟩
  | more hp hrest hpq hhop hrest' _ ih =>
    rw [Path.slots_of_more hp hrest, ← hhop] at hleads
    obtain ⟨mid, hfirst, hbehind⟩ := hleads.of_append
    obtain ⟨hget, hhas, hremove⟩ := effect_of_leads hpq hrest' hfirst hbehind.isMapping
    rw [hget, hhas, hremove]
    exact ih ((Path.readable_of_more hp hrest).mp hreadable) hbehind

/-- Work in a container that a slot holds, after which the slot still holds it, is not seen to come
from the slot. -/
theorem through_of_slot? {blank : Cell} {check : Heap → Value → Except Fault Ref}
    {work : Ref → Heap → Except Fault Unit × Heap} (hslot : h.slot? r s = some (.object c))
    (hwritable : h.isReadOnly r = false) (hcheck : check h (.object c) = .ok c)
    (hkeep : ∀ h', work c h = (.ok (), h') → h'.get? r = h.get? r) :
    h.through r s blank check work = work c h := by
  have hvalue : (h.slot? r s).getD .null = .object c := by rw [hslot, Option.getD_some]
  rw [through, enter_of_ne (by simp [hvalue]), hvalue, hcheck, andThen_ok]
  cases hdone : work c h with
  | mk outcome h' =>
    cases outcome with
    | error e => rfl
    | ok _ =>
      have hget := hkeep h' hdone
      have hslot' : h'.slot? r s = some (.object c) := by rw [slot?, hget]; exact hslot
      have htakes := (takes_congr hget).mpr (takes_of_slot? hslot hwritable)
      rw [andThen_ok, fill_self hslot' htakes]
      rfl

/-- Work in the mapping that the slots of a step lead to. -/
theorem reach_of_leads {work : Ref → Heap → Except Fault Unit × Heap}
    (hallowed : step.hop.Allowed limit) (hleads : h.Leads root step.hop.slots child)
    (hchild : h.IsMapping child) (hwritable : h.Writable root step.hop.slots)
    (hkeep : ∀ h', work child h = (.ok (), h') → ∀ r, Relation.TransGen h.Holds r child →
      h'.get? r = h.get? r) :
    step.reach limit root (fun r s h ↦ h.through r s (.mapping .plain .empty) step.checkMapping work)
      h = work child h := by
  have hcheck : step.checkMapping h (.object child) = .ok child :=
    asMapping_of_isMapping hchild _ _ _
  unfold Step.reach
  rw [Hop.slots, Step.hop] at hleads hwritable
  cases hplace : step.place.slot? with
  | none =>
    rw [hplace] at hleads hwritable
    cases hleads with
    | through hslot hend =>
      cases hend
      exact through_of_slot? hslot hwritable.head hcheck fun h' hdone ↦
        hkeep h' hdone root (.single (holds_of_slot? hslot))
  | some slot =>
    rw [hplace] at hleads hwritable
    cases hleads with
    | @through _ list _ _ _ hslot hend =>
      cases hend with
      | through hitem hend =>
        cases hend
        have hlist : h.Leads root [.field step.name] list := .through hslot (.here list)
        have hinner : h.through list slot (.mapping .plain .empty) step.checkMapping work =
            work child h :=
          through_of_slot? hitem (hwritable.right hlist).head hcheck fun h' hdone ↦
            hkeep h' hdone list (.single (holds_of_slot? hitem))
        simp only
        rw [Step.checkLimit_eq_ok_iff.mpr hallowed, andThen_ok,
          through_of_slot? hslot hwritable.head
            (checkList_of_suitsAt hplace (suitsAt_of_slot? hitem)) ?_, hinner]
        intro h' hdone
        rw [hinner] at hdone
        exact hkeep h' hdone root (.tail (.single (holds_of_slot? hslot)) (holds_of_slot? hitem))

/-- Assumes: an acyclic heap, and a path with indices within the limit whose slots lead to a mapping
by way of containers that can be assigned to. Writing behind the path is writing in that mapping. -/
theorem effect_set_of_continues (hacyclic : h.Acyclic) (hcontinues : Path.Continues q p pq)
    (hreadable : Path.Readable p) (hallowed : Path.Allowed limit p)
    (hleads : h.Leads root (Path.slots p) child) (hchild : h.IsMapping child)
    (hwritable : h.Writable root (Path.slots p)) :
    (set limit root pq v).effect h = (set limit child q v).effect h := by
  have hstep : ∀ {pq rest root mid} {step : Step}, Step.decode pq = .ok step →
      step.rest = some rest → step.hop.Allowed limit → h.Leads root step.hop.slots mid →
      h.IsMapping mid → h.Writable root step.hop.slots →
      (set limit root pq v).effect h = (set limit mid rest v).effect h := by
    intro pq rest root mid step hpq hrest hallowed hleads hmid hwritable
    rw [effect_set_of_more hpq hrest]
    refine reach_of_leads hallowed hleads hmid hwritable fun h' hdone r habove ↦ ?_
    exact (writes_of_set hdone).get?_eq hacyclic (suitsAt_slots hmid rest) habove
  induction hcontinues generalizing root with
  | broken hp _ => exact absurd hreadable (Path.not_readable_of_error hp)
  | last hp hlast hpq hhop hrest =>
    rw [Path.slots_of_last hp hlast, ← hhop] at hleads hwritable
    rw [Path.allowed_of_last hp hlast, ← hhop] at hallowed
    rw [hstep hpq hrest hallowed hleads hchild hwritable]
    exact effect_set_congr (Step.decode_trimmed q) limit child v h
  | more hp hrest hpq hhop hrest' _ ih =>
    rw [Path.slots_of_more hp hrest, ← hhop] at hleads hwritable
    rw [Path.allowed_of_more hp hrest, ← hhop] at hallowed
    obtain ⟨mid, hfirst, hbehind⟩ := hleads.of_append
    rw [hstep hpq hrest' hallowed.1 hfirst hbehind.isMapping hwritable.left]
    exact ih ((Path.readable_of_more hp hrest).mp hreadable) hallowed.2 hbehind
      (hwritable.right hfirst)

end Lead

end Heap

end DottedPath
