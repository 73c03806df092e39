import DottedPath.Proofs.Heap.Renumber
import DottedPath.Proofs.SubScanner.Walk

/-!
# A sub-scanner is interchangeable with its path

A sub-scanner at a path `p` does at `q` what its scanner does at `p.q` (`sub_scanner_interchangeable`).
Where `p` leads to a mapping, it is opened without any change, and every scan has the same outcome and
leaves the same heap. Where a read at `p` gives null, the sub-scanner stores a new mapping at `p` first
and writes into that, while the scanner makes all containers on its way: the same ones, but not in the
same order. Their numbers therefore differ, and nothing else does (`renumbers_of_writes`).
-/

set_option autoImplicit false
set_option relaxedAutoImplicit false

namespace DottedPath

open Scan

namespace Heap

section Writes

variable {h h' h₁ h₂ : Heap} {r c root : Ref} {s t : Slot} {before behind slots : List Slot}
variable {v : Value}

/-- A write behind slots that lead to a container is a write in that container. -/
theorem writes_append_iff (hacyclic : h.Acyclic) (hleads : h.Leads root before c)
    (hsuits : h.SuitsAt c s) (hwritable : h.Writable root before) :
    h.Writes root (before ++ s :: slots) v h' ↔ h.Writes c (s :: slots) v h' := by
  induction hleads with
  | here r => exact Iff.rfl
  | @through r d c u before hslot hleads ih =>
    have hfrom : h.Writable r ([u] ++ before) := hwritable
    have hbelow := ih hsuits (hfrom.right (.through hslot (.here d)))
    have hfirst : ∃ x rest, before ++ s :: slots = x :: rest ∧ h.SuitsAt d x := by
      cases hleads with
      | here => exact ⟨s, slots, rfl, hsuits⟩
      | through hnext _ => exact ⟨_, _, rfl, suitsAt_of_slot? hnext⟩
    obtain ⟨x, rest, hrest, hx⟩ := hfirst
    rw [hrest] at hbelow
    rw [List.cons_append, hrest, ← hbelow]
    constructor
    · intro hwrites
      cases hwrites with
      | make hnull => simp [hslot] at hnull
      | enter hslot' _ hwrites hfill =>
        obtain rfl : d = _ := by simpa [hslot] using hslot'
        have hsame := hwrites.slot?_eq hacyclic hslot hx
        rwa [eq_of_fill_self hsame hfill]
    · intro hwrites
      have hget := hwrites.get?_eq hacyclic (by simpa using hx) (.single (holds_of_slot? hslot))
      have htakes := (takes_congr hget).mpr (takes_of_slot? hslot hwritable.head)
      exact .enter hslot hx hwrites (fill_self (hwrites.slot?_eq hacyclic hslot hx) htakes)

theorem ChangesSlot.get?_eq {before behind : List Slot} {item : Value}
    (hchange : h.ChangesSlot h' root slots v before s behind c item) :
    h'.get? c = (h.get? c).map (·.put s item) := by
  obtain ⟨old, new, hold, hnew, hwritten⟩ := hchange.written
  rw [hold, hnew, hwritten.eq_put, Option.map_some]

theorem exists_append_cons_of_lt {α : Type} {l : List α} {i : Nat} (hi : i < l.length) :
    ∃ pre a post, l = pre ++ a :: post ∧ pre.length = i :=
  ⟨l.take i, l[i], l.drop (i + 1), by simp, by simp; omega⟩

theorem stem_append_cons (fresh : Ref) (as : List Slot) (s : Slot) (bs : List Slot) (v : Value) :
    stem fresh (as ++ s :: bs) v = .object fresh := by
  cases as <;> rfl

theorem renumber_stem {σ : Ref → Ref} {fresh : Ref} (hv : ∀ r ∈ v.ref?, σ r = r)
    (hfresh : σ fresh = fresh) : (stem fresh slots v).renumber σ = stem fresh slots v := by
  cases slots with
  | nil => exact Value.renumber_eq_self hv
  | cons s slots => rw [stem, Value.renumber, hfresh]

/-- Each number but the last moves on by one, and the last one to the front. -/
theorem renumber_object_moveToFront {n k i : Nat} (hi : i + slots.length = k) :
    (Value.object (n + i)).renumber (moveToFront n k) = stem (n + i + 1) slots (.object n) := by
  cases slots with
  | nil =>
    obtain rfl : i = k := hi
    rw [Value.renumber, moveToFront_self, stem]
  | cons s slots =>
    have hlt : i < k := by
      rw [List.length_cons] at hi
      omega
    rw [Value.renumber, moveToFront_add hlt, stem]

/-- A write that puts a new container into a slot in which nothing stands leaves it empty. -/
theorem get?_of_first (hnull : (h.slot? c s).getD .null = .null) (hsuits : h.SuitsAt c s)
    (hfirst : (h.alloc t.blank).Writes c (s :: behind) (.object h.size) h₁) :
    (h.alloc t.blank).ChangesSlot h₁ c (s :: behind) (.object h.size) [] s behind c
        (stem (h.size + 1) behind (.object h.size)) ∧
      h₁.get? h.size = some t.blank := by
  have hc : c < h.size := lt_size_of_suitsAt hsuits
  have halloc : (h.alloc t.blank).get? c = h.get? c := get?_alloc_of_lt h _ hc
  have hchange := hfirst.changesSlot_of_null (by rwa [slot?, halloc]) (by rwa [SuitsAt, halloc])
  refine ⟨by rwa [size_alloc] at hchange, ?_⟩
  rw [hchange.others _ (by simp) (Nat.ne_of_gt hc), get?_alloc_self]

/-- What two writes one after the other leave in each cell, when the first puts an empty container
into a slot in which nothing stands, and the second writes in that container. -/
theorem get?_of_writes_writes (hnull : (h.slot? c s).getD .null = .null) (hsuits : h.SuitsAt c s)
    (hfirst : (h.alloc t.blank).Writes c (s :: behind) (.object h.size) h₁)
    (hlast : h₁.Writes h.size (t :: slots) v h₂) :
    (∀ r < h.size, r ≠ c → h₂.get? r = h.get? r) ∧
      h₂.get? c = (h.get? c).map (·.put s (stem (h.size + 1) behind (.object h.size))) ∧
      (∀ pre u post, behind = pre ++ u :: post → h₂.get? (h.size + pre.length + 1) =
        some (u.blank.put u (stem (h.size + pre.length + 1 + 1) post (.object h.size)))) ∧
      h₂.get? h.size =
        some (t.blank.put t (stem (h.size + behind.length + 1) slots v)) ∧
      (∀ pre u post, slots = pre ++ u :: post →
        h₂.get? (h.size + behind.length + 1 + pre.length) =
          some (u.blank.put u (stem (h.size + behind.length + 1 + pre.length + 1) post v))) ∧
      h₂.size = h.size + behind.length + 1 + slots.length := by
  have hc : c < h.size := lt_size_of_suitsAt hsuits
  obtain ⟨hchange₁, hnew⟩ := get?_of_first hnull hsuits hfirst
  have hsize₁ : h₁.size = h.size + behind.length + 1 := by
    rw [hchange₁.size_eq, size_alloc]
    omega
  have hchange₂ := hlast.changesSlot_of_null (by simp [slot?, hnew]) ⟨_, hnew, t.suits_blank⟩
  have hkept₂ : ∀ r < h.size + behind.length + 1, r ≠ h.size → h₂.get? r = h₁.get? r :=
    fun r hr hrn ↦ hchange₂.others r (by rwa [hsize₁]) hrn
  refine ⟨fun r hr hrc ↦ ?_, ?_, ?_, ?_, ?_, ?_⟩
  · rw [hkept₂ r (by omega) (Nat.ne_of_lt hr),
      hchange₁.others r (by rw [size_alloc]; omega) hrc, get?_alloc_of_lt h _ hr]
  · rw [hkept₂ c (Nat.lt_succ_of_lt (Nat.lt_add_right _ hc)) (Nat.ne_of_lt hc), hchange₁.get?_eq,
      get?_alloc_of_lt h _ hc]
  · rintro pre u post rfl
    have hgrown := hchange₁.grown
    rw [size_alloc] at hgrown
    have hcell := hgrown.get?_eq
    rw [Nat.add_right_comm] at hcell
    rw [List.length_append, List.length_cons] at hkept₂
    rw [hkept₂ _ (by omega) (by omega), hcell]
  · rw [hchange₂.get?_eq, hnew, hsize₁, Option.map_some]
  · rintro pre u post rfl
    have hcell := hchange₂.grown.get?_eq
    rwa [hsize₁] at hcell
  · rw [hchange₂.size_eq, hsize₁]

/-- What one write leaves in the new cells, when it begins at a slot in which nothing stands. -/
theorem get?_of_writes (hnull : (h.slot? c s).getD .null = .null) (hsuits : h.SuitsAt c s)
    (hwrites : h.Writes c (s :: slots) v h') :
    (∀ pre u post, slots = pre ++ u :: post → h'.get? (h.size + pre.length) =
        some (u.blank.put u (stem (h.size + pre.length + 1) post v))) ∧
      h'.size = h.size + slots.length := by
  have hchange := hwrites.changesSlot_of_null hnull hsuits
  refine ⟨?_, hchange.size_eq⟩
  rintro pre u post rfl
  exact hchange.grown.get?_eq

/-- The cells that were there are the same after one write and after two, but for the number of the new
container in the slot. -/
theorem get?_renumber_of_lt (hclosed : h.Closed) (hnull : (h.slot? c s).getD .null = .null)
    (hsuits : h.SuitsAt c s) (hwhole : h.Writes c (s :: (behind ++ t :: slots)) v h')
    (hfirst : (h.alloc t.blank).Writes c (s :: behind) (.object h.size) h₁)
    (hlast : h₁.Writes h.size (t :: slots) v h₂) (hr : r < h.size) :
    h₂.get? r = (h'.get? r).map (Cell.renumber (moveToFront h.size behind.length)) := by
  have hchange := hwhole.changesSlot_of_null hnull hsuits
  obtain ⟨hkept, hslot, -⟩ := get?_of_writes_writes hnull hsuits hfirst hlast
  have hold : (h.get? r).map (Cell.renumber (moveToFront h.size behind.length)) = h.get? r := by
    cases hget : h.get? r with
    | none => rfl
    | some cell =>
      refine congrArg some (Cell.renumber_eq_self fun w hw x hx ↦ moveToFront_of_lt (hclosed r x ?_))
      rw [Value.eq_object_of_ref? hx] at hw
      exact ⟨cell, hget, hw⟩
  by_cases hrc : r = c
  · subst hrc
    have hnext : (Value.object h.size).renumber (moveToFront h.size behind.length) =
        stem (h.size + 1) behind (.object h.size) :=
      renumber_object_moveToFront (Nat.zero_add behind.length)
    rw [hslot, hchange.get?_eq, stem_append_cons, ← hnext]
    conv_lhs => rw [← hold]
    cases h.get? r with
    | none => rfl
    | some cell => simp only [Option.map_some, Cell.renumber_put]
  · rw [hkept r hr hrc, hchange.others r hr hrc, hold]

/-- The new cells are the same after one write and after two: those before the container that is made
first have moved on by one, and those behind it are where they were. -/
theorem get?_renumber_new (hv : ∀ r ∈ v.ref?, r < h.size)
    (hnull : (h.slot? c s).getD .null = .null) (hsuits : h.SuitsAt c s)
    (hwhole : h.Writes c (s :: (behind ++ t :: slots)) v h')
    (hfirst : (h.alloc t.blank).Writes c (s :: behind) (.object h.size) h₁)
    (hlast : h₁.Writes h.size (t :: slots) v h₂) (i : Nat) :
    h₂.get? (moveToFront h.size behind.length (h.size + i)) =
      (h'.get? (h.size + i)).map (Cell.renumber (moveToFront h.size behind.length)) := by
  obtain ⟨hcell, hsize'⟩ := get?_of_writes hnull hsuits hwhole
  obtain ⟨-, -, hbehind, hnew, hslots, hsize⟩ := get?_of_writes_writes hnull hsuits hfirst hlast
  have hvfix : ∀ r ∈ v.ref?, moveToFront h.size behind.length r = r :=
    fun r hr ↦ moveToFront_of_lt (hv r hr)
  rcases Nat.lt_trichotomy i behind.length with hi | rfl | hi
  · -- The containers before the one that is made first.
    obtain ⟨pre, u, post, rfl, rfl⟩ := exists_append_cons_of_lt hi
    have hnext : (Value.object (h.size + pre.length + 1)).renumber
        (moveToFront h.size (pre ++ u :: post).length) =
          stem (h.size + pre.length + 1 + 1) post (.object h.size) :=
      renumber_object_moveToFront (i := pre.length + 1) (by simp; omega)
    rw [moveToFront_add hi, hbehind pre u post rfl,
      hcell pre u (post ++ t :: slots) (by simp), stem_append_cons, Option.map_some,
      Cell.renumber_put, Cell.renumber_blank, ← hnext]
  · -- The container that is made first.
    rw [moveToFront_self, hnew, hcell behind t slots rfl, Option.map_some, Cell.renumber_put,
      Cell.renumber_blank, renumber_stem hvfix (moveToFront_of_gt (Nat.lt_succ_self _))]
  · -- The containers behind it.
    obtain ⟨j, rfl⟩ := Nat.exists_eq_add_of_lt hi
    rw [moveToFront_of_gt (by omega)]
    by_cases hj : j < slots.length
    · obtain ⟨pre, u, post, rfl, rfl⟩ := exists_append_cons_of_lt hj
      have hindex : h.size + (behind.length + pre.length + 1) =
          h.size + (behind ++ t :: pre).length := by
        rw [List.length_append, List.length_cons]
        omega
      have hplace : h.size + (behind ++ t :: pre).length =
          h.size + behind.length + 1 + pre.length := by
        rw [List.length_append, List.length_cons]
        omega
      have hthere : h'.get? (h.size + (behind ++ t :: pre).length) = _ :=
        hcell (behind ++ t :: pre) u post (by simp)
      rw [hindex, hthere, hplace, hslots pre u post rfl, Option.map_some, Cell.renumber_put,
        Cell.renumber_blank, renumber_stem hvfix (moveToFront_of_gt (by omega))]
    · rw [List.length_append, List.length_cons] at hsize'
      rw [get?_eq_none, get?_eq_none, Option.map_none]
      · rw [hsize']
        omega
      · rw [hsize]
        omega

/-- Assumes: a heap without dangling references, and a slot in which nothing stands. A value is
written behind this slot and the slots after it at once, or a new container is written there first and
the value then in this container. The heaps that come of it are the same but for the numbers of the
new containers. -/
theorem renumbers_of_writes (hclosed : h.Closed) (hv : ∀ r ∈ v.ref?, r < h.size)
    (hnull : (h.slot? c s).getD .null = .null) (hsuits : h.SuitsAt c s)
    (hwhole : h.Writes c (s :: (behind ++ t :: slots)) v h')
    (hfirst : (h.alloc t.blank).Writes c (s :: behind) (.object h.size) h₁)
    (hlast : h₁.Writes h.size (t :: slots) v h₂) :
    h'.Renumbers h₂ (moveToFront h.size behind.length) where
  get?_eq r := by
    rcases Nat.lt_or_ge r h.size with hr | hr
    · rw [moveToFront_of_lt hr]
      exact get?_renumber_of_lt hclosed hnull hsuits hwhole hfirst hlast hr
    · obtain ⟨i, rfl⟩ := Nat.exists_eq_add_of_le hr
      exact get?_renumber_new hv hnull hsuits hwhole hfirst hlast i
  fixes r cell hget hc := by
    rcases Nat.lt_or_ge r h.size with hr | hr
    · exact moveToFront_of_lt hr
    · -- All that is new is a container.
      obtain ⟨i, rfl⟩ := Nat.exists_eq_add_of_le hr
      obtain ⟨hcell, hsize⟩ := get?_of_writes hnull hsuits hwhole
      have hi : i < (behind ++ t :: slots).length := by
        have hlt : h.size + i < h'.size := lt_size_of_get? hget
        rw [hsize] at hlt
        omega
      obtain ⟨pre, u, post, hsplit, rfl⟩ := exists_append_cons_of_lt hi
      rw [hcell pre u post hsplit] at hget
      obtain rfl := Option.some.inj hget
      refine absurd ?_ hc
      cases u <;> trivial

/-- A value can be written behind a slot in which nothing stands and the slots after it at once when
a new container can be written there first, and the value then in this container. -/
theorem exists_writes_append_iff (hnull : (h.slot? c s).getD .null = .null)
    (hsuits : h.SuitsAt c s) :
    (∃ h', h.Writes c (s :: (behind ++ t :: slots)) v h') ↔
      ∃ h₁, (h.alloc t.blank).Writes c (s :: behind) (.object h.size) h₁ ∧
        ∃ h₂, h₁.Writes h.size (t :: slots) v h₂ := by
  have hc : c < h.size := lt_size_of_suitsAt hsuits
  have halloc : (h.alloc t.blank).get? c = h.get? c := get?_alloc_of_lt h _ hc
  have hfirst : (∃ h₁, (h.alloc t.blank).Writes c (s :: behind) (.object h.size) h₁) ↔
      h.Takes c s ∧ ∀ u ∈ behind, u.Small := by
    rw [exists_writes_iff (by rwa [slot?, halloc]) (by rwa [SuitsAt, halloc]), takes_congr halloc]
  have hlast : ∀ h₁, (h.alloc t.blank).Writes c (s :: behind) (.object h.size) h₁ →
      ((∃ h₂, h₁.Writes h.size (t :: slots) v h₂) ↔ ∀ u ∈ t :: slots, u.Small) := by
    intro h₁ hwrites
    have hnew := (get?_of_first hnull hsuits hwrites).2
    rw [exists_writes_iff (by simp [slot?, hnew]) ⟨_, hnew, t.suits_blank⟩,
      takes_congr (hnew.trans (get?_alloc_self h _).symm), takes_alloc_iff, List.forall_mem_cons]
  rw [exists_writes_iff hnull hsuits, List.forall_mem_append, ← and_assoc, ← hfirst]
  constructor
  · rintro ⟨⟨h₁, hwrites⟩, hsmall⟩
    exact ⟨h₁, hwrites, (hlast h₁ hwrites).mpr hsmall⟩
  · rintro ⟨h₁, hwrites, hmore⟩
    exact ⟨⟨h₁, hwrites⟩, (hlast h₁ hwrites).mp hmore⟩

end Writes

/-! ### Heaps that have grown -/

section Extends

variable {h h' : Heap} {r c d : Ref} {slots : List Slot}

theorem Leads.unique (hleads : h.Leads r slots c) (hleads' : h.Leads r slots d) : c = d := by
  induction hleads with
  | here r =>
    cases hleads'
    rfl
  | through hslot _ ih =>
    cases hleads' with
    | through hslot' hrest =>
      rw [hslot, Option.some.injEq, Value.object.injEq] at hslot'
      exact ih (hslot' ▸ hrest)

theorem Leads.of_extends (hleads : h.Leads r slots c) (hext : h.Extends h') : h'.Leads r slots c := by
  induction hleads with
  | here r => exact .here r
  | through hslot _ ih =>
    refine .through ?_ ih
    rw [slot?, hext.get?_eq _ (lt_size_of_suitsAt (suitsAt_of_slot? hslot))]
    exact hslot

theorem Writable.of_extends (hwritable : h.Writable r slots) (hleads : h.Leads r slots c)
    (hext : h.Extends h') : h'.Writable r slots := by
  rintro before s after d rfl hbefore
  obtain ⟨e, hfirst, hlast⟩ := hleads.of_append
  obtain rfl := hbefore.unique (hfirst.of_extends hext)
  cases hlast with
  | through hslot _ =>
    have hget := hext.get?_eq d (lt_size_of_suitsAt (suitsAt_of_slot? hslot))
    rw [isReadOnly, hget]
    exact hwritable before s after d rfl hfirst

end Extends

end Heap

namespace Scan

section SubMapping

variable {h h' h₁ : Heap} {root c : Ref} {p q pq : String} {limit : Option Nat} {v : Value}

/-- A mapping that is there is opened without any change. -/
theorem effect_subMapping_of_isMapping (hc : h.IsMapping c)
    (hget : (get root p).effect h = (.ok (.object c), h)) :
    (subMapping limit root p).effect h = (.ok c, h) := by
  obtain ⟨kind, entries, hcell⟩ := hc
  have hnode : h.node (.object c) = .mapping c kind entries := by simp [Heap.node, hcell]
  have hfits : h.fits (.object c) (.shape .mapping) = true := by
    simp [Heap.fits, Heap.kindOf, hnode]
  rw [effect_subMapping, effect_getAs, hget, andThen_ok, if_pos (.inr hfits), andThen_ok, hnode]

/-- Where null is read, a new mapping is stored. -/
theorem effect_subMapping_of_null (hget : (get root p).effect h = (.ok .null, h)) :
    (subMapping limit root p).effect h =
      andThen ((set limit root p (.object h.size)).effect (h.alloc (.mapping .plain .empty)))
        fun _ h' ↦ (.ok h.size, h') := by
  rw [effect_subMapping, effect_getAs, hget, andThen_ok, if_pos (.inl rfl), andThen_ok]
  rfl

/-- The two ways of writing behind a path along which nothing stands: at once, and by way of a new
mapping. Both are writes from the container of the first slot in which nothing stands. -/
theorem exists_writes_of_set (limit : Option Nat) (hacyclic : h.Acyclic) (hcontinues : Path.Continues q p pq)
    (hout : h.RunsOut root (Path.slots p)) (hwritable : h.Writable root (Path.slots p)) :
    ∃ c s behind, h.SuitsAt c s ∧ (h.slot? c s).getD .null = .null ∧
      (∀ v h', (set limit root pq v).effect h = (.ok (), h') ↔
        (Path.Readable p ∧ Path.Allowed limit p) ∧ (Path.Readable q ∧ Path.Allowed limit q) ∧
          h.Writes c (s :: (behind ++ Path.slots q)) v h') ∧
      ∀ v h', (set limit root p v).effect (h.alloc (.mapping .plain .empty)) = (.ok (), h') ↔
        (Path.Readable p ∧ Path.Allowed limit p) ∧
          (h.alloc (.mapping .plain .empty)).Writes c (s :: behind) v h' := by
  obtain ⟨before, s, behind, c, hslots, hleads, hsuits, hnull⟩ := hout
  rw [hslots] at hwritable
  refine ⟨c, s, behind, hsuits, hnull, fun v h' ↦ ?_, fun v h' ↦ ?_⟩
  · rw [Heap.effect_set_eq_ok_iff, hcontinues.readable_iff]
    by_cases hreadable : Path.Readable p
    · rw [← Heap.writes_append_iff hacyclic hleads hsuits hwritable.left, Path.Allowed,
        hcontinues.hops_eq hreadable, List.forall_mem_append, hcontinues.slots_eq hreadable, hslots,
        List.append_assoc, List.cons_append]
      constructor
      · rintro ⟨⟨hp, hq⟩, ⟨hallowedp, hallowedq⟩, hwrites⟩
        exact ⟨⟨hp, hallowedp⟩, ⟨hq, hallowedq⟩, hwrites⟩
      · rintro ⟨⟨hp, hallowedp⟩, ⟨hq, hallowedq⟩, hwrites⟩
        exact ⟨⟨hp, hq⟩, ⟨hallowedp, hallowedq⟩, hwrites⟩
    · simp [hreadable]
  · have hext := Heap.extends_alloc h (.mapping .plain .empty)
    have hc : (h.alloc (.mapping .plain .empty)).get? c = h.get? c :=
      hext.get?_eq c (Heap.lt_size_of_suitsAt hsuits)
    rw [Heap.effect_set_eq_ok_iff, hslots, Heap.writes_append_iff (hacyclic.alloc rfl)
      (hleads.of_extends hext) (by rwa [Heap.SuitsAt, hc]) (hwritable.left.of_extends hleads hext),
      and_assoc]

theorem effect_subMapping_eq_ok_iff (hget : (get root p).effect h = (.ok .null, h)) :
    (subMapping limit root p).effect h = (.ok c, h₁) ↔
      c = h.size ∧ (set limit root p (.object h.size)).effect (h.alloc (.mapping .plain .empty)) =
        (.ok (), h₁) := by
  rw [effect_subMapping_of_null hget]
  constructor
  · intro hopened
    obtain ⟨_, h₂, hset, hdone⟩ := Heap.andThen_eq_ok hopened
    simp only [Prod.mk.injEq, Except.ok.injEq] at hdone
    obtain ⟨rfl, rfl⟩ := hdone
    exact ⟨rfl, hset⟩
  · rintro ⟨rfl, hset⟩
    rw [hset, andThen_ok]

/-- Assumes: an acyclic heap without dangling references, and a path at which null is read and along
which no mapping refuses to be assigned to. Writing behind the path and writing in the sub-mapping
there succeed alike, and the heaps that come of it are the same but for the numbers of the new
containers. -/
theorem renumbers_of_set (limit : Option Nat) (hacyclic : h.Acyclic) (hclosed : h.Closed)
    (hcontinues : Path.Continues q p pq) (hget : (get root p).effect h = (.ok .null, h))
    (hout : h.RunsOut root (Path.slots p)) (hwritable : h.Writable root (Path.slots p))
    (hv : ∀ r ∈ v.ref?, r < h.size) :
    ((∃ h', (set limit root pq v).effect h = (.ok (), h')) ↔
      ∃ c h₁ h₂, (subMapping limit root p).effect h = (.ok c, h₁) ∧
        (set limit c q v).effect h₁ = (.ok (), h₂)) ∧
    ∀ c h₁ h₂ h', (subMapping limit root p).effect h = (.ok c, h₁) →
      (set limit c q v).effect h₁ = (.ok (), h₂) → (set limit root pq v).effect h = (.ok (), h') →
        ∃ k, h'.Renumbers h₂ (Heap.moveToFront h.size k) := by
  obtain ⟨d, s, behind, hsuits, hnull, hwhole, hfirst⟩ :=
    exists_writes_of_set limit hacyclic hcontinues hout hwritable
  obtain ⟨name, slots, hslots⟩ := Path.exists_slots_eq q
  have hlast : ∀ (h₁ : Heap) h₂, (set limit h.size q v).effect h₁ = (.ok (), h₂) ↔
      (Path.Readable q ∧ Path.Allowed limit q) ∧ h₁.Writes h.size (.field name :: slots) v h₂ := by
    intro h₁ h₂
    rw [Heap.effect_set_eq_ok_iff, hslots, and_assoc]
  rw [hslots] at hwhole
  simp only [effect_subMapping_eq_ok_iff hget, hwhole, hfirst]
  constructor
  · have hstages : (∃ h', h.Writes d (s :: (behind ++ .field name :: slots)) v h') ↔ _ :=
      Heap.exists_writes_append_iff hnull hsuits
    constructor
    · rintro ⟨h', hp, hq, hwrites⟩
      obtain ⟨h₁, hone, h₂, htwo⟩ := hstages.mp ⟨h', hwrites⟩
      exact ⟨_, h₁, h₂, ⟨rfl, hp, hone⟩, (hlast h₁ h₂).mpr ⟨hq, htwo⟩⟩
    · rintro ⟨_, h₁, h₂, ⟨rfl, hp, hone⟩, hset⟩
      obtain ⟨hq, htwo⟩ := (hlast h₁ h₂).mp hset
      obtain ⟨h', hwrites⟩ := hstages.mpr ⟨h₁, hone, h₂, htwo⟩
      exact ⟨h', hp, hq, hwrites⟩
  · rintro _ h₁ h₂ h' ⟨rfl, -, hone⟩ hset ⟨-, -, hwrites⟩
    exact ⟨behind.length, Heap.renumbers_of_writes (t := .field name) hclosed hv hnull hsuits hwrites
      hone ((hlast h₁ h₂).mp hset).2⟩

end SubMapping

/-- The two pieces of work have the same outcome wherever they start from this heap, and leave the
same heap. -/
def SameOn {α : Type} (h : Heap) (work work' : Scan α) : Prop :=
  ∀ w w' : Workplace, w.heap = h → w'.heap = h → outcome (work w) = outcome (work' w')

theorem sameOn_of_effect {α : Type} {h : Heap} {work work' : Scan α} (hwork : Steady work)
    (hwork' : Steady work') (heffect : work.effect h = work'.effect h) : SameOn h work work' := by
  rintro w w' rfl hw'
  rw [hwork w, hwork' w', hw', heffect]

section Parts

variable {limit : Option Nat} {root child : Ref} {p q pq : String} {v : Value} {w w' : Workplace}

theorem effect_of_get (hget : get root p w = .ok v w') :
    (get root p).effect w.heap = (.ok v, w.heap) := by
  have hrun := (follows_get.steady root p).effect_of_ok hget
  rwa [show w'.heap = w.heap by rw [← follows_get.effect_snd root p w.heap, hrun]] at hrun

/-- Where a mapping is read, scans behind the path are scans from this mapping. -/
theorem sameOn_of_mapping (hacyclic : w.heap.Acyclic) (hroot : w.heap.IsMapping root)
    (hplaces : ∀ hop ∈ Path.hops p, hop.place ≠ .every) (hcontinues : Path.Continues q p pq)
    (hget : get root p w = .ok (.object child) w') (hchild : w.heap.IsMapping child) :
    SameOn w.heap (get root pq) (get child q) ∧ SameOn w.heap (has root pq) (has child q) ∧
      SameOn w.heap (remove root pq) (remove child q) ∧
      (Path.Allowed limit p → w.heap.Writable root (Path.slots p) → ∀ v,
        SameOn w.heap (set limit root pq v) (set limit child q v)) := by
  rcases Heap.finds_or_runsOut_of_get hroot hplaces (effect_of_get hget) with
    ⟨hreadable, hfinds⟩ | ⟨hnull, -⟩
  · have hleads := hfinds.leads
    obtain ⟨hsame, hhas, hremove⟩ := Heap.effect_of_continues hcontinues hreadable hleads hchild
    refine ⟨?_, ?_, ?_, fun hallowed hwritable v ↦ ?_⟩
    · exact sameOn_of_effect (follows_get.steady _ _) (follows_get.steady _ _) hsame
    · exact sameOn_of_effect (follows_has.steady _ _) (follows_has.steady _ _) hhas
    · exact sameOn_of_effect (steady_remove _ _) (steady_remove _ _) hremove
    · exact sameOn_of_effect (steady_set _ _ _ _) (steady_set _ _ _ _)
        (Heap.effect_set_of_continues hacyclic hcontinues hreadable hallowed hleads hchild hwritable)
  · cases hnull

/-- Where null is read, a write behind the path succeeds when the sub-scanner can be opened and written,
and the heaps that are left are the same but for the numbers of the new containers. -/
theorem sets_of_null (hacyclic : w.heap.Acyclic) (hclosed : w.heap.Closed)
    (hroot : w.heap.IsMapping root) (hplaces : ∀ hop ∈ Path.hops p, hop.place ≠ .every)
    (hcontinues : Path.Continues q p pq) (hget : get root p w = .ok .null w')
    (hwritable : w.heap.Writable root (Path.slots p)) (hv : ∀ r ∈ v.ref?, r < w.heap.size) :
    ((∃ w₃, set limit root pq v w = .ok () w₃) ↔
      ∃ c w₁ w₂, subMapping limit root p w = .ok c w₁ ∧ set limit c q v w₁ = .ok () w₂) ∧
    ∀ c w₁ w₂ w₃, subMapping limit root p w = .ok c w₁ → set limit c q v w₁ = .ok () w₂ →
      set limit root pq v w = .ok () w₃ →
        ∃ k, w₃.heap.Renumbers w₂.heap (Heap.moveToFront w.heap.size k) := by
  have hout : w.heap.RunsOut root (Path.slots p) := by
    rcases Heap.finds_or_runsOut_of_get hroot hplaces (effect_of_get hget) with
      ⟨-, hfinds⟩ | ⟨-, hout⟩
    · exact hfinds.runsOut
    · exact hout
  obtain ⟨hiff, hrenumbers⟩ := renumbers_of_set limit hacyclic hclosed hcontinues
    (effect_of_get hget) hout hwritable hv
  have hsub := steady_subMapping limit root p
  have hset := fun c ↦ steady_set limit c q v
  have hjoin := steady_set limit root pq v
  refine ⟨⟨?_, ?_⟩, fun c w₁ w₂ w₃ hopened hwritten hwhole ↦ ?_⟩
  · rintro ⟨w₃, hwhole⟩
    obtain ⟨c, h₁, h₂, hopened, hwritten⟩ := hiff.mp ⟨_, hjoin.effect_of_ok hwhole⟩
    obtain ⟨w₁, hw₁, rfl⟩ := hsub.exists_of_effect hopened
    obtain ⟨w₂, hw₂, -⟩ := (hset c).exists_of_effect hwritten
    exact ⟨c, w₁, w₂, hw₁, hw₂⟩
  · rintro ⟨c, w₁, w₂, hopened, hwritten⟩
    obtain ⟨h', hwhole⟩ := hiff.mpr
      ⟨c, _, _, hsub.effect_of_ok hopened, (hset c).effect_of_ok hwritten⟩
    obtain ⟨w₃, hw₃, -⟩ := hjoin.exists_of_effect hwhole
    exact ⟨w₃, hw₃⟩
  · exact hrenumbers c _ _ _ (hsub.effect_of_ok hopened) ((hset c).effect_of_ok hwritten)
      (hjoin.effect_of_ok hwhole)

end Parts

end Scan

/-- Assumes: an acyclic heap without dangling references, a root that is a mapping, a path `p` without
a step `name[]` and without a blank text behind its last point, and a path `q` that is not blank.

Where a mapping is read at `p`, the sub-scanner is opened on this mapping without any change, and
scans at `q` from there are the scans at `p.q`; for a write, if the indices of `p` are within the limit
and no mapping above refuses to be assigned to.

Where null is read at `p` and no mapping on the way refuses to be assigned to, a write at `p.q`
succeeds when the sub-scanner can be opened and written at `q`, and then both leave the same trees, in
the same containers but for the numbers of the new ones. -/
theorem sub_scanner_interchangeable {limit : Option Nat} {root : Ref} {p q : String} {w : Workplace}
    (hacyclic : w.heap.Acyclic) (hclosed : w.heap.Closed) (hroot : w.heap.IsMapping root)
    (hplaces : ∀ hop ∈ Path.hops p, hop.place ≠ .every) (hp : Path.Extensible p)
    (hq : Text.trim q.toList ≠ []) :
    (∀ child w', Scan.get root p w = .ok (.object child) w' → w.heap.IsMapping child →
      (∃ w₁, Scan.subMapping limit root p w = .ok child w₁ ∧ w₁.heap = w.heap) ∧
        Scan.SameOn w.heap (Scan.get root (p ++ "." ++ q)) (Scan.get child q) ∧
        Scan.SameOn w.heap (Scan.has root (p ++ "." ++ q)) (Scan.has child q) ∧
        Scan.SameOn w.heap (Scan.remove root (p ++ "." ++ q)) (Scan.remove child q) ∧
        (Path.Allowed limit p → w.heap.Writable root (Path.slots p) → ∀ v,
          Scan.SameOn w.heap (Scan.set limit root (p ++ "." ++ q) v) (Scan.set limit child q v))) ∧
    (∀ w', Scan.get root p w = .ok .null w' → w.heap.Writable root (Path.slots p) →
      ∀ v, (∀ r ∈ v.ref?, r < w.heap.size) →
        ((∃ w₃, Scan.set limit root (p ++ "." ++ q) v w = .ok () w₃) ↔
          ∃ child w₁ w₂, Scan.subMapping limit root p w = .ok child w₁ ∧
            Scan.set limit child q v w₁ = .ok () w₂) ∧
        ∀ child w₁ w₂ w₃, Scan.subMapping limit root p w = .ok child w₁ →
          Scan.set limit child q v w₁ = .ok () w₂ →
          Scan.set limit root (p ++ "." ++ q) v w = .ok () w₃ →
            (∃ σ, w₃.heap.Renumbers w₂.heap σ ∧ ∀ r < w.heap.size, σ r = r) ∧
              ∀ u t, (∀ r ∈ u.ref?, r < w.heap.size) → (w₃.heap.Shows u t ↔ w₂.heap.Shows u t)) := by
  have hcontinues := Path.continues_join hp hq
  refine ⟨fun child w' hget hchild ↦ ⟨?_, ?_⟩, fun w' hget hwritable v hv ↦ ⟨?_, ?_⟩⟩
  · exact (steady_subMapping limit root p).exists_of_effect
      (effect_subMapping_of_isMapping hchild (effect_of_get hget))
  · exact sameOn_of_mapping hacyclic hroot hplaces hcontinues hget hchild
  · exact (sets_of_null hacyclic hclosed hroot hplaces hcontinues hget hwritable hv).1
  · intro child w₁ w₂ w₃ hopened hwritten hwhole
    obtain ⟨k, hsame⟩ := (sets_of_null hacyclic hclosed hroot hplaces hcontinues hget hwritable hv).2
      child w₁ w₂ w₃ hopened hwritten hwhole
    have hold : ∀ r < w.heap.size, Heap.moveToFront w.heap.size k r = r :=
      fun r ↦ Heap.moveToFront_of_lt
    exact ⟨⟨_, hsame, hold⟩, fun u t hu ↦
      hsame.shows_iff (Value.renumber_eq_self fun r hr ↦ hold r (hu r hr)) t⟩

/-- The mapping under `a` is opened as it is, and a write at `b` in it is a write at `a.b`. Under `c`
nothing stands: a write at `c.e` succeeds, and so does one at `e` in the sub-mapping that is made. -/
theorem sub_scanner_interchangeable_there_and_missing :
    let w : Workplace := ⟨⟨#[.mapping .plain (.ofList [(.text "a", .object 1)]),
      .mapping .ordered (.ofList [(.text "b", .integer 1)])]⟩, .new 0, #[]⟩
    w.heap.Acyclic ∧ w.heap.Closed ∧ w.heap.IsMapping 0 ∧
      ((∃ w₁, Scan.subMapping none 0 "a" w = .ok 1 w₁ ∧ w₁.heap = w.heap) ∧
        Scan.SameOn w.heap (Scan.set none 0 "a.b" (.integer 5))
          (Scan.set none 1 "b" (.integer 5))) ∧
      ∃ child w₁ w₂ w₃, Scan.subMapping none 0 "c" w = .ok child w₁ ∧
        Scan.set none child "e" (.object 1) w₁ = .ok () w₂ ∧
        Scan.set none 0 "c.e" (.object 1) w = .ok () w₃ ∧
        ∃ σ, w₃.heap.Renumbers w₂.heap σ ∧ ∀ r < w.heap.size, σ r = r := by
  intro w
  have hacyclic : w.heap.Acyclic := Heap.acyclic_of_lt (by decide)
  have hclosed : w.heap.Closed := Heap.closed_of_lt (by decide)
  have hroot : w.heap.IsMapping 0 := ⟨_, _, rfl⟩
  have hwritable : ∀ path, w.heap.Writable 0 (Path.slots path) := by
    intro path before s behind r _ _
    rcases r with _ | _ | r <;> rfl
  have ha : Step.decode "a" = .ok ⟨"a", "a", .key, none⟩ := by decide +kernel
  have hc : Step.decode "c" = .ok ⟨"c", "c", .key, none⟩ := by decide +kernel
  have he : Step.decode "e" = .ok ⟨"e", "e", .key, none⟩ := by decide +kernel
  have hce : Step.decode "c.e" = .ok ⟨"c.e", "c", .key, some "e"⟩ := by decide +kernel
  have hplaces : ∀ path ∈ ["a", "c"], ∀ hop ∈ Path.hops path, hop.place ≠ .every := by
    decide +kernel
  have hgeta : (Scan.get 0 "a").effect w.heap = (.ok (.object 1), w.heap) := by
    rw [Scan.follows_get.effect_of_ok ha]
    rfl
  have hgetc : (Scan.get 0 "c").effect w.heap = (.ok .null, w.heap) := by
    rw [Scan.follows_get.effect_of_ok hc]
    rfl
  obtain ⟨_, hruna, -⟩ := (Scan.follows_get.steady 0 "a").exists_of_effect hgeta
  obtain ⟨_, hrunc, -⟩ := (Scan.follows_get.steady 0 "c").exists_of_effect hgetc
  obtain ⟨_, hset⟩ : ∃ h', (Scan.set none 0 "c.e" (.object 1)).effect w.heap = (.ok (), h') :=
    ⟨_, Scan.effect_set_of_two hce rfl he rfl ..⟩
  obtain ⟨w₃, hwhole, -⟩ := (Scan.steady_set _ _ _ _).exists_of_effect hset
  obtain ⟨hopened, -, -, -, hwrite⟩ := (@sub_scanner_interchangeable none 0 "a" "b" w hacyclic hclosed
    hroot (hplaces "a" (by simp)) (by decide +kernel) (by decide +kernel)).1 1 _ hruna ⟨_, _, rfl⟩
  obtain ⟨hiff, hsame⟩ := (@sub_scanner_interchangeable none 0 "c" "e" w hacyclic hclosed hroot
    (hplaces "c" (by simp)) (by decide +kernel) (by decide +kernel)).2 _ hrunc (hwritable "c")
      (.object 1) (by simp [Value.ref?]; decide)
  obtain ⟨child, w₁, w₂, hsub, hwritten⟩ := hiff.mp ⟨w₃, hwhole⟩
  exact ⟨hacyclic, hclosed, hroot, ⟨hopened, hwrite (Path.allowed_none "a") (hwritable "a") _⟩, child,
    w₁, w₂, w₃, hsub, hwritten, hwhole, (hsame child w₁ w₂ w₃ hsub hwritten hwhole).1⟩

end DottedPath
