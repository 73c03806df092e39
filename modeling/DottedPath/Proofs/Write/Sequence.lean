import DottedPath.Proofs.Tree.Plant
import DottedPath.Proofs.Tree.Write
import DottedPath.Proofs.Write.ReadBack

/-!
# Sequences of plantings

Writes are independent when any two of their paths denote the same hops or part (`Independent`). In an
unordered tree such a sequence of plantings can be reordered, as long as those behind the same slots
keep their order (`plantAll_of_reorders`), and all of these but the last can be left out
(`plantAll_lastWrites`). Both are shown by putting off one planting: past the others that part from it,
up to where it is wanted or up to the next one behind the same slots.
-/

set_option autoImplicit false
set_option relaxedAutoImplicit false

namespace DottedPath

/-! ### Independent writes -/

/-- The hops lead to different keys, or to different indices. -/
def Hop.Differ (a b : Hop) : Prop :=
  a.name ≠ b.name ∨ ∃ m n, a.place = .item m ∧ b.place = .item n ∧ m ≠ n

/-- The paths lead to two places of which neither is inside the other. -/
def Path.Part (p q : String) : Prop :=
  ∃ before a b as bs, hops p = before ++ a :: as ∧ hops q = before ++ b :: bs ∧ a.Differ b

/-- The paths denote the same hops, and both of them can be read or neither can. -/
def Path.Same (p q : String) : Prop := hops p = hops q ∧ (Readable p ↔ Readable q)

/-- The writes append nothing, and none is at too great an index. Any two of their paths denote the
same hops or part. -/
structure Independent (writes : List (String × Value)) : Prop where
  small : ∀ e ∈ writes, ∀ s ∈ Path.slots e.1, s.Small
  places : ∀ e ∈ writes, ∀ hop ∈ Path.hops e.1, hop.place ≠ .every
  pairs : ∀ e ∈ writes, ∀ f ∈ writes, Path.Same e.1 f.1 ∨ Path.Part e.1 f.1

/-- The same writes in another order, in which those at the same hops come one after the other as
before. -/
structure Reorders (writes others : List (String × Value)) : Prop where
  perm : writes.Perm others
  filter_eq : ∀ hops, writes.filter (Path.hops ·.1 = hops) = others.filter (Path.hops ·.1 = hops)

/-- The writes without those that are followed by another one at the same hops. -/
def lastWrites : List (String × Value) → List (String × Value)
  | [] => []
  | e :: writes =>
    if ∃ f ∈ writes, Path.hops f.1 = Path.hops e.1 then lastWrites writes
    else e :: lastWrites writes

theorem lastWrites_subset (writes : List (String × Value)) : lastWrites writes ⊆ writes := by
  induction writes with
  | nil => exact List.Subset.refl _
  | cons e writes ih =>
    rw [lastWrites]
    split
    · exact List.subset_cons_of_subset e ih
    · exact List.cons_subset_cons e ih

theorem Hop.part_slots {a b : Hop} (hdiffer : a.Differ b) (slots slots' : List Slot) :
    Slot.Part (a.slots ++ slots) (b.slots ++ slots') := by
  by_cases hname : a.name = b.name
  · rcases hdiffer with hne | ⟨m, n, hm, hn, hmn⟩
    · exact absurd hname hne
    · simp only [Hop.slots, hm, hn, hname, Place.slot?]
      exact .there (.here hmn)
  · exact .here hname

theorem Slot.Part.append_left {slots slots' : List Slot} (hpart : Part slots slots')
    (before : List Slot) : Part (before ++ slots) (before ++ slots') := by
  induction before with
  | nil => exact hpart
  | cons s before ih => exact .there ih

theorem Path.Part.slots {p q : String} (hpart : Part p q) : Slot.Part (slots p) (slots q) := by
  obtain ⟨before, a, b, as, bs, hp, hq, hdiffer⟩ := hpart
  rw [Path.slots, Path.slots, hp, hq, List.flatMap_append, List.flatMap_append]
  exact (Hop.part_slots hdiffer _ _).append_left _

theorem Path.slots_of_hops_eq {p q : String} (hhops : hops p = hops q) : slots p = slots q := by
  rw [slots, slots, hhops]

theorem Path.Same.refl (p : String) : Same p p := ⟨rfl, Iff.rfl⟩

theorem Path.Part.symm {p q : String} (hpart : Part p q) : Part q p := by
  obtain ⟨before, a, b, as, bs, hp, hq, hdiffer⟩ := hpart
  refine ⟨before, b, a, bs, as, hq, hp, ?_⟩
  rcases hdiffer with hne | ⟨m, n, hm, hn, hmn⟩
  · exact .inl (Ne.symm hne)
  · exact .inr ⟨n, m, hn, hm, Ne.symm hmn⟩

theorem Path.Part.hops_ne {p q : String} (hpart : Part p q) : hops p ≠ hops q := by
  obtain ⟨before, a, b, as, bs, hp, hq, hdiffer⟩ := hpart
  intro heq
  rw [hp, hq, List.append_cancel_left_eq, List.cons.injEq] at heq
  obtain ⟨rfl, -⟩ := heq
  rcases hdiffer with hne | ⟨m, n, hm, hn, hmn⟩
  · exact hne rfl
  · rw [hm, Place.item.injEq] at hn
    exact hmn hn

namespace Independent

variable {writes others : List (String × Value)} {e f : String × Value}

theorem mono (hwrites : Independent writes) (hsub : others ⊆ writes) : Independent others :=
  ⟨fun e he ↦ hwrites.small e (hsub he), fun e he ↦ hwrites.places e (hsub he),
    fun e he f hf ↦ hwrites.pairs e (hsub he) f (hsub hf)⟩

theorem tail (hwrites : Independent (e :: writes)) : Independent writes :=
  hwrites.mono (List.subset_cons_self e writes)

theorem next_notMem (hwrites : Independent writes) (he : e ∈ writes) : .next ∉ Path.slots e.1 :=
  Heap.next_not_mem_slots (hwrites.places e he)

theorem part (hwrites : Independent writes) (he : e ∈ writes) (hf : f ∈ writes)
    (hne : Path.hops f.1 ≠ Path.hops e.1) : Path.Part e.1 f.1 :=
  (hwrites.pairs e he f hf).resolve_left fun hsame ↦ hne hsame.1.symm

theorem same (hwrites : Independent writes) (he : e ∈ writes) (hf : f ∈ writes)
    (heq : Path.hops f.1 = Path.hops e.1) : Path.Same e.1 f.1 :=
  (hwrites.pairs e he f hf).resolve_right fun hpart ↦ hpart.hops_ne heq.symm

/-- What is true of the last writes is true of all, if it only looks at the hops that a path denotes
and at whether it can be read. -/
theorem forall_lastWrites_iff (hwrites : Independent writes) {P : String → Prop}
    (hsame : ∀ p q, Path.Same p q → P q → P p) :
    (∀ e ∈ lastWrites writes, P e.1) ↔ ∀ e ∈ writes, P e.1 := by
  refine ⟨fun hlast ↦ ?_, fun hall e he ↦ hall e (lastWrites_subset writes he)⟩
  induction writes with
  | nil => exact hlast
  | cons e writes ih =>
    rw [lastWrites] at hlast
    split at hlast
    · next hlater =>
      obtain ⟨f, hf, hhops⟩ := hlater
      have hrest := ih hwrites.tail hlast
      have hpaths := hwrites.same (List.mem_cons_self ..) (List.mem_cons_of_mem e hf) hhops
      exact List.forall_mem_cons.mpr ⟨hsame _ _ hpaths (hrest f hf), hrest⟩
    · rw [List.forall_mem_cons] at hlast ⊢
      exact ⟨hlast.1, ih hwrites.tail hlast.2⟩

end Independent

/-- The first write at some hops, when there is one. -/
theorem exists_first {writes : List (String × Value)} {k : List Hop}
    (hmem : ∃ f ∈ writes, Path.hops f.1 = k) :
    ∃ before f behind, writes = before ++ f :: behind ∧ Path.hops f.1 = k ∧
      ∀ g ∈ before, Path.hops g.1 ≠ k := by
  induction writes with
  | nil => simp at hmem
  | cons e writes ih =>
    by_cases he : Path.hops e.1 = k
    · exact ⟨[], e, writes, rfl, he, nofun⟩
    · obtain ⟨f, hf, hk⟩ := hmem
      have hf' : f ∈ writes := (List.mem_cons.mp hf).resolve_left fun heq ↦ he (heq ▸ hk)
      obtain ⟨before, g, behind, rfl, hg, hbefore⟩ := ih ⟨f, hf', hk⟩
      exact ⟨e :: before, g, behind, rfl, hg, List.forall_mem_cons.mpr ⟨he, hbefore⟩⟩

/-- Two writes at different hops can change places. -/
theorem Reorders.swap {e f : String × Value} (hne : Path.hops e.1 ≠ Path.hops f.1)
    (writes : List (String × Value)) : Reorders (e :: f :: writes) (f :: e :: writes) := by
  refine ⟨.swap f e writes, fun k ↦ ?_⟩
  simp only [List.filter_cons, decide_eq_true_eq]
  by_cases he : Path.hops e.1 = k
  · subst he
    rw [if_neg (Ne.symm hne), if_neg (Ne.symm hne)]
  · rw [if_neg he, if_neg he]

/-- The first of some writes stands in another order behind writes at other hops. -/
theorem Reorders.exists_first {writes others : List (String × Value)} {e : String × Value}
    (horder : Reorders (e :: writes) others) :
    ∃ before behind, others = before ++ e :: behind ∧ Reorders writes (before ++ behind) ∧
      ∀ f ∈ before, Path.hops f.1 ≠ Path.hops e.1 := by
  have hmem : e ∈ others := horder.perm.subset (List.mem_cons_self ..)
  obtain ⟨before, f, behind, rfl, hf, hbefore⟩ := DottedPath.exists_first ⟨e, hmem, rfl⟩
  have hnone : before.filter (Path.hops ·.1 = Path.hops e.1) = [] := by
    rw [List.filter_eq_nil_iff]
    exact fun g hg ↦ by simpa using hbefore g hg
  have hsame := horder.filter_eq (Path.hops e.1)
  rw [List.filter_append, hnone, List.nil_append, List.filter_cons_of_pos (by simp),
    List.filter_cons_of_pos (by simpa using hf), List.cons.injEq] at hsame
  obtain ⟨rfl, hsame⟩ := hsame
  refine ⟨before, behind, rfl, ⟨?_, fun k ↦ ?_⟩, hbefore⟩
  · exact (List.perm_cons e).mp (horder.perm.trans List.perm_middle)
  · by_cases hk : Path.hops e.1 = k
    · subst hk
      rw [hsame, List.filter_append, hnone, List.nil_append]
    · have hfilter := horder.filter_eq k
      rwa [List.filter_append, List.filter_cons_of_neg (by simpa using hk),
        List.filter_cons_of_neg (by simpa using hk), ← List.filter_append] at hfilter

/-! ### Sequences of plantings -/

namespace UnorderedTree

/-- The tree with the values planted as leaves behind the slots of their paths, one after the
other. -/
def plantAll : List (String × Value) → UnorderedTree → Option UnorderedTree
  | [], u => some u
  | e :: writes, u => (plant (leaf e.2) (Path.slots e.1) u).bind (plantAll writes)

theorem plantAll_append (as bs : List (String × Value)) (u : UnorderedTree) :
    plantAll (as ++ bs) u = (plantAll as u).bind (plantAll bs) := by
  induction as generalizing u with
  | nil => rfl
  | cons e as ih => rw [List.cons_append, plantAll, plantAll, Option.bind_assoc, funext ih]

section Order

variable {writes others before behind : List (String × Value)} {e : String × Value}

/-- A planting can be put off for others that part from it. -/
theorem plantAll_put_off (hnext : .next ∉ Path.slots e.1) (hparts : ∀ f ∈ before, Path.Part e.1 f.1)
    (u : UnorderedTree) :
    plantAll (e :: before ++ behind) u = plantAll (before ++ e :: behind) u := by
  induction before generalizing u with
  | nil => rfl
  | cons f before ih =>
    rw [List.forall_mem_cons] at hparts
    calc plantAll (e :: f :: before ++ behind) u
        = ((plant (leaf e.2) (Path.slots e.1) u).bind (plant (leaf f.2) (Path.slots f.1))).bind
            (plantAll (before ++ behind)) := (Option.bind_assoc ..).symm
      _ = ((plant (leaf f.2) (Path.slots f.1) u).bind (plant (leaf e.2) (Path.slots e.1))).bind
            (plantAll (before ++ behind)) := by rw [plant_comm hparts.1.slots hnext]
      _ = (plant (leaf f.2) (Path.slots f.1) u).bind (plantAll (e :: before ++ behind)) :=
            Option.bind_assoc ..
      _ = plantAll (f :: before ++ e :: behind) u := by rw [funext (ih hparts.2)]; rfl

/-- Of two plantings behind the same slots, one right after the other, the first one can be left
out. -/
theorem plantAll_leave_out {f : String × Value} (hnext : .next ∉ Path.slots e.1)
    (hhops : Path.hops f.1 = Path.hops e.1) (u : UnorderedTree) :
    plantAll (e :: f :: behind) u = plantAll (f :: behind) u := by
  have hslots := Path.slots_of_hops_eq hhops
  calc plantAll (e :: f :: behind) u
      = ((plant (leaf e.2) (Path.slots e.1) u).bind (plant (leaf f.2) (Path.slots f.1))).bind
          (plantAll behind) := (Option.bind_assoc ..).symm
    _ = (plant (leaf f.2) (Path.slots f.1) u).bind (plantAll behind) := by
          rw [hslots, plant_self hnext]

/-- Plantings that do not depend on one another can be reordered. -/
theorem plantAll_of_reorders (hwrites : Independent writes) (horder : Reorders writes others)
    (u : UnorderedTree) : plantAll writes u = plantAll others u := by
  induction writes generalizing others u with
  | nil => rw [List.nil_perm.mp horder.perm]
  | cons e writes ih =>
    obtain ⟨before, behind, rfl, hrest, hbefore⟩ := horder.exists_first
    have hmem := List.mem_cons_self (a := e) (l := writes)
    have hparts : ∀ f ∈ before, Path.Part e.1 f.1 := fun f hf ↦
      hwrites.part hmem (horder.perm.mem_iff.mpr (List.mem_append_left _ hf)) (hbefore f hf)
    rw [← plantAll_put_off (hwrites.next_notMem hmem) hparts, List.cons_append, plantAll, plantAll,
      funext (ih hwrites.tail hrest)]

/-- A planting can be left out when another one behind the same slots comes later. -/
theorem plantAll_lastWrites (hwrites : Independent writes) (u : UnorderedTree) :
    plantAll (lastWrites writes) u = plantAll writes u := by
  induction writes generalizing u with
  | nil => rfl
  | cons e writes ih =>
    rw [lastWrites]
    split
    · next hlater =>
      have hmem := List.mem_cons_self (a := e) (l := writes)
      have hnext := hwrites.next_notMem hmem
      rw [ih hwrites.tail]
      obtain ⟨before, f, behind, rfl, hf, hbefore⟩ := exists_first hlater
      have hparts : ∀ g ∈ before, Path.Part e.1 g.1 := fun g hg ↦
        hwrites.part hmem (by simp [hg]) (hbefore g hg)
      rw [← List.cons_append, plantAll_put_off hnext hparts, plantAll_append, plantAll_append,
        funext (plantAll_leave_out hnext hf)]
    · rw [plantAll, plantAll, funext (ih hwrites.tail)]

end Order

end UnorderedTree

end DottedPath
