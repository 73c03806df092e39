import DottedPath.Proofs.Acyclic.Write
import DottedPath.Proofs.Tree.Scanner
import DottedPath.Proofs.Write.Limit

/-!
# Heaps stay acyclic

A deep copy descends from container to container and looks out for nothing, so it comes to an end
only where there is no cycle. Scanners make none: whatever they write, remove and open, in any
order, and however each of these calls ends, the heap stays acyclic as long as no value is written
that reaches a container which its own write walks through (`Scanners.sound_of_acts`,
`Scanners.sound_of_course`). Hence a scanner can be exported at any time, and every value can be
copied (`acyclic_of_run`).
-/

set_option autoImplicit false
set_option relaxedAutoImplicit false

namespace DottedPath

open Scan

namespace Heap

section Acyclic

variable {limit : Option Nat} {h : Heap} {root r c : Ref} {path : String} {step : Step} {s : Slot}
  {v : Value}

theorem encloses_univ (hclosed : h.Closed) : h.Encloses Set.univ :=
  fun _ _ _ hget _ hv y hy ↦
    ⟨hclosed _ y ⟨_, hget, Value.eq_object_of_ref? hy ▸ hv⟩, fun _ ↦ Set.mem_univ y⟩

theorem within_univ (hv : ∀ x ∈ v.ref?, x < h.size) : h.Within Set.univ v :=
  fun x hx ↦ ⟨hv x hx, fun _ ↦ Set.mem_univ x⟩

/-- A new cell closes no cycle when it refers to nothing that is missing: nothing refers to it. -/
theorem Acyclic.alloc_closed (hacyclic : h.Acyclic) (hclosed : h.Closed) {cell : Cell}
    (hcell : ∀ v ∈ cell.contents, ∀ x ∈ v.ref?, x < h.size) : (h.alloc cell).Acyclic := by
  have hheld : ∀ a b, (h.alloc cell).Holds a b → b < h.size ∧ (a < h.size → h.Holds a b) := by
    rintro a b ⟨c, hget, hmem⟩
    rw [get?_alloc] at hget
    split at hget
    · next ha =>
      obtain rfl := Option.some.inj hget
      exact ⟨hcell _ hmem b rfl, fun hlt ↦ absurd ha (Nat.ne_of_lt hlt)⟩
    · exact ⟨hclosed a b ⟨c, hget, hmem⟩, fun _ ↦ ⟨c, hget, hmem⟩⟩
  have hreach : ∀ a b, Relation.TransGen (h.alloc cell).Holds a b →
      b < h.size ∧ (a < h.size → Relation.TransGen h.Holds a b) := by
    intro a b hreach
    induction hreach with
    | single hholds => exact ⟨(hheld _ _ hholds).1, fun ha ↦ .single ((hheld _ _ hholds).2 ha)⟩
    | tail _ hholds ih =>
      exact ⟨(hheld _ _ hholds).1, fun ha ↦ (ih.2 ha).tail ((hheld _ _ hholds).2 ih.1)⟩
  intro x hcycle
  obtain ⟨hx, hcycle⟩ := hreach x x hcycle
  exact hacyclic x (hcycle hx)

end Acyclic

end Heap

theorem Step.Opens.reaches {limit : Option Nat} {step : Step} {h : Heap} {root r : Ref} {s : Slot}
    (hopens : step.Opens limit h root r s) : Relation.ReflTransGen h.Holds root r := by
  cases hopens with
  | key => exact .refl
  | list _ _ hslot => exact .single (Heap.holds_of_slot? hslot)

namespace Heap

variable {limit : Option Nat} {h : Heap} {root c : Ref} {path : String}

/-- All that a write walks through is reached from its root. -/
theorem Crosses.reaches (hcrosses : h.Crosses limit root path c) :
    Relation.ReflTransGen h.Holds root c := by
  induction hcrosses with
  | root => exact .refl
  | last _ hopens => exact hopens.reaches
  | behind _ _ hopens hslot _ _ ih => exact hopens.reaches.trans (.head (holds_of_slot? hslot) ih)

/-- A new mapping that is written reaches nothing, so it is harmless. -/
theorem acyclic_subMapping (limit : Option Nat) (path : String) (hacyclic : h.Acyclic)
    (hclosed : h.Closed) (hroot : root < h.size) :
    ((subMapping limit root path).effect h).2.Acyclic := by
  have hread := effect_getAs_snd root path (.shape .mapping) h
  rw [effect_subMapping]
  generalize (getAs root path (some (.shape .mapping))).effect h = x at hread
  obtain ⟨e | v, h₁⟩ := x
  · rw [show h₁ = h from hread, andThen_error]
    exact hacyclic
  rw [show h₁ = h from hread, andThen_ok]
  split
  · exact hacyclic
  · have hsize : h.size < (h.alloc (.mapping .plain .empty)).size := by simp
    have hset : (h.alloc (.mapping .plain .empty)).Harmless (.object h.size)
        ((set limit root path (.object h.size)).effect (h.alloc (.mapping .plain .empty))) := by
      refine harmless_set (hacyclic.alloc rfl) (hclosed.alloc nofun) (Nat.lt_trans hroot hsize)
        (fun x hx ↦ Option.some.inj hx ▸ hsize) fun c hcrosses hreach ↦ ?_
      -- What the new mapping reaches is itself, and the write does not come there.
      obtain ⟨x, hx, hxc⟩ := hreach
      obtain rfl := Option.some.inj hx
      obtain rfl | ⟨y, hholds, -⟩ := Relation.ReflTransGen.cases_head hxc
      · exact not_reaches_alloc (v := .object root) hclosed
          (fun x hx ↦ Option.some.inj hx ▸ hroot) rfl ⟨root, rfl, hcrosses.reaches⟩
      · obtain ⟨cell, hget, -⟩ := holds_of_alloc rfl hholds
        exact Nat.lt_irrefl _ (lt_size_of_get? hget)
    generalize (set limit root path (.object h.size)).effect _ = x at hset
    obtain ⟨e | _, h₂⟩ := x <;> exact hset.acyclic

end Heap

namespace Scanners

/-- A call of a scanner, whether it succeeds or meets a fault, or a new cell of the caller, such as
one to be written. A value that is written reaches no container through which the write walks; what
a sub-scanner is made for is one more root. -/
inductive Acts (s : Scanners) : Scanners → Prop
  | set {limit : Option Nat} {root : Ref} {path : String} {v : Value} (hroot : root ∈ s.roots)
    (hv : ∀ x ∈ v.ref?, x < s.heap.size)
    (hapart : ∀ c, s.heap.Crosses limit root path c → ¬ s.heap.Reaches v c) :
    Acts s { s with place := Scan.after (Scan.set limit root path v s.place) }
  | remove {root : Ref} {path : String} (hroot : root ∈ s.roots) :
    Acts s { s with place := Scan.after (Scan.remove root path s.place) }
  | subMapping {limit : Option Nat} {root : Ref} {path : String} (hroot : root ∈ s.roots) :
    Acts s
      { place := Scan.after (Scan.subMapping limit root path s.place)
        roots := (Scan.gained? (Scan.subMapping limit root path s.place)).toList ++ s.roots }
  | alloc {c : Cell} (hc : ∀ v ∈ c.contents, ∀ x ∈ v.ref?, x < s.heap.size) :
    Acts s { s with place := { s.place with heap := s.heap.alloc c } }

/-- Acts in any order. -/
def Course : Scanners → Scanners → Prop := Relation.ReflTransGen Acts

/-- The heap is acyclic, no reference dangles, and all roots are there. -/
structure Sound (s : Scanners) : Prop where
  acyclic : s.heap.Acyclic
  closed : s.heap.Closed
  roots_lt : ∀ root ∈ s.roots, root < s.heap.size

variable {s s' : Scanners}

/-- Work that leaves no cycle and is confined to the heap keeps all sound. -/
theorem Sound.of_confined (hsound : s.Sound) {place : Workplace} (roots : List Ref)
    (hacyclic : place.heap.Acyclic) (hconfined : s.heap.Confined place.heap Set.univ)
    (hroots : ∀ root ∈ roots, root < place.heap.size) : Sound ⟨place, roots ++ s.roots⟩ where
  acyclic := hacyclic
  closed := hconfined.closed hsound.closed
  roots_lt root hroot := by
    obtain hnew | hold := List.mem_append.mp hroot
    · exact hroots root hnew
    · exact Nat.lt_of_lt_of_le (hsound.roots_lt root hold) hconfined.size_le

/-- Every act keeps the heap acyclic, however it ends. -/
theorem sound_of_acts (hsound : s.Sound) (hstep : s.Acts s') : s'.Sound := by
  have harea := Heap.encloses_univ hsound.closed
  have hwithin : ∀ root ∈ s.roots, s.heap.Within Set.univ (.object root) := fun root hroot ↦
    Heap.within_univ fun x hx ↦ Option.some.inj hx ▸ hsound.roots_lt root hroot
  cases hstep with
  | @set limit root path v hroot hv hapart =>
    refine hsound.of_confined [] ?_ ?_ nofun
    · rw [(Scan.steady_set limit root path v).heap_after]
      exact (Heap.harmless_set hsound.acyclic hsound.closed (hsound.roots_lt root hroot) hv
        hapart).acyclic
    · rw [(Scan.steady_set limit root path v).heap_after]
      exact confined_set limit path harea (hwithin root hroot) (Heap.within_univ hv)
  | @remove root path hroot =>
    refine hsound.of_confined [] ?_ ?_ nofun
    · rw [(Scan.steady_remove root path).heap_after]
      exact (thins_remove root path s.heap).acyclic hsound.acyclic
    · rw [(Scan.steady_remove root path).heap_after]
      exact confined_remove path harea (hwithin root hroot)
  | @subMapping limit root path hroot =>
    have hsteady := Scan.steady_subMapping limit root path
    obtain ⟨hconfined, hgained⟩ := confined_subMapping limit path harea (hwithin root hroot)
    refine hsound.of_confined _ ?_ ?_ fun r hr ↦ ?_
    · rw [hsteady.heap_after]
      exact Heap.acyclic_subMapping limit path hsound.acyclic hsound.closed
        (hsound.roots_lt root hroot)
    · rw [hsteady.heap_after]
      exact hconfined
    · rw [hsteady.heap_after]
      exact (hgained r (hsteady.effect_of_gained? (Option.mem_toList.mp hr)) r rfl).1
  | @alloc c hc =>
    refine ⟨hsound.acyclic.alloc_closed hsound.closed hc, hsound.closed.alloc hc,
      fun root hroot ↦ ?_⟩
    exact Nat.lt_of_lt_of_le (hsound.roots_lt root hroot) (Heap.extends_alloc s.heap c).size_le

/-- The heap is acyclic all along a run. -/
theorem sound_of_course (hsound : s.Sound) (hrun : Course s s') : s'.Sound := by
  induction hrun with
  | refl => exact hsound
  | tail _ hstep ih => exact sound_of_acts ih hstep

end Scanners

/-- In an acyclic heap without dangling references, the deep copy of a value that is there comes to
an end. -/
theorem Scan.exists_clone_of_acyclic {w : Workplace} (hacyclic : w.heap.Acyclic)
    (hclosed : w.heap.Closed) {v : Value} (hv : ∀ x ∈ v.ref?, x < w.heap.size) :
    ∃ copy w', clone v w = .ok copy w' := by
  obtain ⟨ts, rs, hlays⟩ := Heap.exists_lays hacyclic hclosed (List.forall_mem_singleton.mpr hv)
  obtain ⟨t, rfl⟩ := List.length_eq_one_iff.mp hlays.length_eq.symm
  obtain ⟨copy, h', -, hclone, -⟩ := Heap.exists_clone hlays
  exact ⟨copy, { w with heap := h' }, by rw [clone, hclone]⟩

/-- Assumes: an acyclic heap in which no reference dangles, and scanners whose roots are mappings
there. After every run of their calls, and of those of their sub-scanners, the heap is acyclic,
every scanner can be exported, and every value that is there has a deep copy. -/
theorem acyclic_of_run {s s' : Scanners} (hacyclic : s.heap.Acyclic) (hclosed : s.heap.Closed)
    (hroots : ∀ root ∈ s.roots, s.heap.IsMapping root) (hrun : s.Course s') :
    s'.heap.Acyclic ∧
      (∀ scanner : Scanner, scanner.root ∈ s'.roots →
        ∃ copy w, Scan.toTree scanner s'.place = .ok copy w) ∧
      ∀ v : Value, (∀ x ∈ v.ref?, x < s'.heap.size) →
        ∃ copy w, Scan.clone v s'.place = .ok copy w := by
  have hstart : s.Sound := ⟨hacyclic, hclosed, fun root hroot ↦ by
    obtain ⟨kind, entries, hget⟩ := hroots root hroot
    exact Heap.lt_size_of_get? hget⟩
  have hsound := Scanners.sound_of_course hstart hrun
  refine ⟨hsound.acyclic, fun scanner hroot ↦ ?_,
    fun v hv ↦ Scan.exists_clone_of_acyclic hsound.acyclic hsound.closed hv⟩
  exact Scan.exists_clone_of_acyclic hsound.acyclic hsound.closed fun x hx ↦
    Option.some.inj hx ▸ hsound.roots_lt _ hroot

/-- A write at `a.b[1]` through a read-only mapping is refused when the list has already got its new
item, here a list of its own. -/
theorem acyclic_of_run_refused :
    let w : Workplace :=
      ⟨⟨#[.mapping .plain (.ofList [(.text "a", .object 1)]),
        .mapping .readOnly (.ofList [(.text "b", .object 2)]), .list [.integer 1], .list []]⟩,
        .new 0, #[]⟩
    let s : Scanners := ⟨w, [0]⟩
    s.heap.Acyclic ∧ s.heap.Closed ∧ (∀ root ∈ s.roots, s.heap.IsMapping root) ∧
      ∃ w', Scan.set none 0 "a.b[1]" (.object 3) w = .error (.refused .assignment) w' ∧
        w'.heap.get? 2 = some (.list [.integer 1, .object 3]) ∧ s.Course ⟨w', [0]⟩ ∧
        w'.heap.Acyclic ∧
          (∀ scanner : Scanner, scanner.root ∈ [0] →
            ∃ copy w₁, Scan.toTree scanner w' = .ok copy w₁) ∧
          ∀ v : Value, (∀ x ∈ v.ref?, x < w'.heap.size) →
            ∃ copy w₁, Scan.clone v w' = .ok copy w₁ := by
  intro w s
  have hacyclic : s.heap.Acyclic := Heap.acyclic_of_lt (by decide)
  have hclosed : s.heap.Closed := Heap.closed_of_lt (by decide)
  have hroots : ∀ root ∈ s.roots, s.heap.IsMapping root := by
    intro root hroot
    obtain rfl := List.mem_singleton.mp hroot
    exact ⟨_, _, rfl⟩
  have hapart : ∀ c, s.heap.Crosses none 0 "a.b[1]" c → ¬ s.heap.Reaches (.object 3) c := by
    have hheld : ∀ r < s.heap.size, ∀ c ∈ s.heap.get? r, ∀ v ∈ c.contents, ∀ x ∈ v.ref?, x < 3 := by
      decide
    rintro c hcrosses ⟨x, hx, hreach⟩
    obtain rfl := Option.some.inj hx
    have hc : c = 3 := by
      obtain rfl | ⟨y, ⟨cell, hget, hmem⟩, -⟩ := Relation.ReflTransGen.cases_head hreach
      · rfl
      · obtain rfl := Option.some.inj hget
        cases hmem
    obtain hroot | ⟨y, -, cell, hget, hmem⟩ := Relation.ReflTransGen.cases_tail hcrosses.reaches
    · simp [hc] at hroot
    · exact Nat.ne_of_lt (hheld y (Heap.lt_size_of_get? hget) cell hget _ hmem c rfl) hc
  have hstep : Step.decode "a.b[1]" = .ok ⟨"a.b[1]", "a", .key, some "b[1]"⟩ := by decide +kernel
  have hlast : Step.decode "b[1]" = .ok ⟨"b[1]", "b", .item 1, none⟩ := by decide +kernel
  obtain ⟨h', heffect, hitem⟩ : ∃ h', (Scan.set none 0 "a.b[1]" (.object 3)).effect w.heap =
      (.error (.refused .assignment), h') ∧ h'.get? 2 = some (.list [.integer 1, .object 3]) :=
    ⟨_, Scan.effect_set_of_two hstep rfl hlast rfl .., rfl⟩
  obtain ⟨w', hset, rfl⟩ := (Scan.steady_set _ _ _ _).exists_of_effect_error heffect
  have hact : s.Acts { s with place := Scan.after (Scan.set none 0 "a.b[1]" (.object 3) w) } :=
    .set (List.mem_singleton_self 0) (fun x hx ↦ Option.some.inj hx ▸ by decide) hapart
  rw [hset] at hact
  have hrun : s.Course ⟨w', [0]⟩ := .single hact
  exact ⟨hacyclic, hclosed, hroots, w', hset, hitem, hrun,
    acyclic_of_run hacyclic hclosed hroots hrun⟩

end DottedPath
