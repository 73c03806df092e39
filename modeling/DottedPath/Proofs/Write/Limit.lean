import DottedPath.Proofs.Isolation.Scans
import DottedPath.Proofs.Remove.Thins
import DottedPath.Proofs.Write.Length

/-!
# What a limit of the indices bounds

Of a scanner and its sub-scanners with a limit `m` of the indices, a write makes lists of at most
`m + 1` items or fails, a removal makes none longer, and a sub-scanner writes at most a mapping. So in
a run in which only values with such lists are written, and none by way of a step `name[]`, every list
below the roots has at most `m + 1` items (`Scanners.bounded_of_run`). The caller may do what it likes
elsewhere in the heap meanwhile.
-/

set_option autoImplicit false
set_option relaxedAutoImplicit false

namespace DottedPath

/-- A step `name[]` is the only one that appends. -/
theorem Path.exists_every_of_next {path : String} (hnext : .next ∈ slots path) :
    ∃ hop ∈ hops path, hop.place = .every := by
  obtain ⟨hop, hhop, hslot⟩ := List.mem_flatMap.mp hnext
  refine ⟨hop, hhop, ?_⟩
  cases hplace : hop.place with
  | every => rfl
  | key | item n => simp [Hop.slots, hplace, Place.slot?] at hslot

namespace Heap

/-- No list below the values has more items than the bound. -/
def Short (h : Heap) (vs : List Value) (bound : Nat) : Prop := ∀ r ∈ h.below vs, h.length r ≤ bound

theorem Thins.length_le {h h' : Heap} (hthins : h.Thins h') (r : Ref) :
    h'.length r ≤ h.length r := by
  unfold length
  cases hget : h.get? r with
  | none =>
    have hsize : ¬r < h'.size := by
      intro hlt
      rw [hthins.size_eq] at hlt
      exact absurd hget (by simp [get?, size] at hlt ⊢; exact hlt)
    cases hget' : h'.get? r with
    | none => exact Nat.le_refl _
    | some c => exact absurd (lt_size_of_get? hget') hsize
  | some c =>
    obtain ⟨c', hget', hleft⟩ := hthins.leftOf r c hget
    rw [hget']
    cases hleft with
    | same => exact Nat.le_refl _
    | mapping hsub => exact Nat.le_refl _
    | list hsub => exact hsub.length_le

end Heap

namespace Scan

variable {m : Nat} {root : Ref} {path : String} {v : Value} {h : Heap}

/-- Without a step `name[]` no list gets longer than the limit allows. -/
theorem length_set_le (hroot : root < h.size)
    (hplaces : ∀ hop ∈ Path.hops path, hop.place ≠ .every) (r : Ref) :
    ((set (some m) root path v).effect h).2.length r ≤ max (h.length r) (m + 1) := by
  obtain ⟨x, hx⟩ := (lengthens_set (m := m) path v hroot).length_le
  obtain hle | ⟨-, -, hnext, -⟩ := hx r
  · exact hle
  · obtain ⟨hop, hhop, hplace⟩ := Path.exists_every_of_next hnext
    exact absurd hplace (hplaces hop hhop)

theorem length_subMapping_le (hroot : root < h.size)
    (hplaces : ∀ hop ∈ Path.hops path, hop.place ≠ .every) (r : Ref) :
    ((subMapping (some m) root path).effect h).2.length r ≤ max (h.length r) (m + 1) := by
  have hsame : h.length r ≤ max (h.length r) (m + 1) := Nat.le_max_left ..
  have hmake : ∀ x : Except Fault Unit × Heap,
      x = (set (some m) root path (.object h.size)).effect (h.alloc (.mapping .plain .empty)) →
      (andThen x fun _ h' ↦ (.ok h.size, h')).2.length r ≤ max (h.length r) (m + 1) := by
    rintro x hx
    have hlt : root < (h.alloc (.mapping .plain .empty)).size := by
      rw [Heap.size_alloc]
      exact Nat.lt_succ_of_lt hroot
    have hle := length_set_le (m := m) (v := .object h.size) hlt hplaces r
    rw [← hx, show (h.alloc (.mapping .plain .empty)).length r = h.length r from
      Heap.length_alloc_blank h (.field "") r] at hle
    obtain ⟨e | _, h'⟩ := x <;> exact hle
  have hheap := effect_getAs_snd root path (.shape .mapping) h
  rw [effect_subMapping]
  generalize (getAs root path (some (.shape .mapping))).effect h = x at hheap ⊢
  obtain ⟨e | w, h₁⟩ := x
  · obtain rfl : h₁ = h := hheap
    exact hsame
  · obtain rfl : h₁ = h := hheap
    rw [andThen_ok]
    cases h₁.node w with
    | mapping c _ _ => exact hsame
    | list _ _ | scalar => exact hmake _ rfl

end Scan

/-- A workplace with the roots of a scanner and its sub-scanners. -/
structure Scanners where
  place : Workplace
  roots : List Ref

namespace Scanners

/-- The heap that the scanners work on. -/
def heap (s : Scanners) : Heap := s.place.heap

/-- What the scanners hold. -/
def inside (s : Scanners) : List Value := s.roots.map .object

/-- A write, a removal or the making of a sub-scanner, whether it succeeds or meets a fault, by
scanners with a limit of the indices. Values with lists that are short enough are written, and none by
way of a step `name[]`. Elsewhere in the heap anything may happen. -/
inductive Calls (m : Nat) (s : Scanners) : Scanners → Prop
  | set {root : Ref} {path : String} {v : Value} (hroot : root ∈ s.roots)
    (hplaces : ∀ hop ∈ Path.hops path, hop.place ≠ .every) (hv : ∀ x ∈ v.ref?, x < s.heap.size)
    (hshort : s.heap.Short [v] (m + 1)) :
    Calls m s { s with place := Scan.after (Scan.set (some m) root path v s.place) }
  | remove {root : Ref} {path : String} (hroot : root ∈ s.roots) :
    Calls m s { s with place := Scan.after (Scan.remove root path s.place) }
  | subMapping {root : Ref} {path : String} (hroot : root ∈ s.roots)
    (hplaces : ∀ hop ∈ Path.hops path, hop.place ≠ .every) :
    Calls m s {
      place := Scan.after (Scan.subMapping (some m) root path s.place)
      roots := (Scan.gained? (Scan.subMapping (some m) root path s.place)).toList ++ s.roots }
  | elsewhere {place : Workplace} (hclosed : place.heap.Closed)
    (hspares : s.heap.Spares place.heap s.inside) : Calls m s { s with place := place }

/-- Calls in any order. -/
def Run (m : Nat) : Scanners → Scanners → Prop := Relation.ReflTransGen (Calls m)

/-- Nothing is missing, and every list below the roots is short enough. -/
structure Bounded (m : Nat) (s : Scanners) : Prop where
  closed : s.heap.Closed
  lt_size : ∀ root ∈ s.roots, root < s.heap.size
  short : s.heap.Short s.inside (m + 1)

variable {m : Nat} {s s' : Scanners}

theorem Bounded.lt_size_of_inside (hbounded : s.Bounded m) :
    ∀ v ∈ s.inside, ∀ x ∈ v.ref?, x < s.heap.size := by
  intro v hv x hx
  obtain ⟨root, hroot, rfl⟩ := List.mem_map.mp hv
  obtain rfl := Option.some.inj hx
  exact hbounded.lt_size root hroot

/-- Work on the containers of the scanners and of a value that lengthens no list too much. -/
theorem Bounded.of_confined (hbounded : s.Bounded m) {vs : List Value} {place : Workplace}
    (roots : List Ref) (hvs : s.heap.Short vs (m + 1))
    (hconfined : s.heap.Confined place.heap (s.heap.below (s.inside ++ vs)))
    (hroots : ∀ root ∈ roots,
      place.heap.Within (s.heap.grown (s.heap.below (s.inside ++ vs))) (.object root))
    (hlength : ∀ r, place.heap.length r ≤ max (s.heap.length r) (m + 1)) :
    Bounded m ⟨place, roots ++ s.roots⟩ := by
  have hwithin : ∀ root ∈ roots ++ s.roots,
      place.heap.Within (s.heap.grown (s.heap.below (s.inside ++ vs))) (.object root) := by
    intro root hroot
    rcases List.mem_append.mp hroot with hnew | hold
    · exact hroots root hnew
    · have hmem : .object root ∈ s.inside := List.mem_map.mpr ⟨root, hold, rfl⟩
      exact (Heap.within_below (List.mem_append_left _ hmem)
        (hbounded.lt_size_of_inside _ hmem)).of_confined hconfined
  refine ⟨hconfined.closed hbounded.closed, fun root hroot ↦ (hwithin root hroot root rfl).1, ?_⟩
  intro x hx
  have hgrown := Heap.below_subset hconfined.encloses (fun v hv ↦ by
    obtain ⟨root, hroot, rfl⟩ := List.mem_map.mp hv
    exact hwithin root hroot) hx
  have hbefore : s.heap.length x ≤ m + 1 := by
    rcases hgrown with hold | hnew
    · rw [Heap.below_append] at hold
      exact hold.elim (hbounded.short x) (hvs x)
    · rw [Heap.length_of_size_le hnew]
      exact Nat.zero_le _
  have hafter := hlength x
  show place.heap.length x ≤ m + 1
  omega

/-- Every call leaves the lists below the roots short enough. -/
theorem bounded_of_calls (hbounded : s.Bounded m) (hcalls : Calls m s s') : s'.Bounded m := by
  have hencloses := fun vs ↦ Heap.encloses_below hbounded.closed (s.inside ++ vs)
  have hnone : s.heap.Short [] (m + 1) := by
    rintro x ⟨-, r, hmem, -⟩
    cases hmem
  have hwithin : ∀ vs, ∀ root ∈ s.roots,
      s.heap.Within (s.heap.below (s.inside ++ vs)) (.object root) := by
    intro vs root hroot
    have hmem : .object root ∈ s.inside := List.mem_map.mpr ⟨root, hroot, rfl⟩
    exact Heap.within_below (List.mem_append_left _ hmem) (hbounded.lt_size_of_inside _ hmem)
  cases hcalls with
  | @set root path v hroot hplaces hv hshort =>
    have hheap := (Scan.steady_set (some m) root path v).heap_after s.place
    refine hbounded.of_confined [] hshort ?_ (by simp) fun r ↦ ?_
    · rw [hheap]
      exact confined_set (some m) path (hencloses [v]) (hwithin [v] root hroot)
        (Heap.within_below (by simp) hv)
    · rw [hheap]
      exact Scan.length_set_le (hbounded.lt_size root hroot) hplaces r
  | @remove root path hroot =>
    have hheap := (Scan.steady_remove root path).heap_after s.place
    refine hbounded.of_confined [] hnone ?_ (by simp) fun r ↦ ?_
    · rw [hheap]
      exact confined_remove path (hencloses []) (hwithin [] root hroot)
    · rw [hheap]
      exact Nat.le_trans ((thins_remove root path s.heap).length_le r) (Nat.le_max_left ..)
  | @subMapping root path hroot hplaces =>
    have hsteady := Scan.steady_subMapping (some m) root path
    obtain ⟨hconfined, hfound⟩ := confined_subMapping (some m) path (hencloses [])
      (hwithin [] root hroot)
    refine hbounded.of_confined _ hnone ?_ (fun c hc ↦ ?_) fun r ↦ ?_
    · rw [hsteady.heap_after]
      exact hconfined
    · rw [hsteady.heap_after]
      exact hfound c (hsteady.effect_of_gained? (Option.mem_toList.mp hc))
    · rw [hsteady.heap_after]
      exact Scan.length_subMapping_le (hbounded.lt_size root hroot) hplaces r
  | elsewhere hclosed hspares =>
    refine ⟨hclosed, fun root hroot ↦
      Nat.lt_of_lt_of_le (hbounded.lt_size root hroot) hspares.size_le, fun x hx ↦ ?_⟩
    have hbelow : x ∈ s.heap.below s.inside := by
      rwa [← hspares.below_eq hbounded.closed hbounded.lt_size_of_inside]
    have hsame := hspares.get?_eq x hbelow.1.lt_size fun _ ↦ hbelow
    exact (Heap.length_congr hsame).trans_le (hbounded.short x hbelow)

/-- In every state of a run the lists below the roots are short enough. -/
theorem bounded_of_run (hbounded : s.Bounded m) (hrun : Run m s s') : s'.Bounded m := by
  induction hrun with
  | refl => exact hbounded
  | tail _ hcalls ih => exact bounded_of_calls ih hcalls

end Scanners

/-- The limit `m` of the indices bounds the lengths of lists. A write along a path with a greater
index fails, and leaves everything that was there as it was. However a write ends, every list that was
there is no longer than before or than `m + 1`, but for at most one list, which has grown by one item,
and only by way of a step `name[]`; every new list has at most `m + 1` items. So when all lists below
the root of a scanner and in the values that are written have at most `m + 1` items, and no path of a
write or of a sub-scanner has a step `name[]`, the same is true of all lists below the root of the
scanner and of its sub-scanners in every state of a run. -/
theorem lengths_bounded (m : Nat) :
    (∀ (w : Workplace) (root : Ref) (path : String) (v : Value),
      (∃ hop ∈ Path.hops path, ∃ n, hop.place = .item n ∧ m < n) →
        ∃ e w', Scan.set (some m) root path v w = .error e w' ∧ w.heap.Extends w'.heap) ∧
    (∀ (w : Workplace) (root : Ref) (path : String) (v : Value), w.heap.IsMapping root →
      let h' := (Scan.after (Scan.set (some m) root path v w)).heap
      (∃ x, ∀ r < w.heap.size, h'.length r ≤ max (w.heap.length r) (m + 1) ∨
        r = x ∧ (∃ hop ∈ Path.hops path, hop.place = .every) ∧
          h'.length r = w.heap.length r + 1) ∧
      ∀ r, w.heap.size ≤ r → h'.length r ≤ m + 1) ∧
    ∀ s s' : Scanners, s.Bounded m → Scanners.Run m s s' → s'.heap.Short s'.inside (m + 1) := by
  refine ⟨fun w root path v habove ↦ ?_, fun w root path v hroot ↦ ?_, fun s s' hbounded hrun ↦ ?_⟩
  · have hnot : ¬Path.Allowed (some m) path := by
      intro hallowed
      obtain ⟨hop, hhop, n, hplace, hlt⟩ := habove
      exact absurd (hallowed hop hhop m rfl n hplace) (Nat.not_le_of_lt hlt)
    have hhalts : w.heap.Halts ((Scan.set (some m) root path v).effect w.heap) := halts_set hnot
    obtain ⟨e, h', hset, hext⟩ := hhalts
    obtain ⟨w', hrun, rfl⟩ := (Scan.steady_set _ _ _ _).exists_of_effect_error hset
    exact ⟨e, w', hrun, hext⟩
  · obtain ⟨kind, entries, hget⟩ := hroot
    have hlengthens := lengthens_set (m := m) path v (Heap.lt_size_of_get? hget)
    obtain ⟨x, hx⟩ := hlengthens.length_le
    intro h'
    have hheap : h' = _ := (Scan.steady_set (some m) root path v).heap_after w
    rw [hheap]
    refine ⟨⟨x, fun r hr ↦ (hx r).imp_right ?_⟩, fun r hr ↦ ?_⟩
    · rintro ⟨hr, -, hnext, hlength⟩
      exact ⟨hr, Path.exists_every_of_next hnext, hlength⟩
    · have hzero := Heap.length_of_size_le hr
      obtain hle | ⟨-, hlt, -⟩ := hx r
      · omega
      · exact absurd hlt (Nat.not_lt_of_le hr)
  · exact (Scanners.bounded_of_run hbounded hrun).short

/-- With a limit of 2 a list can be made with three items, and not with four. -/
theorem lengths_bounded_three :
    let w : Workplace := ⟨⟨#[.mapping .plain .empty]⟩, .new 0, #[]⟩
    (∃ e w', Scan.set (some 2) 0 "a[3]" .null w = .error e w' ∧ w.heap.Extends w'.heap) ∧
    ∃ w', Scan.set (some 2) 0 "a[2]" .null w = .ok () w' ∧
      Scanners.Run 2 ⟨w, [0]⟩ ⟨w', [0]⟩ ∧ w'.heap.Short [.object 0] 3 ∧ w'.heap.length 1 = 3 := by
  intro w
  have hstep : Step.decode "a[2]" = .ok ⟨"a[2]", "a", .item 2, none⟩ := by decide +kernel
  have hhops : Path.hops "a[2]" = [⟨"a", .item 2⟩] := by decide +kernel
  have habove : Path.hops "a[3]" = [⟨"a", .item 3⟩] := by decide +kernel
  obtain ⟨hfails, -, hbounded⟩ := lengths_bounded 2
  have hset : ∃ h', (Scan.set (some 2) 0 "a[2]" .null).effect w.heap = (.ok (), h') ∧
      h'.length 1 = 3 := by
    rw [Scan.effect_set_of_last hstep rfl]
    exact ⟨_, rfl, rfl⟩
  obtain ⟨h', heffect, hlength⟩ := hset
  obtain ⟨w', hrun, rfl⟩ := (Scan.steady_set _ _ _ _).exists_of_effect heffect
  have hnone : ∀ vs : List Value, w.heap.Short vs 3 := by
    rintro vs x ⟨⟨c, hget, -⟩, -⟩
    obtain ⟨hlt, rfl⟩ := Array.getElem?_eq_some_iff.mp hget
    obtain rfl : x = 0 := Nat.lt_one_iff.mp hlt
    exact Nat.zero_le _
  have hstart : Scanners.Bounded 2 ⟨w, [0]⟩ :=
    ⟨Heap.closed_of_lt (by decide), fun root hroot ↦ by simp_all; decide, hnone _⟩
  have hcall : Scanners.Run 2 ⟨w, [0]⟩ ⟨w', [0]⟩ := by
    have hcalls : Scanners.Calls 2 ⟨w, [0]⟩
        { place := Scan.after (Scan.set (some 2) 0 "a[2]" .null w), roots := [0] } :=
      .set List.mem_cons_self (by simp [hhops]) (by simp [Value.ref?]) (hnone _)
    rw [hrun] at hcalls
    exact .single hcalls
  exact ⟨hfails w 0 "a[3]" .null ⟨_, by rw [habove]; exact List.mem_cons_self, 3, rfl, by decide⟩,
    w', hrun, hcall, hbounded _ _ hstart hcall, hlength⟩

end DottedPath
