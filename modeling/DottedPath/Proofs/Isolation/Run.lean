import DottedPath.Proofs.Isolation.Edits
import DottedPath.Proofs.Tree.Scanner

/-!
# Scanners and their caller stay apart

A scanner that owns its root shares no container with its caller. The invariant is that no container
is below both what the scanners hold and what the caller holds (`Heap.Apart`); every call of a scanner
or of a sub-scanner keeps it and leaves what the caller holds alone (`apart_of_scans`), and every edit
of the caller keeps it and leaves what the scanners hold alone (`apart_of_edits`). Over whole runs, in
any order, this is `isolated_of_run`.
-/

set_option autoImplicit false
set_option relaxedAutoImplicit false

namespace DottedPath

/-- A workplace with two parties: the roots of a scanner and its sub-scanners, and the values that
their caller holds, the data and all exports. -/
structure Parties where
  place : Workplace
  roots : List Ref
  outside : List Value

namespace Parties

/-- The heap that both parties share. -/
def heap (s : Parties) : Heap := s.place.heap

/-- What the scanners hold. -/
def inside (s : Parties) : List Value := s.roots.map .object

/-- The parties in another heap. -/
def withHeap (s : Parties) (h : Heap) : Parties := { s with place := { s.place with heap := h } }

/-- A call of a scanner or of a sub-scanner, whether it succeeds or meets a fault. A value to be
written reaches no container below what the caller holds; a sub-scanner is one more root, and an
export is one more value of the caller. -/
inductive Scans (limit : Option Nat) (s : Parties) : Parties → Prop
  | get {root : Ref} {path : String} (hroot : root ∈ s.roots) :
    Scans limit s { s with place := Scan.after (Scan.get root path s.place) }
  | has {root : Ref} {path : String} (hroot : root ∈ s.roots) :
    Scans limit s { s with place := Scan.after (Scan.has root path s.place) }
  | set {root : Ref} {path : String} {v : Value} (hroot : root ∈ s.roots)
    (hv : ∀ x ∈ v.ref?, x < s.heap.size)
    (hapart : Disjoint (s.heap.below [v]) (s.heap.below s.outside)) :
    Scans limit s { s with place := Scan.after (Scan.set limit root path v s.place) }
  | remove {root : Ref} {path : String} (hroot : root ∈ s.roots) :
    Scans limit s { s with place := Scan.after (Scan.remove root path s.place) }
  | subMapping {root : Ref} {path : String} (hroot : root ∈ s.roots) :
    Scans limit s { s with
      place := Scan.after (Scan.subMapping limit root path s.place)
      roots := (Scan.gained? (Scan.subMapping limit root path s.place)).toList ++ s.roots }
  | toTree {scanner : Scanner} (hroot : scanner.root ∈ s.roots) :
    Scans limit s { s with
      place := Scan.after (Scan.toTree scanner s.place)
      outside := (Scan.gained? (Scan.toTree scanner s.place)).toList ++ s.outside }

/-- What the caller may put a value into: a container below what it holds, if the value reaches no
container below what the scanners hold, and a container that neither party reaches. -/
def MayEdit (s : Parties) (r : Ref) (v : Value) : Prop :=
  (r ∈ s.heap.below s.outside ∧ Disjoint (s.heap.below [v]) (s.heap.below s.inside)) ∨
    (r ∉ s.heap.below s.outside ∧ r ∉ s.heap.below s.inside)

/-- An edit of the caller: it puts a value into a container under a key or at an index, or behind the
items of a list, takes an entry or an item away, or makes a new cell. -/
inductive Edits (s : Parties) : Parties → Prop
  | put {r : Ref} {key : Key} {v : Value} {h : Heap} (hmay : s.MayEdit r v)
    (hv : ∀ x ∈ v.ref?, x < s.heap.size) (hput : s.heap.putAt (.object r) key v = .ok h) :
    Edits s (s.withHeap h)
  | push {r : Ref} {v : Value} {h : Heap} (hmay : s.MayEdit r v)
    (hv : ∀ x ∈ v.ref?, x < s.heap.size) (hpush : s.heap.pushTo (.object r) v = .ok h) :
    Edits s (s.withHeap h)
  | delete {r : Ref} {key : Key} {h : Heap} (hmay : s.MayEdit r .null)
    (hdelete : s.heap.deleteAt (.object r) key = .ok h) : Edits s (s.withHeap h)
  | alloc {c : Cell} (hc : ∀ v ∈ c.contents, ∀ x ∈ v.ref?, x < s.heap.size) :
    Edits s (s.withHeap (s.heap.alloc c))

/-- Calls and edits in any order. -/
def Run (limit : Option Nat) : Parties → Parties → Prop :=
  Relation.ReflTransGen fun s s' ↦ Scans limit s s' ∨ Edits s s'

/-- No container is below what the scanners hold and below what the caller holds. -/
def Apart (s : Parties) : Prop := s.heap.Apart s.inside s.outside

/-! ### Calls -/

section Calls

variable {limit : Option Nat} {s s' : Parties}

theorem within_of_mem_roots (hapart : s.Apart) {root : Ref} (hroot : root ∈ s.roots)
    (vs : List Value) : s.heap.Within (s.heap.below (s.inside ++ vs)) (.object root) := by
  have hmem : .object root ∈ s.inside := List.mem_map.mpr ⟨root, hroot, rfl⟩
  exact Heap.within_below (List.mem_append_left _ hmem) (Heap.Apart.left_lt hapart _ hmem)

/-- Work on the containers of the scanners and of a value apart from the caller's. -/
theorem apart_of_confined (hapart : s.Apart) (vs : List Value) (roots : List Ref) {place : Workplace}
    (hvs : Disjoint (s.heap.below vs) (s.heap.below s.outside))
    (hconfined : s.heap.Confined place.heap (s.heap.below (s.inside ++ vs)))
    (hroots : ∀ root ∈ roots,
      place.heap.Within (s.heap.grown (s.heap.below (s.inside ++ vs))) (.object root)) :
    Apart { s with place := place, roots := roots ++ s.roots } ∧
      s.heap.Spares place.heap s.outside := by
  have hdisjoint : Disjoint (s.heap.below (s.inside ++ vs)) (s.heap.below s.outside) := by
    rw [Heap.below_append, Set.disjoint_union_left]
    exact ⟨Heap.Apart.disjoint hapart, hvs⟩
  refine ⟨Heap.Apart.of_confined hapart hconfined (fun _ ↦ Heap.isContainer_of_mem_below) hdisjoint ?_,
    hconfined.spares (fun _ ↦ Heap.isContainer_of_mem_below) hdisjoint⟩
  intro v hv
  obtain ⟨root, hroot, rfl⟩ := List.mem_map.mp hv
  rcases List.mem_append.mp hroot with hnew | hold
  · exact hroots root hnew
  · exact (within_of_mem_roots hapart hold vs).of_confined hconfined

theorem apart_of_heap_eq (hapart : s.Apart) {place : Workplace} (hplace : place.heap = s.heap) :
    Apart { s with place := place } ∧ s.heap.Spares place.heap s.outside := by
  have hheap : Heap.Apart place.heap s.inside s.outside := by
    rw [hplace]
    exact hapart
  refine ⟨hheap, ?_⟩
  rw [hplace]
  exact (Heap.Extends.refl s.heap).spares s.outside

theorem disjoint_below_nil (h : Heap) (area : Set Ref) : Disjoint (h.below []) area := by
  rw [Set.disjoint_left]
  rintro x ⟨-, r, hmem, -⟩
  cases hmem

/-- A deep copy of what the scanners hold is a value that the caller can have. -/
theorem apart_of_toTree (hapart : s.Apart) {scanner : Scanner} (hroot : scanner.root ∈ s.roots) :
    Apart { s with
      place := Scan.after (Scan.toTree scanner s.place)
      outside := (Scan.gained? (Scan.toTree scanner s.place)).toList ++ s.outside } ∧
    s.heap.Spares (Scan.after (Scan.toTree scanner s.place)).heap s.outside := by
  have hmem : .object scanner.root ∈ s.inside := List.mem_map.mpr ⟨_, hroot, rfl⟩
  have hlt := Heap.Apart.left_lt hapart _ hmem
  cases hclone : s.heap.clone? (.object scanner.root) with
  | none =>
    have hrun : Scan.toTree scanner s.place = .error .endless s.place := by
      rw [Scan.toTree, Scan.clone, show s.place.heap.clone? _ = none from hclone]
    rw [hrun]
    exact apart_of_heap_eq hapart rfl
  | some copied =>
    obtain ⟨t, rs, hlays⟩ := Heap.lays_of_clone? (Heap.Apart.closed hapart) hlt hclone
    obtain ⟨copy, h', ss, hrun, hcopies⟩ := Scan.exists_toTree (w := s.place) hlays
    rw [hrun]
    refine ⟨?_, hcopies.extends_.spares s.outside⟩
    obtain ⟨hconfined, hcopy⟩ := hcopies.confined
    have hout := Heap.encloses_below (Heap.Apart.closed hapart) s.outside
    have hconfined' := hconfined.mono (Set.empty_subset _) hout
    have hsymm := Heap.Apart.symm hapart
    refine Heap.Apart.symm (Heap.Apart.of_confined hsymm hconfined' (fun _ ↦ Heap.isContainer_of_mem_below) hsymm.disjoint ?_)
    intro v hv
    rcases List.mem_append.mp hv with hnew | hold
    · obtain rfl : v = copy := by simpa [Scan.gained?] using hnew
      exact (hcopy _ (List.mem_singleton_self _)).mono fun x hx ↦ hx.imp (absurd · (Set.notMem_empty x)) id
    · exact (Heap.within_below hold (hsymm.left_lt v hold)).of_confined hconfined

/-- Every call of a scanner keeps the parties apart, and leaves what the caller holds alone. -/
theorem apart_of_scans (hapart : s.Apart) (hstep : s.Scans limit s') :
    s'.Apart ∧ s.heap.Spares s'.heap s.outside := by
  have hencloses := fun vs ↦ Heap.encloses_below (Heap.Apart.closed hapart) (s.inside ++ vs)
  have hnil := disjoint_below_nil s.heap (s.heap.below s.outside)
  cases hstep with
  | @get root path hroot =>
    refine apart_of_heap_eq hapart ?_
    rw [(Scan.follows_get.steady root path).heap_after]
    exact Scan.follows_get.effect_snd root path s.heap
  | @has root path hroot =>
    refine apart_of_heap_eq hapart ?_
    rw [(Scan.follows_has.steady root path).heap_after]
    exact Scan.follows_has.effect_snd root path s.heap
  | @set root path v hroot hv hdisjoint =>
    refine apart_of_confined hapart [v] [] hdisjoint ?_ (by simp)
    rw [(Scan.steady_set limit root path v).heap_after]
    exact confined_set limit path (hencloses _) (within_of_mem_roots hapart hroot _)
      (Heap.within_below (by simp) hv)
  | @remove root path hroot =>
    refine apart_of_confined hapart [] [] hnil ?_ (by simp)
    rw [(Scan.steady_remove root path).heap_after]
    exact confined_remove path (hencloses _) (within_of_mem_roots hapart hroot _)
  | @subMapping root path hroot =>
    have hsteady := Scan.steady_subMapping limit root path
    obtain ⟨hconfined, hfound⟩ := confined_subMapping limit path (hencloses [])
      (within_of_mem_roots hapart hroot _)
    refine apart_of_confined hapart [] _ hnil ?_ fun c hc ↦ ?_
    · rw [hsteady.heap_after]
      exact hconfined
    · rw [hsteady.heap_after]
      exact hfound c (hsteady.effect_of_gained? (Option.mem_toList.mp hc))
  | toTree hroot => exact apart_of_toTree hapart hroot

end Calls

/-! ### Edits -/

section Edits

variable {s s' : Parties}

theorem apart_of_alters (hapart : s.Apart) {r : Ref} {v : Value} {h : Heap}
    (halters : s.heap.Alters h r v) (hmay : s.MayEdit r v) (hv : ∀ x ∈ v.ref?, x < s.heap.size) :
    (s.withHeap h).Apart ∧ s.heap.Spares h s.inside := by
  have hclosed := Heap.Apart.closed hapart
  rcases hmay with ⟨hout, hdisjoint⟩ | ⟨hout, hin⟩
  · -- the container is the caller's: what it holds now is below what the caller held, or the value
    have hin : r ∉ s.heap.below s.inside :=
      Set.disjoint_right.mp (Heap.Apart.disjoint hapart) hout
    have hspares := halters.spares hclosed hv hin
    have hconfined := halters.confined_below hclosed hout hv
    have hsymm := Heap.Apart.symm hapart
    have harea : Disjoint (s.heap.below (s.outside ++ [v])) (s.heap.below s.inside) := by
      rw [Heap.below_append, Set.disjoint_union_left]
      exact ⟨hsymm.disjoint, hdisjoint⟩
    have hapart' : h.Apart s.outside s.inside :=
      Heap.Apart.of_confined hsymm hconfined (fun _ ↦ Heap.isContainer_of_mem_below) harea fun w hw ↦
        (Heap.within_below (List.mem_append_left _ hw) (hsymm.left_lt w hw)).of_confined hconfined
    exact ⟨hapart'.symm, hspares⟩
  · have hspares := halters.spares hclosed hv hin
    exact ⟨Heap.Apart.of_spares hapart hspares (halters.spares hclosed hv hout)
      (halters.closed hclosed hv), hspares⟩

/-- Every edit of the caller keeps the parties apart, and leaves what the scanners hold alone. -/
theorem apart_of_edits (hapart : s.Apart) (hstep : s.Edits s') :
    s'.Apart ∧ s.heap.Spares s'.heap s.inside := by
  have hclosed := Heap.Apart.closed hapart
  cases hstep with
  | put hmay hv hput => exact apart_of_alters hapart (Heap.alters_putAt hput) hmay hv
  | push hmay hv hpush => exact apart_of_alters hapart (Heap.alters_pushTo hpush) hmay hv
  | delete hmay hdelete =>
    exact apart_of_alters hapart (Heap.alters_deleteAt hdelete) hmay fun x hx ↦ by
      simp [Value.ref?] at hx
  | @alloc c hc =>
    have hext := Heap.extends_alloc s.heap c
    have hspares := hext.spares s.inside
    exact ⟨Heap.Apart.of_spares hapart hspares (hext.spares s.outside) (hclosed.alloc hc), hspares⟩

end Edits

/-! ### Runs -/

section Runs

variable {limit : Option Nat}

/-- The parties are apart all along a run. -/
theorem apart_of_run {s s' : Parties} (hapart : s.Apart) (hrun : Run limit s s') : s'.Apart := by
  induction hrun with
  | refl => exact hapart
  | tail _ hstep ih =>
    rcases hstep with hscans | hedits
    · exact (apart_of_scans ih hscans).1
    · exact (apart_of_edits ih hedits).1

/-- A scanner over a deep copy of its data starts apart from them. -/
theorem apart_of_own {w w₀ : Workplace} {data : Value} {scanner : Scanner} {t : Tree} {rs : List Ref}
    (hclosed : w.heap.Closed) (hdata : ∀ x ∈ data.ref?, x < w.heap.size)
    (hcopies : w.heap.Copies w₀.heap [.object scanner.root] [t] rs) :
    Apart ⟨w₀, [scanner.root], [data]⟩ := by
  obtain ⟨hconfined, hroot⟩ := hcopies.confined
  have hbefore : w.heap.Apart [] [data] :=
    ⟨hclosed, by simp, by simpa using hdata, disjoint_below_nil _ _⟩
  refine Heap.Apart.of_confined hbefore hconfined (fun x hx ↦ absurd hx (Set.notMem_empty x))
    (Set.empty_disjoint _) hroot

end Runs

end Parties

/-- Assumes: a heap in which no reference dangles, and data that are null or a mapping that the heap
lays out as a tree, as an acyclic heap does with every mapping (`Heap.exists_starts`). The data can be
given to a scanner of its own. In every run of calls of the scanner and its sub-scanners and of edits
of the caller, no container is below both what the scanners hold and what the caller holds. So a call
leaves the trees of the data and of all exports as they are, and an edit leaves the trees of the
scanner and its sub-scanners as they are. -/
theorem isolated_of_run {limit : Option Nat} {w : Workplace} {data : Value} {t : Tree}
    (hclosed : w.heap.Closed) (hdata : w.heap.Starts data t) :
    ∃ scanner w₀, Scan.own data w = .ok scanner w₀ ∧
      ∀ s, Parties.Run limit ⟨w₀, [scanner.root], [data]⟩ s →
        Disjoint (s.heap.below s.inside) (s.heap.below s.outside) ∧
        (∀ s', s.Scans limit s' → ∀ v ∈ s.outside, ∀ u, s'.heap.Shows v u ↔ s.heap.Shows v u) ∧
        ∀ s', s.Edits s' → ∀ v ∈ s.inside, ∀ u, s'.heap.Shows v u ↔ s.heap.Shows v u := by
  obtain ⟨scanner, w₀, ss, hown, hcopies⟩ := Scan.exists_own hdata
  refine ⟨scanner, w₀, hown, fun s hrun ↦ ?_⟩
  have hstart := Parties.apart_of_own hclosed hdata.lt_size hcopies
  have hapart := Parties.apart_of_run hstart hrun
  refine ⟨Heap.Apart.disjoint hapart, fun s' hscans v hv u ↦ ?_, fun s' hedits v hv u ↦ ?_⟩
  · have hspares := (Parties.apart_of_scans hapart hscans).2
    exact hspares.shows_iff (Heap.Apart.closed hapart) (Heap.Apart.right_lt hapart) hv u
  · have hspares := (Parties.apart_of_edits hapart hedits).2
    exact hspares.shows_iff (Heap.Apart.closed hapart) (Heap.Apart.left_lt hapart) hv u

/-- What the caller appends to a list of the data does not show in the scanner. -/
theorem isolated_of_run_push :
    let w : Workplace :=
      ⟨⟨#[.list [.integer 3], .mapping .plain (.ofList [(.text "a", .object 0)])]⟩, .new 0, #[]⟩
    let t : Tree := .mapping [(.text "a", .list [.leaf (.integer 3)])]
    w.heap.Closed ∧ w.heap.Starts (.object 1) t ∧ ∃ scanner w₀ s,
      Scan.own (.object 1) w = .ok scanner w₀ ∧
      Parties.Run none ⟨w₀, [scanner.root], [.object 1]⟩ s ∧
      s.heap.get? 0 = some (.list [.integer 3, .integer 5]) ∧
      s.heap.Shows (.object scanner.root) t := by
  intro w t
  have hlays : ∀ h : Heap, ∀ r s kind, h.get? s = some (.list [.integer 3]) →
      h.get? r = some (.mapping kind (.ofList [(.text "a", .object s)])) →
      h.Shows (.object r) t := by
    intro h r s kind hlist hmapping
    have hitems := Heap.lays_leaf (h := h) (v := .integer 3) (Heap.isLeaf_of_ref?_eq_none rfl)
    exact ⟨_, Heap.lays_node hmapping (.mapping rfl) (Heap.lays_node hlist .list hitems)⟩
  have hclosed : w.heap.Closed := Heap.closed_of_lt (by decide)
  have hdata : w.heap.Starts (.object 1) t := .mapping ⟨_, _, rfl⟩ (hlays _ 1 0 .plain rfl rfl)
  obtain ⟨scanner, w₀, hown, hisolated⟩ := @isolated_of_run none _ _ _ hclosed hdata
  let w₁ : Workplace :=
    ⟨⟨#[.list [.integer 3], .mapping .plain (.ofList [(.text "a", .object 0)]), .list [.integer 3],
      .mapping .plain (.ofList [(.text "a", .object 2)])]⟩, .new 0, #[]⟩
  have hown₁ : Scan.own (.object 1) w = .ok ⟨3, .owned⟩ w₁ := rfl
  obtain ⟨rfl, rfl⟩ := EStateM.Result.ok.inj (hown.symm.trans hown₁)
  let s : Parties := ⟨w₁, [3], [.object 1]⟩
  have hholds : s.heap.Holds 1 0 := ⟨_, rfl, List.mem_singleton_self _⟩
  have hlist : (0 : Ref) ∈ s.heap.below s.outside :=
    ⟨⟨_, rfl, trivial⟩, 1, List.mem_singleton_self _, .single hholds⟩
  have hfive : Disjoint (s.heap.below [.integer 5]) (s.heap.below s.inside) := by
    rw [Set.disjoint_left]
    rintro x ⟨-, r, hmem, -⟩
    simp at hmem
  have hpush : s.Edits (s.withHeap (s.heap.mapItems 0 fun items ↦ items ++ [.integer 5])) :=
    .push (.inl ⟨hlist, hfive⟩) (by simp [Value.ref?]) rfl
  have hkept := (hisolated s .refl).2.2 _ hpush (.object 3) (List.mem_singleton_self _) t
  exact ⟨hclosed, hdata, _, _, _, hown, .single (.inr hpush), rfl, hkept.mpr (hlays _ 3 2 .plain rfl rfl)⟩

end DottedPath
