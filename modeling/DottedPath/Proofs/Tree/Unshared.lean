import DottedPath.Proofs.Scan.Effect
import DottedPath.Proofs.Tree.Clone
import DottedPath.Proofs.Tree.Read

/-!
# A deep copy shares nothing

A route from a value to a container says at which place to look in each container on the way
(`Heap.Route`). Where values are laid out without meeting a container twice, no container has two
routes: two of them would meet it in two places (`Lays.route_unique`). A container that is shared has
several routes, and for each of them the deep copy has a container of its own.

The deep copy therefore is a tree in the heap as well: all its containers are new, its mappings are
plain, and each container has exactly one route (`clone_is_unshared`). It unfolds as the value does,
down to the same scalars, and so does a copy of the copy.
-/

set_option autoImplicit false
set_option relaxedAutoImplicit false

namespace DottedPath

open Scan

namespace Heap

/-- From the value one comes to the mapping or list by these places, each of which is that of an entry
or of an item among those of the container. -/
inductive Route (h : Heap) : Value → List Nat → Ref → Prop
  | here {r : Ref} {c : Cell} (hget : h.get? r = some c) (hc : c.IsContainer) :
    Route h (.object r) [] r
  | into {r x : Ref} {c : Cell} {v : Value} {i : Nat} {places : List Nat} (hget : h.get? r = some c)
    (hv : c.contents[i]? = some v) (hroute : Route h v places x) : Route h (.object r) (i :: places) x

section Route

variable {h : Heap} {v v' : Value} {vs : List Value} {ts : List Tree} {rs : List Ref} {r x : Ref}
variable {i j : Nat} {p q : List Nat}

theorem Route.exists_reaches (hroute : h.Route v p x) :
    ∃ r c, v = .object r ∧ Relation.ReflTransGen h.Holds r x ∧ h.get? x = some c ∧ c.IsContainer := by
  induction hroute with
  | here hget hc => exact ⟨_, _, rfl, .refl, hget, hc⟩
  | into hget hv _ ih =>
    obtain ⟨s, c, rfl, hreach, hx⟩ := ih
    exact ⟨_, c, rfl, .head ⟨_, hget, List.mem_of_getElem? hv⟩ hreach, hx⟩

/-- A route from a container ends there, or goes on in one of its contents. -/
theorem Route.of_get? {c : Cell} (hget : h.get? r = some c) (hroute : h.Route (.object r) p x) :
    (p = [] ∧ x = r) ∨ ∃ k w q, p = k :: q ∧ c.contents[k]? = some w ∧ h.Route w q x := by
  cases hroute with
  | here => exact .inl ⟨rfl, rfl⟩
  | into hget' hk hroute =>
    obtain rfl := Option.some.inj (hget.symm.trans hget')
    exact .inr ⟨_, _, _, rfl, hk, hroute⟩

theorem IsLeaf.not_route (hleaf : h.IsLeaf v) : ¬ h.Route v p x := by
  intro hroute
  cases hroute with
  | here hget hc => exact hleaf.not_isContainer hget hc
  | into hget hv _ =>
    exact hleaf.not_isContainer hget (isContainer_of_mem_contents (List.mem_of_getElem? hv))

/-- What is reached has a route. -/
theorem exists_route {c : Cell} (hreach : Relation.ReflTransGen h.Holds r x) (hget : h.get? x = some c)
    (hc : c.IsContainer) : ∃ p, h.Route (.object r) p x := by
  induction hreach using Relation.ReflTransGen.head_induction_on with
  | refl => exact ⟨[], .here hget hc⟩
  | head hholds _ ih =>
    obtain ⟨p, hroute⟩ := ih
    obtain ⟨cell, hcell, hmem⟩ := hholds
    obtain ⟨i, hi⟩ := List.mem_iff_getElem?.mp hmem
    exact ⟨i :: p, .into hcell hi hroute⟩

/-- A route from one of the values ends at a container that is met. -/
theorem Lays.mem_of_route (hlays : h.Lays vs ts rs) (hv : vs[i]? = some v) (hroute : h.Route v p x) :
    x ∈ rs := by
  obtain ⟨r, c, rfl, hreach, hget, hc⟩ := hroute.exists_reaches
  exact hlays.mem_of_reaches (List.mem_of_getElem? hv) hreach hget hc

/-- Where no container is met twice, at most one route leads to each of them, and from one of the
values only. -/
theorem Lays.route_unique (hlays : h.Lays vs ts rs) (hnodup : rs.Nodup) (hv : vs[i]? = some v)
    (hv' : vs[j]? = some v') (hroute : h.Route v p x) (hroute' : h.Route v' q x) : i = j ∧ p = q := by
  induction hlays generalizing i j v v' p q with
  | nil => simp at hv
  | @leaf w vs ts rs hleaf _ ih =>
    cases i with
    | zero => exact absurd (Option.some.inj hv ▸ hroute) hleaf.not_route
    | succ i =>
      cases j with
      | zero => exact absurd (Option.some.inj hv' ▸ hroute') hleaf.not_route
      | succ j =>
        obtain ⟨rfl, rfl⟩ := ih hnodup hv hv' hroute hroute'
        exact ⟨rfl, rfl⟩
  | @node r c t ts us vs rs ss hget hnode hcontents hrest ihcontents ih =>
    obtain ⟨hr, hnodup⟩ := List.nodup_cons.mp hnodup
    obtain ⟨hrs, hss, hdisjoint⟩ := List.nodup_append.mp hnodup
    have hmem : ∀ {p}, h.Route (.object r) p x → x ∈ r :: rs := by
      intro p hw
      obtain ⟨-, rfl⟩ | ⟨k, w, p', -, hk, hw⟩ := hw.of_get? hget
      · exact List.mem_cons_self ..
      · exact List.mem_cons_of_mem _ (hcontents.mem_of_route hk hw)
    have hapart : x ∈ r :: rs → x ∉ ss := by
      intro hx hx'
      obtain rfl | hx := List.mem_cons.mp hx
      · exact hr (List.mem_append_right _ hx')
      · exact hdisjoint x hx x hx' rfl
    cases i with
    | zero =>
      obtain rfl := Option.some.inj hv
      cases j with
      | zero =>
        obtain rfl := Option.some.inj hv'
        refine ⟨rfl, ?_⟩
        obtain ⟨rfl, rfl⟩ | ⟨k, w, p', rfl, hk, hw⟩ := hroute.of_get? hget
        · obtain ⟨rfl, -⟩ | ⟨k, w, q', -, hk, hw⟩ := hroute'.of_get? hget
          · rfl
          · exact absurd (List.mem_append_left _ (hcontents.mem_of_route hk hw)) hr
        · obtain ⟨-, rfl⟩ | ⟨k', w', q', rfl, hk', hw'⟩ := hroute'.of_get? hget
          · exact absurd (List.mem_append_left _ (hcontents.mem_of_route hk hw)) hr
          · obtain ⟨rfl, rfl⟩ := ihcontents hrs hk hk' hw hw'
            rfl
      | succ j => exact absurd (hrest.mem_of_route hv' hroute') (hapart (hmem hroute))
    | succ i =>
      cases j with
      | zero =>
        obtain rfl := Option.some.inj hv'
        exact absurd (hrest.mem_of_route hv hroute) (hapart (hmem hroute'))
      | succ j =>
        obtain ⟨rfl, rfl⟩ := ih hss hv hv' hroute hroute'
        exact ⟨rfl, rfl⟩

/-- Each container that is reached from a copy is new, is a list or a plain mapping, and has exactly
one route. -/
theorem Copies.unshared {h' : Heap} {copy : Value} {t : Tree} {c : Cell}
    (hcopies : h.Copies h' [copy] [t] rs) (hr : r ∈ copy.ref?)
    (hreach : Relation.ReflTransGen h'.Holds r x) (hget : h'.get? x = some c) (hc : c.IsContainer) :
    h.size ≤ x ∧ (∀ kind entries, c = .mapping kind entries → kind = .plain) ∧
      ∃! p, h'.Route copy p x := by
  obtain rfl := Value.eq_object_of_ref? hr
  have hx : x ∈ rs := hcopies.lays.mem_of_reaches (List.mem_singleton.mpr rfl) hreach hget hc
  refine ⟨hcopies.fresh x hx, fun kind entries hmapping ↦ ?_, ?_⟩
  · exact hcopies.plain x hx kind entries (hmapping ▸ hget)
  · obtain ⟨p, hroute⟩ := exists_route hreach hget hc
    refine ⟨p, hroute, fun q hroute' ↦ ?_⟩
    exact (hcopies.lays.route_unique hcopies.nodup (i := 0) (j := 0) rfl rfl hroute' hroute).2

end Route

end Heap

namespace Scan

/-- What is laid out as a tree has a deep copy in every workplace with this heap. -/
theorem exists_clone_copies {w : Workplace} {v : Value} {t : Tree} (hshows : w.heap.Shows v t) :
    ∃ copy w' rs, clone v w = .ok copy w' ∧ w.heap.Copies w'.heap [copy] [t] rs := by
  obtain ⟨rs, hlays⟩ := hshows
  obtain ⟨copy, h', ss, hclone, hcopies⟩ := Heap.exists_clone hlays
  exact ⟨copy, { w with heap := h' }, ss, by rw [clone, hclone], hcopies⟩

end Scan

/-- Assumes: an acyclic heap without dangling references, and a value that refers to nothing that is
missing. The value has a deep copy, and nothing that was there changes. Every mapping or list that is
reached from the copy is new, and it is a plain mapping or a list and has exactly one route. The copy
unfolds as the value does, and so does a copy of the copy. -/
theorem clone_is_unshared {w : Workplace} {v : Value} (hacyclic : w.heap.Acyclic)
    (hclosed : w.heap.Closed) (hv : ∀ r ∈ v.ref?, r < w.heap.size) :
    ∃ copy w', Scan.clone v w = .ok copy w' ∧ w.heap.Extends w'.heap ∧
      (∀ r ∈ copy.ref?, ∀ x c, Relation.ReflTransGen w'.heap.Holds r x → w'.heap.get? x = some c →
        c.IsContainer → w.heap.size ≤ x ∧ (∀ kind entries, c = .mapping kind entries → kind = .plain) ∧
          ∃! p, w'.heap.Route copy p x) ∧
      ∃ t, w.heap.Shows v t ∧ w'.heap.Shows copy t ∧
        ∃ again w'', Scan.clone copy w' = .ok again w'' ∧ w''.heap.Shows again t := by
  obtain ⟨ts, rs, hlays⟩ := Heap.exists_lays hacyclic hclosed (List.forall_mem_singleton.mpr hv)
  obtain ⟨t, rfl⟩ := List.length_eq_one_iff.mp hlays.length_eq.symm
  have hshows : w.heap.Shows v t := ⟨rs, hlays⟩
  obtain ⟨copy, w', ss, hclone, hcopies⟩ := exists_clone_copies hshows
  have hshows' : w'.heap.Shows copy t := ⟨ss, hcopies.lays⟩
  obtain ⟨again, w'', ss', hagain, hcopies'⟩ := exists_clone_copies hshows'
  refine ⟨copy, w', hclone, hcopies.extends_, ?_, t, hshows, hshows', again, w'', hagain, ss',
    hcopies'.lays⟩
  exact fun r hr x c ↦ hcopies.unshared hr

/-- A list that a read-only mapping holds twice has two routes before the copy, and each of its two
copies has one. -/
theorem clone_is_unshared_twice :
    let w : Workplace := ⟨⟨#[.mapping .readOnly (.ofList [(.text "a", .object 1), (.integer 3, .object 1)]),
      .list [.object 2, .null], .tuple [.integer 7]]⟩, .new 0, #[]⟩
    w.heap.Acyclic ∧ w.heap.Closed ∧ w.heap.Route (.object 0) [0] 1 ∧ w.heap.Route (.object 0) [1] 1 ∧
      ∃ copy w', Scan.clone (.object 0) w = .ok copy w' ∧
        (∀ r ∈ copy.ref?, ∀ x c, Relation.ReflTransGen w'.heap.Holds r x → w'.heap.get? x = some c →
          c.IsContainer → 3 ≤ x ∧ ∃! p, w'.heap.Route copy p x) ∧
        ∃ t, w.heap.Shows (.object 0) t ∧ w'.heap.Shows copy t := by
  intro w
  have hacyclic : w.heap.Acyclic := Heap.acyclic_of_lt (by decide)
  have hclosed : w.heap.Closed := Heap.closed_of_lt (by decide)
  have hv : ∀ r ∈ (Value.object 0).ref?, r < w.heap.size := by
    intro r hr
    obtain rfl := Option.some.inj hr
    decide
  have hlist : w.heap.Route (.object 1) [] 1 := .here rfl trivial
  have hfirst : w.heap.Route (.object 0) [0] 1 := .into rfl rfl hlist
  have hsecond : w.heap.Route (.object 0) [1] 1 := .into rfl rfl hlist
  obtain ⟨copy, w', hclone, -, hunshared, t, hshows, hshows', -⟩ :=
    clone_is_unshared hacyclic hclosed hv
  refine ⟨hacyclic, hclosed, hfirst, hsecond, copy, w', hclone, ?_, t, hshows, hshows'⟩
  intro r hr x c hreach hget hc
  obtain ⟨hfresh, -, hone⟩ := hunshared r hr x c hreach hget hc
  exact ⟨hfresh, hone⟩

end DottedPath
