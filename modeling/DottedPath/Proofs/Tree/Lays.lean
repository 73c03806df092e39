import DottedPath.Proofs.Heap.Reach
import DottedPath.Proofs.Tree.Basic
import Mathlib.Data.Fintype.EquivFin

/-!
# Values laid out in a heap

A heap lays some values out as some trees when following their references through mappings and lists
gives these trees. With the trees go the containers that are met on the way, in the order of the
walk (`Heap.Lays`): what a value holds is reached by one way only when no container is met twice.

Main statements. The trees and the containers are determined by the heap and the values
(`Lays.unique`), they stay the same when these containers do (`Lays.frame`), they are all that is
reached (`Lays.mem_of_reaches`), and in an acyclic heap without dangling references every value is
laid out (`exists_lays`).
-/

set_option autoImplicit false
set_option relaxedAutoImplicit false

namespace DottedPath

/-- The cell is the root of a tree with the given trees below it. -/
inductive Cell.IsNode : Cell → Tree → List Tree → Prop
  | list {items : List Value} {ts : List Tree} : IsNode (.list items) (.list ts) ts
  | mapping {kind : MappingKind} {entries : Table Key Value} {es : List (Key × Tree)}
    (hkeys : es.map Prod.fst = entries.keys) :
    IsNode (.mapping kind entries) (.mapping es) (es.map Prod.snd)

theorem Cell.IsNode.isContainer {c : Cell} {t : Tree} {ts : List Tree} (hnode : c.IsNode t ts) :
    c.IsContainer := by
  cases hnode <;> trivial

namespace Heap

/-- The value is not a container, and refers to nothing that is missing. -/
def IsLeaf (h : Heap) (v : Value) : Prop :=
  ∀ r ∈ v.ref?, ∃ c, h.get? r = some c ∧ ¬ c.IsContainer

/-- The heap lays the values out as the trees, by way of the containers. -/
inductive Lays (h : Heap) : List Value → List Tree → List Ref → Prop
  | nil : Lays h [] [] []
  | leaf {v : Value} {vs : List Value} {ts : List Tree} {rs : List Ref} (hleaf : h.IsLeaf v)
    (hrest : Lays h vs ts rs) : Lays h (v :: vs) (.leaf v :: ts) rs
  | node {r : Ref} {c : Cell} {t : Tree} {ts us : List Tree} {vs : List Value} {rs ss : List Ref}
    (hget : h.get? r = some c) (hnode : c.IsNode t ts) (hcontents : Lays h c.contents ts rs)
    (hrest : Lays h vs us ss) : Lays h (.object r :: vs) (t :: us) (r :: (rs ++ ss))

/-- Whatever is no container in the first heap is none in the second. -/
def KeepsLeaves (h h' : Heap) : Prop :=
  ∀ r c, h.get? r = some c → ¬ c.IsContainer → ∃ c', h'.get? r = some c' ∧ ¬ c'.IsContainer

theorem KeepsLeaves.trans {h h' h'' : Heap} (hfirst : h.KeepsLeaves h') (hlast : h'.KeepsLeaves h'') :
    h.KeepsLeaves h'' := by
  intro r c hget hc
  obtain ⟨c', hget', hc'⟩ := hfirst r c hget hc
  exact hlast r c' hget' hc'

/-- Putting a value into a slot makes no container of anything else. -/
theorem keepsLeaves_of_put {h h' : Heap} {r : Ref} {s : Slot} {v : Value}
    (hput : ∀ x, h'.get? x = if x = r then (h.get? r).map (·.put s v) else h.get? x) :
    h.KeepsLeaves h' := by
  intro x c hget hc
  refine ⟨c, ?_, hc⟩
  rw [hput]
  split
  · next hx =>
    subst hx
    rw [hget]
    cases c with
    | mapping _ _ | list _ => exact absurd trivial hc
    | _ => rfl
  · exact hget

theorem keepsLeaves_fill {h h' : Heap} {r : Ref} {s : Slot} {v : Value}
    (hfill : h.fill r s v = .ok h') : h.KeepsLeaves h' :=
  keepsLeaves_of_put (get?_fill hfill)

theorem isLeaf_of_ref?_eq_none {h : Heap} {v : Value} (hv : v.ref? = none) : h.IsLeaf v := by
  intro r hr
  simp [hv] at hr

theorem IsLeaf.of_keepsLeaves {h h' : Heap} {v : Value} (hkeeps : h.KeepsLeaves h')
    (hleaf : h.IsLeaf v) : h'.IsLeaf v := by
  intro r hr
  obtain ⟨c, hget, hc⟩ := hleaf r hr
  exact hkeeps r c hget hc

theorem IsLeaf.not_isContainer {h : Heap} {r : Ref} {c : Cell} (hleaf : h.IsLeaf (.object r))
    (hget : h.get? r = some c) : ¬ c.IsContainer := by
  obtain ⟨c', hget', hc'⟩ := hleaf r rfl
  rw [hget] at hget'
  rwa [Option.some.inj hget']

section Lays

variable {h h' : Heap} {v : Value} {vs ws : List Value} {t : Tree} {ts us : List Tree}
variable {r : Ref} {rs ss : List Ref}

theorem lays_leaf (hleaf : h.IsLeaf v) : h.Lays [v] [.leaf v] [] := .leaf hleaf .nil

theorem lays_node {c : Cell} (hget : h.get? r = some c) (hnode : c.IsNode t ts)
    (hcontents : h.Lays c.contents ts rs) : h.Lays [.object r] [t] (r :: rs) := by
  simpa using Lays.node hget hnode hcontents .nil

/-- A value that is laid out as one tree is a leaf or the root of this tree. -/
theorem Lays.single (hlays : h.Lays [v] [t] rs) :
    (h.IsLeaf v ∧ t = .leaf v ∧ rs = []) ∨
      ∃ r c ts ss, v = .object r ∧ h.get? r = some c ∧ c.IsNode t ts ∧ h.Lays c.contents ts ss ∧
        rs = r :: ss := by
  cases hlays with
  | leaf hleaf hrest =>
    cases hrest
    exact .inl ⟨hleaf, rfl, rfl⟩
  | node hget hnode hcontents hrest =>
    cases hrest
    exact .inr ⟨_, _, _, _, rfl, hget, hnode, hcontents, by simp⟩

/-- A container that is laid out as a tree is the root of this tree. -/
theorem Lays.of_isContainer {c : Cell} (hlays : h.Lays [.object r] [t] rs)
    (hget : h.get? r = some c) (hc : c.IsContainer) :
    ∃ ts ss, c.IsNode t ts ∧ h.Lays c.contents ts ss ∧ rs = r :: ss := by
  rcases hlays.single with ⟨hleaf, -, -⟩ | ⟨r', c', ts, ss, hr, hget', hnode, hcontents, hrs⟩
  · exact absurd hc (hleaf.not_isContainer hget)
  · obtain rfl := Value.object.inj hr
    rw [hget] at hget'
    obtain rfl := Option.some.inj hget'
    exact ⟨ts, ss, hnode, hcontents, hrs⟩

theorem Lays.of_leaf {w : Value} (hlays : h.Lays [v] [.leaf w] rs) : v = w ∧ h.IsLeaf v := by
  rcases hlays.single with ⟨hleaf, heq, -⟩ | ⟨r, c, ts, ss, -, -, hnode, -, -⟩
  · exact ⟨(Tree.leaf.inj heq).symm, hleaf⟩
  · cases hnode

theorem Lays.of_list (hlays : h.Lays [v] [.list ts] rs) :
    ∃ r items ss, v = .object r ∧ h.get? r = some (.list items) ∧ h.Lays items ts ss ∧
      rs = r :: ss := by
  rcases hlays.single with ⟨-, heq, -⟩ | ⟨r, c, ts', ss, rfl, hget, hnode, hcontents, rfl⟩
  · cases heq
  · cases hnode
    exact ⟨r, _, ss, rfl, hget, hcontents, rfl⟩

theorem Lays.of_mapping {es : List (Key × Tree)} (hlays : h.Lays [v] [.mapping es] rs) :
    ∃ r kind entries ss, v = .object r ∧ h.get? r = some (.mapping kind entries) ∧
      h.Lays entries.data (es.map Prod.snd) ss ∧ rs = r :: ss := by
  rcases hlays.single with ⟨-, heq, -⟩ | ⟨r, c, ts', ss, rfl, hget, hnode, hcontents, rfl⟩
  · cases heq
  · cases hnode
    exact ⟨r, _, _, ss, rfl, hget, hcontents, rfl⟩

/-- Null is laid out as null, and nothing else is. -/
theorem Lays.eq_null_iff (hlays : h.Lays [v] [t] rs) : v = .null ↔ t = .null := by
  rcases hlays.single with ⟨-, rfl, -⟩ | ⟨r, c, ts, ss, rfl, -, hnode, -, -⟩
  · rw [Tree.null, Tree.leaf.injEq]
  · cases hnode <;> simp [Tree.null]

theorem Lays.length_eq (hlays : h.Lays vs ts rs) : vs.length = ts.length := by
  induction hlays with
  | nil => rfl
  | leaf _ _ ih => simp [ih]
  | node _ _ _ _ _ ih => simp [ih]

theorem Lays.append (hlays : h.Lays vs ts rs) (hlays' : h.Lays ws us ss) :
    h.Lays (vs ++ ws) (ts ++ us) (rs ++ ss) := by
  induction hlays with
  | nil => exact hlays'
  | leaf hleaf _ ih => exact .leaf hleaf ih
  | node hget hnode hcontents _ _ ih =>
    rw [List.cons_append, List.cons_append, List.cons_append, List.append_assoc]
    exact .node hget hnode hcontents ih

/-- Values that are laid out one after the other are laid out by themselves. -/
theorem Lays.of_append (hlays : h.Lays (vs ++ ws) ts rs) :
    ∃ ts₁ ts₂ rs₁ rs₂, ts = ts₁ ++ ts₂ ∧ rs = rs₁ ++ rs₂ ∧ h.Lays vs ts₁ rs₁ ∧ h.Lays ws ts₂ rs₂ := by
  induction vs generalizing ts rs with
  | nil => exact ⟨[], ts, [], rs, rfl, rfl, .nil, hlays⟩
  | cons v vs ih =>
    cases hlays with
    | leaf hleaf hrest =>
      obtain ⟨ts₁, ts₂, rs₁, rs₂, rfl, rfl, hvs, hws⟩ := ih hrest
      exact ⟨_, ts₂, rs₁, rs₂, rfl, rfl, .leaf hleaf hvs, hws⟩
    | @node r c t ts' _ _ rs' ss' hget hnode hcontents hrest =>
      obtain ⟨ts₁, ts₂, rs₁, rs₂, rfl, rfl, hvs, hws⟩ := ih hrest
      exact ⟨t :: ts₁, ts₂, r :: (rs' ++ rs₁), rs₂, rfl, by simp, .node hget hnode hcontents hvs, hws⟩

theorem Lays.cons (hlays : h.Lays [v] [t] rs) (hlays' : h.Lays vs ts ss) :
    h.Lays (v :: vs) (t :: ts) (rs ++ ss) :=
  hlays.append hlays'

theorem Lays.of_cons (hlays : h.Lays (v :: vs) ts rs) :
    ∃ t us rs₁ rs₂, ts = t :: us ∧ rs = rs₁ ++ rs₂ ∧ h.Lays [v] [t] rs₁ ∧ h.Lays vs us rs₂ := by
  obtain ⟨ts₁, ts₂, rs₁, rs₂, rfl, rfl, hv, hvs⟩ := Lays.of_append (show h.Lays ([v] ++ vs) ts rs from hlays)
  obtain ⟨t, rfl⟩ := List.length_eq_one_iff.mp hv.length_eq.symm
  exact ⟨t, ts₂, rs₁, rs₂, rfl, rfl, hv, hvs⟩

/-- The trees and the containers are determined by the heap and the values. -/
theorem Lays.unique (hlays : h.Lays vs ts rs) (hlays' : h.Lays vs us ss) : ts = us ∧ rs = ss := by
  induction hlays generalizing us ss with
  | nil =>
    cases hlays'
    exact ⟨rfl, rfl⟩
  | @leaf v vs ts rs hleaf _ ih =>
    cases hlays' with
    | leaf _ hrest =>
      obtain ⟨rfl, rfl⟩ := ih hrest
      exact ⟨rfl, rfl⟩
    | node hget hnode _ _ =>
      exact absurd hnode.isContainer (hleaf.not_isContainer hget)
  | @node r c t ts us vs rs ss hget hnode _ _ ihcontents ih =>
    cases hlays' with
    | leaf hleaf _ =>
      exact absurd hnode.isContainer (hleaf.not_isContainer hget)
    | node hget' hnode' hcontents' hrest' =>
      rw [hget] at hget'
      obtain rfl := Option.some.inj hget'
      obtain ⟨rfl, rfl⟩ := ih hrest'
      obtain ⟨hts, rfl⟩ := ihcontents hcontents'
      refine ⟨?_, rfl⟩
      cases hnode with
      | list =>
        cases hnode'
        rw [hts]
      | mapping hkeys =>
        cases hnode' with
        | mapping hkeys' =>
          have hentries := (List.zip_of_prod hkeys hts).trans (List.zip_of_prod hkeys' rfl).symm
          rw [hentries]

/-- Values are laid out as before as long as the containers that are met stay as they are. -/
theorem Lays.frame (hlays : h.Lays vs ts rs) (hsame : ∀ x ∈ rs, h'.get? x = h.get? x)
    (hkeeps : h.KeepsLeaves h') : h'.Lays vs ts rs := by
  induction hlays with
  | nil => exact .nil
  | leaf hleaf _ ih => exact .leaf (hleaf.of_keepsLeaves hkeeps) (ih hsame)
  | @node r c t ts us vs rs ss hget hnode _ _ ihcontents ih =>
    refine .node (c := c) ?_ hnode (ihcontents fun x hx ↦ hsame x (by simp [hx]))
      (ih fun x hx ↦ hsame x (by simp [hx]))
    rw [hsame r (List.mem_cons_self ..), hget]

theorem Lays.isContainer (hlays : h.Lays vs ts rs) : ∀ x ∈ rs, ∃ c, h.get? x = some c ∧ c.IsContainer := by
  induction hlays with
  | nil => simp
  | leaf _ _ ih => exact ih
  | @node r c t ts us vs rs ss hget hnode _ _ ihcontents ih =>
    intro x hx
    rcases List.mem_cons.mp hx with rfl | hx
    · exact ⟨c, hget, hnode.isContainer⟩
    · rcases List.mem_append.mp hx with hx | hx
      · exact ihcontents x hx
      · exact ih x hx

theorem Lays.lt_size (hlays : h.Lays vs ts rs) {x : Ref} (hx : x ∈ rs) : x < h.size := by
  obtain ⟨c, hget, -⟩ := hlays.isContainer x hx
  exact lt_size_of_get? hget

/-! ### Trees and reach -/

theorem isContainer_of_mem_contents {c : Cell} (hv : v ∈ c.contents) : c.IsContainer := by
  cases c with
  | mapping _ _ | list _ => trivial
  | _ => simp [Cell.contents] at hv

theorem Lays.mem_of_mem (hlays : h.Lays vs ts rs) {c : Cell} (hmem : .object r ∈ vs)
    (hget : h.get? r = some c) (hc : c.IsContainer) : r ∈ rs := by
  induction hlays with
  | nil => simp at hmem
  | @leaf v vs ts rs hleaf _ ih =>
    rcases List.mem_cons.mp hmem with rfl | hmem
    · exact absurd hc (hleaf.not_isContainer hget)
    · exact ih hmem
  | node _ _ _ _ _ ih =>
    rcases List.mem_cons.mp hmem with heq | hmem
    · obtain rfl := Value.object.inj heq
      exact List.mem_cons_self ..
    · exact List.mem_cons_of_mem _ (List.mem_append_right _ (ih hmem))

theorem Lays.mem_of_holds (hlays : h.Lays vs ts rs) {x y : Ref} {c : Cell} (hx : x ∈ rs)
    (hholds : h.Holds x y) (hget : h.get? y = some c) (hc : c.IsContainer) : y ∈ rs := by
  induction hlays with
  | nil => simp at hx
  | leaf _ _ ih => exact ih hx
  | node hcell _ hcontents _ ihcontents ih =>
    rcases List.mem_cons.mp hx with rfl | hx
    · obtain ⟨cell, hcell', hmem⟩ := hholds
      rw [hcell] at hcell'
      obtain rfl := Option.some.inj hcell'
      exact List.mem_cons_of_mem _ (List.mem_append_left _ (hcontents.mem_of_mem hmem hget hc))
    · rcases List.mem_append.mp hx with hx | hx
      · exact List.mem_cons_of_mem _ (List.mem_append_left _ (ihcontents hx))
      · exact List.mem_cons_of_mem _ (List.mem_append_right _ (ih hx))

theorem Lays.lt_size_of_mem (hlays : h.Lays vs ts rs) (hmem : .object r ∈ vs) : r < h.size := by
  induction hlays with
  | nil => simp at hmem
  | leaf hleaf _ ih =>
    rcases List.mem_cons.mp hmem with rfl | hmem
    · obtain ⟨c, hget, -⟩ := hleaf r rfl
      exact lt_size_of_get? hget
    · exact ih hmem
  | node hget _ _ _ _ ih =>
    rcases List.mem_cons.mp hmem with heq | hmem
    · rw [Value.object.inj heq]
      exact lt_size_of_get? hget
    · exact ih hmem

/-- A container that is met refers to nothing that is missing. -/
theorem Lays.lt_size_of_holds (hlays : h.Lays vs ts rs) {x y : Ref} (hx : x ∈ rs)
    (hholds : h.Holds x y) : y < h.size := by
  induction hlays with
  | nil => simp at hx
  | leaf _ _ ih => exact ih hx
  | node hcell _ hcontents _ ihcontents ih =>
    rcases List.mem_cons.mp hx with rfl | hx
    · obtain ⟨cell, hcell', hmem⟩ := hholds
      rw [hcell] at hcell'
      obtain rfl := Option.some.inj hcell'
      exact hcontents.lt_size_of_mem hmem
    · rcases List.mem_append.mp hx with hx | hx
      · exact ihcontents hx
      · exact ih hx

/-- Every container that is reached from a value is met. -/
theorem Lays.mem_of_reaches (hlays : h.Lays vs ts rs) {x : Ref} {c : Cell} (hmem : .object r ∈ vs)
    (hreach : Relation.ReflTransGen h.Holds r x) (hget : h.get? x = some c) (hc : c.IsContainer) :
    x ∈ rs := by
  induction hreach generalizing c with
  | refl => exact hlays.mem_of_mem hmem hget hc
  | tail _ hholds ih =>
    obtain ⟨cell, hcell, hv⟩ := hholds
    exact hlays.mem_of_holds (ih hcell (isContainer_of_mem_contents hv)) ⟨cell, hcell, hv⟩ hget hc

/-- Every container that is met is reached from one of the values. -/
theorem Lays.reaches_of_mem (hlays : h.Lays vs ts rs) {x : Ref} (hx : x ∈ rs) :
    ∃ r, .object r ∈ vs ∧ Relation.ReflTransGen h.Holds r x := by
  induction hlays with
  | nil => simp at hx
  | leaf _ _ ih =>
    obtain ⟨r, hmem, hreach⟩ := ih hx
    exact ⟨r, List.mem_cons_of_mem _ hmem, hreach⟩
  | @node r c t ts us vs rs ss hget _ _ _ ihcontents ih =>
    rcases List.mem_cons.mp hx with rfl | hx
    · exact ⟨x, List.mem_cons_self .., .refl⟩
    · rcases List.mem_append.mp hx with hx | hx
      · obtain ⟨s, hmem, hreach⟩ := ihcontents hx
        exact ⟨r, List.mem_cons_self .., .head ⟨c, hget, hmem⟩ hreach⟩
      · obtain ⟨s, hmem, hreach⟩ := ih hx
        exact ⟨s, List.mem_cons_of_mem _ hmem, hreach⟩

theorem Lays.reaches_root (hlays : h.Lays [.object r] [t] rs) {x : Ref} (hx : x ∈ rs) :
    Relation.ReflTransGen h.Holds r x := by
  obtain ⟨s, hmem, hreach⟩ := hlays.reaches_of_mem hx
  rwa [← Value.object.inj (List.mem_singleton.mp hmem)]

/-- Values are laid out as before as long as nothing that is reached from them changes. -/
theorem Lays.of_reaches (hlays : h.Lays vs ts rs)
    (hsame : ∀ r x c, .object r ∈ vs → Relation.ReflTransGen h.Holds r x → h.get? x = some c →
      h'.get? x = some c) : h'.Lays vs ts rs := by
  induction hlays with
  | nil => exact .nil
  | @leaf v vs ts rs hleaf _ ih =>
    refine .leaf (fun s hs ↦ ?_) (ih fun r x c hmem ↦ hsame r x c (List.mem_cons_of_mem _ hmem))
    obtain ⟨c, hget, hc⟩ := hleaf s hs
    exact ⟨c, hsame s s c (by rw [Value.eq_object_of_ref? hs]; exact List.mem_cons_self ..) .refl hget, hc⟩
  | @node r c t ts us vs rs ss hget hnode _ _ ihcontents ih =>
    refine .node (hsame r r c (List.mem_cons_self ..) .refl hget) hnode
      (ihcontents fun s x c' hmem hreach ↦ ?_)
      (ih fun s x c' hmem ↦ hsame s x c' (List.mem_cons_of_mem _ hmem))
    exact hsame r x c' (List.mem_cons_self ..) (.head ⟨c, hget, hmem⟩ hreach)

/-! ### What is laid out reaches no cycle -/

theorem Lays.exists_single (hlays : h.Lays vs ts rs) (hv : v ∈ vs) :
    ∃ t ss, h.Lays [v] [t] ss ∧ ss.length ≤ rs.length := by
  induction vs generalizing ts rs with
  | nil => simp at hv
  | cons w vs ih =>
    obtain ⟨t, us, rs₁, rs₂, rfl, rfl, hw, hrest⟩ := hlays.of_cons
    rcases List.mem_cons.mp hv with rfl | hv
    · exact ⟨t, rs₁, hw, by simp⟩
    · obtain ⟨u, ss, hlays, hle⟩ := ih hrest hv
      exact ⟨u, ss, hlays, hle.trans (by simp)⟩

/-- What a container holds has a smaller tree. -/
theorem Lays.exists_of_holds {x y : Ref} (hlays : h.Lays [.object x] [t] rs)
    (hholds : h.Holds x y) :
    ∃ u ss, h.Lays [.object y] [u] ss ∧ ss.length < rs.length := by
  obtain ⟨c, hget, hmem⟩ := hholds
  obtain ⟨ts, ss, -, hcontents, rfl⟩ := hlays.of_isContainer hget (isContainer_of_mem_contents hmem)
  obtain ⟨u, ss', hu, hle⟩ := hcontents.exists_single hmem
  exact ⟨u, ss', hu, Nat.lt_succ_of_le hle⟩

theorem Lays.exists_of_reaches {x y : Ref} (hlays : h.Lays [.object x] [t] rs)
    (hreach : Relation.TransGen h.Holds x y) :
    ∃ u ss, h.Lays [.object y] [u] ss ∧ ss.length < rs.length := by
  induction hreach with
  | single hholds => exact hlays.exists_of_holds hholds
  | tail _ hholds ih =>
    obtain ⟨u, ss, hu, hlt⟩ := ih
    obtain ⟨u', ss', hu', hlt'⟩ := hu.exists_of_holds hholds
    exact ⟨u', ss', hu', hlt'.trans hlt⟩

/-- From a container that is laid out as a tree no cycle is reached. -/
theorem Lays.acyclicFrom (hlays : h.Lays [.object r] [t] rs) : h.AcyclicFrom r := by
  have hself : ∀ {x t rs}, h.Lays [.object x] [t] rs → ¬ Relation.TransGen h.Holds x x := by
    intro x t rs hx hcycle
    obtain ⟨u, ss, hx', hlt⟩ := hx.exists_of_reaches hcycle
    obtain ⟨-, rfl⟩ := hx.unique hx'
    exact Nat.lt_irrefl _ hlt
  intro x hreach
  obtain rfl | hreach := Relation.reflTransGen_iff_eq_or_transGen.mp hreach
  · exact hself hlays
  · obtain ⟨u, ss, hx, -⟩ := hlays.exists_of_reaches hreach
    exact hself hx

end Lays

/-! ### Acyclic heaps -/

/-- No container refers to a cell that is missing. -/
def Closed (h : Heap) : Prop := ∀ r s, h.Holds r s → s < h.size

theorem closed_of_lt {h : Heap}
    (hlt : ∀ r < h.size, ∀ c ∈ h.get? r, ∀ v ∈ c.contents, ∀ s ∈ v.ref?, s < h.size) : h.Closed := by
  rintro r s ⟨c, hget, hmem⟩
  exact hlt r (lt_size_of_get? hget) c hget _ hmem s rfl

/-- A value that refers to nothing that is missing is a leaf or a container. -/
theorem isLeaf_or_isContainer {h : Heap} {v : Value} (hv : ∀ r ∈ v.ref?, r < h.size) :
    h.IsLeaf v ∨ ∃ r c, v = .object r ∧ h.get? r = some c ∧ c.IsContainer := by
  cases hv' : v.ref? with
  | none => exact .inl (isLeaf_of_ref?_eq_none hv')
  | some r =>
    obtain rfl := Value.eq_object_of_ref? hv'
    obtain ⟨c, hget⟩ : ∃ c, h.get? r = some c := ⟨_, Array.getElem?_eq_getElem (hv r rfl)⟩
    by_cases hc : c.IsContainer
    · exact .inr ⟨r, c, rfl, hget, hc⟩
    · refine .inl fun s hs ↦ ?_
      obtain rfl := Option.some.inj hs
      exact ⟨c, hget, hc⟩

theorem exists_isNode {c : Cell} (hc : c.IsContainer) {ts : List Tree}
    (hlength : c.contents.length = ts.length) : ∃ t, c.IsNode t ts := by
  cases c with
  | list items => exact ⟨.list ts, .list⟩
  | mapping kind entries =>
    have hlength' : entries.keys.length = ts.length := by
      simpa [Cell.contents, Table.data, Table.keys] using hlength
    refine ⟨.mapping (entries.keys.zip ts), ?_⟩
    have hkeys : (entries.keys.zip ts).map Prod.fst = entries.keys :=
      List.map_fst_zip (Nat.le_of_eq hlength')
    have hnode : (Cell.mapping kind entries).IsNode (.mapping (entries.keys.zip ts)) _ := .mapping hkeys
    rwa [List.map_snd_zip (Nat.le_of_eq hlength'.symm)] at hnode
  | _ => exact hc.elim

/-- In an acyclic heap the containers below a container come before it in a well-founded order. -/
theorem Acyclic.wellFounded {h : Heap} (hacyclic : h.Acyclic) :
    WellFounded fun a b : Fin h.size ↦ Relation.TransGen h.Holds b.1 a.1 := by
  have htrans : IsTrans (Fin h.size) fun a b ↦ Relation.TransGen h.Holds b.1 a.1 :=
    ⟨fun a b c hab hbc ↦ hbc.trans hab⟩
  have hirrefl : Std.Irrefl fun a b : Fin h.size ↦ Relation.TransGen h.Holds b.1 a.1 :=
    ⟨fun a ↦ hacyclic a.1⟩
  exact Finite.wellFounded_of_trans_of_irrefl _

/-- Assumes: an acyclic heap without dangling references, and values that refer to nothing that is
missing. The heap lays the values out. -/
theorem exists_lays {h : Heap} (hacyclic : h.Acyclic) (hclosed : h.Closed) {vs : List Value}
    (hvs : ∀ v ∈ vs, ∀ r ∈ v.ref?, r < h.size) : ∃ ts rs, h.Lays vs ts rs := by
  have hall : ∀ vs : List Value, (∀ v ∈ vs, ∃ t rs, h.Lays [v] [t] rs) → ∃ ts rs, h.Lays vs ts rs := by
    intro vs
    induction vs with
    | nil => exact fun _ ↦ ⟨[], [], .nil⟩
    | cons v vs ih =>
      intro hvs
      obtain ⟨t, rs, hv⟩ := hvs v (List.mem_cons_self ..)
      obtain ⟨ts, ss, hrest⟩ := ih fun w hw ↦ hvs w (List.mem_cons_of_mem _ hw)
      exact ⟨t :: ts, rs ++ ss, hv.cons hrest⟩
  have hobject : ∀ r : Fin h.size, ∃ t rs, h.Lays [.object r.1] [t] rs := by
    intro r
    induction r using hacyclic.wellFounded.induction with
    | _ r ih =>
      have hr : ∀ s ∈ (Value.object r.1).ref?, s < h.size := by
        intro s hs
        obtain rfl := Option.some.inj hs
        exact r.2
      rcases isLeaf_or_isContainer hr with hleaf | ⟨s, c, heq, hget, hc⟩
      · exact ⟨_, _, lays_leaf hleaf⟩
      · obtain rfl := Value.object.inj heq
        have hbelow : ∀ v ∈ c.contents, ∃ t rs, h.Lays [v] [t] rs := by
          intro v hv
          cases hv' : v.ref? with
          | none => exact ⟨_, _, lays_leaf (isLeaf_of_ref?_eq_none hv')⟩
          | some s =>
            obtain rfl := Value.eq_object_of_ref? hv'
            have hholds : h.Holds r.1 s := ⟨c, hget, hv⟩
            exact ih ⟨s, hclosed _ _ hholds⟩ (.single hholds)
        obtain ⟨ts, rs, hcontents⟩ := hall _ hbelow
        obtain ⟨t, hnode⟩ := exists_isNode hc hcontents.length_eq
        exact ⟨t, r.1 :: rs, lays_node hget hnode hcontents⟩
  refine hall vs fun v hv ↦ ?_
  rcases isLeaf_or_isContainer (hvs v hv) with hleaf | ⟨r, c, rfl, hget, -⟩
  · exact ⟨_, _, lays_leaf hleaf⟩
  · exact hobject ⟨r, lt_size_of_get? hget⟩

end Heap

end DottedPath
