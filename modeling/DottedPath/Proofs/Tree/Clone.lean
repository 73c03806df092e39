import DottedPath.Heap.Clone
import DottedPath.Proofs.Tree.Lays

/-!
# What a deep copy is

The copy of a value that is laid out as a tree is laid out as the same tree, in new containers alone,
each of which is met once and each mapping among which is plain; nothing that was there changes
(`Heap.Copies`). The bound on the depth of a copy is never met (`exists_clone`): along a descent the
trees become smaller, so no container comes twice.
-/

set_option autoImplicit false
set_option relaxedAutoImplicit false

namespace DottedPath

/-- A new cell of the sort of another one, with other contents. -/
def Cell.copyWith : Cell → List Value → Cell
  | mapping _ entries, copies => mapping .plain (entries.withData copies)
  | list _, copies => list copies
  | c, _ => c

theorem Cell.IsNode.copyWith {c : Cell} {t : Tree} {ts : List Tree} (hnode : c.IsNode t ts)
    {copies : List Value} (hlength : copies.length = c.contents.length) :
    (c.copyWith copies).contents = copies ∧ (c.copyWith copies).IsNode t ts := by
  cases hnode with
  | list => exact ⟨rfl, .list⟩
  | @mapping kind entries es hkeys =>
    have hkeys' : entries.keys.length = copies.length := by
      rw [hlength]
      simp [Table.keys, Cell.contents, Table.data]
    refine ⟨?_, .mapping ?_⟩
    · rw [Cell.copyWith, Cell.contents, Table.data, Table.entries_withData]
      exact List.map_snd_zip (Nat.le_of_eq hkeys'.symm)
    · rw [hkeys, Table.keys, Table.keys, Table.entries_withData]
      exact (List.map_fst_zip (Nat.le_of_eq hkeys')).symm

namespace Heap

/-- The second heap has all cells of the first as they were. -/
structure Extends (h h' : Heap) : Prop where
  size_le : h.size ≤ h'.size
  get?_eq : ∀ r < h.size, h'.get? r = h.get? r

/-- No mapping among the containers is ordered or read-only. -/
def Plain (h : Heap) (rs : List Ref) : Prop :=
  ∀ r ∈ rs, ∀ kind entries, h.get? r = some (.mapping kind entries) → kind = .plain

/-- The values in the second heap are new copies that are laid out as the given trees, and nothing
else is new. -/
structure Copies (h h' : Heap) (copies : List Value) (ts : List Tree) (rs : List Ref) : Prop where
  extends_ : h.Extends h'
  lays : h'.Lays copies ts rs
  nodup : rs.Nodup
  fresh : ∀ r ∈ rs, h.size ≤ r
  all : ∀ r < h'.size, h.size ≤ r → r ∈ rs
  plain : h'.Plain rs

section Extends

variable {h h₁ h₂ : Heap}

theorem Extends.refl (h : Heap) : h.Extends h := ⟨Nat.le_refl _, fun _ _ ↦ rfl⟩

theorem Extends.trans (hfirst : h.Extends h₁) (hlast : h₁.Extends h₂) : h.Extends h₂ where
  size_le := Nat.le_trans hfirst.size_le hlast.size_le
  get?_eq r hr := by
    rw [hlast.get?_eq r (Nat.lt_of_lt_of_le hr hfirst.size_le), hfirst.get?_eq r hr]

theorem extends_alloc (h : Heap) (c : Cell) : h.Extends (h.alloc c) where
  size_le := by
    rw [size_alloc]
    exact Nat.le_succ _
  get?_eq _ hr := get?_alloc_of_lt h c hr

theorem Extends.keepsLeaves (hext : h.Extends h₁) : h.KeepsLeaves h₁ := by
  intro r c hget hc
  exact ⟨c, by rw [hext.get?_eq r (lt_size_of_get? hget), hget], hc⟩

theorem Lays.of_extends {vs : List Value} {ts : List Tree} {rs : List Ref} (hext : h.Extends h₁)
    (hlays : h.Lays vs ts rs) : h₁.Lays vs ts rs :=
  hlays.frame (fun _ hx ↦ hext.get?_eq _ (hlays.lt_size hx)) hext.keepsLeaves

theorem Plain.congr {rs : List Ref} (hplain : h.Plain rs) (hsame : ∀ r ∈ rs, h₁.get? r = h.get? r) :
    h₁.Plain rs := by
  intro r hr kind entries hget
  rw [hsame r hr] at hget
  exact hplain r hr kind entries hget

theorem plain_append {rs ss : List Ref} : h.Plain (rs ++ ss) ↔ h.Plain rs ∧ h.Plain ss := by
  simp only [Plain, List.mem_append]
  constructor
  · exact fun hplain ↦ ⟨fun r hr ↦ hplain r (.inl hr), fun r hr ↦ hplain r (.inr hr)⟩
  · rintro ⟨hrs, hss⟩ r (hr | hr)
    · exact hrs r hr
    · exact hss r hr

end Extends

/-! ### One step of a copy -/

theorem mapM_cons_eq (work : Value → StateT Heap Option Value) (v : Value) (vs : List Value)
    (h : Heap) : (v :: vs).mapM work h =
      (work v h).bind fun one ↦ (vs.mapM work one.2).bind fun more ↦ some (one.1 :: more.1, more.2) := by
  rw [List.mapM_cons]
  rfl

theorem node_of_isLeaf {h : Heap} {v : Value} (hleaf : h.IsLeaf v) : h.node v = .scalar := by
  cases v with
  | object r =>
    obtain ⟨c, hget, hc⟩ := hleaf r rfl
    cases c with
    | mapping _ _ | list _ => exact absurd trivial hc
    | _ => simp [node, hget]
  | _ => rfl

theorem cloneWithin_of_isLeaf {h : Heap} {v : Value} (hleaf : h.IsLeaf v) (depth : Nat) :
    cloneWithin depth v h = some (v, h) := by
  cases depth with
  | zero => simp only [cloneWithin, node_of_isLeaf hleaf]
  | succ depth => simp only [cloneWithin, node_of_isLeaf hleaf]

theorem cloneWithin_of_isContainer {h : Heap} {r : Ref} {c : Cell} (hget : h.get? r = some c)
    (hc : c.IsContainer) (depth : Nat) :
    cloneWithin (depth + 1) (.object r) h = (c.contents.mapM (cloneWithin depth) h).bind fun copied ↦
      some (.object copied.2.size, copied.2.alloc (c.copyWith copied.1)) := by
  cases c with
  | mapping kind entries =>
    simp only [cloneWithin, node, hget]
    rfl
  | list items =>
    simp only [cloneWithin, node, hget]
    rfl
  | _ => exact hc.elim

/-! ### Copies of what is laid out -/

section Copies

variable {h h₁ h₂ : Heap} {copies : List Value} {t : Tree} {ts : List Tree} {rs : List Ref}

theorem copies_nil (h : Heap) : h.Copies h [] [] [] :=
  ⟨.refl h, .nil, List.nodup_nil, by simp, fun _ hlt hle ↦ absurd hlt (Nat.not_lt_of_le hle),
    by simp [Plain]⟩

theorem copies_leaf {v : Value} (hleaf : h.IsLeaf v) : h.Copies h [v] [.leaf v] [] :=
  ⟨.refl h, lays_leaf hleaf, List.nodup_nil, by simp,
    fun _ hlt hle ↦ absurd hlt (Nat.not_lt_of_le hle), by simp [Plain]⟩

/-- A copy of the contents of a container becomes a copy of the container by one new cell. -/
theorem Copies.node {c : Cell} (hcopies : h.Copies h₁ copies ts rs) (hnode : c.IsNode t ts)
    (hlength : copies.length = c.contents.length) :
    h.Copies (h₁.alloc (c.copyWith copies)) [.object h₁.size] [t] (h₁.size :: rs) := by
  obtain ⟨hcontents, hnode'⟩ := hnode.copyWith hlength
  have hext := extends_alloc h₁ (c.copyWith copies)
  have hbelow : (h₁.alloc (c.copyWith copies)).Lays (c.copyWith copies).contents ts rs := by
    rw [hcontents]
    exact hcopies.lays.of_extends hext
  refine ⟨hcopies.extends_.trans hext, lays_node (get?_alloc_self _ _) hnode' hbelow, ?_, ?_, ?_, ?_⟩
  · rw [List.nodup_cons]
    exact ⟨fun hmem ↦ Nat.lt_irrefl _ (hcopies.lays.lt_size hmem), hcopies.nodup⟩
  · intro r hr
    rcases List.mem_cons.mp hr with rfl | hr
    · exact hcopies.extends_.size_le
    · exact hcopies.fresh r hr
  · intro r hlt hle
    rw [size_alloc] at hlt
    rcases Nat.lt_succ_iff_lt_or_eq.mp hlt with hlt | rfl
    · exact List.mem_cons_of_mem _ (hcopies.all r hlt hle)
    · exact List.mem_cons_self ..
  · intro r hr kind entries hget
    rcases List.mem_cons.mp hr with rfl | hr
    · rw [get?_alloc_self] at hget
      cases c <;> simp_all [Cell.copyWith]
    · rw [hext.get?_eq r (hcopies.lays.lt_size hr)] at hget
      exact hcopies.plain r hr kind entries hget

theorem Copies.append {copies' : List Value} {ts' : List Tree} {rs' : List Ref}
    (hfirst : h.Copies h₁ copies ts rs) (hlast : h₁.Copies h₂ copies' ts' rs') :
    h.Copies h₂ (copies ++ copies') (ts ++ ts') (rs ++ rs') := by
  refine ⟨hfirst.extends_.trans hlast.extends_, (hfirst.lays.of_extends hlast.extends_).append
    hlast.lays, ?_, ?_, ?_, ?_⟩
  · refine List.nodup_append.mpr ⟨hfirst.nodup, hlast.nodup, ?_⟩
    rintro r hr s hs rfl
    exact Nat.lt_irrefl r (Nat.lt_of_lt_of_le (hfirst.lays.lt_size hr) (hlast.fresh r hs))
  · intro r hr
    rcases List.mem_append.mp hr with hr | hr
    · exact hfirst.fresh r hr
    · exact Nat.le_trans hfirst.extends_.size_le (hlast.fresh r hr)
  · intro r hlt hle
    rcases Nat.lt_or_ge r h₁.size with hlt₁ | hle₁
    · exact List.mem_append_left _ (hfirst.all r hlt₁ hle)
    · exact List.mem_append_right _ (hlast.all r hlt hle₁)
  · refine plain_append.mpr ⟨hfirst.plain.congr fun r hr ↦ ?_, hlast.plain⟩
    exact hlast.extends_.get?_eq r (hfirst.lays.lt_size hr)

end Copies

/-- The containers that a copy is inside of: each one has a tree of more than so many containers. -/
def Above (h : Heap) (visited : List Ref) (n : Nat) : Prop :=
  ∀ x ∈ visited, ∃ t rs, h.Lays [.object x] [t] rs ∧ n < rs.length

namespace Above

variable {h : Heap} {visited : List Ref} {m n : Nat}

theorem mono (habove : h.Above visited n) (hle : m ≤ n) : h.Above visited m := by
  intro x hx
  obtain ⟨t, rs, hlays, hlt⟩ := habove x hx
  exact ⟨t, rs, hlays, Nat.lt_of_le_of_lt hle hlt⟩

theorem cons {r : Ref} {t : Tree} {rs : List Ref} (habove : h.Above visited n)
    (hlays : h.Lays [.object r] [t] rs) (hlt : n < rs.length) : h.Above (r :: visited) n := by
  intro x hx
  rcases List.mem_cons.mp hx with rfl | hx
  · exact ⟨t, rs, hlays, hlt⟩
  · exact habove x hx

/-- A tree is not inside of itself. -/
theorem notMem {r : Ref} {t : Tree} {rs : List Ref} (habove : h.Above visited n)
    (hlays : h.Lays [.object r] [t] rs) (hle : rs.length ≤ n) : r ∉ visited := by
  intro hmem
  obtain ⟨t', rs', hlays', hlt⟩ := habove r hmem
  obtain ⟨-, rfl⟩ := hlays'.unique hlays
  exact Nat.lt_irrefl n (Nat.lt_of_lt_of_le hlt hle)

theorem length_le (habove : h.Above visited n) (hnodup : visited.Nodup) :
    visited.length ≤ h.size := by
  have hsub : visited ⊆ List.range h.size := by
    intro x hx
    obtain ⟨t, rs, hlays, hlt⟩ := habove x hx
    rcases hlays.single with ⟨-, -, rfl⟩ | ⟨r, c, -, -, hv, hget, -⟩
    · exact absurd hlt (Nat.not_lt_zero n)
    · obtain rfl := Value.object.inj hv
      exact List.mem_range.mpr (lt_size_of_get? hget)
  simpa using (List.subperm_of_subset hnodup hsub).length_le

/-- A descent into one more container. -/
theorem enter {r : Ref} {t : Tree} {rs : List Ref} {depth : Nat}
    (habove : h.Above visited (r :: rs).length) (hlays : h.Lays [.object r] [t] (r :: rs))
    (hnodup : visited.Nodup) (hdepth : h.size < visited.length + depth) :
    ∃ d, depth = d + 1 ∧ (r :: visited).Nodup ∧ h.Above (r :: visited) rs.length ∧
      h.size < (r :: visited).length + d := by
  have hfresh : r ∉ visited := habove.notMem hlays (Nat.le_refl _)
  have hbound : visited.length ≤ h.size := habove.length_le hnodup
  have hbelow : rs.length ≤ (r :: rs).length := Nat.le_succ rs.length
  refine ⟨depth - 1, by omega, List.nodup_cons.mpr ⟨hfresh, hnodup⟩,
    (habove.mono hbelow).cons hlays (Nat.lt_succ_self rs.length), ?_⟩
  rw [List.length_cons]
  omega

end Above

/-- Values that are laid out are copied, whatever has been added to the heap. Below the containers
`visited`, all of which have larger trees, a depth is left that they have not used up. -/
theorem exists_mapM_clone {h : Heap} {vs : List Value} {ts : List Tree} {rs : List Ref}
    (hlays : h.Lays vs ts rs) {visited : List Ref} {depth : Nat} (hnodup : visited.Nodup)
    (habove : h.Above visited rs.length) (hdepth : h.size < visited.length + depth) {h₁ : Heap}
    (hext : h.Extends h₁) :
    ∃ copies h₂ ss, vs.mapM (cloneWithin depth) h₁ = some (copies, h₂) ∧
      copies.length = vs.length ∧ h₁.Copies h₂ copies ts ss := by
  induction hlays generalizing visited depth h₁ with
  | nil => exact ⟨[], h₁, [], rfl, rfl, copies_nil h₁⟩
  | @leaf v vs ts rs hleaf _ ih =>
    have hleaf₁ := hleaf.of_keepsLeaves hext.keepsLeaves
    obtain ⟨copies, h₂, ss, hmap, hlength, hcopies⟩ := ih hnodup habove hdepth hext
    refine ⟨v :: copies, h₂, ss, ?_, by simp [hlength], (copies_leaf hleaf₁).append hcopies⟩
    rw [mapM_cons_eq, cloneWithin_of_isLeaf hleaf₁]
    simp [hmap]
  | @node r c t ts us vs rs ss hget hnode hcontents hrest ihcontents ih =>
    have hr : h.Lays [.object r] [t] (r :: rs) := lays_node hget hnode hcontents
    have hlength : (r :: (rs ++ ss)).length = (r :: rs).length + ss.length := by
      rw [← List.length_append, List.cons_append]
    obtain ⟨depth, rfl, hnodup₁, habove₁, hdepth₁⟩ :=
      (habove.mono (by omega)).enter hr hnodup hdepth
    obtain ⟨copies₁, h₂, ss₁, hmap₁, hlength₁, hcopies₁⟩ :=
      ihcontents hnodup₁ habove₁ hdepth₁ hext
    have hone := hcopies₁.node hnode hlength₁
    obtain ⟨copies₂, h₃, ss₂, hmap₂, hlength₂, hcopies₂⟩ :=
      ih hnodup (habove.mono (by omega)) hdepth (hext.trans hone.extends_)
    refine ⟨.object h₂.size :: copies₂, h₃, _, ?_, by simp [hlength₂], hone.append hcopies₂⟩
    have hget₁ : h₁.get? r = some c := by
      rw [hext.get?_eq r (lt_size_of_get? hget), hget]
    rw [mapM_cons_eq, cloneWithin_of_isContainer hget₁ hnode.isContainer, hmap₁]
    simp only [Option.bind_some, hmap₂]

/-- Assumes: a value that is laid out as a tree. It has a deep copy, which is laid out as the same
tree in new containers. -/
theorem exists_clone {h : Heap} {v : Value} {t : Tree} {rs : List Ref} (hlays : h.Lays [v] [t] rs) :
    ∃ copy h' ss, h.clone? v = some (copy, h') ∧ h.Copies h' [copy] [t] ss := by
  have hdepth : h.size < ([] : List Ref).length + (h.size + 1) := by simp
  obtain ⟨copies, h', ss, hmap, hlength, hcopies⟩ :=
    exists_mapM_clone hlays List.nodup_nil (fun _ hx ↦ absurd hx List.not_mem_nil) hdepth (.refl h)
  obtain ⟨copy, rfl⟩ := List.length_eq_one_iff.mp hlength
  refine ⟨copy, h', ss, ?_, hcopies⟩
  rw [mapM_cons_eq] at hmap
  obtain ⟨⟨one, h₁⟩, hone, hrest⟩ := Option.bind_eq_some_iff.mp hmap
  obtain ⟨⟨more, h₂⟩, hmore, heq⟩ := Option.bind_eq_some_iff.mp hrest
  simp only [List.mapM_nil] at hmore
  obtain ⟨rfl, rfl⟩ : more = [] ∧ h₂ = h₁ := by
    cases hmore
    exact ⟨rfl, rfl⟩
  simp only [Option.some.injEq, Prod.mk.injEq, List.cons.injEq, and_true] at heq
  obtain ⟨rfl, rfl⟩ := heq
  exact hone

/-! ### What has a copy is laid out -/

section OfClone

variable {h h₁ h₂ : Heap}

theorem lays_of_mapM_clone {depth : Nat}
    (hone : ∀ v h₁ copy h₂, h.Extends h₁ → (∀ r ∈ v.ref?, r < h.size) →
      cloneWithin depth v h₁ = some (copy, h₂) → h.Extends h₂ ∧ ∃ t rs, h.Lays [v] [t] rs)
    {vs copies : List Value} (hext : h.Extends h₁) (hvs : ∀ v ∈ vs, ∀ r ∈ v.ref?, r < h.size)
    (hmap : vs.mapM (cloneWithin depth) h₁ = some (copies, h₂)) :
    h.Extends h₂ ∧ ∃ ts rs, h.Lays vs ts rs := by
  induction vs generalizing h₁ copies with
  | nil =>
    cases hmap
    exact ⟨hext, [], [], .nil⟩
  | cons v vs ih =>
    rw [mapM_cons_eq] at hmap
    obtain ⟨⟨copy, h₃⟩, hv, hrest⟩ := Option.bind_eq_some_iff.mp hmap
    obtain ⟨⟨more, h₄⟩, hmore, heq⟩ := Option.bind_eq_some_iff.mp hrest
    obtain rfl : h₄ = h₂ := congrArg Prod.snd (Option.some.inj heq)
    obtain ⟨hext₃, t, rs, hlays⟩ := hone v h₁ copy h₃ hext (hvs v (List.mem_cons_self ..)) hv
    obtain ⟨hext₄, ts, ss, hlays'⟩ := ih hext₃ (fun w hw ↦ hvs w (List.mem_cons_of_mem _ hw)) hmore
    exact ⟨hext₄, t :: ts, rs ++ ss, hlays.cons hlays'⟩

theorem lays_of_cloneWithin (hclosed : h.Closed) (depth : Nat) (v : Value) (h₁ : Heap) (copy : Value)
    (h₂ : Heap) (hext : h.Extends h₁) (hv : ∀ r ∈ v.ref?, r < h.size)
    (hclone : cloneWithin depth v h₁ = some (copy, h₂)) :
    h.Extends h₂ ∧ ∃ t rs, h.Lays [v] [t] rs := by
  induction depth generalizing v h₁ copy h₂ with
  | zero =>
    rcases isLeaf_or_isContainer hv with hleaf | ⟨r, c, rfl, hget, hc⟩
    · rw [cloneWithin_of_isLeaf (hleaf.of_keepsLeaves hext.keepsLeaves)] at hclone
      obtain rfl : h₁ = h₂ := congrArg Prod.snd (Option.some.inj hclone)
      exact ⟨hext, _, _, lays_leaf hleaf⟩
    · rw [← hext.get?_eq r (lt_size_of_get? hget)] at hget
      cases c <;> simp [cloneWithin, node, hget, Cell.IsContainer] at hclone hc
  | succ depth ih =>
    rcases isLeaf_or_isContainer hv with hleaf | ⟨r, c, rfl, hget, hc⟩
    · rw [cloneWithin_of_isLeaf (hleaf.of_keepsLeaves hext.keepsLeaves)] at hclone
      obtain rfl : h₁ = h₂ := congrArg Prod.snd (Option.some.inj hclone)
      exact ⟨hext, _, _, lays_leaf hleaf⟩
    · have hget₁ := hget
      rw [← hext.get?_eq r (lt_size_of_get? hget)] at hget₁
      rw [cloneWithin_of_isContainer hget₁ hc] at hclone
      obtain ⟨⟨copies, h₃⟩, hmap, heq⟩ := Option.bind_eq_some_iff.mp hclone
      obtain rfl := congrArg Prod.snd (Option.some.inj heq)
      have hbelow : ∀ w ∈ c.contents, ∀ s ∈ w.ref?, s < h.size := by
        intro w hw s hs
        obtain rfl := Value.eq_object_of_ref? hs
        exact hclosed r s ⟨c, hget, hw⟩
      obtain ⟨hext₃, ts, rs, hlays⟩ := lays_of_mapM_clone ih hext hbelow hmap
      obtain ⟨t, hnode⟩ := exists_isNode hc hlays.length_eq
      exact ⟨hext₃.trans (extends_alloc h₃ _), t, _, lays_node hget hnode hlays⟩

/-- In a heap without dangling references, a value that has a deep copy is laid out as a tree. -/
theorem lays_of_clone? (hclosed : h.Closed) {v copy : Value} (hv : ∀ r ∈ v.ref?, r < h.size)
    (hclone : h.clone? v = some (copy, h₁)) : ∃ t rs, h.Lays [v] [t] rs :=
  (lays_of_cloneWithin hclosed _ v h copy h₁ (.refl h) hv hclone).2

end OfClone

end Heap

end DottedPath
