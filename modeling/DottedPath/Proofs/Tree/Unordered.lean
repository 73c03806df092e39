import DottedPath.Proofs.Tree.Basic
import Mathlib.Logic.Function.Basic

/-!
# Trees without the order of keys

An unordered tree is a tree in which a mapping is a function of its keys, so two trees that differ in
the order of keys only are the same unordered tree (`Tree.unordered`). Writes are easier to compare
here: what is put into two slots of a node can be put there in either order (`put_comm`), and of two
trees put into one slot the last one stays (`put_put_self`).

A leaf may stand for a tree that is not looked into. To see it is to graft the tree onto the leaf, and
this can be done before the order of keys is forgotten as well as after it (`unorderedBy_eq_graft`).
-/

set_option autoImplicit false
set_option relaxedAutoImplicit false

namespace DottedPath

/-- A value with all that it holds, but for the order of keys. -/
inductive UnorderedTree
  | leaf (v : Value)
  | list (items : List UnorderedTree)
  | mapping (entries : Key → Option UnorderedTree)

/-! ### Forgetting the order of keys -/

namespace Tree

mutual

/-- The tree without the order of keys, with unordered trees in the place of its leaves. -/
def unorderedBy (g : Value → UnorderedTree) : Tree → UnorderedTree
  | leaf v => g v
  | list items => .list (unorderedItems g items)
  | mapping entries => .mapping (unorderedEntries g entries)

def unorderedItems (g : Value → UnorderedTree) : List Tree → List UnorderedTree
  | [] => []
  | t :: ts => t.unorderedBy g :: unorderedItems g ts

def unorderedEntries (g : Value → UnorderedTree) : List (Key × Tree) → Key → Option UnorderedTree
  | [], _ => none
  | (k', t) :: es, k => if k' = k then some (t.unorderedBy g) else unorderedEntries g es k

end

/-- The tree without the order of keys. -/
def unordered (t : Tree) : UnorderedTree := t.unorderedBy .leaf

section By

variable (g : Value → UnorderedTree)

theorem unorderedItems_eq_map (ts : List Tree) :
    unorderedItems g ts = ts.map (unorderedBy g) := by
  induction ts with
  | nil => rw [unorderedItems, List.map_nil]
  | cons t ts ih => rw [unorderedItems, ih, List.map_cons]

theorem unorderedEntries_eq (es : List (Key × Tree)) (k : Key) :
    unorderedEntries g es k = (Table.findFirst? es k).map (unorderedBy g) := by
  induction es with
  | nil => rw [unorderedEntries, Table.findFirst?, Option.map_none]
  | cons e es ih =>
    rw [unorderedEntries, Table.findFirst?, ih]
    split <;> rfl

theorem unorderedBy_leaf (v : Value) : (leaf v).unorderedBy g = g v := by
  rw [unorderedBy]

theorem unorderedBy_list (items : List Tree) :
    (list items).unorderedBy g = .list (items.map (unorderedBy g)) := by
  rw [unorderedBy, unorderedItems_eq_map]

theorem unorderedBy_mapping (entries : List (Key × Tree)) :
    (mapping entries).unorderedBy g =
      .mapping fun k ↦ (Table.findFirst? entries k).map (unorderedBy g) := by
  rw [unorderedBy, funext (unorderedEntries_eq g entries)]

end By

@[simp] theorem unordered_leaf (v : Value) : (leaf v).unordered = .leaf v :=
  unorderedBy_leaf ..

@[simp] theorem unordered_list (items : List Tree) :
    (list items).unordered = .list (items.map unordered) :=
  unorderedBy_list ..

@[simp] theorem unordered_mapping (entries : List (Key × Tree)) :
    (mapping entries).unordered = .mapping fun k ↦ (Table.findFirst? entries k).map unordered :=
  unorderedBy_mapping ..

/-- Mappings with the same keys, in the same order, are alike when their entries are. -/
theorem unordered_mapping_eq {g : Value → UnorderedTree} {es fs : List (Key × Tree)}
    (hkeys : fs.map Prod.fst = es.map Prod.fst)
    (hdata : (fs.map Prod.snd).map unordered = (es.map Prod.snd).map (unorderedBy g)) :
    (mapping fs).unordered = (mapping es).unorderedBy g := by
  rw [unordered_mapping, unorderedBy_mapping]
  refine congrArg _ (funext fun k ↦ ?_)
  induction es generalizing fs with
  | nil =>
    obtain rfl := List.map_eq_nil_iff.mp hkeys
    rfl
  | cons e es ih =>
    obtain ⟨f, fs, rfl, hfst, hrest⟩ := List.map_eq_cons_iff.mp hkeys
    simp only [List.map_cons, List.cons.injEq] at hdata
    rw [Table.findFirst?, Table.findFirst?, hfst]
    split
    · rw [Option.map_some, Option.map_some, hdata.1]
    · exact ih hrest hdata.2

end Tree

namespace UnorderedTree

/-! ### Grafting -/

mutual

/-- The tree with trees in the place of its leaves. -/
def graft (g : Value → UnorderedTree) : UnorderedTree → UnorderedTree
  | leaf v => g v
  | list items => list (graftItems g items)
  | mapping entries => mapping fun k ↦ graftEntry g (entries k)

def graftItems (g : Value → UnorderedTree) : List UnorderedTree → List UnorderedTree
  | [] => []
  | t :: ts => t.graft g :: graftItems g ts

def graftEntry (g : Value → UnorderedTree) : Option UnorderedTree → Option UnorderedTree
  | none => none
  | some t => some (t.graft g)

end

theorem graftItems_eq_map (g : Value → UnorderedTree) (ts : List UnorderedTree) :
    graftItems g ts = ts.map (graft g) := by
  induction ts with
  | nil => rw [graftItems, List.map_nil]
  | cons t ts ih => rw [graftItems, ih, List.map_cons]

theorem graftEntry_eq_map (g : Value → UnorderedTree) (t : Option UnorderedTree) :
    graftEntry g t = t.map (graft g) := by
  cases t with
  | none => rw [graftEntry, Option.map_none]
  | some t => rw [graftEntry, Option.map_some]

end UnorderedTree

mutual

/-- The trees can be put in the place of the leaves before the order of keys is forgotten, or after
it. -/
theorem Tree.unorderedBy_eq_graft (g : Value → UnorderedTree) :
    ∀ t : Tree, t.unorderedBy g = t.unordered.graft g
  | leaf v => by rw [unorderedBy_leaf, unordered_leaf, UnorderedTree.graft]
  | list items => by
    rw [unorderedBy_list, unordered_list, UnorderedTree.graft, UnorderedTree.graftItems_eq_map,
      List.map_map]
    exact congrArg _ (List.map_congr_left (unorderedBy_eq_graft_items g items))
  | mapping entries => by
    rw [unorderedBy_mapping, unordered_mapping, UnorderedTree.graft]
    refine congrArg _ (funext fun k ↦ ?_)
    rw [UnorderedTree.graftEntry_eq_map, Option.map_map]
    exact Option.map_congr (unorderedBy_eq_graft_entries g entries k)

theorem Tree.unorderedBy_eq_graft_items (g : Value → UnorderedTree) :
    ∀ ts : List Tree, ∀ t ∈ ts, t.unorderedBy g = (UnorderedTree.graft g ∘ unordered) t
  | [] => nofun
  | t :: ts => List.forall_mem_cons.mpr ⟨unorderedBy_eq_graft g t, unorderedBy_eq_graft_items g ts⟩

theorem Tree.unorderedBy_eq_graft_entries (g : Value → UnorderedTree) :
    ∀ (es : List (Key × Tree)) (k : Key), ∀ t ∈ Table.findFirst? es k,
      t.unorderedBy g = (UnorderedTree.graft g ∘ unordered) t
  | [], k => nofun
  | (k', t) :: es, k => by
    rw [Table.findFirst?]
    split
    · rintro _ ⟨⟩
      exact unorderedBy_eq_graft g t
    · exact unorderedBy_eq_graft_entries g es k

end

/-! ### Slots -/

/-- The two slots are different places of the same containers. -/
def Slot.Apart : Slot → Slot → Prop
  | .field a, .field b => a ≠ b
  | .index m, .index n => m ≠ n
  | _, _ => False

namespace UnorderedTree

def null : UnorderedTree := leaf .null

/-- The node with nothing in it that has slots such as this one. -/
def blank : Slot → UnorderedTree
  | .field _ => mapping fun _ ↦ none
  | .index _ => list []
  | .next => list []

/-- The tree is a node that has slots such as this one. -/
def Suits : Slot → UnorderedTree → Prop
  | .field _, mapping _ => True
  | .index _, list _ => True
  | .next, list _ => True
  | _, _ => False

/-- The tree in a slot, null if there is none. -/
def inSlot : UnorderedTree → Slot → UnorderedTree
  | mapping entries, .field name => (entries (.text name)).getD null
  | list items, .index n => items[n]?.getD null
  | _, _ => null

/-- The items with one of them replaced, or with one more behind as many nulls as it takes. -/
def putItem (items : List UnorderedTree) (n : Nat) (t : UnorderedTree) : List UnorderedTree :=
  if n < items.length then items.set n t
  else items ++ List.replicate (n - items.length) null ++ [t]

/-- The tree with another one in a slot. -/
def put : UnorderedTree → Slot → UnorderedTree → UnorderedTree
  | mapping entries, .field name, t => mapping (Function.update entries (.text name) (some t))
  | list items, .index n, t => list (putItem items n t)
  | list items, .next, t => list (items ++ [t])
  | t, _, _ => t

theorem length_putItem (items : List UnorderedTree) (n : Nat) (t : UnorderedTree) :
    (putItem items n t).length = max items.length (n + 1) := by
  unfold putItem
  split
  · rw [List.length_set]
    omega
  · simp only [List.length_append, List.length_replicate, List.length_singleton]
    omega

theorem getElem?_putItem (items : List UnorderedTree) (n i : Nat) (t : UnorderedTree) :
    (putItem items n t)[i]? =
      if i = n then some t else if i < max items.length n then some (items[i]?.getD null) else none := by
  unfold putItem
  split
  · next hn =>
    rw [List.getElem?_set, Nat.max_eq_left (Nat.le_of_lt hn)]
    by_cases hi : n = i
    · rw [if_pos hi, if_pos hi.symm, if_pos (hi ▸ hn)]
    · rw [if_neg hi, if_neg (Ne.symm hi)]
      split
      · next hlt => rw [List.getElem?_eq_getElem hlt, Option.getD_some]
      · next hlt => exact List.getElem?_eq_none (Nat.le_of_not_lt hlt)
  · next hn =>
    rw [Nat.max_eq_right (Nat.le_of_not_lt hn), List.append_assoc, List.getElem?_append,
      List.getElem?_append]
    simp only [List.length_replicate]
    grind

/-- Of two items put at one index the last one stays. -/
theorem putItem_putItem_self (items : List UnorderedTree) (n : Nat) (t u : UnorderedTree) :
    putItem (putItem items n t) n u = putItem items n u := by
  refine List.ext_getElem? fun i ↦ ?_
  simp only [getElem?_putItem, length_putItem]
  grind

/-- Items can be put at two indices in either order, whichever of them is past the end. -/
theorem putItem_comm (items : List UnorderedTree) {m n : Nat} (hmn : m ≠ n) (t u : UnorderedTree) :
    putItem (putItem items m t) n u = putItem (putItem items n u) m t := by
  refine List.ext_getElem? fun i ↦ ?_
  simp only [getElem?_putItem, length_putItem]
  grind

section Slots

variable {s s' : Slot}

/-- What is put into a slot is there. -/
theorem inSlot_put_self {t : UnorderedTree} (hsuits : Suits s t) (hnext : s ≠ .next)
    (u : UnorderedTree) : (t.put s u).inSlot s = u := by
  cases t <;> cases s <;> first | exact hsuits.elim | exact absurd rfl hnext | skip
  · simp [put, inSlot, getElem?_putItem]
  · simp [put, inSlot]

/-- What is put into a slot is not in another one. -/
theorem inSlot_put_of_apart (hapart : s.Apart s') (t u : UnorderedTree) :
    (t.put s u).inSlot s' = t.inSlot s' := by
  cases s <;> cases s' <;> first | exact hapart.elim | skip
  · next a b =>
    cases t with
    | mapping entries =>
      have hkey : Key.text b ≠ .text a := fun heq ↦ hapart (Key.text.inj heq).symm
      rw [put, inSlot, Function.update_of_ne hkey, inSlot]
    | leaf _ | list _ => rfl
  · next m n =>
    cases t with
    | list items =>
      rw [put, inSlot, getElem?_putItem, if_neg (Ne.symm hapart), inSlot]
      split
      · rfl
      · next hlt =>
        rw [List.getElem?_eq_none (by omega)]
    | leaf _ | mapping _ => rfl

/-- Of two trees put into one slot the last one stays. -/
theorem put_put_self (hnext : s ≠ .next) (t u w : UnorderedTree) :
    (t.put s u).put s w = t.put s w := by
  cases t <;> cases s <;> first | rfl | exact absurd rfl hnext | skip
  · rw [put, put, putItem_putItem_self, put]
  · rw [put, put, Function.update_idem, put]

/-- Trees can be put into two slots in either order. -/
theorem put_comm (hapart : s.Apart s') (t u w : UnorderedTree) :
    (t.put s u).put s' w = (t.put s' w).put s u := by
  cases s <;> cases s' <;> first | exact hapart.elim | skip
  · next a b =>
    cases t with
    | mapping entries =>
      have hkey : Key.text b ≠ .text a := fun heq ↦ hapart (Key.text.inj heq).symm
      rw [put, put, Function.update_comm hkey.symm, put, put]
    | leaf _ | list _ => rfl
  · next m n =>
    cases t with
    | list items => rw [put, put, putItem_comm items hapart, put, put]
    | leaf _ | mapping _ => rfl

theorem Suits.put {t : UnorderedTree} (hsuits : Suits s t) (s' : Slot) (u : UnorderedTree) :
    Suits s (t.put s' u) := by
  cases t <;> cases s <;> cases s' <;> first | exact hsuits.elim | trivial

theorem suits_blank (s : Slot) : Suits s (blank s) := by
  cases s <;> trivial

theorem inSlot_blank (s s' : Slot) : (blank s).inSlot s' = null := by
  cases s <;> cases s' <;> rfl

theorem inSlot_null (s : Slot) : null.inSlot s = null := by
  cases s <;> rfl

end Slots

end UnorderedTree

end DottedPath
