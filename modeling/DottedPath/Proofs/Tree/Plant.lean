import DottedPath.Proofs.Tree.Access
import DottedPath.Proofs.Tree.Unordered

/-!
# Writes in unordered trees

A write in a tree is, when the order of keys is forgotten, the planting of a tree behind some slots
(`toOption_set`). Planting succeeds or not, and makes what is missing on its way. Two trees that are
planted behind slots that part at some place can be planted in either order (`plant_comm`), and of two
trees planted behind the same slots the last one stays (`plant_self`): what the first one has made on
its way the second one finds, and would have made itself.

Neither comes to a leaf that the other one has planted. That a way is free of such leaves (`Clear`)
stays true under both kinds of planting.
-/

set_option autoImplicit false
set_option relaxedAutoImplicit false

namespace DottedPath

/-- The slots lead to two places of which neither is inside the other. -/
inductive Slot.Part : List Slot → List Slot → Prop
  | here {s s' : Slot} {slots slots' : List Slot} (hapart : s.Apart s') :
    Part (s :: slots) (s' :: slots')
  | there {s : Slot} {slots slots' : List Slot} (hpart : Part slots slots') :
    Part (s :: slots) (s :: slots')

theorem Slot.Apart.symm {s s' : Slot} (hapart : s.Apart s') : s'.Apart s := by
  cases s <;> cases s' <;> first | exact hapart.elim | exact Ne.symm hapart

namespace UnorderedTree

/-- The node that a write finds where it wants to go on at a slot: a new one in the place of null, and
none in the place of a node without such slots. -/
def opened : Slot → UnorderedTree → Option UnorderedTree
  | s, leaf .null => some (blank s)
  | .field _, mapping entries => some (mapping entries)
  | .index _, list items => some (list items)
  | .next, list items => some (list items)
  | _, _ => none

/-- The tree with another one behind some slots. -/
def plant (v : UnorderedTree) : List Slot → UnorderedTree → Option UnorderedTree
  | [], _ => some v
  | s :: slots, t => (opened s t).bind fun t ↦ (plant v slots (t.inSlot s)).map (t.put s)

section Opened

variable {s s' : Slot} {t t' : UnorderedTree}

@[simp] theorem opened_null (s : Slot) : opened s null = some (blank s) := by
  cases s <;> rfl

theorem opened_of_suits (hsuits : Suits s t) : opened s t = some t := by
  cases t <;> cases s <;> first | exact hsuits.elim | rfl

/-- A node that is opened is the tree itself, or a new node in the place of null. -/
theorem opened_eq_some (hopened : opened s t = some t') :
    (Suits s t ∧ t' = t) ∨ (t = null ∧ t' = blank s) := by
  unfold opened at hopened
  split at hopened
  · exact .inr ⟨rfl, (Option.some.inj hopened).symm⟩
  · exact .inl ⟨trivial, (Option.some.inj hopened).symm⟩
  · exact .inl ⟨trivial, (Option.some.inj hopened).symm⟩
  · exact .inl ⟨trivial, (Option.some.inj hopened).symm⟩
  · cases hopened

theorem suits_of_opened (hopened : opened s t = some t') : Suits s t' := by
  rcases opened_eq_some hopened with ⟨hsuits, rfl⟩ | ⟨-, rfl⟩
  · exact hsuits
  · exact suits_blank s

theorem inSlot_of_opened (hopened : opened s t = some t') (s' : Slot) :
    t'.inSlot s' = t.inSlot s' := by
  rcases opened_eq_some hopened with ⟨-, rfl⟩ | ⟨rfl, rfl⟩
  · rfl
  · rw [inSlot_blank, inSlot_null]

/-- Slots that are places of the same containers open the same nodes. -/
theorem opened_of_apart (hapart : s.Apart s') (t : UnorderedTree) : opened s t = opened s' t := by
  cases s <;> cases s' <;> first | exact hapart.elim | skip
  · cases t with
    | leaf v => cases v <;> rfl
    | list _ | mapping _ => rfl
  · cases t with
    | leaf v => cases v <;> rfl
    | list _ | mapping _ => rfl

theorem suits_of_apart (hapart : s.Apart s') (hsuits : Suits s t) : Suits s' t := by
  have hopened := opened_of_apart hapart t
  rw [opened_of_suits hsuits] at hopened
  exact suits_of_opened hopened.symm

end Opened

/-! ### Planting twice -/

section Plant

variable {s s' : Slot} {slots slots' : List Slot} {t t' : UnorderedTree}

theorem plant_of_opened {v : UnorderedTree} (hopened : opened s t = some t') :
    plant v (s :: slots) t = (plant v slots (t'.inSlot s)).map (t'.put s) := by
  rw [plant, hopened, Option.bind_some]

theorem plant_of_opened_eq_none {v : UnorderedTree} (hopened : opened s t = none) :
    plant v (s :: slots) t = none := by
  rw [plant, hopened, Option.bind_none]

/-- Nothing is planted in null but in a new node. -/
theorem plant_null (v : UnorderedTree) (s : Slot) (slots : List Slot) :
    plant v (s :: slots) null = plant v (s :: slots) (blank s) := by
  rw [plant_of_opened (opened_null s), plant_of_opened (opened_of_suits (suits_blank s))]

/-- Planting in a node behind a slot of which something has been planted. -/
theorem plant_put {v u : UnorderedTree} (hsuits : Suits s t) (hnext : s ≠ .next) :
    plant v (s :: slots) (t.put s u) = (plant v slots u).map (t.put s) := by
  rw [plant_of_opened (opened_of_suits (hsuits.put s u)), inSlot_put_self hsuits hnext]
  exact congrArg (Option.map · _) (funext fun w ↦ put_put_self hnext t u w)

/-- Planting in a node behind another slot than that of which something has been planted. -/
theorem plant_put_of_apart {v u : UnorderedTree} (hapart : s.Apart s') (hsuits : Suits s t) :
    plant v (s' :: slots) (t.put s u) =
      (plant v slots (t.inSlot s')).map fun w ↦ (t.put s' w).put s u := by
  have hsuits' := (suits_of_apart hapart hsuits).put s u
  rw [plant_of_opened (opened_of_suits hsuits'), inSlot_put_of_apart hapart]
  exact congrArg (Option.map · _) (funext fun w ↦ put_comm hapart t u w)

/-- Of two trees planted behind the same slots the last one stays. -/
theorem plant_self (hnext : .next ∉ slots) (v w t : UnorderedTree) :
    (plant v slots t).bind (plant w slots) = plant w slots t := by
  induction slots generalizing t with
  | nil => rfl
  | cons s slots ih =>
    rw [List.mem_cons, not_or] at hnext
    cases hopened : opened s t with
    | none => rw [plant_of_opened_eq_none hopened, plant_of_opened_eq_none hopened, Option.bind_none]
    | some t' =>
      have hsuits := suits_of_opened hopened
      rw [plant_of_opened hopened, plant_of_opened hopened, ← ih hnext.2, Option.bind_map,
        Option.map_bind]
      exact congrArg _ (funext fun u ↦ plant_put hsuits (Ne.symm hnext.1))

/-- Two trees can be planted in either order behind slots that part. -/
theorem plant_comm (hpart : Slot.Part slots slots') (hnext : .next ∉ slots) (v w t : UnorderedTree) :
    (plant v slots t).bind (plant w slots') = (plant w slots' t).bind (plant v slots) := by
  induction hpart generalizing t with
  | @here s s' slots slots' hapart =>
    cases hopened : opened s t with
    | none =>
      have hopened' := opened_of_apart hapart t ▸ hopened
      rw [plant_of_opened_eq_none hopened, plant_of_opened_eq_none hopened', Option.bind_none,
        Option.bind_none]
    | some t' =>
      have hopened' := opened_of_apart hapart t ▸ hopened
      have hsuits := suits_of_opened hopened
      have hsuits' := suits_of_apart hapart hsuits
      have hfirst : ∀ u, plant w (s' :: slots') (t'.put s u) = _ :=
        fun u ↦ plant_put_of_apart hapart hsuits
      have hsecond : ∀ u, plant v (s :: slots) (t'.put s' u) = _ :=
        fun u ↦ plant_put_of_apart hapart.symm hsuits'
      rw [plant_of_opened hopened, plant_of_opened hopened']
      generalize plant v slots (t'.inSlot s) = x at *
      generalize plant w slots' (t'.inSlot s') = y at *
      cases x <;> cases y <;> simp [hfirst, hsecond, put_comm hapart]
  | @there s slots slots' hpart ih =>
    rw [List.mem_cons, not_or] at hnext
    have hs := Ne.symm hnext.1
    cases hopened : opened s t with
    | none => rw [plant_of_opened_eq_none hopened, plant_of_opened_eq_none hopened, Option.bind_none,
        Option.bind_none]
    | some t' =>
      have hsuits := suits_of_opened hopened
      rw [plant_of_opened hopened, plant_of_opened hopened, Option.bind_map, Option.bind_map]
      calc (plant v slots (t'.inSlot s)).bind (plant w (s :: slots') ∘ t'.put s)
          = ((plant v slots (t'.inSlot s)).bind (plant w slots')).map (t'.put s) := by
            rw [Option.map_bind]
            exact congrArg _ (funext fun u ↦ plant_put hsuits hs)
        _ = ((plant w slots' (t'.inSlot s)).bind (plant v slots)).map (t'.put s) := by
            rw [ih hnext.2]
        _ = (plant w slots' (t'.inSlot s)).bind (plant v (s :: slots) ∘ t'.put s) := by
            rw [Option.map_bind]
            exact congrArg _ (funext fun u ↦ (plant_put hsuits hs).symm)

end Plant

/-! ### Ways that are free of some leaves -/

/-- None of the nodes before the end of the slots is a hidden leaf. -/
def Clear (hidden : Value → Prop) : List Slot → UnorderedTree → Prop
  | [], _ => True
  | s :: slots, t => (∀ v, hidden v → t ≠ leaf v) ∧ Clear hidden slots (t.inSlot s)

section Clear

variable {hidden : Value → Prop} {slots slots' : List Slot} {v t t' : UnorderedTree}

theorem put_ne_leaf {s : Slot} (hsuits : Suits s t) (u : UnorderedTree) (v : Value) :
    t.put s u ≠ leaf v := by
  cases t <;> cases s <;> first | exact hsuits.elim | nofun

/-- Before the end of the slots behind which something has been planted there are nodes. -/
theorem clear_of_plant (hnext : .next ∉ slots) (hplant : plant v slots t = some t') :
    Clear hidden slots t' := by
  induction slots generalizing t t' with
  | nil => trivial
  | cons s slots ih =>
    rw [List.mem_cons, not_or] at hnext
    obtain ⟨t₁, hopened, hmap⟩ := Option.bind_eq_some_iff.mp hplant
    obtain ⟨u, hu, rfl⟩ := Option.map_eq_some_iff.mp hmap
    have hsuits := suits_of_opened hopened
    refine ⟨fun v _ ↦ put_ne_leaf hsuits u v, ?_⟩
    rw [inSlot_put_self hsuits (Ne.symm hnext.1)]
    exact ih hnext.2 hu

/-- Where nothing is in the way in null, nothing is in the way in a new node. -/
theorem Clear.blank {s : Slot} (hclear : Clear hidden (s :: slots) null) :
    Clear hidden (s :: slots) (blank s) := by
  refine ⟨fun v _ ↦ ?_, ?_⟩
  · cases s <;> nofun
  · rw [inSlot_blank, ← inSlot_null s]
    exact hclear.2

/-- What is planted elsewhere is not on the way. -/
theorem Clear.of_plant (hclear : Clear hidden slots' t) (hpart : Slot.Part slots slots')
    (hnext : .next ∉ slots) (hplant : plant v slots t = some t') : Clear hidden slots' t' := by
  induction hpart generalizing t t' with
  | here hapart =>
    obtain ⟨t₁, hopened, hmap⟩ := Option.bind_eq_some_iff.mp hplant
    obtain ⟨u, -, rfl⟩ := Option.map_eq_some_iff.mp hmap
    refine ⟨fun v _ ↦ put_ne_leaf (suits_of_opened hopened) u v, ?_⟩
    rw [inSlot_put_of_apart hapart, inSlot_of_opened hopened]
    exact hclear.2
  | there hpart ih =>
    rw [List.mem_cons, not_or] at hnext
    obtain ⟨t₁, hopened, hmap⟩ := Option.bind_eq_some_iff.mp hplant
    obtain ⟨u, hu, rfl⟩ := Option.map_eq_some_iff.mp hmap
    have hsuits := suits_of_opened hopened
    refine ⟨fun v _ ↦ put_ne_leaf hsuits u v, ?_⟩
    rw [inSlot_put_self hsuits (Ne.symm hnext.1)]
    rw [inSlot_of_opened hopened] at hu
    exact ih hclear.2 hnext.2 hu

end Clear

end UnorderedTree

/-! ### Planting is writing -/

namespace Tree

open UnorderedTree

section Unordered

variable {t u : Tree} {s : Slot}

@[simp] theorem unordered_null : Tree.null.unordered = .null := unordered_leaf .null

theorem unordered_blank (s : Slot) : (Tree.blank s).unordered = .blank s := by
  cases s <;> simp [Tree.blank, UnorderedTree.blank, Table.findFirst?]

theorem unordered_eq_null_iff : t.unordered = .null ↔ t = Tree.null := by
  cases t <;> simp [Tree.null, UnorderedTree.null]

theorem suits_unordered_iff : Suits s t.unordered ↔ t.kind = (Tree.blank s).kind := by
  cases t <;> cases s <;> simp [Suits, Tree.kind, Tree.blank]

theorem unordered_slot? (t : Tree) (s : Slot) :
    ((t.slot? s).getD Tree.null).unordered = t.unordered.inSlot s := by
  have hmap : ∀ x : Option Tree,
      (x.getD Tree.null).unordered = (x.map unordered).getD UnorderedTree.null := by
    intro x
    cases x <;> simp
  rw [hmap]
  cases t <;> cases s <;> simp [Tree.slot?, inSlot]

theorem unordered_put (t : Tree) (s : Slot) (u : Tree) :
    (t.put s u).unordered = t.unordered.put s u.unordered := by
  cases t with
  | leaf v => cases s <;> simp [Tree.put, UnorderedTree.put]
  | list items =>
    cases s with
    | field name => simp [Tree.put, UnorderedTree.put]
    | next => simp [Tree.put, UnorderedTree.put]
    | index n =>
      rw [Tree.put, unordered_list, unordered_list, UnorderedTree.put, putItem, List.length_map]
      split <;> simp [List.map_set]
  | mapping entries =>
    cases s with
    | index n | next => simp [Tree.put, UnorderedTree.put]
    | field name =>
      rw [Tree.put, unordered_mapping, unordered_mapping, UnorderedTree.put]
      refine congrArg _ (funext fun k ↦ ?_)
      rw [Table.findFirst?_putEntry, Function.update_apply]
      by_cases hk : k = .text name
      · rw [if_pos hk, if_pos hk.symm, Option.map_some]
      · rw [if_neg hk, if_neg (Ne.symm hk)]

end Unordered

/-- Work at the node in a slot plants when the work plants in the node. -/
theorem toOption_change {t : Tree} {s s' : Slot} {slots : List Slot} {v : UnorderedTree}
    {work : Tree → Except TreeFault Tree} (hkind : t.kind = (Tree.blank s).kind) (field : String)
    (hwork : ∀ t : Tree, t.kind = (Tree.blank s').kind →
      (work t).toOption.map unordered = plant v (s' :: slots) t.unordered) :
    (t.change s field (Tree.blank s') work).toOption.map unordered =
      plant v (s :: s' :: slots) t.unordered := by
  have hput : ∀ x : Except TreeFault Tree, (x.map (t.put s)).toOption.map unordered =
      (x.toOption.map unordered).map (t.unordered.put s) := by
    intro x
    cases x with
    | error fault => rfl
    | ok u => exact congrArg some (unordered_put t s u)
  rw [plant_of_opened (opened_of_suits (suits_unordered_iff.mpr hkind)), ← unordered_slot?]
  by_cases hnull : (t.slot? s).getD Tree.null = Tree.null
  · rw [change_of_null hnull, hput, hwork _ rfl, hnull, unordered_null, unordered_blank, plant_null]
  · rw [change_of_ne hnull]
    split
    · next hsame => rw [hput, hwork _ hsame]
    · next hother =>
      rw [plant_of_opened_eq_none]
      · rfl
      · rw [← suits_unordered_iff] at hother
        cases hopened : opened s' ((t.slot? s).getD Tree.null).unordered with
        | none => rfl
        | some t' =>
          rcases opened_eq_some hopened with ⟨hsuits, -⟩ | ⟨heq, -⟩
          · exact absurd hsuits hother
          · exact absurd (unordered_eq_null_iff.mp heq) hnull

/-- A write in a mapping is planting, when the order of keys is forgotten. -/
theorem toOption_set {hops : List Hop} (hne : hops ≠ []) {t : Tree} (hkind : t.kind = .mapping)
    (v : Tree) :
    (Tree.set none v hops t).toOption.map unordered =
      plant v.unordered (hops.flatMap Hop.slots) t.unordered := by
  induction hops generalizing t with
  | nil => exact absurd rfl hne
  | cons hop hops ih =>
    rw [Tree.set, List.flatMap_cons]
    generalize hwork : (fun s (t : Tree) ↦ _ : Slot → Tree → Except TreeFault Tree) = work
    have hlast : ∀ s, ∀ t : Tree, t.kind = (Tree.blank s).kind →
        (work s t).toOption.map unordered =
          plant v.unordered (s :: hops.flatMap Hop.slots) t.unordered := by
      intro s t hkind
      rw [← hwork]
      cases hops with
      | nil =>
        rw [List.flatMap_nil, plant_of_opened (opened_of_suits (suits_unordered_iff.mpr hkind))]
        exact congrArg some (unordered_put t s v)
      | cons hop' hops =>
        have hfield : Tree.blank (.field hop'.name) = .mapping [] := rfl
        rw [List.flatMap_cons, Hop.slots, List.cons_append, ← hfield]
        exact toOption_change hkind _ fun t hkind ↦ ih (List.cons_ne_nil hop' hops) hkind
    unfold reach Hop.slots
    cases hplace : hop.place.slot? with
    | none => exact hlast _ t hkind
    | some s =>
      have hblank : Tree.blank s = .list [] := by
        cases hp : hop.place <;> simp [hp, Place.slot?] at hplace <;> subst hplace <;> rfl
      have hlimit : checkLimit none hop = .ok () := rfl
      have hchange := toOption_change (s := .field hop.name) (v := v.unordered) hkind hop.name (hlast s)
      rw [hblank] at hchange
      simp only [hlimit]
      exact hchange

end Tree

end DottedPath
