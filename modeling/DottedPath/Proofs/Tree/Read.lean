import DottedPath.Proofs.Scan.Effect
import DottedPath.Proofs.Tree.Owns

/-!
# A read is a read in a tree

From a mapping that is laid out as a tree, a path reads what is laid out as the tree at the path, and
leads to a slot when it does so in the tree; a fault tells of the values what the fault in the tree
tells of the trees (`agrees_get`, `agrees_has`). Sharing makes no difference to this.
-/

set_option autoImplicit false
set_option relaxedAutoImplicit false

namespace DottedPath

open Scan

namespace Heap

/-- The outcome of looking into a heap and that of looking into a tree are results that are related,
or faults of which one tells what the other does. -/
inductive Agrees (h : Heap) {α β : Type} (rel : α → β → Prop) :
    Except Fault α → Except TreeFault β → Prop
  | ok {a : α} {b : β} (hrel : rel a b) : Agrees h rel (.ok a) (.ok b)
  | error {fault : Fault} {fault' : TreeFault} (htells : h.Tells fault fault') :
    Agrees h rel (.error fault) (.error fault')

section Agrees

variable {h : Heap} {α β : Type} {rel : α → β → Prop} {a : α} {b : β}

theorem Agrees.exists_of_ok_right {x : Except Fault α} (hagrees : h.Agrees rel x (.ok b)) :
    ∃ a, x = .ok a ∧ rel a b := by
  cases hagrees with
  | ok hrel => exact ⟨_, rfl, hrel⟩

theorem Agrees.exists_of_ok_left {y : Except TreeFault β} (hagrees : h.Agrees rel (.ok a) y) :
    ∃ b, y = .ok b ∧ rel a b := by
  cases hagrees with
  | ok hrel => exact ⟨_, rfl, hrel⟩

end Agrees

/-- The value is laid out as the tree. -/
def Shows (h : Heap) (v : Value) (t : Tree) : Prop := ∃ rs, h.Lays [v] [t] rs

theorem shows_null (h : Heap) : h.Shows .null .null := ⟨[], lays_leaf (isLeaf_of_ref?_eq_none rfl)⟩

section Shows

variable {h h' : Heap} {v : Value} {t : Tree}

theorem Shows.of_extends (hext : h.Extends h') (hshows : h.Shows v t) : h'.Shows v t := by
  obtain ⟨rs, hlays⟩ := hshows
  exact ⟨rs, hlays.of_extends hext⟩

theorem Shows.unique {u : Tree} (hshows : h.Shows v t) (hshows' : h.Shows v u) : t = u := by
  obtain ⟨rs, hlays⟩ := hshows
  obtain ⟨ss, hlays'⟩ := hshows'
  exact List.singleton_inj.mp (hlays.unique hlays').1

end Shows

section Slots

variable {h : Heap} {r : Ref} {t : Tree} {rs : List Ref} {s : Slot}

/-- A container has a value in a slot exactly when the tree has one there, as which it is laid out. -/
theorem Lays.slot? (hlays : h.Lays [.object r] [t] rs) (hsuits : h.SuitsAt r s) :
    (h.slot? r s = none ∧ t.slot? s = none) ∨
      ∃ v tv, h.slot? r s = some v ∧ t.slot? s = some tv ∧ h.Shows v tv := by
  obtain ⟨c, hget, hc⟩ := hsuits
  have hat : h.slot? r s = c.slot? s := by rw [Heap.slot?, hget, Option.bind_some]
  rw [hat]
  cases hslot : c.slot? s with
  | none =>
    obtain ⟨-, -, htree, -⟩ := hlays.focus_open hget hc hslot
    exact .inl ⟨rfl, htree⟩
  | some v =>
    obtain ⟨tv, -, rs₂, -, htree, -, hv, -⟩ := hlays.focus hget hslot
    exact .inr ⟨v, tv, rfl, htree, rs₂, hv⟩

/-- An item of a list is laid out as the item of the tree at the same index, and null as null when
there is none. -/
theorem Lays.shows_getD {vs : List Value} {ts : List Tree} (hlays : h.Lays vs ts rs) (n : Nat) :
    h.Shows (vs[n]?.getD .null) (ts[n]?.getD .null) := by
  induction hlays generalizing n with
  | nil => exact shows_null h
  | @leaf v vs ts rs hleaf _ ih =>
    cases n with
    | zero => exact ⟨[], lays_leaf hleaf⟩
    | succ n => simpa using ih n
  | node hget hnode hcontents _ _ ih =>
    cases n with
    | zero => exact ⟨_, lays_node hget hnode hcontents⟩
    | succ n => simpa using ih n

end Slots

section Look

variable {h : Heap} {α β γ : Type} {rel : α → β → Prop} {v : Value} {t : Tree} {m : α} {m' : β}

theorem Shows.kindOf_eq (hshows : h.Shows v t) : h.kindOf v = t.kind := by
  obtain ⟨rs, hlays⟩ := hshows
  cases t with
  | leaf w => simp only [kindOf, node_of_isLeaf hlays.of_leaf.2, Tree.kind]
  | list ts =>
    obtain ⟨r, items, ss, rfl, hget, -, -⟩ := hlays.of_list
    simp only [kindOf, node, hget, Tree.kind]
  | mapping es =>
    obtain ⟨r, kind, entries, ss, rfl, hget, -, -⟩ := hlays.of_mapping
    simp only [kindOf, node, hget, Tree.kind]

theorem Shows.eq_null_iff (hshows : h.Shows v t) : v = .null ↔ t = .null := by
  constructor
  · rintro rfl
    exact hshows.unique (shows_null h)
  · rintro rfl
    obtain ⟨rs, hlays⟩ := hshows
    exact hlays.of_leaf.1

/-- Insisting on a kind of node, unless a value is null: where it is of another kind the faults tell
the same. -/
theorem agrees_insist {kind : NodeKind} {field path : String} {insist : Except Fault γ}
    {look : γ → Except Fault α} {looked : Except TreeFault β} (hshows : h.Shows v t)
    (hmissing : rel m m') (hnull : t = .null → looked = .ok m')
    (hwrong : t ≠ .null → t.kind ≠ kind → looked = .error (.shape field kind t .read))
    (herror : ∀ e, insist = .error e →
      h.kindOf v ≠ kind ∧ e = .shape ⟨field, path, .shape kind, v, .read⟩)
    (hlook : ∀ c, insist = .ok c → h.Agrees rel (look c) looked) :
    h.Agrees rel (if v = .null then .ok m else insist.bind look) looked := by
  split
  · next hv =>
    rw [hnull (hshows.eq_null_iff.mp hv)]
    exact .ok hmissing
  · next hv =>
    cases hinsist : insist with
    | ok c => exact hlook c hinsist
    | error e =>
      obtain ⟨hkind, rfl⟩ := herror e hinsist
      rw [hwrong (mt hshows.eq_null_iff.mpr hv) (hshows.kindOf_eq ▸ hkind)]
      obtain ⟨rs, hlays⟩ := hshows
      exact .error (.shape hlays)

/-- Looking into the list at a value, unless it is null. -/
theorem agrees_inList (hshows : h.Shows v t) (hmissing : rel m m') (field path : String)
    {look : Ref × List Value → Except Fault α} {look' : List Tree → Except TreeFault β}
    (hlook : ∀ r items ts ss, h.get? r = some (.list items) → h.Lays items ts ss →
      h.Agrees rel (look (r, items)) (look' ts)) :
    h.Agrees rel (if v = .null then .ok m else (h.asList field path .read v).bind look)
      (t.inList field m' look') := by
  refine agrees_insist hshows hmissing (by rintro rfl; rfl) Tree.inList_of_kind_ne
    (fun e ↦ asList_eq_error_iff.mp) fun list hlist ↦ ?_
  obtain ⟨r, items⟩ := list
  obtain ⟨rfl, hget⟩ := of_asList hlist
  have hkind : t.kind = .list := by simp [← hshows.kindOf_eq, kindOf, node, hget]
  obtain ⟨ts, rfl⟩ := Tree.exists_of_kind_eq_list hkind
  obtain ⟨rs, hlays⟩ := hshows
  obtain ⟨_, _, ss, ⟨⟩, hget', hitems, -⟩ := hlays.of_list
  obtain ⟨⟩ := hget.symm.trans hget'
  exact hlook r items ts ss hget hitems

/-- Looking into the mapping at a value, unless it is null. -/
theorem agrees_inMapping (hshows : h.Shows v t) (hmissing : rel m m') (field path : String)
    {look : Ref → Except Fault α} {look' : Tree → Except TreeFault β}
    (hlook : ∀ r t, h.IsMapping r → h.Shows (.object r) t → h.Agrees rel (look r) (look' t)) :
    h.Agrees rel (if v = .null then .ok m else (h.asMapping field path .read v).bind look)
      (t.inMapping field m' look') := by
  refine agrees_insist hshows hmissing (by rintro rfl; rfl) Tree.inMapping_of_kind_ne
    (fun e ↦ asMapping_eq_error_iff.mp) fun r hr ↦ ?_
  obtain ⟨rfl, hmapping⟩ := of_asMapping hr
  have hkind : t.kind = .mapping := by
    obtain ⟨kind, entries, hget⟩ := hmapping
    simp [← hshows.kindOf_eq, kindOf, node, hget]
  obtain ⟨es, rfl⟩ := Tree.exists_of_kind_eq_mapping hkind
  exact hlook r _ hmapping hshows

end Look

/-! ### Steps -/

section Steps

variable {h : Heap} {α : Type} {step : Step} {rest : String} (m : α)
variable (out : Ref → String → Except Fault α)

theorem bind_descend_none (mode : AccessMode) (v : Value) (hrest : step.rest = some rest) :
    ((h.descend step mode v none).map (Move.orElse m hrest)).bind (Move.elim .ok out) =
      if v = .null then .ok m
      else (h.asMapping step.name step.text mode v).bind fun child ↦ out child rest := by
  rw [descend_none]
  split
  · rfl
  · cases h.asMapping step.name step.text mode v <;> rfl

theorem bind_descend_some (mode : AccessMode) (v : Value) (n : Nat) (hrest : step.rest = some rest) :
    ((h.descend step mode v (some n)).map (Move.orElse m hrest)).bind (Move.elim .ok out) =
      if v = .null then .ok m
      else (h.asList step.name step.text mode v).bind fun list ↦
        if list.2[n]?.getD .null = .null then .ok m
        else (h.asMapping step.label step.text mode (list.2[n]?.getD .null)).bind fun child ↦
          out child rest := by
  rw [descend_some]
  split
  · rfl
  · cases h.asList step.name step.text mode v with
    | error fault => rfl
    | ok list =>
      by_cases hnull : list.2[n]?.getD .null = .null
      · simp only [Except.bind, hnull, if_true]
        rfl
      · simp only [Except.bind, hnull, if_false]
        cases h.asMapping step.label step.text mode (list.2[n]?.getD .null) <;> rfl

end Steps

end Heap

theorem Scan.Follows.outcome_of_ok {α : Type}
    {look : Heap → Ref → (step : Step) → Except Fault (Move step α)} {scan : Ref → String → Scan α}
    (hscan : Follows look scan) {path : String} {step : Step}
    (hstep : Step.decode path = .ok step) (root : Ref) (h : Heap) :
    ((scan root path).effect h).1 =
      (look h root step).bind (Move.elim .ok fun child rest ↦ ((scan child rest).effect h).1) := by
  rw [hscan.effect_of_ok hstep]
  cases look h root step with
  | error fault => rfl
  | ok move => cases move <;> rfl

theorem bind_ite_map {ε α β γ : Type} (c : Prop) [Decidable c] (b : β) (x : Except ε α) (g : α → β)
    (f : β → Except ε γ) :
    (if c then .ok b else x.map g).bind f = if c then f b else x.bind fun a ↦ f (g a) := by
  split
  · rfl
  · cases x <;> rfl

theorem bind_ite_bind {ε α β γ : Type} (c : Prop) [Decidable c] (b : β) (x : Except ε α)
    (g : α → Except ε β) (f : β → Except ε γ) :
    (if c then .ok b else x >>= g).bind f = if c then f b else x.bind fun a ↦ (g a).bind f := by
  split
  · rfl
  · cases x <;> rfl

namespace Heap

section Walks

variable {h : Heap} {r : Ref} {t : Tree} {path : String} {α β : Type} {rel : α → β → Prop}
variable {m : α} {m' : β}

/-- Going on with more steps at the value under a key, or at an index of the list there. -/
theorem agrees_descend {step : Step} {rest : String} {v : Value} {out : Ref → String → Except Fault α}
    {next : Tree → Except TreeFault β} (hshows : h.Shows v t) (hmissing : rel m m')
    (hrest : step.rest = some rest)
    (hnext : ∀ r t, h.IsMapping r → h.Shows (.object r) t → h.Agrees rel (out r rest) (next t))
    (index : Option Nat) :
    h.Agrees rel
      (((h.descend step .read v index).map (Move.orElse m hrest)).bind (Move.elim .ok out))
      (match index with
        | none => t.inMapping step.name m' next
        | some n => t.inList step.name m' fun items ↦
          (items[n]?.getD .null).inMapping step.label m' next) := by
  cases index with
  | none =>
    rw [bind_descend_none]
    exact agrees_inMapping hshows hmissing _ _ hnext
  | some n =>
    rw [bind_descend_some]
    exact agrees_inList hshows hmissing _ _ fun s items ts ss _ hitems ↦
      agrees_inMapping (hitems.shows_getD n) hmissing _ _ hnext

/-- Two walks, of a heap and of a tree, agree along a path if they do at the last step, and at a step
with more steps behind it whenever they do behind it. -/
theorem agrees_walk {look : Heap → Ref → (step : Step) → Except Fault (Move step α)}
    {scan : Ref → String → Scan α} {walk : List Hop → Tree → Except TreeFault β}
    (hscan : Scan.Follows look scan)
    (hlast : ∀ r t (step : Step) out, step.rest = none → h.IsMapping r → h.Shows (.object r) t →
      h.Agrees rel ((look h r step).bind (Move.elim .ok out)) (walk [step.hop] t))
    (hmore : ∀ r t (step : Step) out rest hop hops, step.rest = some rest → h.IsMapping r →
      h.Shows (.object r) t →
      (∀ c u, h.IsMapping c → h.Shows (.object c) u →
        h.Agrees rel (out c rest) (walk (hop :: hops) u)) →
      h.Agrees rel ((look h r step).bind (Move.elim .ok out)) (walk (step.hop :: hop :: hops) t))
    (hreadable : Path.Readable path) (hroot : h.IsMapping r) (hshows : h.Shows (.object r) t) :
    h.Agrees rel ((scan r path).effect h).1 (walk (Path.hops path) t) := by
  induction path using Path.induction generalizing r t with
  | broken path e he => exact absurd hreadable (Path.not_readable_of_error he)
  | last path step hstep hrest =>
    rw [hscan.outcome_of_ok hstep, Path.hops_of_last hstep hrest]
    exact hlast r t step _ hrest hroot hshows
  | more path step rest hstep hrest ih =>
    obtain ⟨hop, hops, hhops⟩ := List.exists_cons_of_ne_nil (Path.hops_ne_nil rest)
    rw [hscan.outcome_of_ok hstep, Path.hops_of_more hstep hrest, hhops]
    refine hmore r t step _ rest hop hops hrest hroot hshows fun c u hc hshows' ↦ ?_
    rw [← hhops]
    exact ih ((Path.readable_of_more hstep hrest).mp hreadable) hc hshows'

/-- A mapping has a value under a key exactly when the tree has one there. -/
theorem Shows.field? (hshows : h.Shows (.object r) t) (hr : h.IsMapping r) (name : String) :
    (h.field? r name = none ∧ t.slot? (.field name) = none) ∨
      ∃ v tv, h.field? r name = some v ∧ t.slot? (.field name) = some tv ∧ h.Shows v tv := by
  obtain ⟨rs, hlays⟩ := hshows
  rw [field?_eq_slot?]
  exact hlays.slot? (suitsAt_field_iff.mpr hr)

/-- Reading at a path of a mapping that is laid out as a tree. -/
theorem agrees_get (hreadable : Path.Readable path) (hroot : h.IsMapping r)
    (hshows : h.Shows (.object r) t) :
    h.Agrees h.Shows ((Scan.get r path).effect h).1 (Tree.get (Path.hops path) t) := by
  refine agrees_walk follows_get (fun r t step out hrest hr hshows ↦ ?_)
    (fun r t step out rest hop hops hrest hr hshows hnext ↦ ?_) hreadable hroot hshows
  all_goals
    rw [Tree.get]
    rcases hshows.field? hr step.name with ⟨hnone, hnone'⟩ | ⟨v, tv, hv, htv, hbelow⟩
    · simp only [readMove, hnone, Step.hop, hnone']
      exact .ok (shows_null h)
    obtain ⟨text, name, place, rest'⟩ := step
    obtain rfl := hrest
    simp only [readMove, hv, Step.hop, htv]
  · cases place with
    | key => exact .ok hbelow
    | every =>
      simp only [bind_ite_map]
      exact agrees_inList hbelow (shows_null h) name text fun _ _ _ _ _ _ ↦ .ok hbelow
    | item n =>
      simp only [bind_ite_map]
      exact agrees_inList hbelow (shows_null h) name text fun s items ts ss _ hitems ↦
        .ok (hitems.shows_getD n)
  · cases place with
    | key => exact agrees_descend hbelow (shows_null h) rfl hnext none
    | item n => exact agrees_descend hbelow (shows_null h) rfl hnext (some n)
    | every =>
      simp only [bind_ite_bind]
      exact agrees_inList hbelow (shows_null h) name text fun _ _ _ _ _ _ ↦ .error .unindexed

/-- Testing for a slot at a path of a mapping that is laid out as a tree. -/
theorem agrees_has (hreadable : Path.Readable path) (hroot : h.IsMapping r)
    (hshows : h.Shows (.object r) t) :
    h.Agrees Eq ((Scan.has r path).effect h).1 (Tree.has (Path.hops path) t) := by
  refine agrees_walk follows_has (fun r t step out hrest hr hshows ↦ ?_)
    (fun r t step out rest hop hops hrest hr hshows hnext ↦ ?_) hreadable hroot hshows
  all_goals
    rw [Tree.has]
    rcases hshows.field? hr step.name with ⟨hnone, hnone'⟩ | ⟨v, tv, hv, htv, hbelow⟩
    · simp only [hasMove, hnone, Step.hop, hnone']
      exact .ok rfl
    obtain ⟨text, name, place, rest'⟩ := step
    obtain rfl := hrest
    simp only [hasMove, hv, Step.hop, htv]
  · cases place with
    | key | every => exact .ok rfl
    | item n =>
      simp only [bind_ite_map]
      refine agrees_inList hbelow rfl name text fun s items ts ss _ hitems ↦ ?_
      simp only [hitems.length_eq]
      exact .ok rfl
  · cases place with
    | key => exact agrees_descend hbelow rfl rfl hnext none
    | item n => exact agrees_descend hbelow rfl rfl hnext (some n)
    | every => exact .error .unindexed

end Walks

end Heap

end DottedPath
