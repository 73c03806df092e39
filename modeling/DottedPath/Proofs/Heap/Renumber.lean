import DottedPath.Proofs.Tree.Read
import Mathlib.Logic.Equiv.Basic

/-!
# Renumbering containers

The number of a new container says only when it was made. Two heaps are the same but for such numbers
when a permutation of the numbers turns the slots of one into those of the other
(`Heap.Renumbers`). Values show the same trees in both, provided that only containers get other
numbers (`Renumbers.shows_iff`).
-/

set_option autoImplicit false
set_option relaxedAutoImplicit false

namespace DottedPath

/-- The value with its reference renumbered. -/
def Value.renumber (σ : Ref → Ref) : Value → Value
  | object r => object (σ r)
  | v => v

theorem Value.renumber_eq_self {σ : Ref → Ref} {v : Value} (hfix : ∀ r ∈ v.ref?, σ r = r) :
    v.renumber σ = v := by
  cases v with
  | object r => rw [renumber, hfix r rfl]
  | _ => rfl

theorem Value.renumber_renumber (σ τ : Ref → Ref) (v : Value) :
    (v.renumber σ).renumber τ = v.renumber (τ ∘ σ) := by
  cases v <;> rfl

namespace Table

variable {κ α β γ : Type}

/-- The table with all data replaced. -/
def mapData (f : α → β) (t : Table κ α) : Table κ β where
  entries := t.entries.map (Prod.map id f)
  nodup_keys := by
    rw [List.map_map, show Prod.fst ∘ Prod.map id f = (Prod.fst : κ × α → κ) from rfl]
    exact t.nodup_keys

theorem keys_mapData (f : α → β) (t : Table κ α) : (t.mapData f).keys = t.keys := by
  simp [keys, mapData, Function.comp_def]

theorem data_mapData (f : α → β) (t : Table κ α) : (t.mapData f).data = t.data.map f := by
  simp [data, mapData, Function.comp_def]

theorem mapData_mapData (f : α → β) (g : β → γ) (t : Table κ α) :
    (t.mapData f).mapData g = t.mapData (g ∘ f) := by
  refine ext_entries ?_
  simp [mapData, Function.comp_def]

theorem mapData_eq_self {f : α → α} {t : Table κ α} (hfix : ∀ a ∈ t.data, f a = a) :
    t.mapData f = t := by
  refine ext_entries ((List.map_congr_left fun e he ↦ ?_).trans (List.map_id _))
  exact Prod.ext rfl (hfix e.2 (List.mem_map_of_mem he))

variable [DecidableEq κ]

theorem mapData_put (f : α → β) (t : Table κ α) (k : κ) (a : α) :
    (t.put k a).mapData f = (t.mapData f).put k (f a) := by
  have hentries : ∀ es : List (κ × α),
      (putEntry es k a).map (Prod.map id f) = putEntry (es.map (Prod.map id f)) k (f a) := by
    intro es
    induction es with
    | nil => rfl
    | cons e es ih =>
      obtain ⟨k', b⟩ := e
      by_cases hk : k' = k <;> simp [putEntry, hk, ih]
  exact ext_entries (hentries t.entries)

end Table

namespace Cell

/-- The cell with the references in its slots renumbered. -/
def renumber (σ : Ref → Ref) : Cell → Cell
  | mapping kind entries => mapping kind (entries.mapData (Value.renumber σ))
  | list items => list (items.map (Value.renumber σ))
  | c => c

@[simp] theorem renumber_blank (σ : Ref → Ref) (s : Slot) : s.blank.renumber σ = s.blank := by
  cases s <;> rfl

theorem contents_renumber (σ : Ref → Ref) (c : Cell) :
    (c.renumber σ).contents = c.contents.map (Value.renumber σ) := by
  cases c with
  | mapping kind entries => exact Table.data_mapData _ _
  | _ => rfl

theorem isContainer_renumber_iff {σ : Ref → Ref} {c : Cell} :
    (c.renumber σ).IsContainer ↔ c.IsContainer := by
  cases c <;> rfl

theorem renumber_put (σ : Ref → Ref) (c : Cell) (s : Slot) (v : Value) :
    (c.put s v).renumber σ = (c.renumber σ).put s (v.renumber σ) := by
  cases c with
  | mapping kind entries =>
    cases s with
    | field name => exact congrArg (mapping kind) (Table.mapData_put _ _ _ _)
    | index n | next => rfl
  | list items =>
    cases s with
    | field name => rfl
    | next => simp [put, renumber]
    | index n =>
      by_cases hn : n < items.length
      · simp [put, renumber, hn, List.map_set]
      · simp [put, renumber, hn, Value.renumber]
  | _ => cases s <;> rfl

theorem renumber_eq_self {σ : Ref → Ref} {c : Cell}
    (hfix : ∀ v ∈ c.contents, ∀ r ∈ v.ref?, σ r = r) : c.renumber σ = c := by
  cases c with
  | mapping kind entries =>
    exact congrArg (mapping kind)
      (Table.mapData_eq_self fun v hv ↦ Value.renumber_eq_self (hfix v hv))
  | list items =>
    exact congrArg list
      ((List.map_congr_left fun v hv ↦ Value.renumber_eq_self (hfix v hv)).trans (List.map_id _))
  | _ => rfl

theorem renumber_renumber (σ τ : Ref → Ref) (c : Cell) :
    (c.renumber σ).renumber τ = c.renumber (τ ∘ σ) := by
  have hvalue : Value.renumber τ ∘ Value.renumber σ = Value.renumber (τ ∘ σ) :=
    funext fun v ↦ Value.renumber_renumber σ τ v
  cases c with
  | mapping kind entries => simp [renumber, Table.mapData_mapData, hvalue]
  | list items => simp [renumber, hvalue]
  | _ => rfl

theorem IsNode.renumber {c : Cell} {t : Tree} {ts : List Tree} (hnode : c.IsNode t ts)
    (σ : Ref → Ref) : (c.renumber σ).IsNode t ts := by
  cases hnode with
  | list => exact .list
  | mapping hkeys => exact .mapping (hkeys.trans (Table.keys_mapData _ _).symm)

end Cell

namespace Heap

/-- The second heap is the first with its cells renumbered. Only containers get other numbers. -/
structure Renumbers (h h' : Heap) (σ : Equiv.Perm Ref) : Prop where
  get?_eq : ∀ r, h'.get? (σ r) = (h.get? r).map (Cell.renumber σ)
  fixes : ∀ r c, h.get? r = some c → ¬ c.IsContainer → σ r = r

section Renumbers

variable {h h' : Heap} {σ : Equiv.Perm Ref}

theorem Renumbers.symm (hrenumbers : h.Renumbers h' σ) : h'.Renumbers h σ.symm where
  get?_eq r := by
    obtain ⟨x, rfl⟩ := σ.surjective r
    rw [Equiv.symm_apply_apply, hrenumbers.get?_eq]
    cases h.get? x with
    | none => rfl
    | some c =>
      have hcancel : c.renumber (σ.symm ∘ σ) = c :=
        Cell.renumber_eq_self fun _ _ r _ ↦ σ.symm_apply_apply r
      rw [Option.map_some, Option.map_some, Cell.renumber_renumber, hcancel]
  fixes r c hget hc := by
    obtain ⟨x, rfl⟩ := σ.surjective r
    rw [hrenumbers.get?_eq] at hget
    obtain ⟨c', hget', rfl⟩ := Option.map_eq_some_iff.mp hget
    rw [Cell.isContainer_renumber_iff] at hc
    rw [Equiv.symm_apply_apply, hrenumbers.fixes x c' hget' hc]

theorem Renumbers.isLeaf (hrenumbers : h.Renumbers h' σ) {v : Value} (hleaf : h.IsLeaf v) :
    v.renumber σ = v ∧ h'.IsLeaf v := by
  have hfix : ∀ r ∈ v.ref?, σ r = r := by
    intro r hr
    obtain ⟨c, hget, hc⟩ := hleaf r hr
    exact hrenumbers.fixes r c hget hc
  refine ⟨Value.renumber_eq_self hfix, fun r hr ↦ ?_⟩
  obtain ⟨c, hget, hc⟩ := hleaf r hr
  refine ⟨c.renumber σ, ?_, mt Cell.isContainer_renumber_iff.mp hc⟩
  rw [← hfix r hr, hrenumbers.get?_eq, hget, Option.map_some]

/-- Values are laid out as the same trees, by way of the renumbered containers. -/
theorem Renumbers.lays (hrenumbers : h.Renumbers h' σ) {vs : List Value} {ts : List Tree}
    {rs : List Ref} (hlays : h.Lays vs ts rs) :
    h'.Lays (vs.map (Value.renumber σ)) ts (rs.map σ) := by
  induction hlays with
  | nil => exact .nil
  | @leaf v vs ts rs hleaf _ ih =>
    obtain ⟨hv, hleaf'⟩ := hrenumbers.isLeaf hleaf
    rw [List.map_cons, hv]
    exact .leaf hleaf' ih
  | @node r c t ts us vs rs ss hget hnode _ _ ihcontents ih =>
    rw [← Cell.contents_renumber] at ihcontents
    rw [List.map_cons, List.map_cons, List.map_append]
    refine .node ?_ (hnode.renumber σ) ihcontents ih
    rw [hrenumbers.get?_eq, hget, Option.map_some]

/-- A value whose number stays shows the same tree in both heaps. -/
theorem Renumbers.shows_iff (hrenumbers : h.Renumbers h' σ) {v : Value} (hv : v.renumber σ = v)
    (t : Tree) : h.Shows v t ↔ h'.Shows v t := by
  have hback : v.renumber σ.symm = v := by
    have hcancel : (v.renumber σ).renumber σ.symm = v := by
      rw [Value.renumber_renumber]
      exact Value.renumber_eq_self fun r _ ↦ σ.symm_apply_apply r
    rwa [hv] at hcancel
  constructor
  · rintro ⟨rs, hlays⟩
    have hlays' := hrenumbers.lays hlays
    rw [List.map_singleton, hv] at hlays'
    exact ⟨_, hlays'⟩
  · rintro ⟨rs, hlays⟩
    have hlays' := hrenumbers.symm.lays hlays
    rw [List.map_singleton, hback] at hlays'
    exact ⟨_, hlays'⟩

end Renumbers

/-! ### One number moved to the front -/

/-- The permutation that gives the number `n + k` the place of `n`, and moves the numbers from `n` on
by one to make room. -/
def moveToFront (n k : Nat) : Equiv.Perm Nat where
  toFun r := if r = n + k then n else if n ≤ r ∧ r < n + k then r + 1 else r
  invFun r := if r = n then n + k else if n < r ∧ r ≤ n + k then r - 1 else r
  left_inv r := by
    dsimp only
    split_ifs <;> omega
  right_inv r := by
    dsimp only
    split_ifs <;> omega

theorem moveToFront_self (n k : Nat) : moveToFront n k (n + k) = n :=
  if_pos rfl

theorem moveToFront_of_lt {n k r : Nat} (hr : r < n) : moveToFront n k r = r := by
  show (if _ then _ else _) = r
  rw [if_neg (by omega), if_neg (by omega)]

theorem moveToFront_of_gt {n k r : Nat} (hr : n + k < r) : moveToFront n k r = r := by
  show (if _ then _ else _) = r
  rw [if_neg (by omega), if_neg (by omega)]

theorem moveToFront_add {n k i : Nat} (hi : i < k) : moveToFront n k (n + i) = n + i + 1 := by
  show (if _ then _ else _) = n + i + 1
  rw [if_neg (by omega), if_pos (by omega)]

end Heap

end DottedPath
