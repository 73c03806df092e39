import DottedPath.Proofs.Tree.Clone

/-!
# One slot of a tree

A container that is laid out as a tree has at each slot what the tree has there, and what else it
holds lies before it or behind it (`Lays.focus`). When only this slot is given another value, the
container is laid out as the tree with another tree in the slot, and when it is emptied, as the tree
without it; in a slot that is missing, a tree is added (`Lays.focus_open`).
-/

set_option autoImplicit false
set_option relaxedAutoImplicit false

namespace DottedPath

/-! ### Lists of entries -/

namespace Table

variable {κ α β : Type}

/-- Entries with the same keys are split by a key in the same place. -/
theorem exists_split_of_keys {es₁ es₂ : List (κ × α)} {k : κ} {a : α} {fs : List (κ × β)}
    (hkeys : fs.map Prod.fst = (es₁ ++ (k, a) :: es₂).map Prod.fst) :
    ∃ fs₁ b fs₂, fs = fs₁ ++ (k, b) :: fs₂ ∧ fs₁.map Prod.fst = es₁.map Prod.fst ∧
      fs₂.map Prod.fst = es₂.map Prod.fst := by
  rw [List.map_append, List.map_cons] at hkeys
  obtain ⟨fs₁, fs₂', rfl, hfs₁, hfs₂'⟩ := List.map_eq_append_iff.mp hkeys
  obtain ⟨⟨k', b⟩, fs₂, rfl, hk, hfs₂⟩ := List.map_eq_cons_iff.mp hfs₂'
  obtain rfl : k' = k := hk
  exact ⟨fs₁, b, fs₂, rfl, hfs₁, hfs₂⟩

variable [DecidableEq κ]

theorem findFirst?_append_cons {es₁ : List (κ × α)} {k : κ} (hk : k ∉ es₁.map Prod.fst) (a : α)
    (es₂ : List (κ × α)) : findFirst? (es₁ ++ (k, a) :: es₂) k = some a := by
  induction es₁ with
  | nil => simp [findFirst?]
  | cons e es₁ ih =>
    rw [List.map_cons, List.mem_cons, not_or] at hk
    rw [List.cons_append, findFirst?, if_neg (Ne.symm hk.1), ih hk.2]

theorem putEntry_append_cons {es₁ : List (κ × α)} {k : κ} (hk : k ∉ es₁.map Prod.fst) (a b : α)
    (es₂ : List (κ × α)) : putEntry (es₁ ++ (k, a) :: es₂) k b = es₁ ++ (k, b) :: es₂ := by
  induction es₁ with
  | nil => simp [putEntry]
  | cons e es₁ ih =>
    rw [List.map_cons, List.mem_cons, not_or] at hk
    rw [List.cons_append, putEntry, if_neg (Ne.symm hk.1), ih hk.2, List.cons_append]

theorem eraseEntry_append_cons {es₁ : List (κ × α)} {k : κ} (hk : k ∉ es₁.map Prod.fst) (a : α)
    (es₂ : List (κ × α)) : eraseEntry (es₁ ++ (k, a) :: es₂) k = es₁ ++ es₂ := by
  induction es₁ with
  | nil => simp [eraseEntry]
  | cons e es₁ ih =>
    rw [List.map_cons, List.mem_cons, not_or] at hk
    rw [List.cons_append, eraseEntry, if_neg (Ne.symm hk.1), ih hk.2, List.cons_append]

theorem eraseEntry_of_not_mem {es : List (κ × α)} {k : κ} (hk : k ∉ es.map Prod.fst) :
    eraseEntry es k = es := by
  induction es with
  | nil => rfl
  | cons e es ih =>
    rw [List.map_cons, List.mem_cons, not_or] at hk
    rw [eraseEntry, if_neg (Ne.symm hk.1), ih hk.2]

/-- A key is found in a list of entries where it stands first. -/
theorem exists_split_of_findFirst? {es : List (κ × α)} {k : κ} {a : α}
    (hfind : findFirst? es k = some a) :
    ∃ es₁ es₂, es = es₁ ++ (k, a) :: es₂ ∧ k ∉ es₁.map Prod.fst := by
  induction es with
  | nil => simp [findFirst?] at hfind
  | cons e es ih =>
    obtain ⟨k', a'⟩ := e
    rw [findFirst?] at hfind
    split at hfind
    · next hkey =>
      obtain rfl := Option.some.inj hfind
      exact ⟨[], es, by simp [hkey], List.not_mem_nil⟩
    · next hkey =>
      obtain ⟨es₁, es₂, rfl, hk⟩ := ih hfind
      refine ⟨(k', a') :: es₁, es₂, rfl, ?_⟩
      simp only [List.map_cons, List.mem_cons, not_or]
      exact ⟨Ne.symm hkey, hk⟩

/-- An entry of a table is replaced or left out where it stands. -/
theorem exists_split_of_find? {t : Table κ α} {k : κ} {a : α} (hfind : t.find? k = some a) :
    ∃ es₁ es₂, t.entries = es₁ ++ (k, a) :: es₂ ∧ k ∉ es₁.map Prod.fst ∧
      (∀ b, (t.put k b).entries = es₁ ++ (k, b) :: es₂) ∧ (t.erase k).entries = es₁ ++ es₂ := by
  obtain ⟨es₁, es₂, hentries, hk⟩ := exists_split_of_findFirst? hfind
  refine ⟨es₁, es₂, hentries, hk, fun b ↦ ?_, ?_⟩
  · simp only [put, hentries]
    exact putEntry_append_cons hk a b es₂
  · simp only [erase, hentries]
    exact eraseEntry_append_cons hk a es₂

end Table

theorem Tree.erase_of_slot? {t : Tree} {s : Slot} (hslot : t.slot? s = none) : t.erase s = t := by
  cases t with
  | leaf v => cases s <;> rfl
  | list items =>
    cases s with
    | index n =>
      have hn : items.length ≤ n := by simpa [Tree.slot?] using hslot
      rw [Tree.erase, List.eraseIdx_of_length_le hn]
    | field name | next => rfl
  | mapping entries =>
    cases s with
    | field name =>
      have hk := (Table.findFirst?_eq_none_iff entries _).mp hslot
      rw [Tree.erase, Table.eraseEntry_of_not_mem hk]
    | index n | next => rfl

/-! ### Slots of nodes -/

/-- The cell without what is in a slot. -/
def Cell.erase : Cell → Slot → Cell
  | mapping kind entries, .field name => mapping kind (entries.erase (.text name))
  | list items, .index n => list (items.eraseIdx n)
  | c, _ => c

namespace Cell.IsNode

variable {c : Cell} {t : Tree} {ts : List Tree} {s : Slot} {w : Value}

/-- What is in a slot of a node stands among its contents where the tree in the slot stands among
the trees below it, and there it is replaced or left out. -/
theorem exists_split (hnode : c.IsNode t ts) (hlength : c.contents.length = ts.length)
    (hslot : c.slot? s = some w) :
    ∃ vs₁ vs₂ ts₁ tw ts₂, c.contents = vs₁ ++ w :: vs₂ ∧ ts = ts₁ ++ tw :: ts₂ ∧
      vs₁.length = ts₁.length ∧ t.slot? s = some tw ∧
      (∀ v tv, (c.put s v).contents = vs₁ ++ v :: vs₂ ∧
        (c.put s v).IsNode (t.put s tv) (ts₁ ++ tv :: ts₂)) ∧
      (c.erase s).contents = vs₁ ++ vs₂ ∧ (c.erase s).IsNode (t.erase s) (ts₁ ++ ts₂) := by
  cases hnode with
  | @list items ts =>
    cases s with
    | field name | next => simp [slot?] at hslot
    | index n =>
      obtain ⟨hn, rfl⟩ := List.getElem?_eq_some_iff.mp hslot
      have hn' : n < ts.length := hlength ▸ hn
      refine ⟨items.take n, items.drop (n + 1), ts.take n, ts[n], ts.drop (n + 1), ?_, ?_, ?_, ?_, ?_,
        ?_, ?_⟩
      · rw [contents, ← List.drop_eq_getElem_cons hn, List.take_append_drop]
      · rw [← List.drop_eq_getElem_cons hn', List.take_append_drop]
      · simp only [List.length_take]
        omega
      · simp [Tree.slot?, hn']
      · intro v tv
        rw [put, if_pos hn, Tree.put, if_pos hn', contents, List.set_eq_take_append_cons_drop,
          if_pos hn, List.set_eq_take_append_cons_drop, if_pos hn']
        exact ⟨rfl, .list⟩
      · exact List.eraseIdx_eq_take_drop_succ items n
      · rw [erase, Tree.erase, List.eraseIdx_eq_take_drop_succ, List.eraseIdx_eq_take_drop_succ]
        exact .list
  | @mapping kind entries es hkeys =>
    cases s with
    | index n | next => simp [slot?] at hslot
    | field name =>
      obtain ⟨es₁, es₂, hentries, hk, hput, herase⟩ := Table.exists_split_of_find? hslot
      have hkeys' : es.map Prod.fst = (es₁ ++ (Key.text name, w) :: es₂).map Prod.fst := by
        rw [hkeys, Table.keys, hentries]
      obtain ⟨fs₁, tw, fs₂, rfl, hfs₁, hfs₂⟩ := Table.exists_split_of_keys hkeys'
      have hk' : Key.text name ∉ fs₁.map Prod.fst := hfs₁ ▸ hk
      refine ⟨es₁.map Prod.snd, es₂.map Prod.snd, fs₁.map Prod.snd, tw, fs₂.map Prod.snd, ?_, ?_, ?_,
        ?_, ?_, ?_, ?_⟩
      · simp [contents, Table.data, hentries]
      · simp
      · simpa using congrArg List.length hfs₁.symm
      · exact Table.findFirst?_append_cons hk' tw fs₂
      · intro v tv
        refine ⟨by simp [put, contents, Table.data, hput], ?_⟩
        rw [put, Tree.put, Table.putEntry_append_cons hk']
        have hnode : (Cell.mapping kind (entries.put (.text name) v)).IsNode
            (.mapping (fs₁ ++ (.text name, tv) :: fs₂)) _ :=
          .mapping (by simp [Table.keys, hput, hfs₁, hfs₂])
        simpa using hnode
      · simp [erase, contents, Table.data, herase]
      · rw [erase, Tree.erase, Table.eraseEntry_append_cons hk']
        have hnode : (Cell.mapping kind (entries.erase (.text name))).IsNode
            (.mapping (fs₁ ++ fs₂)) _ := .mapping (by simp [Table.keys, herase, hfs₁, hfs₂])
        simpa using hnode

/-- What is put into a missing slot of a node stands behind its contents, with nulls between in a
list that is too short. -/
theorem exists_open (hnode : c.IsNode t ts) (hlength : c.contents.length = ts.length)
    (hsuits : s.Suits c) (hslot : c.slot? s = none) :
    t.slot? s = none ∧ ∃ n, ∀ v tv,
      (c.put s v).contents = c.contents ++ List.replicate n .null ++ [v] ∧
      (c.put s v).IsNode (t.put s tv) (ts ++ List.replicate n .null ++ [tv]) := by
  cases hnode with
  | @list items ts =>
    have hlength' : items.length = ts.length := hlength
    cases s with
    | field name => exact hsuits.elim
    | next =>
      refine ⟨rfl, 0, fun v tv ↦ ?_⟩
      simp only [List.replicate_zero, List.append_nil]
      exact ⟨rfl, .list⟩
    | index n =>
      have hn : ¬ n < items.length := by
        simpa [slot?] using hslot
      have hn' : ¬ n < ts.length := hlength' ▸ hn
      refine ⟨by simpa [Tree.slot?] using hn', n - items.length, fun v tv ↦ ?_⟩
      rw [put, if_neg hn, Tree.put, if_neg hn', ← hlength']
      exact ⟨rfl, .list⟩
  | @mapping kind entries es hkeys =>
    cases s with
    | index n | next => exact hsuits.elim
    | field name =>
      have hk : Key.text name ∉ entries.keys := (entries.find?_eq_none_iff _).mp hslot
      have hk' : Key.text name ∉ es.map Prod.fst := hkeys ▸ hk
      refine ⟨(Table.findFirst?_eq_none_iff es _).mpr hk', 0, fun v tv ↦ ?_⟩
      have hput : (entries.put (.text name) v).entries = entries.entries ++ [(.text name, v)] :=
        Table.putEntry_of_not_mem _ _ _ hk
      refine ⟨by simp [put, contents, Table.data, hput], ?_⟩
      rw [put, Tree.put, Table.putEntry_of_not_mem _ _ _ hk']
      have hnode : (Cell.mapping kind (entries.put (.text name) v)).IsNode
          (.mapping (es ++ [(.text name, tv)])) _ := .mapping (by simp [Table.keys, hput, hkeys])
      simpa using hnode

end Cell.IsNode

namespace Heap

section Focus

variable {h : Heap} {r : Ref} {c : Cell} {t : Tree} {rs : List Ref} {s : Slot}

/-- A slot of a container that is laid out as a tree holds what is laid out as the tree in the slot.
As long as the other containers that are met stay as they are, the container goes on being laid out:
with another value in the slot, as the tree with another tree there, and without a value, as the tree
without one. -/
theorem Lays.focus {w : Value} (hget : h.get? r = some c) (hlays : h.Lays [.object r] [t] rs)
    (hslot : c.slot? s = some w) :
    ∃ tw rs₁ rs₂ rs₃, t.slot? s = some tw ∧ rs = r :: (rs₁ ++ rs₂ ++ rs₃) ∧ h.Lays [w] [tw] rs₂ ∧
      ∀ h', h.KeepsLeaves h' → (∀ x ∈ rs₁ ++ rs₃, h'.get? x = h.get? x) →
        (∀ v tv ss, h'.get? r = some (c.put s v) → h'.Lays [v] [tv] ss →
          h'.Lays [.object r] [t.put s tv] (r :: (rs₁ ++ ss ++ rs₃))) ∧
        (h'.get? r = some (c.erase s) → h'.Lays [.object r] [t.erase s] (r :: (rs₁ ++ rs₃))) := by
  have hc := isContainer_of_mem_contents (Cell.mem_contents_of_slot? hslot)
  obtain ⟨ts, ss, hnode, hcontents, rfl⟩ := hlays.of_isContainer hget hc
  obtain ⟨vs₁, vs₂, ts₁, tw, ts₂, hvs, rfl, hlength, htw, hput, herase, hnode'⟩ :=
    hnode.exists_split hcontents.length_eq hslot
  rw [hvs] at hcontents
  obtain ⟨us₁, us₂, rs₁, rs', heq, rfl, hvs₁, hrest⟩ := hcontents.of_append
  obtain ⟨rfl, rfl⟩ := List.append_inj heq (hlength.symm.trans hvs₁.length_eq)
  obtain ⟨tw', us₂, rs₂, rs₃, heq', rfl, hw, hvs₂⟩ := hrest.of_cons
  obtain ⟨rfl, rfl⟩ := List.cons.inj heq'
  refine ⟨tw, rs₁, rs₂, rs₃, htw, by simp, hw, fun h' hkeeps hsame ↦ ⟨?_, ?_⟩⟩
  · intro v tv ss hget' hv
    obtain ⟨hcontents', hnode'⟩ := hput v tv
    refine lays_node hget' hnode' ?_
    rw [hcontents', List.append_assoc]
    exact (hvs₁.frame (fun x hx ↦ hsame x (List.mem_append_left _ hx)) hkeeps).append
      (hv.cons (hvs₂.frame (fun x hx ↦ hsame x (List.mem_append_right _ hx)) hkeeps))
  · intro hget'
    refine lays_node hget' hnode' ?_
    rw [herase]
    exact (hvs₁.frame (fun x hx ↦ hsame x (List.mem_append_left _ hx)) hkeeps).append
      (hvs₂.frame (fun x hx ↦ hsame x (List.mem_append_right _ hx)) hkeeps)

theorem lays_nulls (h : Heap) (n : Nat) :
    h.Lays (List.replicate n .null) (List.replicate n .null) [] := by
  induction n with
  | zero => exact .nil
  | succ n ih => exact .leaf (isLeaf_of_ref?_eq_none rfl) ih

/-- A slot that a container could have and has not is missing in the tree as well, and a value put
there is added to what is laid out. -/
theorem Lays.focus_open (hget : h.get? r = some c) (hlays : h.Lays [.object r] [t] rs)
    (hsuits : s.Suits c) (hslot : c.slot? s = none) :
    ∃ rs', rs = r :: rs' ∧ t.slot? s = none ∧
      ∀ h', h.KeepsLeaves h' → (∀ x ∈ rs', h'.get? x = h.get? x) →
        ∀ v tv ss, h'.get? r = some (c.put s v) → h'.Lays [v] [tv] ss →
          h'.Lays [.object r] [t.put s tv] (r :: (rs' ++ ss)) := by
  obtain ⟨ts, rs', hnode, hcontents, rfl⟩ := hlays.of_isContainer hget hsuits.isContainer
  obtain ⟨htree, n, hput⟩ := hnode.exists_open hcontents.length_eq hsuits hslot
  refine ⟨rs', rfl, htree, fun h' hkeeps hsame v tv ss hget' hv ↦ ?_⟩
  obtain ⟨hcontents', hnode'⟩ := hput v tv
  refine lays_node hget' hnode' ?_
  rw [hcontents']
  have hfirst := (hcontents.frame hsame hkeeps).append (lays_nulls h' n)
  rw [List.append_nil] at hfirst
  exact hfirst.append hv

/-- Whatever a slot of a container holds, null if nothing, is laid out as what the tree has there,
and with another value in the slot the container is laid out as the tree with another tree there. -/
theorem Lays.at_slot (hlays : h.Lays [.object r] [t] rs) (hsuits : h.SuitsAt r s) :
    ∃ rs₁ rs₂ rs₃, rs = r :: (rs₁ ++ rs₂ ++ rs₃) ∧
      h.Lays [(h.slot? r s).getD .null] [(t.slot? s).getD .null] rs₂ ∧
      ∀ h', h.KeepsLeaves h' → (∀ x ∈ rs₁ ++ rs₃, h'.get? x = h.get? x) →
        ∀ v tv ss, h'.get? r = (h.get? r).map (·.put s v) → h'.Lays [v] [tv] ss →
          h'.Lays [.object r] [t.put s tv] (r :: (rs₁ ++ ss ++ rs₃)) := by
  obtain ⟨c, hget, hc⟩ := hsuits
  have hat : h.slot? r s = c.slot? s := by rw [slot?, hget, Option.bind_some]
  rw [hat, hget]
  cases hslot : c.slot? s with
  | none =>
    obtain ⟨rs', rfl, htree, hput⟩ := hlays.focus_open hget hc hslot
    refine ⟨rs', [], [], by simp, ?_, fun h' hkeeps hsame v tv ss hget' hv ↦ ?_⟩
    · rw [htree]
      exact lays_leaf (isLeaf_of_ref?_eq_none rfl)
    · rw [List.append_nil]
      exact hput h' hkeeps (by simpa using hsame) v tv ss hget' hv
  | some w =>
    obtain ⟨tw, rs₁, rs₂, rs₃, htree, rfl, hw, hput⟩ := hlays.focus hget hslot
    refine ⟨rs₁, rs₂, rs₃, rfl, ?_, fun h' hkeeps hsame v tv ss hget' hv ↦ ?_⟩
    · rw [htree]
      exact hw
    · exact (hput h' hkeeps hsame).1 v tv ss hget' hv

end Focus

end Heap

end DottedPath
