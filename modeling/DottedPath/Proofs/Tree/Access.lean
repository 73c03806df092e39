import DottedPath.Fault
import DottedPath.Proofs.Tree.Basic

/-!
# Paths in trees

What it means to read, test, write and remove at a path of a tree, for a path that is a list of hops.
A missing key, a null and an index past the end read as null and are no slots; a write makes what is
missing on its way, and pads a list with nulls; a removal passes over what is not there. A hop
`name[]` is the whole list to a read, a place behind its last item to a write, and the list itself or
all mappings in it to a removal.

Trees are not changed, so a write gives a tree or a fault. A removal that meets a fault has taken
away what came before it, so it gives a tree in any case.
-/

set_option autoImplicit false
set_option relaxedAutoImplicit false

namespace DottedPath

/-- Why an access to a tree fails: a tree under a field is not of the kind that the access expects,
a field is a list but no index was given, or the index of a field is above the limit. -/
inductive TreeFault
  | shape (field : String) (expected : NodeKind) (actual : Tree) (mode : AccessMode)
  | unindexed (field : String)
  | aboveLimit (field name : String) (index limit : Nat)

namespace Tree

/-! ### Reading and testing -/

/-- Looks into a tree that has to be a mapping, unless it is null. -/
def inMapping {α : Type} (field : String) (missing : α) (look : Tree → Except TreeFault α) :
    Tree → Except TreeFault α
  | leaf .null => .ok missing
  | mapping entries => look (mapping entries)
  | t => .error (.shape field .mapping t .read)

/-- Looks into a tree that has to be a list, unless it is null. -/
def inList {α : Type} (field : String) (missing : α) (look : List Tree → Except TreeFault α) :
    Tree → Except TreeFault α
  | leaf .null => .ok missing
  | list items => look items
  | t => .error (.shape field .list t .read)

theorem inMapping_of_kind_ne {α : Type} {field : String} {missing : α}
    {look : Tree → Except TreeFault α} {t : Tree} (hnull : t ≠ null) (hkind : t.kind ≠ .mapping) :
    t.inMapping field missing look = .error (.shape field .mapping t .read) := by
  unfold inMapping
  split
  · exact absurd rfl hnull
  · exact absurd rfl hkind
  · rfl

theorem inList_of_kind_ne {α : Type} {field : String} {missing : α}
    {look : List Tree → Except TreeFault α} {t : Tree} (hnull : t ≠ null) (hkind : t.kind ≠ .list) :
    t.inList field missing look = .error (.shape field .list t .read) := by
  unfold inList
  split
  · exact absurd rfl hnull
  · exact absurd rfl hkind
  · rfl

/-- The tree at a path, and null when there is none. -/
def get : List Hop → Tree → Except TreeFault Tree
  | [], t => .ok t
  | hop :: hops, t =>
    match t.slot? (.field hop.name) with
    | none => .ok null
    | some below =>
      match hop.place, hops with
      | .key, [] => .ok below
      | .key, _ :: _ => below.inMapping hop.name null (get hops)
      | .every, [] => below.inList hop.name null fun _ ↦ .ok below
      | .every, _ :: _ => below.inList hop.name null fun _ ↦ .error (.unindexed hop.name)
      | .item n, [] => below.inList hop.name null fun items ↦ .ok (items[n]?.getD null)
      | .item n, _ :: _ => below.inList hop.name null fun items ↦
          (items[n]?.getD null).inMapping hop.label null (get hops)

/-- Whether a path leads to a slot, which may hold null. -/
def has : List Hop → Tree → Except TreeFault Bool
  | [], _ => .ok true
  | hop :: hops, t =>
    match t.slot? (.field hop.name) with
    | none => .ok false
    | some below =>
      match hop.place, hops with
      | .key, [] => .ok true
      | .key, _ :: _ => below.inMapping hop.name false (has hops)
      | .every, [] => .ok true
      | .every, _ :: _ => .error (.unindexed hop.name)
      | .item n, [] => below.inList hop.name false fun items ↦ .ok (n < items.length)
      | .item n, _ :: _ => below.inList hop.name false fun items ↦
          (items[n]?.getD null).inMapping hop.label false (has hops)

/-! ### Writing -/

/-- The tree with the node in a slot changed, or with a changed blank one there when the slot is
missing or null. A node of another kind than the blank one is a fault. -/
def change (t : Tree) (s : Slot) (field : String) (blank : Tree)
    (work : Tree → Except TreeFault Tree) : Except TreeFault Tree :=
  match (t.slot? s).getD null with
  | leaf .null => (work blank).map (t.put s)
  | below =>
    if below.kind = blank.kind then (work below).map (t.put s)
    else .error (.shape field blank.kind below .write)

theorem change_of_null {t : Tree} {s : Slot} (h : (t.slot? s).getD null = null) (field : String)
    (blank : Tree) (work : Tree → Except TreeFault Tree) :
    t.change s field blank work = (work blank).map (t.put s) := by
  rw [change, h, null]

theorem change_of_ne {t : Tree} {s : Slot} (h : (t.slot? s).getD null ≠ null) (field : String)
    (blank : Tree) (work : Tree → Except TreeFault Tree) :
    t.change s field blank work =
      if ((t.slot? s).getD null).kind = blank.kind then
        (work ((t.slot? s).getD null)).map (t.put s)
      else .error (.shape field blank.kind ((t.slot? s).getD null) .write) := by
  unfold change
  split
  · next hnull => exact absurd hnull h
  · rfl

/-- Refuses an index above the limit. -/
def checkLimit (limit : Option Nat) (hop : Hop) : Except TreeFault Unit :=
  match limit, hop.place with
  | some limit, .item n =>
    if limit < n then .error (.aboveLimit hop.label hop.name n limit) else .ok ()
  | _, _ => .ok ()

/-- Does some work at the last slot of a hop. -/
def reach (limit : Option Nat) (hop : Hop) (work : Slot → Tree → Except TreeFault Tree) (t : Tree) :
    Except TreeFault Tree :=
  match hop.place.slot? with
  | none => work (.field hop.name) t
  | some s => do
    checkLimit limit hop
    t.change (.field hop.name) hop.name (list []) (work s)

/-- The tree with a tree stored at a path. -/
def set (limit : Option Nat) (v : Tree) : List Hop → Tree → Except TreeFault Tree
  | [], t => .ok t
  | hop :: hops, t =>
    reach limit hop (fun s t ↦
      match hops with
      | [] => .ok (t.put s v)
      | _ :: _ => t.change s hop.label (mapping []) (set limit v hops)) t

/-! ### Removing -/

/-- The tree with the node in a slot pruned, unless the slot is missing or null. A node of another
kind is a fault. -/
def prune (t : Tree) (s : Slot) (field : String) (expected : NodeKind)
    (work : Tree → Tree × Option TreeFault) : Tree × Option TreeFault :=
  match (t.slot? s).getD null with
  | leaf .null => (t, none)
  | below =>
    if below.kind = expected then (t.put s (work below).1, (work below).2)
    else (t, some (.shape field expected below .write))

theorem prune_of_null {t : Tree} {s : Slot} (h : (t.slot? s).getD null = null) (field : String)
    (expected : NodeKind) (work : Tree → Tree × Option TreeFault) :
    t.prune s field expected work = (t, none) := by
  rw [prune, h, null]

theorem prune_of_ne {t : Tree} {s : Slot} (h : (t.slot? s).getD null ≠ null) (field : String)
    (expected : NodeKind) (work : Tree → Tree × Option TreeFault) :
    t.prune s field expected work =
      if ((t.slot? s).getD null).kind = expected then
        (t.put s (work ((t.slot? s).getD null)).1, (work ((t.slot? s).getD null)).2)
      else (t, some (.shape field expected ((t.slot? s).getD null) .write)) := by
  unfold prune
  split
  · next hnull => exact absurd hnull h
  · rfl

/-- The items with all mappings among them pruned, one after the other, until a fault stops it. -/
def pruneMappings (work : Tree → Tree × Option TreeFault) : List Tree → List Tree × Option TreeFault
  | [] => ([], none)
  | mapping entries :: items =>
    match work (mapping entries) with
    | (t, some fault) => (t :: items, some fault)
    | (t, none) => (t :: (pruneMappings work items).1, (pruneMappings work items).2)
  | t :: items => (t :: (pruneMappings work items).1, (pruneMappings work items).2)

/-- The list with all mappings in it pruned. -/
def pruneItems (work : Tree → Tree × Option TreeFault) : Tree → Tree × Option TreeFault
  | list items => (list (pruneMappings work items).1, (pruneMappings work items).2)
  | t => (t, none)

/-- The tree without what is at a path, and the fault that stopped the removal. -/
def remove : List Hop → Tree → Tree × Option TreeFault
  | [], t => (t, none)
  | hop :: hops, t =>
    match hop.place, hops with
    | .key, [] => (t.erase (.field hop.name), none)
    | .key, _ :: _ => t.prune (.field hop.name) hop.name .mapping (remove hops)
    | .every, [] =>
      match (t.slot? (.field hop.name)).getD null with
      | leaf .null | list _ => (t.erase (.field hop.name), none)
      | below => (t, some (.shape hop.name .list below .write))
    | .every, _ :: _ => t.prune (.field hop.name) hop.name .list (pruneItems (remove hops))
    | .item n, [] => t.prune (.field hop.name) hop.name .list fun items ↦
        (items.erase (.index n), none)
    | .item n, _ :: _ => t.prune (.field hop.name) hop.name .list fun items ↦
        items.prune (.index n) hop.label .mapping (remove hops)

section Every

variable {hop : Hop} {t : Tree}

theorem remove_every_of_null (hplace : hop.place = .every)
    (hnull : (t.slot? (.field hop.name)).getD null = null) :
    remove [hop] t = (t.erase (.field hop.name), none) := by
  unfold remove
  rw [hplace, hnull, null]

theorem remove_every_of_list (hplace : hop.place = .every) {items : List Tree}
    (hlist : (t.slot? (.field hop.name)).getD null = list items) :
    remove [hop] t = (t.erase (.field hop.name), none) := by
  unfold remove
  simp only [hplace, hlist]

theorem remove_every_of_ne (hplace : hop.place = .every)
    (hnull : (t.slot? (.field hop.name)).getD null ≠ null)
    (hkind : ((t.slot? (.field hop.name)).getD null).kind ≠ .list) :
    remove [hop] t =
      (t, some (.shape hop.name .list ((t.slot? (.field hop.name)).getD null) .write)) := by
  unfold remove
  simp only [hplace]
  split
  · next heq => exact absurd heq hnull
  · next heq => exact absurd (by rw [heq, kind]) hkind
  · rfl

end Every

/-! ### The kind of a tree is not changed -/

section Kind

variable {t t' : Tree} {s : Slot}

@[simp] theorem kind_put (t : Tree) (s : Slot) (u : Tree) : (t.put s u).kind = t.kind := by
  cases t <;> cases s <;> rfl

@[simp] theorem kind_erase (t : Tree) (s : Slot) : (t.erase s).kind = t.kind := by
  cases t <;> cases s <;> rfl

theorem kind_map_put {x : Except TreeFault Tree} (h : x.map (t.put s) = .ok t') :
    t'.kind = t.kind := by
  cases x with
  | error fault => cases h
  | ok u => rw [← Except.ok.inj h, kind_put]

theorem kind_change {field : String} {blank : Tree} {work : Tree → Except TreeFault Tree}
    (h : t.change s field blank work = .ok t') : t'.kind = t.kind := by
  by_cases hnull : (t.slot? s).getD null = null
  · rw [change_of_null hnull] at h
    exact kind_map_put h
  · rw [change_of_ne hnull] at h
    split at h
    · exact kind_map_put h
    · cases h

theorem kind_set {limit : Option Nat} {v : Tree} {hops : List Hop}
    (h : set limit v hops t = .ok t') : t'.kind = t.kind := by
  cases hops with
  | nil => rw [← Except.ok.inj h]
  | cons hop hops =>
    rw [set, reach] at h
    split at h
    · cases hops with
      | nil => rw [← Except.ok.inj h, kind_put]
      | cons _ _ => exact kind_change h
    · cases hlimit : checkLimit limit hop with
      | error fault => simp [hlimit, bind, Except.bind] at h
      | ok _ =>
        simp only [hlimit, bind, Except.bind] at h
        exact kind_change h

theorem kind_prune (t : Tree) (s : Slot) (field : String) (expected : NodeKind)
    (work : Tree → Tree × Option TreeFault) : (t.prune s field expected work).1.kind = t.kind := by
  by_cases hnull : (t.slot? s).getD null = null
  · rw [prune_of_null hnull]
  · rw [prune_of_ne hnull]
    split
    · exact kind_put ..
    · rfl

theorem kind_remove (hops : List Hop) (t : Tree) : (remove hops t).1.kind = t.kind := by
  cases hops with
  | nil => rfl
  | cons hop hops =>
    unfold remove
    split
    · exact kind_erase ..
    · exact kind_prune ..
    · split <;> simp
    · exact kind_prune ..
    · exact kind_prune ..
    · exact kind_prune ..

end Kind

end Tree

end DottedPath
