import DottedPath.Proofs.Heap.Slot
import DottedPath.Proofs.Scan.Effect

/-!
# A write, slot by slot

A write goes from container to container. In each it looks into a slot, goes on in the container that
the slot holds, or in a new one when the slot is missing or null, and puts that container into the
slot when it comes back (`Heap.through`). A step is one such move, or two when it addresses a list,
and then the first comes with the check of the index (`Step.reach`). At the end of the path the slot
is filled with the value. `effect_set_of_last` and `effect_set_of_more` say that this is all that
`Scan.set` does.

A write that succeeds is a derivation of `Heap.Writes`, which forgets the checks (`writes_of_set`).
-/

set_option autoImplicit false
set_option relaxedAutoImplicit false

namespace DottedPath

open Scan

namespace Heap

/-- The container in a slot, which has to pass a check, or a new one when the slot is missing or
null. -/
def enter (h : Heap) (r : Ref) (s : Slot) (blank : Cell) (check : Heap → Value → Except Fault Ref) :
    Except Fault Ref × Heap :=
  match (h.slot? r s).getD .null with
  | .null => (.ok h.size, h.alloc blank)
  | v => (check h v, h)

theorem enter_of_null {h : Heap} {r : Ref} {s : Slot} (hnull : (h.slot? r s).getD .null = .null)
    (blank : Cell) (check : Heap → Value → Except Fault Ref) :
    h.enter r s blank check = (.ok h.size, h.alloc blank) := by
  rw [enter, hnull]

theorem enter_of_ne {h : Heap} {r : Ref} {s : Slot} (hne : (h.slot? r s).getD .null ≠ .null)
    (blank : Cell) (check : Heap → Value → Except Fault Ref) :
    h.enter r s blank check = (check h ((h.slot? r s).getD .null), h) := by
  unfold enter
  split
  · next hnull => exact absurd hnull hne
  · rfl

/-- Does some work in the container in a slot, and then puts the container into the slot. -/
def through (h : Heap) (r : Ref) (s : Slot) (blank : Cell) (check : Heap → Value → Except Fault Ref)
    (work : Ref → Heap → Except Fault Unit × Heap) : Except Fault Unit × Heap :=
  andThen (h.enter r s blank check) fun child h ↦
    andThen (work child h) fun _ h ↦ changed h (h.fill r s (.object child))

end Heap

namespace Step

/-- The mapping at a value on the way of a write. -/
def checkMapping (step : Step) (h : Heap) (v : Value) : Except Fault Ref :=
  h.asMapping step.label step.text .write v

/-- The list at a value on the way of a write. -/
def checkList (step : Step) (h : Heap) (v : Value) : Except Fault Ref :=
  (h.asList step.name step.text .write v).map Prod.fst

theorem eq_object_of_checkMapping {step : Step} (h : Heap) (v : Value) (c : Ref)
    (hcheck : step.checkMapping h v = .ok c) : v = .object c :=
  (Heap.of_asMapping hcheck).1

theorem eq_object_of_checkList {step : Step} (h : Heap) (v : Value) (c : Ref)
    (hcheck : step.checkList h v = .ok c) : v = .object c := by
  obtain ⟨list, hlist, rfl⟩ := exists_of_map_eq_ok hcheck
  exact (Heap.of_asList hlist).1

theorem checkMapping_eq_error_iff {step : Step} {h : Heap} {v : Value} {e : Fault} :
    step.checkMapping h v = .error e ↔
      h.kindOf v ≠ .mapping ∧ e = .shape ⟨step.label, step.text, .shape .mapping, v, .write⟩ :=
  Heap.asMapping_eq_error_iff

theorem checkList_eq_error_iff {step : Step} {h : Heap} {v : Value} {e : Fault} :
    step.checkList h v = .error e ↔
      h.kindOf v ≠ .list ∧ e = .shape ⟨step.name, step.text, .shape .list, v, .write⟩ :=
  map_eq_error_iff.trans Heap.asList_eq_error_iff

theorem exists_checkList_iff (step : Step) {h : Heap} {v : Value} :
    (∃ c, step.checkList h v = .ok c) ↔ h.kindOf v = .list := by
  cases hcheck : step.checkList h v with
  | ok c =>
    refine iff_of_true ⟨c, rfl⟩ (by_contra fun hkind ↦ ?_)
    have herror : step.checkList h v = _ := checkList_eq_error_iff.mpr ⟨hkind, rfl⟩
    rw [hcheck] at herror
    cases herror
  | error e => exact iff_of_false nofun (checkList_eq_error_iff.mp hcheck).1

/-- Does some work at the last slot of a step. -/
def reach (limit : Option Nat) (step : Step) (root : Ref)
    (work : Ref → Slot → Heap → Except Fault Unit × Heap) (h : Heap) : Except Fault Unit × Heap :=
  match step.place.slot? with
  | none => work root (.field step.name) h
  | some slot =>
    andThen (step.checkLimit limit, h) fun _ h ↦
      h.through root (.field step.name) (.list []) step.checkList fun list ↦ work list slot

end Step

namespace Scan

/-! ### The parts of a step -/

theorem effect_openList_of_key {step : Step} (hplace : step.place = .key) (limit : Option Nat)
    (root : Ref) (h : Heap) : (openList limit root step).effect h = (.ok none, h) := by
  simp [openList, hplace]

theorem effect_openList {step : Step} (hplace : step.place ≠ .key) (limit : Option Nat) (root : Ref)
    (h : Heap) :
    (openList limit root step).effect h = andThen (step.checkLimit limit, h) fun _ h ↦
      andThen (h.enter root (.field step.name) (.list []) step.checkList) fun list h ↦
        (.ok (some list), h) := by
  rw [openList, if_neg hplace, effect_bind, effect_inspect]
  · cases step.checkLimit limit with
    | error e => rfl
    | ok _ =>
      rw [andThen_ok, andThen_ok, effect_bind, effect_inspect, andThen_ok, Heap.field?_eq_slot?,
        Heap.enter]
      · cases (h.slot? root (.field step.name)).getD .null with
        | null => rfl
        | _ =>
          simp only [effect_inspect, Step.checkList]
          cases h.asList step.name step.text .write _ <;> rfl
      · exact steady_opened
  · exact fun _ ↦ (steady_inspect _).bind steady_opened
where
  steady_opened (v : Value) : Steady (match v with
      | .null => do
        note (.creatingList step.name step.text)
        some <$> alloc (.list [])
      | v => inspect fun h ↦ (h.asList step.name step.text .write v).map fun list ↦ some list.1) := by
    cases v with
    | null => exact (steady_note _).bind fun _ ↦ (steady_alloc _).bind fun _ ↦ steady_pure _
    | _ => exact steady_inspect _

theorem effect_openMapping_of_key (root : Ref) (step : Step) (h : Heap) :
    (openMapping root step none).effect h =
      h.enter root (.field step.name) (.mapping .plain .empty) step.checkMapping := by
  rw [openMapping, effect_bind, effect_inspect, andThen_ok, Heap.enter]
  · simp only [Heap.field?_eq_slot?]
    cases (h.slot? root (.field step.name)).getD .null with
    | null => rfl
    | _ => exact effect_inspect _ _
  · intro v
    cases v with
    | null => exact (steady_note _).bind fun _ ↦ steady_alloc _
    | _ => exact steady_inspect _

theorem effect_openMapping_of_list {step : Step} {slot : Slot}
    (hplace : step.place.slot? = some slot) (root list : Ref) (h : Heap) :
    (openMapping root step (some list)).effect h =
      h.enter list slot (.mapping .plain .empty) step.checkMapping := by
  rw [openMapping, effect_bind, effect_inspect, andThen_ok, Heap.enter]
  · cases hp : step.place with
    | key => simp [hp, Place.slot?] at hplace
    | every =>
      obtain rfl : Slot.next = slot := by simpa [hp, Place.slot?] using hplace
      have hnone : h.slot? list .next = none := by simp [Heap.slot?]
      rw [hnone]
      rfl
    | item n =>
      obtain rfl : Slot.index n = slot := by simpa [hp, Place.slot?] using hplace
      simp only [Heap.getElem?_items_eq_slot?]
      cases (h.slot? list (.index n)).getD .null with
      | null => rfl
      | _ => exact effect_inspect _ _
  · intro v
    cases v with
    | null => exact (steady_note _).bind fun _ ↦ steady_alloc _
    | _ => exact steady_inspect _

theorem effect_store_of_key (root : Ref) (step : Step) (v : Value) (h : Heap) :
    (store root step none v).effect h = changed h (h.fill root (.field step.name) v) :=
  effect_edit (fun h ↦ h.assign root (.text step.name) v) h

theorem effect_store_of_list {step : Step} {slot : Slot} (hplace : step.place.slot? = some slot)
    (root list : Ref) (v : Value) (h : Heap) :
    (store root step (some list) v).effect h = andThen (changed h (h.fill list slot v)) fun _ h ↦
      changed h (h.fill root (.field step.name) (.object list)) := by
  cases hp : step.place with
  | key => simp [hp, Place.slot?] at hplace
  | every =>
    obtain rfl : Slot.next = slot := by simpa [hp, Place.slot?] using hplace
    simp only [store, hp]
    rw [effect_bind fun _ ↦ steady_edit _, effect_edit]
    exact congrArg (andThen _) (funext fun _ ↦ funext fun _ ↦ effect_edit _ _)
  | item n =>
    obtain rfl : Slot.index n = slot := by simpa [hp, Place.slot?] using hplace
    have hfill : ∀ h : Heap, (do
        edit fun h ↦ h.putItem list n v
        edit fun h ↦ h.assign root (.text step.name) (.object list)).effect h =
        andThen (changed h (h.fill list (.index n) v)) fun _ h ↦
          changed h (h.fill root (.field step.name) (.object list)) := by
      intro h
      rw [effect_bind fun _ ↦ steady_edit _, effect_edit]
      exact congrArg (andThen _) (funext fun _ ↦ funext fun _ ↦ effect_edit _ _)
    have hsteady : Steady (do
        edit fun h ↦ h.putItem list n v
        edit fun h ↦ h.assign root (.text step.name) (.object list)) :=
      (steady_edit _).bind fun _ ↦ steady_edit _
    simp only [store, hp]
    rw [effect_bind, effect_inspect, andThen_ok]
    · split
      · rw [effect_bind fun _ ↦ hsteady, effect_note, andThen_ok, hfill]
      · exact hfill h
    · intro size
      split
      · exact (steady_note _).bind fun _ ↦ hsteady
      · exact hsteady

/-! ### The whole write -/

/-- What a write does at a step when the list that the step addresses, if any, is open. -/
def setFrom (limit : Option Nat) (root : Ref) (v : Value) (step : Step) (list : Option Ref) :
    Scan Unit :=
  match step.rest with
  | none => store root step list v
  | some rest => do
    let child ← openMapping root step list
    set limit child rest v
    store root step list (.object child)

theorem set_eq (limit : Option Nat) (root : Ref) (path : String) (v : Value) :
    set limit root path v =
      parse path >>= fun step ↦ openList limit root step.1 >>= setFrom limit root v step.1 := by
  rw [set]
  refine congrArg (parse path >>= ·) (funext fun ⟨step, hstep⟩ ↦ ?_)
  refine congrArg (openList limit root step >>= ·) (funext fun list ↦ ?_)
  simp only [setFrom]
  split
  · next hrest => simp only [hrest]
  · next hrest => simp only [hrest]

theorem steady_set (limit : Option Nat) (root : Ref) (path : String) (v : Value) :
    Steady (set limit root path v) := by
  rw [set_eq]
  refine (steady_parse path).bind fun ⟨step, hstep⟩ ↦
    (steady_openList limit root step).bind fun list ↦ ?_
  unfold setFrom
  split
  · exact steady_store root step list v
  · next rest hrest =>
    have := Step.length_rest_lt hstep hrest
    exact (steady_openMapping root step list).bind fun child ↦
      (steady_set limit child rest v).bind fun _ ↦ steady_store root step list _
termination_by path.length

theorem steady_setFrom (limit : Option Nat) (root : Ref) (v : Value) (step : Step)
    (list : Option Ref) : Steady (setFrom limit root v step list) := by
  unfold setFrom
  split
  · exact steady_store root step list v
  · exact (steady_openMapping root step list).bind fun child ↦
      (steady_set limit child _ v).bind fun _ ↦ steady_store root step list _

section Step

variable {path : String} {step : Step}

theorem effect_set_of_error {e : LongNumeral} (he : Step.decode path = .error e)
    (limit : Option Nat) (root : Ref) (v : Value) (h : Heap) :
    (set limit root path v).effect h = (.error (.numeral e), h) := by
  rw [set_eq]
  exact effect_parse_bind_of_error he _
    (fun _ ↦ (steady_openList _ _ _).bind fun list ↦ steady_setFrom _ _ _ _ list) h

theorem effect_set_of_ok (hstep : Step.decode path = .ok step) (limit : Option Nat) (root : Ref)
    (v : Value) (h : Heap) :
    (set limit root path v).effect h = andThen ((openList limit root step).effect h) fun list h ↦
      (setFrom limit root v step list).effect h := by
  rw [set_eq, effect_parse_bind_of_ok hstep _
    fun _ ↦ (steady_openList _ _ _).bind fun list ↦ steady_setFrom _ _ _ _ list]
  exact effect_bind (fun list ↦ steady_setFrom _ _ _ _ list) h

/-- At the last step, a write fills the last slot of the step. -/
theorem effect_set_of_last (hstep : Step.decode path = .ok step) (hrest : step.rest = none)
    (limit : Option Nat) (root : Ref) (v : Value) (h : Heap) :
    (set limit root path v).effect h =
      step.reach limit root (fun r s h ↦ changed h (h.fill r s v)) h := by
  rw [effect_set_of_ok hstep, Step.reach]
  simp only [setFrom, hrest]
  cases hplace : step.place.slot? with
  | none =>
    have hkey := Place.slot?_eq_none_iff.mp hplace
    rw [effect_openList_of_key hkey, andThen_ok]
    exact effect_store_of_key root step v h
  | some slot =>
    have hkey : step.place ≠ .key := by
      rintro hp
      simp [hp, Place.slot?] at hplace
    rw [effect_openList hkey]
    cases step.checkLimit limit with
    | error e => rfl
    | ok _ =>
      simp only [andThen_ok, Heap.through]
      rcases h.enter root (.field step.name) (.list []) step.checkList with ⟨_ | list, h'⟩
      · rfl
      · exact effect_store_of_list hplace root list v h'

/-- At a step with more steps behind it, a write goes on in the mapping in the last slot of the
step. -/
theorem effect_set_of_more {rest : String} (hstep : Step.decode path = .ok step)
    (hrest : step.rest = some rest) (limit : Option Nat) (root : Ref) (v : Value) (h : Heap) :
    (set limit root path v).effect h =
      step.reach limit root (fun r s h ↦ h.through r s (.mapping .plain .empty) step.checkMapping
        fun child ↦ (set limit child rest v).effect) h := by
  have hsteady : ∀ list child, Steady (set limit child rest v >>= fun _ ↦
      store root step list (.object child)) := fun list child ↦
    (steady_set limit child rest v).bind fun _ ↦ steady_store root step list _
  rw [effect_set_of_ok hstep, Step.reach]
  simp only [setFrom, hrest]
  cases hplace : step.place.slot? with
  | none =>
    have hkey := Place.slot?_eq_none_iff.mp hplace
    rw [effect_openList_of_key hkey, andThen_ok, effect_bind (hsteady none),
      effect_openMapping_of_key, Heap.through]
    refine congrArg (andThen _) (funext fun child ↦ funext fun h' ↦ ?_)
    rw [effect_bind fun _ ↦ steady_store root step none _]
    exact congrArg (andThen _) (funext fun _ ↦ funext fun h₃ ↦
      effect_store_of_key root step (.object child) h₃)
  | some slot =>
    have hkey : step.place ≠ .key := by
      rintro hp
      simp [hp, Place.slot?] at hplace
    rw [effect_openList hkey]
    cases step.checkLimit limit with
    | error e => rfl
    | ok _ =>
      simp only [andThen_ok, Heap.through]
      rcases h.enter root (.field step.name) (.list []) step.checkList with ⟨_ | list, h'⟩
      · rfl
      · simp only [andThen_ok]
        rw [effect_bind (hsteady (some list)), effect_openMapping_of_list hplace]
        rcases h'.enter list slot (.mapping .plain .empty) step.checkMapping with ⟨_ | child, h''⟩
        · rfl
        · simp only [andThen_ok]
          rw [effect_bind fun _ ↦ steady_store root step (some list) _]
          rcases (set limit child rest v).effect h'' with ⟨_ | _, h₃⟩
          · rfl
          · exact effect_store_of_list hplace root list (.object child) h₃

/-- Along a path of two steps, a write goes through the slots of the first one and fills the last slot
of the second one. -/
theorem effect_set_of_two {rest : String} {last : Step} (hstep : Step.decode path = .ok step)
    (hrest : step.rest = some rest) (hlast : Step.decode rest = .ok last) (hend : last.rest = none)
    (limit : Option Nat) (root : Ref) (v : Value) (h : Heap) :
    (set limit root path v).effect h =
      step.reach limit root (fun r s h ↦ h.through r s (.mapping .plain .empty) step.checkMapping
        fun child ↦ last.reach limit child fun r s h ↦ changed h (h.fill r s v)) h := by
  have hfill (child : Ref) := funext (effect_set_of_last hlast hend limit child v)
  rw [effect_set_of_more hstep hrest]
  simp only [hfill]

end Step

/-! ### Mappings that are opened or made -/

/-- What is done about the node at a path where a mapping is wanted. -/
def subMappingFrom (limit : Option Nat) (root : Ref) (path : String) : Node → Scan Ref
  | .mapping r _ _ => pure r
  | _ => do
    let r ← alloc (.mapping .plain .empty)
    set limit root path (.object r)
    return r

theorem subMapping_eq (limit : Option Nat) (root : Ref) (path : String) :
    subMapping limit root path = getAs root path (some (.shape .mapping)) >>= fun v ↦
      inspect (fun h ↦ .ok (h.node v)) >>= subMappingFrom limit root path := by
  rw [subMapping]
  refine congrArg (getAs root path _ >>= ·) (funext fun v ↦ congrArg (inspect _ >>= ·) ?_)
  funext node
  cases node <;> rfl

theorem steady_subMappingFrom (limit : Option Nat) (root : Ref) (path : String) (node : Node) :
    Steady (subMappingFrom limit root path node) := by
  cases node with
  | mapping r _ _ => exact steady_pure r
  | list _ _ | scalar =>
    exact (steady_alloc _).bind fun r ↦ (steady_set _ _ _ _).bind fun _ ↦ steady_pure r

theorem steady_subMapping (limit : Option Nat) (root : Ref) (path : String) :
    Steady (subMapping limit root path) := by
  rw [subMapping_eq]
  exact (steady_getAs _ _ _).bind fun v ↦
    (steady_inspect _).bind fun node ↦ steady_subMappingFrom limit root path node

/-- The mapping that is read at the path, or else a new one that is written there. -/
theorem effect_subMapping (limit : Option Nat) (root : Ref) (path : String) (h : Heap) :
    (subMapping limit root path).effect h =
      andThen ((getAs root path (some (.shape .mapping))).effect h) fun v h ↦
        match h.node v with
        | .mapping r _ _ => (.ok r, h)
        | _ => andThen ((set limit root path (.object h.size)).effect
            (h.alloc (.mapping .plain .empty))) fun _ h' ↦ (.ok h.size, h') := by
  have hmake : ∀ h : Heap, (do
      let r ← alloc (.mapping .plain .empty)
      set limit root path (.object r)
      return r).effect h = andThen ((set limit root path (.object h.size)).effect
        (h.alloc (.mapping .plain .empty))) fun _ h' ↦ (.ok h.size, h') := by
    intro h
    rw [effect_bind fun r ↦ (steady_set _ _ _ _).bind fun _ ↦ steady_pure r, effect_alloc, andThen_ok,
      effect_bind fun _ ↦ steady_pure _]
    rfl
  rw [subMapping_eq, effect_bind fun v ↦ (steady_inspect _).bind fun node ↦
    steady_subMappingFrom limit root path node]
  refine congrArg (andThen _) (funext fun v ↦ funext fun h ↦ ?_)
  rw [effect_bind (steady_subMappingFrom limit root path), effect_inspect, andThen_ok]
  cases h.node v with
  | mapping r _ _ => rfl
  | list _ _ | scalar => exact hmake h

end Scan

/-! ### Writes that succeed -/

namespace Heap

/-- `h.Writes r slots v h'` when a value that is put at the end of some slots, from a container on,
turns one heap into the other: every slot but the last leads to the container that it holds, or to a
new one when it is missing or null, and is filled with that container afterwards. -/
inductive Writes : Heap → Ref → List Slot → Value → Heap → Prop
  | fill {h h' : Heap} {r : Ref} {s : Slot} {v : Value} (hfill : h.fill r s v = .ok h') :
    Writes h r [s] v h'
  | enter {h h₁ h' : Heap} {r c : Ref} {s t : Slot} {slots : List Slot} {v : Value}
    (hslot : h.slot? r s = some (.object c)) (hsuits : h.SuitsAt c t)
    (hwrites : Writes h c (t :: slots) v h₁) (hfill : h₁.fill r s (.object c) = .ok h') :
    Writes h r (s :: t :: slots) v h'
  | make {h h₁ h' : Heap} {r : Ref} {s t : Slot} {slots : List Slot} {v : Value}
    (hslot : (h.slot? r s).getD .null = .null)
    (hwrites : Writes (h.alloc t.blank) h.size (t :: slots) v h₁)
    (hfill : h₁.fill r s (.object h.size) = .ok h') : Writes h r (s :: t :: slots) v h'

theorem changed_eq_ok {h h' : Heap} {change : Except Fault Heap}
    (hchanged : changed h change = (.ok (), h')) : change = .ok h' := by
  cases change with
  | error e => simp [changed] at hchanged
  | ok h₁ => simpa [changed] using hchanged

theorem andThen_eq_ok {α β : Type} {x : Except Fault α × Heap}
    {next : α → Heap → Except Fault β × Heap} {b : β} {h' : Heap}
    (hx : andThen x next = (.ok b, h')) : ∃ a h₁, x = (.ok a, h₁) ∧ next a h₁ = (.ok b, h') := by
  obtain ⟨e | a, h₁⟩ := x
  · simp at hx
  · exact ⟨a, h₁, rfl, hx⟩

theorem andThen_eq_error {α β : Type} {x : Except Fault α × Heap}
    {next : α → Heap → Except Fault β × Heap} {e : Fault} {h' : Heap}
    (hx : andThen x next = (.error e, h')) :
    x = (.error e, h') ∨ ∃ a h₁, x = (.ok a, h₁) ∧ next a h₁ = (.error e, h') := by
  obtain ⟨e' | a, h₁⟩ := x
  · obtain ⟨⟨⟩, rfl⟩ := Prod.mk.inj hx
    exact .inl rfl
  · exact .inr ⟨a, h₁, rfl, hx⟩

theorem enter_eq_ok {h h₁ : Heap} {r c : Ref} {s : Slot} {blank : Cell}
    {check : Heap → Value → Except Fault Ref} (henter : h.enter r s blank check = (.ok c, h₁)) :
    ((h.slot? r s).getD .null = .null ∧ c = h.size ∧ h₁ = h.alloc blank) ∨
      ∃ v, h.slot? r s = some v ∧ check h v = .ok c ∧ h₁ = h := by
  unfold enter at henter
  split at henter
  · next hnull =>
    simp only [Prod.mk.injEq, Except.ok.injEq] at henter
    exact .inl ⟨hnull, henter.1.symm, henter.2.symm⟩
  · next hnull =>
    simp only [Prod.mk.injEq] at henter
    exact .inr ⟨_, slot?_of_getD rfl hnull, henter.1, henter.2.symm⟩

theorem suitsAt_of_checkMapping {step : Step} {h : Heap} {v : Value} {c : Ref} {name : String}
    (hcheck : step.checkMapping h v = .ok c) : v = .object c ∧ h.SuitsAt c (.field name) := by
  obtain ⟨hv, kind, entries, hget⟩ := of_asMapping hcheck
  exact ⟨hv, _, hget, trivial⟩

theorem suitsAt_of_checkList {step : Step} {h : Heap} {v : Value} {c : Ref} {s : Slot}
    (hs : ∀ items, s.Suits (.list items)) (hcheck : step.checkList h v = .ok c) :
    v = .object c ∧ h.SuitsAt c s := by
  obtain ⟨list, hlist, rfl⟩ := exists_of_map_eq_ok hcheck
  obtain ⟨hv, hget⟩ := of_asList hlist
  exact ⟨hv, _, hget, hs _⟩

/-- A write through a slot succeeds as the write in the container behind it does. -/
theorem writes_of_through {h h' : Heap} {r : Ref} {s t : Slot} {slots : List Slot} {v : Value}
    {check : Heap → Value → Except Fault Ref} {work : Ref → Heap → Except Fault Unit × Heap}
    (hcheck : ∀ h v c, check h v = .ok c → v = .object c ∧ h.SuitsAt c t)
    (hwork : ∀ c h₁ h₂, work c h₁ = (.ok (), h₂) → h₁.Writes c (t :: slots) v h₂)
    (hthrough : h.through r s t.blank check work = (.ok (), h')) :
    h.Writes r (s :: t :: slots) v h' := by
  obtain ⟨c, h₁, henter, hrest⟩ := andThen_eq_ok hthrough
  obtain ⟨_, h₂, hdone, hchanged⟩ := andThen_eq_ok hrest
  have hwrites := hwork c h₁ h₂ hdone
  have hfill := changed_eq_ok hchanged
  obtain ⟨hnull, rfl, rfl⟩ | ⟨w, hslot, hok, rfl⟩ := enter_eq_ok henter
  · exact .make hnull hwrites hfill
  · obtain ⟨rfl, hsuits⟩ := hcheck _ _ _ hok
    exact .enter hslot hsuits hwrites hfill

theorem writes_of_reach {limit : Option Nat} {step : Step} {root : Ref} {h h' : Heap}
    {slots : List Slot} {v : Value} {work : Ref → Slot → Heap → Except Fault Unit × Heap}
    (hwork : ∀ r s h h', work r s h = (.ok (), h') → h.Writes r (s :: slots) v h')
    (hreach : step.reach limit root work h = (.ok (), h')) :
    h.Writes root (step.hop.slots ++ slots) v h' := by
  unfold Step.reach at hreach
  cases hplace : step.place.slot? with
  | none =>
    rw [hplace] at hreach
    simpa [Step.slots_of_key (Place.slot?_eq_none_iff.mp hplace)] using hwork _ _ _ _ hreach
  | some slot =>
    rw [hplace] at hreach
    obtain ⟨hblank, hlist⟩ := Place.of_slot? hplace
    obtain ⟨_, h₁, hlimit, hthrough⟩ := andThen_eq_ok hreach
    obtain rfl : h = h₁ := congrArg Prod.snd hlimit
    rw [← hblank] at hthrough
    have hwrites := writes_of_through (fun h v c hok ↦ suitsAt_of_checkList hlist hok)
      (fun c h₁ h₂ hdone ↦ hwork c slot h₁ h₂ hdone) hthrough
    simpa [Step.slots_of_slot? hplace] using hwrites

/-- A write that succeeds puts the value at the end of the slots of its path. -/
theorem writes_of_set {limit : Option Nat} {root : Ref} {path : String} {v : Value} {h h' : Heap}
    (hset : (set limit root path v).effect h = (.ok (), h')) :
    h.Writes root (Path.slots path) v h' := by
  induction path using Path.induction generalizing root h h' with
  | broken path e he => simp [effect_set_of_error he] at hset
  | last path step hstep hrest =>
    rw [effect_set_of_last hstep hrest] at hset
    rw [Path.slots_of_last hstep hrest, ← List.append_nil step.hop.slots]
    exact writes_of_reach (fun r s h h' hdone ↦ .fill (changed_eq_ok hdone)) hset
  | more path step rest hstep hrest ih =>
    rw [effect_set_of_more hstep hrest] at hset
    rw [Path.slots_of_more hstep hrest]
    obtain ⟨name, slots, hslots⟩ := Path.exists_slots_eq rest
    rw [hslots] at ih ⊢
    exact writes_of_reach (fun r s h h' hdone ↦ writes_of_through
      (fun h v c hok ↦ suitsAt_of_checkMapping hok) (fun c h₁ h₂ hset ↦ ih hset) hdone) hset

end Heap

end DottedPath
