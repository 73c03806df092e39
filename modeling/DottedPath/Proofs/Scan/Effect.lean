import DottedPath.Proofs.Path.Hops
import DottedPath.Scan.Scanner

/-!
# What a scan does to the heap

A scan also uses a parser and writes records, but neither has a say in what it does to the heap: its
outcome and the heap that it leaves are a function of the heap that it starts from (`Scan.effect`).
Work of which this is true is `Steady`, and all scans of this library are (`Follows.steady`,
`steady_set`, `steady_remove`, `steady_subMapping`).

The effect of a scan along a path is found step by step: `Follows.effect_of_ok` and its like say what
the first step does and leave the rest of the path to the same scan.
-/

set_option autoImplicit false
set_option relaxedAutoImplicit false

namespace DottedPath

/-- What comes of a move: something of its result, or of the mapping and the path it leads to. -/
def Move.elim {step : Step} {α γ : Type} (done : α → γ) (enter : Ref → String → γ) :
    Move step α → γ
  | .done a => done a
  | .enter child rest _ => enter child rest

namespace Heap

/-- A step that is a key leads to the mapping there, unless there is null. -/
theorem descend_none (h : Heap) (step : Step) (mode : AccessMode) (v : Value) :
    h.descend step mode v none =
      if v = .null then .ok none else (h.asMapping step.name step.text mode v).map some := by
  cases v <;> rfl

/-- A step with an index leads to the mapping at the index of the list there, unless there is null
or no item. -/
theorem descend_some (h : Heap) (step : Step) (mode : AccessMode) (v : Value) (n : Nat) :
    h.descend step mode v (some n) =
      if v = .null then .ok none
      else (h.asList step.name step.text mode v).bind fun list ↦
        if list.2[n]?.getD .null = .null then .ok none
        else (h.asMapping step.label step.text mode (list.2[n]?.getD .null)).map some := by
  by_cases hv : v = .null
  · rw [hv, if_pos rfl]
    rfl
  rw [if_neg hv]
  simp only [descend]
  cases h.asList step.name step.text mode v with
  | error fault => rfl
  | ok list =>
    simp only [bind, Except.bind]
    cases list.2[n]? with
    | none => rfl
    | some item => cases item <;> rfl

end Heap

namespace Scan

variable {α β : Type}

/-- The outcome of some work and the heap that it leaves, in the result of the work. -/
def outcome : EStateM.Result Fault Workplace α → Except Fault α × Heap
  | .ok a w => (.ok a, w.heap)
  | .error e w => (.error e, w.heap)

/-- The workplace after some work. -/
def after : EStateM.Result Fault Workplace α → Workplace
  | .ok _ w => w
  | .error _ w => w

/-- The result of some work, if it ends with one. -/
def gained? : EStateM.Result Fault Workplace α → Option α
  | .ok a _ => some a
  | .error _ _ => none

theorem heap_after (result : EStateM.Result Fault Workplace α) :
    (after result).heap = (outcome result).2 := by
  cases result <;> rfl

theorem outcome_of_gained? {result : EStateM.Result Fault Workplace α} {a : α}
    (ha : a ∈ gained? result) : (outcome result).1 = .ok a := by
  cases result with
  | ok b w => rw [← Option.some.inj ha, outcome]
  | error e w => cases ha

/-- What some work does to a heap: its outcome, and the heap that it leaves. -/
def effect (work : Scan α) (h : Heap) : Except Fault α × Heap :=
  outcome (work ⟨h, .new 0, #[]⟩)

/-- What the work does to the heap depends on nothing else in the workplace. -/
def Steady (work : Scan α) : Prop := ∀ w, outcome (work w) = work.effect w.heap

/-- Goes on with a heap after work that ends with a result. -/
def andThen (r : Except Fault α × Heap) (next : α → Heap → Except Fault β × Heap) :
    Except Fault β × Heap :=
  match r with
  | (.ok a, h) => next a h
  | (.error e, h) => (.error e, h)

@[simp] theorem andThen_ok (a : α) (h : Heap) (next : α → Heap → Except Fault β × Heap) :
    andThen (.ok a, h) next = next a h := rfl

@[simp] theorem andThen_error (e : Fault) (h : Heap) (next : α → Heap → Except Fault β × Heap) :
    andThen (.error e, h) next = (.error e, h) := rfl

theorem Steady.heap_after {work : Scan α} (hwork : Steady work) (w : Workplace) :
    (after (work w)).heap = (work.effect w.heap).2 := by
  rw [Scan.heap_after, hwork w]

theorem Steady.effect_of_gained? {work : Scan α} (hwork : Steady work) {w : Workplace} {a : α}
    (ha : a ∈ gained? (work w)) : (work.effect w.heap).1 = .ok a := by
  rw [← hwork w]
  exact outcome_of_gained? ha

theorem outcome_bind {work : Scan α} {next : α → Scan β} (hnext : ∀ a, Steady (next a))
    (w : Workplace) :
    outcome ((work >>= next) w) = andThen (outcome (work w)) fun a h ↦ (next a).effect h := by
  show outcome (EStateM.bind work next w) = _
  unfold EStateM.bind
  cases work w with
  | ok a w' => exact hnext a w'
  | error e w' => rfl

theorem effect_bind {work : Scan α} {next : α → Scan β} (hnext : ∀ a, Steady (next a)) (h : Heap) :
    (work >>= next).effect h = andThen (work.effect h) fun a h ↦ (next a).effect h :=
  outcome_bind hnext _

theorem Steady.bind {work : Scan α} {next : α → Scan β} (hwork : Steady work)
    (hnext : ∀ a, Steady (next a)) : Steady (work >>= next) := by
  intro w
  rw [outcome_bind hnext, hwork w, effect_bind hnext]

theorem Steady.effect_of_ok {work : Scan α} (hwork : Steady work) {w w' : Workplace} {a : α}
    (hrun : work w = .ok a w') : work.effect w.heap = (.ok a, w'.heap) := by
  rw [← hwork w, hrun]
  rfl

theorem Steady.effect_of_error {work : Scan α} (hwork : Steady work) {w w' : Workplace} {e : Fault}
    (hrun : work w = .error e w') : work.effect w.heap = (.error e, w'.heap) := by
  rw [← hwork w, hrun]
  rfl

theorem Steady.exists_of_effect {work : Scan α} (hwork : Steady work) {w : Workplace} {a : α}
    {h : Heap} (heffect : work.effect w.heap = (.ok a, h)) :
    ∃ w', work w = .ok a w' ∧ w'.heap = h := by
  rw [← hwork w] at heffect
  cases hrun : work w with
  | ok b w' =>
    simp only [hrun, outcome, Prod.mk.injEq, Except.ok.injEq] at heffect
    exact ⟨w', by rw [heffect.1], heffect.2⟩
  | error e w' => simp [hrun, outcome] at heffect

theorem Steady.exists_ok_iff {work : Scan α} (hwork : Steady work) {w : Workplace} {a : α} :
    (∃ w', work w = .ok a w') ↔ ∃ h', work.effect w.heap = (.ok a, h') := by
  constructor
  · rintro ⟨w', hrun⟩
    exact ⟨w'.heap, hwork.effect_of_ok hrun⟩
  · rintro ⟨h', heffect⟩
    obtain ⟨w', hrun, -⟩ := hwork.exists_of_effect heffect
    exact ⟨w', hrun⟩

theorem Steady.exists_of_effect_error {work : Scan α} (hwork : Steady work) {w : Workplace}
    {e : Fault} {h : Heap} (heffect : work.effect w.heap = (.error e, h)) :
    ∃ w', work w = .error e w' ∧ w'.heap = h := by
  rw [← hwork w] at heffect
  cases hrun : work w with
  | ok a w' => simp [hrun, outcome] at heffect
  | error e' w' =>
    simp only [hrun, outcome, Prod.mk.injEq, Except.error.injEq] at heffect
    exact ⟨w', by rw [heffect.1], heffect.2⟩

/-! ### The elements -/

@[simp] theorem effect_pure (a : α) (h : Heap) : (pure a : Scan α).effect h = (.ok a, h) := rfl

@[simp] theorem steady_pure (a : α) : Steady (pure a : Scan α) := fun _ ↦ rfl

@[simp] theorem effect_throw (e : Fault) (h : Heap) :
    (throw e : Scan α).effect h = (.error e, h) := rfl

@[simp] theorem steady_throw (e : Fault) : Steady (throw e : Scan α) := fun _ ↦ rfl

theorem outcome_inspect (look : Heap → Except Fault α) (w : Workplace) :
    outcome (inspect look w) = (look w.heap, w.heap) := by
  unfold inspect
  cases look w.heap <;> rfl

@[simp] theorem effect_inspect (look : Heap → Except Fault α) (h : Heap) :
    (inspect look).effect h = (look h, h) := outcome_inspect look _

@[simp] theorem steady_inspect (look : Heap → Except Fault α) : Steady (inspect look) := by
  intro w
  rw [outcome_inspect, effect_inspect]

/-- A change of a heap with its outcome: a change that fails leaves the heap alone. -/
def changed (h : Heap) : Except Fault Heap → Except Fault Unit × Heap
  | .ok h' => (.ok (), h')
  | .error e => (.error e, h)

theorem outcome_edit (change : Heap → Except Fault Heap) (w : Workplace) :
    outcome (edit change w) = changed w.heap (change w.heap) := by
  unfold edit
  cases change w.heap <;> rfl

@[simp] theorem effect_edit (change : Heap → Except Fault Heap) (h : Heap) :
    (edit change).effect h = changed h (change h) := outcome_edit change _

@[simp] theorem steady_edit (change : Heap → Except Fault Heap) : Steady (edit change) := by
  intro w
  rw [outcome_edit, effect_edit]

@[simp] theorem effect_alloc (c : Cell) (h : Heap) :
    (alloc c).effect h = (.ok h.size, h.alloc c) := rfl

@[simp] theorem steady_alloc (c : Cell) : Steady (alloc c) := fun _ ↦ rfl

@[simp] theorem effect_note (record : Record) (h : Heap) :
    (note record).effect h = (.ok (), h) := rfl

@[simp] theorem steady_note (record : Record) : Steady (note record) := fun _ ↦ rfl

theorem outcome_clone (v : Value) (w : Workplace) :
    outcome (clone v w) = match w.heap.clone? v with
      | some (copy, heap) => (.ok copy, heap)
      | none => (.error .endless, w.heap) := by
  unfold clone
  cases w.heap.clone? v <;> rfl

@[simp] theorem effect_clone (v : Value) (h : Heap) :
    (clone v).effect h = match h.clone? v with
      | some (copy, heap) => (.ok copy, heap)
      | none => (.error .endless, h) := outcome_clone v _

@[simp] theorem steady_clone (v : Value) : Steady (clone v) := by
  intro w
  rw [outcome_clone, effect_clone]

/-- Reading the first step of a path has no effect on the heap, and what is read depends on the path
alone. -/
theorem outcome_parse_bind (path : String)
    (next : { step : Step // Step.decode path = .ok step } → Scan β) (w : Workplace)
    (hnext : ∀ step, Steady (next step)) :
    (∀ e, Step.decode path = .error e →
      outcome ((parse path >>= next) w) = (.error (.numeral e), w.heap)) ∧
    (∀ step (hstep : Step.decode path = .ok step),
      outcome ((parse path >>= next) w) = (next ⟨step, hstep⟩).effect w.heap) := by
  rw [outcome_bind hnext]
  constructor
  · intro e he
    rw [parse_of_error he]
    rfl
  · intro step hstep
    rw [parse_of_ok hstep]
    rfl

theorem steady_parse (path : String) : Steady (parse path) := by
  intro w
  obtain ⟨e, he⟩ | ⟨step, hstep⟩ : (∃ e, Step.decode path = .error e) ∨
      ∃ step, Step.decode path = .ok step := by
    cases Step.decode path <;> simp
  · simp only [effect, parse_of_error he, outcome, afterParse]
  · simp only [effect, parse_of_ok hstep, outcome, afterParse]

theorem effect_parse_bind_of_error {path : String} {e : LongNumeral}
    (he : Step.decode path = .error e)
    (next : { step : Step // Step.decode path = .ok step } → Scan β)
    (hnext : ∀ step, Steady (next step)) (h : Heap) :
    (parse path >>= next).effect h = (.error (.numeral e), h) :=
  (outcome_parse_bind path next _ hnext).1 e he

theorem effect_parse_bind_of_ok {path : String} {step : Step} (hstep : Step.decode path = .ok step)
    (next : { step : Step // Step.decode path = .ok step } → Scan β)
    (hnext : ∀ step, Steady (next step)) (h : Heap) :
    (parse path >>= next).effect h = (next ⟨step, hstep⟩).effect h :=
  (outcome_parse_bind path next _ hnext).2 step hstep

/-! ### Walks that look for a result -/

section Follows

variable {look : Heap → Ref → (step : Step) → Except Fault (Move step α)}
variable {scan : Ref → String → Scan α}

/-- A scan goes from one mapping to the next as `look` says of each step. -/
def Follows (look : Heap → Ref → (step : Step) → Except Fault (Move step α))
    (scan : Ref → String → Scan α) : Prop :=
  ∀ root path, scan root path =
    parse path >>= fun step ↦ inspect (fun h ↦ look h root step.1) >>= Move.elim pure scan

theorem follows_get : Follows Heap.readMove get := by
  intro root path
  rw [get]
  refine congrArg (parse path >>= ·) (funext fun step ↦ congrArg (inspect _ >>= ·) ?_)
  funext move
  cases move <;> rfl

theorem follows_has : Follows Heap.hasMove has := by
  intro root path
  rw [has]
  refine congrArg (parse path >>= ·) (funext fun step ↦ congrArg (inspect _ >>= ·) ?_)
  funext move
  cases move <;> rfl

theorem Follows.steady (hscan : Follows look scan) (root : Ref) (path : String) :
    Steady (scan root path) := by
  rw [hscan]
  refine (steady_parse path).bind fun ⟨step, hstep⟩ ↦ (steady_inspect _).bind fun move ↦ ?_
  cases move with
  | done a => exact steady_pure a
  | enter child rest hrest =>
    have := Step.length_rest_lt hstep hrest
    exact hscan.steady child rest
termination_by path.length

theorem Follows.steady_elim (hscan : Follows look scan) {step : Step} (move : Move step α) :
    Steady (Move.elim pure scan move) := by
  cases move with
  | done a => exact steady_pure a
  | enter child rest hrest => exact hscan.steady child rest

theorem Follows.effect_of_error (hscan : Follows look scan) {path : String} {e : LongNumeral}
    (he : Step.decode path = .error e) (root : Ref) (h : Heap) :
    (scan root path).effect h = (.error (.numeral e), h) := by
  rw [hscan]
  exact effect_parse_bind_of_error he _
    (fun _ ↦ (steady_inspect _).bind fun move ↦ hscan.steady_elim move) h

/-- What a walk does at its first step. -/
theorem Follows.effect_of_ok (hscan : Follows look scan) {path : String} {step : Step}
    (hstep : Step.decode path = .ok step) (root : Ref) (h : Heap) :
    (scan root path).effect h = andThen (look h root step, h) fun move h ↦
      move.elim (fun a ↦ (.ok a, h)) fun child rest ↦ (scan child rest).effect h := by
  rw [hscan, effect_parse_bind_of_ok hstep _
    fun _ ↦ (steady_inspect _).bind fun move ↦ hscan.steady_elim move]
  rw [effect_bind fun move ↦ hscan.steady_elim move, effect_inspect]
  cases look h root step with
  | error e => rfl
  | ok move => cases move <;> rfl

/-- A walk that looks for a result leaves the heap as it is. -/
theorem Follows.effect_snd (hscan : Follows look scan) (root : Ref) (path : String) (h : Heap) :
    ((scan root path).effect h).2 = h := by
  induction path using Path.induction generalizing root with
  | broken path e he => rw [hscan.effect_of_error he]
  | last path step hstep hlast =>
    rw [hscan.effect_of_ok hstep]
    cases look h root step with
    | error e => rfl
    | ok move =>
      cases move with
      | done a => rfl
      | enter child rest hrest => simp [hlast] at hrest
  | more path step rest hstep hrest ih =>
    rw [hscan.effect_of_ok hstep]
    cases look h root step with
    | error e => rfl
    | ok move =>
      cases move with
      | done a => rfl
      | enter child rest' hrest' =>
        obtain rfl : rest' = rest := by simpa [hrest] using hrest'.symm
        exact ih child

end Follows

/-- A typed read is a read, after which the value is looked at. -/
theorem effect_getAs (root : Ref) (path : String) (expected : Expected) (h : Heap) :
    (getAs root path (some expected)).effect h = andThen ((get root path).effect h) fun v h ↦
      (if v = .null ∨ h.fits v expected then .ok v
        else .error (.shape ⟨Text.trimmed path, Text.trimmed path, expected, v, .read⟩), h) := by
  rw [getAs, effect_bind fun v ↦ steady_inspect _]
  simp only [effect_inspect]

/-- A typed read leaves the heap as it is. -/
theorem effect_getAs_snd (root : Ref) (path : String) (expected : Expected) (h : Heap) :
    ((getAs root path (some expected)).effect h).2 = h := by
  rw [effect_getAs]
  have hheap := follows_get.effect_snd root path h
  generalize (get root path).effect h = x at hheap ⊢
  obtain ⟨fault | w, h₁⟩ := x <;> exact hheap

theorem steady_getAs (root : Ref) (path : String) (expected : Option Expected) :
    Steady (getAs root path expected) := by
  cases expected with
  | none => exact steady_throw _
  | some expected => exact (follows_get.steady root path).bind fun v ↦ steady_inspect _

/-! ### Removing -/

/-- Does something at each of some mappings, one after the other, until a fault stops it. -/
def sweep (work : Ref → Heap → Except Fault Unit × Heap) : List Ref → Heap → Except Fault Unit × Heap
  | [], h => (.ok (), h)
  | r :: rs, h => andThen (work r h) fun _ h ↦ sweep work rs h

theorem steady_forM {work : Ref → Scan Unit} (hwork : ∀ r, Steady (work r)) (rs : List Ref) :
    Steady (rs.forM work) := by
  induction rs with
  | nil => exact steady_pure _
  | cons r rs ih => exact (hwork r).bind fun _ ↦ ih

theorem effect_forM {work : Ref → Scan Unit} (hwork : ∀ r, Steady (work r)) (rs : List Ref)
    (h : Heap) : (rs.forM work).effect h = sweep (fun r ↦ (work r).effect) rs h := by
  induction rs generalizing h with
  | nil => rfl
  | cons r rs ih =>
    show (work r >>= fun _ ↦ rs.forM work).effect h = _
    rw [effect_bind fun _ ↦ steady_forM hwork rs]
    exact congrArg (andThen _) (funext fun _ ↦ funext fun h' ↦ ih h')

/-- What a step of a removal comes to. -/
def removeFrom {step : Step} : Removal step → Scan Unit
  | .done heap => edit fun _ ↦ .ok heap
  | .enter children rest _ => children.forM fun child ↦ remove child rest

theorem remove_eq (root : Ref) (path : String) :
    remove root path =
      parse path >>= fun step ↦ inspect (fun h ↦ h.removeMove root step.1) >>= removeFrom := by
  rw [remove]
  refine congrArg (parse path >>= ·) (funext fun step ↦ congrArg (inspect _ >>= ·) ?_)
  funext removal
  cases removal <;> rfl

theorem steady_remove (root : Ref) (path : String) : Steady (remove root path) := by
  rw [remove_eq]
  refine (steady_parse path).bind fun ⟨step, hstep⟩ ↦ (steady_inspect _).bind fun removal ↦ ?_
  cases removal with
  | done heap => exact steady_edit fun _ ↦ .ok heap
  | enter children rest hrest =>
    have := Step.length_rest_lt hstep hrest
    exact steady_forM (fun child ↦ steady_remove child rest) children
termination_by path.length

theorem steady_removeFrom {step : Step} (removal : Removal step) : Steady (removeFrom removal) := by
  cases removal with
  | done heap => exact steady_edit fun _ ↦ .ok heap
  | enter children rest hrest => exact steady_forM (fun child ↦ steady_remove child rest) children

section Step

variable {path : String} {step : Step}

theorem effect_remove_of_error {e : LongNumeral} (he : Step.decode path = .error e) (root : Ref)
    (h : Heap) : (remove root path).effect h = (.error (.numeral e), h) := by
  rw [remove_eq]
  exact effect_parse_bind_of_error he _
    (fun _ ↦ (steady_inspect _).bind fun removal ↦ steady_removeFrom removal) h

/-- What a removal does at its first step. -/
theorem effect_remove_of_ok (hstep : Step.decode path = .ok step) (root : Ref) (h : Heap) :
    (remove root path).effect h = andThen (h.removeMove root step, h) fun removal h ↦
      match removal with
      | .done heap => (.ok (), heap)
      | .enter children rest _ => sweep (fun child ↦ (remove child rest).effect) children h := by
  rw [remove_eq, effect_parse_bind_of_ok hstep _
    fun _ ↦ (steady_inspect _).bind fun removal ↦ steady_removeFrom removal]
  rw [effect_bind fun removal ↦ steady_removeFrom removal, effect_inspect]
  cases h.removeMove root step with
  | error e => rfl
  | ok removal =>
    cases removal with
    | done heap => simp [removeFrom, changed]
    | enter children rest hrest => exact effect_forM (fun child ↦ steady_remove child rest) children h

end Step

/-! ### Writing -/

theorem steady_openList (limit : Option Nat) (root : Ref) (step : Step) :
    Steady (openList limit root step) := by
  unfold openList
  split
  · exact steady_pure _
  · refine (steady_inspect _).bind fun _ ↦ (steady_inspect _).bind fun v ↦ ?_
    cases v with
    | null => exact (steady_note _).bind fun _ ↦ (steady_alloc _).bind fun _ ↦ steady_pure _
    | _ => exact steady_inspect _

theorem steady_openMapping (root : Ref) (step : Step) (list : Option Ref) :
    Steady (openMapping root step list) := by
  refine (steady_inspect _).bind fun v ↦ ?_
  cases v with
  | null => exact (steady_note _).bind fun _ ↦ steady_alloc _
  | _ => exact steady_inspect _

theorem steady_store (root : Ref) (step : Step) (list : Option Ref) (v : Value) :
    Steady (store root step list v) := by
  cases list with
  | none => exact steady_edit fun h ↦ h.assign root (.text step.name) v
  | some list =>
    cases hplace : step.place with
    | item n =>
      simp only [store, hplace]
      refine (steady_inspect _).bind fun size ↦ ?_
      split
      · exact (steady_note _).bind fun _ ↦ (steady_edit _).bind fun _ ↦ steady_edit _
      · exact (steady_edit _).bind fun _ ↦ steady_edit _
    | key | every =>
      simp only [store, hplace]
      exact (steady_edit _).bind fun _ ↦ steady_edit _

end Scan

end DottedPath
