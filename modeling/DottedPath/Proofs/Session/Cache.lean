import Mathlib.Data.List.Forall2
import DottedPath.Proofs.Scan.Blind
import DottedPath.Session.Run

/-!
# The memory of a parser does not show

Two sessions are alike when they have the same heap, the same scanners and the same kept values, and
their families have the same limits: the sizes of the memories, and what is in them, may differ
(`Session.Alike`). Requests are alike when they differ at most in the sizes they ask for
(`Request.Alike`). A request keeps sessions alike and gets replies that are alike (`alike_perform`);
the induction over some requests is `cache_invisible`.
-/

set_option autoImplicit false
set_option relaxedAutoImplicit false

namespace DottedPath

/-! ### What may differ -/

/-- The same limit, and two sizes of a memory that a scanner can have. -/
structure Settings.Alike (settings settings' : Settings) : Prop where
  limit : settings.maxIndex = settings'.maxIndex
  size : ∀ n ∈ settings.cacheSize, 0 ≤ n
  size' : ∀ n ∈ settings'.cacheSize, 0 ≤ n

/-- The same request, but for the size of a memory that it asks for. -/
inductive Request.Alike : Request → Request → Prop
  | same (request : Request) : Request.Alike request request
  | create {settings settings' : Settings} (ownership : Ownership) (name : String) (data : Literal)
    (hsettings : settings.Alike settings') :
    Request.Alike (.create ownership name data settings) (.create ownership name data settings')
  | withValue {settings settings' : Settings} (tree : Literal) (path : String) (value : Literal)
    (keep : Option String) (hsettings : settings.Alike settings') :
    Request.Alike (.access tree (.withValue path value settings keep))
      (.access tree (.withValue path value settings' keep))

/-- The same answer, but for what a scanner tells about its memory. -/
inductive Answer.Alike : Answer → Answer → Prop
  | same (answer : Answer) : Answer.Alike answer answer
  | info {i i' : Info} (hownership : i.ownership = i'.ownership)
    (hlimit : i.config.maxIndex = i'.config.maxIndex) : Answer.Alike (.info i) (.info i')

/-- Results that are related, or the same fault. -/
inductive SameOutcome {ε α β : Type} (R : α → β → Prop) : Except ε α → Except ε β → Prop
  | ok {a : α} {b : β} (hresult : R a b) : SameOutcome R (.ok a) (.ok b)
  | error (e : ε) : SameOutcome R (.error e) (.error e)

/-- The same reply, but for the records of the parsers and for what a scanner tells about its
memory. -/
structure Reply.Alike (r r' : Reply) : Prop where
  outcome : SameOutcome Answer.Alike r.outcome r'.outcome
  tree : r.tree = r'.tree
  state : r.state = r'.state
  records : Record.ofScanner r.records = Record.ofScanner r'.records

namespace Session

/-- The limits of the families. -/
def limits (s : Session) : Array (Option Nat) := s.families.map fun family ↦ family.config.maxIndex

/-- The same session, but for the memories and the records of the parsers. -/
structure Alike (s s' : Session) : Prop where
  store : s.store = s'.store
  scanners : s.scanners = s'.scanners
  kept : s.kept = s'.kept
  limits : s.limits = s'.limits
  records : Record.ofScanner s.records.toList = Record.ofScanner s'.records.toList

/-- The heaps after each of some requests. -/
def heaps (s : Session) : List Request → List Heap
  | [] => []
  | request :: requests => (s.perform request).2.heap :: heaps (s.perform request).2 requests

variable {s s' : Session}

theorem Alike.refl (s : Session) : s.Alike s := ⟨rfl, rfl, rfl, rfl, rfl⟩

theorem Alike.heap (hs : s.Alike s') : s.heap = s'.heap := congrArg Store.heap hs.store

theorem Alike.size_families (hs : s.Alike s') : s.families.size = s'.families.size := by
  have hsize := congrArg Array.size hs.limits
  simpa [Session.limits] using hsize

/-- Families of the same number have the same limit. -/
theorem Alike.limit (hs : s.Alike s') (family : Nat) :
    (s.families[family]?.getD default).config.maxIndex =
      (s'.families[family]?.getD default).config.maxIndex := by
  have hlimit : ∀ s : Session, (s.families[family]?.getD default).config.maxIndex =
      s.limits[family]?.getD none := by
    intro s
    rw [Session.limits, Array.getElem?_map]
    cases s.families[family]? <;> rfl
  rw [hlimit, hlimit, hs.limits]

theorem limits_withParser (s : Session) (family : Nat) (parser : Parser) :
    (s.withParser family parser).limits = s.limits := by
  apply Array.ext_getElem?
  intro i
  simp only [limits, withParser, Array.getElem?_map, Array.getElem?_modify]
  split
  · cases s.families[i]? <;> rfl
  · rfl

theorem Alike.withParser (hs : s.Alike s') (family : Nat) (parser parser' : Parser) :
    (s.withParser family parser).Alike (s'.withParser family parser') where
  store := hs.store
  scanners := hs.scanners
  kept := hs.kept
  limits := by rw [limits_withParser, limits_withParser, hs.limits]
  records := hs.records

/-- A request starts without records. -/
theorem Alike.fresh (hs : s.Alike s') :
    Session.Alike { s with records := #[] } { s' with records := #[] } :=
  ⟨hs.store, hs.scanners, hs.kept, hs.limits, rfl⟩

theorem Alike.workplace (hs : s.Alike s') (parser parser' : Parser) :
    Workplace.Alike ⟨s.heap, parser, s.records⟩ ⟨s'.heap, parser', s'.records⟩ :=
  ⟨hs.heap, hs.records⟩

theorem Alike.after (hs : s.Alike s') {w w' : Workplace} (hw : w.Alike w') :
    (s.after w).Alike (s'.after w') where
  store := by simp only [Session.after, hs.store, hw.heap]
  scanners := hs.scanners
  kept := hs.kept
  limits := hs.limits
  records := hw.records

end Session

/-! ### Turns -/

namespace Turn

variable {α β : Type}

/-- In sessions that are alike the turn ends alike, with the same result. -/
def Blind (turn : Turn α) : Prop := InStep Session.Alike Eq turn turn

theorem Blind.bind {turn : Turn α} {next : α → Turn β} (hturn : Blind turn)
    (hnext : ∀ a, Blind (next a)) : Blind (turn >>= next) := by
  apply InStep.bind hturn
  rintro a _ rfl
  exact hnext a

theorem blind_pure (a : α) : Blind (pure a : Turn α) := inStep_pure rfl

theorem blind_throw (e : Fault) : Blind (throw e : Turn α) := inStep_throw e

theorem inStep_answers {turn turn' : Turn Answer} (hturn : InStep Session.Alike Eq turn turn') :
    InStep Session.Alike Answer.Alike turn turn' := by
  apply hturn.imp
  rintro answer _ rfl
  exact .same answer

theorem inStep_get : InStep Session.Alike Session.Alike (get : Turn Session) get :=
  fun _ _ hs ↦ .ok hs hs

theorem inStep_modify {f f' : Session → Session} (hf : ∀ s s', s.Alike s' → (f s).Alike (f' s')) :
    InStep Session.Alike Eq (modify f : Turn Unit) (modify f') :=
  fun s s' hs ↦ .ok rfl (hf s s' hs)

theorem inStep_scanAlone {work work' : Scan α} (hwork : InStep Workplace.Alike Eq work work') :
    InStep Session.Alike Eq (scanAlone work) (scanAlone work') := by
  intro s s' hs
  have hends := hwork _ _ (hs.workplace (.new 0 s.make) (.new 0 s'.make))
  unfold scanAlone
  generalize work ⟨s.heap, .new 0 s.make, s.records⟩ = x at hends
  generalize work' ⟨s'.heap, .new 0 s'.make, s'.records⟩ = y at hends
  cases hends with
  | ok hresult hstate => exact .ok hresult (hs.after hstate)
  | error hstate => exact .error (hs.after hstate)

/-- Work that depends on no more of the settings than the limit. -/
theorem blind_scan {family : Nat} {work : Config → Scan α}
    (hwork : ∀ config config', config.maxIndex = config'.maxIndex →
      InStep Workplace.Alike Eq (work config) (work config')) : Blind (scan family work) := by
  intro s s' hs
  have hends := hwork _ _ (hs.limit family) _ _ (hs.workplace
    (s.families[family]?.getD default).parser (s'.families[family]?.getD default).parser)
  unfold scan
  simp only
  generalize work _ ⟨s.heap, _, s.records⟩ = x at hends
  generalize work _ ⟨s'.heap, _, s'.records⟩ = y at hends
  cases hends with
  | ok hresult hstate => exact .ok hresult ((hs.after hstate).withParser family _ _)
  | error hstate => exact .error ((hs.after hstate).withParser family _ _)

theorem blind_inspect (look : Heap → Except Fault α) : Blind (inspect look) :=
  inStep_scanAlone (Scan.blind_inspect look)

theorem blind_edit (change : Heap → Except Fault Heap) : Blind (edit change) :=
  inStep_scanAlone (Scan.blind_edit change)

theorem blind_place (literal : Literal) : Blind (place literal) := by
  intro s s' hs
  unfold place
  rw [← hs.kept, ← hs.store]
  rcases literal.place s.kept.find? s.store with fault | ⟨v, store⟩
  · cases fault with
    | unknownName name | notKey type => exact .error hs
  · exact .ok rfl ⟨rfl, hs.scanners, rfl, hs.limits, hs.records⟩

theorem blind_placeKey (literal : Literal) : Blind (placeKey literal) :=
  (blind_place literal).bind fun _ ↦ blind_inspect _

theorem blind_mapM_placeKey (literals : List Literal) : Blind (literals.mapM placeKey) := by
  induction literals with
  | nil => exact blind_pure []
  | cons literal literals ih =>
    rw [List.mapM_cons]
    exact (blind_placeKey literal).bind fun key ↦ ih.bind fun keys ↦ blind_pure _

theorem blind_kept (name : String) : Blind (kept name) := by
  intro s s' hs
  unfold kept
  rw [← hs.kept]
  cases s.kept.find? name with
  | some v => exact .ok rfl hs
  | none => exact .error hs

theorem blind_member (name : String) : Blind (member name) := by
  intro s s' hs
  unfold member
  rw [← hs.scanners]
  cases s.scanners.find? name with
  | some member => exact .ok rfl hs
  | none => exact .error hs

theorem blind_keepAs (name : String) (v : Value) : Blind (keepAs name v) :=
  inStep_modify fun s s' hs ↦
    ⟨hs.store, hs.scanners, by simp only [hs.kept], hs.limits, hs.records⟩

theorem blind_nameScanner (name : String) (member : Member) : Blind (nameScanner name member) :=
  inStep_modify fun s s' hs ↦
    ⟨hs.store, by simp only [hs.scanners], hs.kept, hs.limits, hs.records⟩

theorem blind_config (settings : Settings) : Blind (config settings) := by
  unfold config
  cases Config.ofSettings settings with
  | ok config => exact blind_pure config
  | error fault => exact blind_throw _

/-- Settings that are alike are accepted or refused alike. -/
theorem inStep_config {settings settings' : Settings} (hsettings : settings.Alike settings') :
    InStep Session.Alike (fun c c' ↦ c.maxIndex = c'.maxIndex) (config settings)
      (config settings') := by
  have hsize : ∀ settings : Settings, (∀ n ∈ settings.cacheSize, 0 ≤ n) →
      ¬settings.cacheSize.getD (({} : Config).cacheSize : Int) < 0 := by
    intro settings hfits
    cases hsize : settings.cacheSize with
    | none => exact (by decide)
    | some n => exact Int.not_lt.mpr (hfits n hsize)
  unfold config Config.ofSettings
  simp only [hsize settings hsettings.size, hsize settings' hsettings.size', if_false,
    ← hsettings.limit]
  cases settings.maxIndex with
  | none => exact inStep_pure rfl
  | some n =>
    by_cases hneg : n < 0
    · simp only [hneg, if_true]
      exact inStep_throw _
    · simp only [hneg, if_false]
      exact inStep_pure rfl

theorem blind_describe (v : Value) : Blind (describe v) := blind_inspect _

theorem blind_answer (keep : Option String) (v : Value) : Blind (answer keep v) := by
  have htell : Blind (do return Answer.value (← describe v)) :=
    (blind_describe v).bind fun literal ↦ blind_pure _
  cases keep with
  | none => exact htell
  | some name => exact (blind_keepAs name v).bind fun _ ↦ htell

/-! ### Requests -/

theorem blind_faultOf (form : FaultForm) : Blind (faultOf form) := by
  cases form with
  | shape field path expected actual mode => exact (blind_place actual).bind fun v ↦ blind_pure _
  | path _ _ _ | argument _ | general _ => exact blind_pure _

theorem blind_question (asked : Question) : Blind (question asked) := by
  cases asked with
  | catalogue => exact blind_pure _
  | decode path =>
    simp only [question]
    cases Step.decode path with
    | ok step => exact blind_pure _
    | error numeral => exact blind_throw _
  | kind literal => exact (blind_place literal).bind fun v ↦ blind_inspect _
  | clone literal keep =>
    exact (blind_place literal).bind fun v ↦
      Blind.bind (inStep_scanAlone (Scan.blind_clone v)) fun copy ↦ blind_answer keep copy
  | config settings => exact (blind_config settings).bind fun config ↦ blind_pure _
  | fault form => exact (blind_faultOf form).bind fun fault ↦ blind_inspect _

theorem blind_access (tree : Value) (asked : Access) : Blind (access tree asked) := by
  have halone {α : Type} {work : Scan α} (hwork : work.Blind) : Blind (scanAlone work) :=
    inStep_scanAlone hwork
  cases asked with
  | getValue path expected keep =>
    exact (halone (OneShot.blind_getValue tree path expected)).bind fun v ↦ blind_answer keep v
  | hasValue path => exact (halone (OneShot.blind_hasValue tree path)).bind fun b ↦ blind_pure _
  | withValue path literal settings keep =>
    exact (blind_place literal).bind fun v ↦ (blind_config settings).bind fun config ↦
      (halone (OneShot.inStep_withValue rfl tree path v)).bind fun copy ↦ blind_answer keep copy
  | withoutValue path keep =>
    exact (halone (OneShot.blind_withoutValue tree path)).bind fun copy ↦ blind_answer keep copy
  | assertValue path literal =>
    exact (blind_place literal).bind fun expected ↦
      (halone (Scan.blind_assertValue tree path expected)).bind fun _ ↦ blind_pure _

theorem inStep_withValue {settings settings' : Settings} (hsettings : settings.Alike settings')
    (tree : Value) (path : String) (value : Literal) (keep : Option String) :
    InStep Session.Alike Eq (access tree (.withValue path value settings keep))
      (access tree (.withValue path value settings' keep)) := by
  refine InStep.bind (blind_place value) fun v _ hv ↦ ?_
  subst hv
  refine InStep.bind (inStep_config hsettings) fun config config' hlimit ↦ ?_
  refine InStep.bind (inStep_scanAlone (OneShot.inStep_withValue hlimit tree path v)) ?_
  rintro copy _ rfl
  exact blind_answer keep copy

theorem inStep_create {settings settings' : Settings}
    (hconfig : InStep Session.Alike (fun c c' ↦ c.maxIndex = c'.maxIndex) (config settings)
      (config settings')) (ownership : Ownership) (name : String) (data : Literal) :
    InStep Session.Alike Eq (create ownership name data settings)
      (create ownership name data settings') := by
  refine InStep.bind (blind_place data) fun v _ hv ↦ ?_
  subst hv
  refine InStep.bind hconfig fun config config' hlimit ↦ ?_
  refine InStep.bind (inStep_scanAlone ?hmake) fun scanner _ hscanner ↦ ?_
  case hmake =>
    cases ownership with
    | owned => exact Scan.blind_own v
    | borrowed => exact Scan.blind_borrow v
  subst hscanner
  refine InStep.bind inStep_get fun s s' hs ↦ ?_
  rw [hs.size_families]
  refine InStep.bind (inStep_modify fun s s' hs ↦ ?_) fun _ _ _ ↦
    (blind_nameScanner name _).bind fun _ ↦ (blind_describe _).bind fun literal ↦ blind_pure _
  refine ⟨hs.store, hs.scanners, hs.kept, ?_, hs.records⟩
  simp only [Session.limits, Array.map_push, hlimit]
  rw [show s.families.map _ = s'.families.map _ from hs.limits]

theorem inStep_info (member : Member) :
    InStep Session.Alike Answer.Alike (info member) (info member) :=
  InStep.bind inStep_get fun _ _ hs ↦ inStep_pure (.info rfl (hs.limit member.family))

/-- Every action is in step with itself; what a scanner tells about itself may differ in its
memory. -/
theorem inStep_act (member : Member) (action : Action) :
    InStep Session.Alike Answer.Alike (act member action) (act member action) := by
  have hscan {α : Type} {work : Scan α} (hwork : work.Blind) :
      Blind (scan member.family fun _ ↦ work) := blind_scan fun _ _ _ ↦ hwork
  have hhas (path : String) :
      Blind (do return Answer.flag (← scan member.family fun _ ↦
        Scan.has member.scanner.root path)) :=
    (hscan (Scan.follows_has.blind _ path)).bind fun b ↦ blind_pure _
  cases action with
  | sub path name quiet =>
    refine inStep_answers (Blind.bind (blind_scan fun _ _ hlimit ↦ ?_) fun root ↦
      (blind_nameScanner name _).bind fun _ ↦ ?_)
    · rw [hlimit]
      exact Scan.blind_subMapping _ _ path
    · cases quiet with
      | true => exact blind_pure _
      | false => exact (blind_describe _).bind fun literal ↦ blind_pure _
  | get path keep =>
    exact inStep_answers ((hscan (Scan.follows_get.blind _ path)).bind fun v ↦ blind_answer keep v)
  | getAs path expected keep =>
    exact inStep_answers ((hscan (Scan.blind_getAs _ path expected)).bind fun v ↦
      blind_answer keep v)
  | set path literal quiet =>
    refine inStep_answers ((blind_place literal).bind fun v ↦
      Blind.bind (blind_scan fun _ _ hlimit ↦ ?_) fun _ ↦ blind_pure _)
    rw [hlimit]
    exact Scan.blind_set _ _ path v
  | remove path quiet =>
    exact inStep_answers ((hscan (Scan.blind_remove _ path)).bind fun _ ↦ blind_pure _)
  | has path => exact inStep_answers (hhas path)
  | contains literal =>
    refine inStep_answers ((blind_place literal).bind fun v ↦ ?_)
    cases v with
    | text path => exact hhas path
    | _ => exact blind_pure _
  | toTree keep =>
    exact inStep_answers (Blind.bind (inStep_scanAlone (Scan.blind_toTree _)) fun v ↦
      blind_answer keep v)
  | render =>
    exact inStep_answers (Blind.bind (inStep_scanAlone (Scan.blind_render _)) fun text ↦
      blind_pure _)
  | info => exact inStep_info member
  | clearCache =>
    exact inStep_answers (Blind.bind (inStep_modify fun s s' hs ↦ hs.withParser member.family _ _)
      fun _ ↦ blind_pure _)

theorem blind_editKept (edit : Edit) : Blind (editKept edit) := by
  cases edit with
  | keep name literal => exact (blind_place literal).bind fun v ↦ blind_answer _ v
  | tell name => exact (blind_kept name).bind fun v ↦ blind_answer none v
  | same first second =>
    exact (blind_kept first).bind fun v ↦ (blind_kept second).bind fun w ↦ blind_inspect _
  | lookUp name keys keep =>
    exact (blind_kept name).bind fun v ↦ (blind_mapM_placeKey keys).bind fun keys ↦
      (blind_inspect _).bind fun found ↦ blind_answer keep found
  | put name key literal =>
    exact (blind_kept name).bind fun v ↦ (blind_placeKey key).bind fun key ↦
      (blind_place literal).bind fun new ↦ (blind_edit _).bind fun _ ↦ blind_answer none v
  | push name literal =>
    exact (blind_kept name).bind fun v ↦ (blind_place literal).bind fun new ↦
      (blind_edit _).bind fun _ ↦ blind_answer none v
  | delete name key =>
    exact (blind_kept name).bind fun v ↦ (blind_placeKey key).bind fun key ↦
      (blind_edit _).bind fun _ ↦ blind_answer none v
  | poke name =>
    refine InStep.bind inStep_get fun s s' hs ↦ ?_
    rw [hs.store]
    cases s'.store.handles.find? name with
    | some r => exact (blind_edit _).bind fun _ ↦ blind_answer none _
    | none => exact blind_throw _

end Turn

/-! ### Sessions -/

namespace Session

variable {s s' : Session} {α β : Type}

theorem alike_take {R : α → β → Prop} {turn : Turn α} {turn' : Turn β}
    (hturn : InStep Session.Alike R turn turn') (hs : s.Alike s') :
    SameOutcome R (s.take turn).1 (s'.take turn').1 ∧ (s.take turn).2.Alike (s'.take turn').2 := by
  have hends := hturn s s' hs
  unfold take
  generalize turn s = x at hends
  generalize turn' s' = y at hends
  cases hends with
  | ok hresult hstate => exact ⟨.ok hresult, hstate⟩
  | error hstate => exact ⟨.error _, hstate⟩

theorem alike_reply (hs : s.Alike s') {outcome outcome' : Except Fault Answer}
    (houtcome : SameOutcome Answer.Alike outcome outcome') (tree state : Option Value) :
    (s.reply outcome tree state).Alike (s'.reply outcome' tree state) where
  outcome := by
    simp only [reply, hs.heap]
    cases houtcome with
    | ok hanswer => exact .ok hanswer
    | error fault => exact .error _
  tree := by simp only [reply, hs.heap]
  state := by simp only [reply, hs.heap]
  records := hs.records

/-- Sessions that are alike answer a turn alike. -/
theorem alike_finish {turn turn' : Turn Answer}
    (hturn : InStep Session.Alike Answer.Alike turn turn') (hs : s.Alike s')
    (tree : Option Value) :
    ((s.take turn).2.reply (s.take turn).1 tree none).Alike
      ((s'.take turn').2.reply (s'.take turn').1 tree none) ∧
    (s.take turn).2.Alike (s'.take turn').2 := by
  obtain ⟨houtcome, hstate⟩ := alike_take hturn hs
  exact ⟨alike_reply hstate houtcome tree none, hstate⟩

/-- A single access, after its tree has been built. -/
theorem alike_access {asked asked' : Access}
    (hasked : ∀ tree, InStep Session.Alike Eq (Turn.access tree asked) (Turn.access tree asked'))
    (tree : Literal) (hs : s.Alike s') :
    (s.perform (.access tree asked)).1.Alike (s'.perform (.access tree asked')).1 ∧
      (s.perform (.access tree asked)).2.Alike (s'.perform (.access tree asked')).2 := by
  obtain ⟨houtcome, hstate⟩ := alike_take (Turn.blind_place tree) hs.fresh
  unfold perform
  simp only
  generalize take { s with records := #[] } (Turn.place tree) = x at houtcome hstate
  generalize take { s' with records := #[] } (Turn.place tree) = y at houtcome hstate
  obtain ⟨outcome, s₁⟩ := x
  obtain ⟨outcome', s₁'⟩ := y
  cases houtcome with
  | error fault => exact ⟨alike_reply hstate (.error fault) none none, hstate⟩
  | @ok tree _ htree =>
    subst htree
    exact alike_finish (Turn.inStep_answers (hasked tree)) hstate (some tree)

theorem alike_action (name : String) (action : Action) (hs : s.Alike s') :
    (s.perform (.action name action)).1.Alike (s'.perform (.action name action)).1 ∧
      (s.perform (.action name action)).2.Alike (s'.perform (.action name action)).2 := by
  obtain ⟨houtcome, hstate⟩ := alike_take (Turn.blind_member name) hs.fresh
  unfold perform
  simp only
  generalize take { s with records := #[] } (Turn.member name) = x at houtcome hstate
  generalize take { s' with records := #[] } (Turn.member name) = y at houtcome hstate
  obtain ⟨outcome, s₁⟩ := x
  obtain ⟨outcome', s₁'⟩ := y
  cases houtcome with
  | error fault => exact ⟨alike_reply hstate (.error fault) none none, hstate⟩
  | @ok member _ hmember =>
    subst hmember
    obtain ⟨hacted, hafter⟩ := alike_take (Turn.inStep_act member action) hstate
    have hroot := congrArg (fun table ↦ (table.find? name).map fun member : Member ↦
      Value.object member.scanner.root) hafter.scanners
    simp only [rootOf?]
    rw [hroot]
    exact ⟨alike_reply hafter hacted none _, hafter⟩

/-- Requests that are alike get replies that are alike from sessions that are alike, which stay so. -/
theorem alike_perform {request request' : Request} (hrequest : request.Alike request')
    (hs : s.Alike s') :
    (s.perform request).1.Alike (s'.perform request').1 ∧
      (s.perform request).2.Alike (s'.perform request').2 := by
  cases hrequest with
  | create ownership name data hsettings =>
    have hconfig := Turn.inStep_config hsettings
    exact alike_finish (Turn.inStep_answers (Turn.inStep_create hconfig ownership name data))
      hs.fresh none
  | withValue tree path value keep hsettings =>
    exact alike_access (fun v ↦ Turn.inStep_withValue hsettings v path value keep) tree hs
  | same =>
    cases request with
    | question asked => exact alike_finish (Turn.inStep_answers (Turn.blind_question asked)) hs.fresh none
    | access tree asked => exact alike_access (fun v ↦ Turn.blind_access v asked) tree hs
    | create ownership name data settings =>
      have hconfig := (Turn.blind_config settings).imp fun c c' hc ↦ congrArg Config.maxIndex hc
      exact alike_finish (Turn.inStep_answers (Turn.inStep_create hconfig ownership name data))
        hs.fresh none
    | action name action => exact alike_action name action hs
    | shares first second =>
      exact alike_finish (Turn.inStep_answers ((Turn.blind_member first).bind fun a ↦
        (Turn.blind_member second).bind fun b ↦ Turn.blind_pure _)) hs.fresh none
    | edit edit => exact alike_finish (Turn.inStep_answers (Turn.blind_editKept edit)) hs.fresh none

end Session

namespace Session

variable {s s' : Session}

/-- Sessions that are alike stay so over requests that are alike, with replies that are alike and the
same heap after every request. -/
theorem alike_run {requests requests' : List Request}
    (hrequests : List.Forall₂ Request.Alike requests requests') (hs : s.Alike s') :
    List.Forall₂ Reply.Alike (s.run requests) (s'.run requests') ∧
      s.heaps requests = s'.heaps requests' := by
  induction hrequests generalizing s s' with
  | nil => exact ⟨.nil, rfl⟩
  | cons hrequest _ ih =>
    obtain ⟨hreply, hafter⟩ := alike_perform hrequest hs
    obtain ⟨hreplies, hheaps⟩ := ih hafter
    refine ⟨.cons hreply hreplies, ?_⟩
    simp only [heaps, hafter.heap, hheaps]

/-- New sessions are alike, of whatever make their memories are. -/
theorem alike_empty (make make' : Nat → Memory) : (empty make).Alike (empty make') :=
  ⟨rfl, rfl, rfl, rfl, rfl⟩

end Session

/-- Two runs of the same requests, over any number of scanners, that differ only in the sizes of the
memories: every request gets the same answer or the same fault, and the heaps are the same after
every request. Only the records of the parsers may differ, and what a scanner tells about its own
memory. The two runs may even have memories of two makes, and of these no more is taken for granted
than that what they hold under a path was read from it (`Memory.path_of_get?`). -/
theorem cache_invisible (make make' : Nat → Memory) {requests requests' : List Request}
    (hrequests : List.Forall₂ Request.Alike requests requests') :
    List.Forall₂ Reply.Alike ((Session.empty make).run requests)
        ((Session.empty make').run requests') ∧
      (Session.empty make).heaps requests = (Session.empty make').heaps requests' :=
  Session.alike_run hrequests (Session.alike_empty make make')

/-- A scanner without a memory and one that remembers a single step read the same. -/
theorem cache_invisible_reads :
    let requests (size : Int) : List Request :=
      [.create .owned "s" (.mapping .plain [(.text "a", .integer 1)]) ⟨some size, none⟩,
        .action "s" (.get "a" none), .action "s" (.get "a" none), .action "s" (.get "b" none),
        .action "s" (.get "a" none), .action "s" .info]
    let start := Session.empty Memory.recency
    List.Forall₂ Request.Alike (requests 0) (requests 1) ∧
      List.Forall₂ Reply.Alike (start.run (requests 0)) (start.run (requests 1)) ∧
      start.heaps (requests 0) = start.heaps (requests 1) ∧
      (start.run (requests 0)).map Reply.records = [[], [], [], [], [], []] ∧
      (start.run (requests 1)).map Reply.records =
        [[], [.parsing "a"], [], [.parsing "b"], [.parsing "a"], []] := by
  intro requests start
  have hsettings : Settings.Alike ⟨some 0, none⟩ ⟨some 1, none⟩ := ⟨rfl, by simp, by simp⟩
  have hrequests : List.Forall₂ Request.Alike (requests 0) (requests 1) :=
    .cons (.create _ _ _ hsettings) (.cons (.same _) (.cons (.same _) (.cons (.same _)
      (.cons (.same _) (.cons (.same _) .nil)))))
  obtain ⟨hreplies, hheaps⟩ := cache_invisible Memory.recency Memory.recency hrequests
  exact ⟨hrequests, hreplies, hheaps, by decide +kernel, by decide +kernel⟩

end DottedPath
