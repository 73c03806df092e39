import DottedPath.Assertion
import DottedPath.OneShot
import DottedPath.Proofs.Scan.Write
import DottedPath.Proofs.Scan.Remove

/-!
# Work that does not see the parser

What a parser remembers shows in its own records and nowhere else. Two workplaces are alike when they
have the same heap and the same records of the scanner, whatever their parsers are
(`Workplace.Alike`). Work is blind when it ends in the same way in workplaces that are alike and
leaves them alike (`Scan.Blind`); the elements of a scan are blind, `Scan.parse` by way of
`Scan.parse_of_ok`, and so is all that is built from them.

Work that ends alike from states that are alike is `InStep`, for scans as for the turns of a session.
-/

set_option autoImplicit false
set_option relaxedAutoImplicit false

namespace DottedPath

/-! ### Work in step -/

section InStep

variable {ε σ α β γ δ : Type} {S : σ → σ → Prop} {R : α → β → Prop} {Q : γ → δ → Prop}

/-- Two ends that are alike: results that are related, or the same fault, in states that are alike. -/
inductive EndsAlike (S : σ → σ → Prop) (R : α → β → Prop) :
    EStateM.Result ε σ α → EStateM.Result ε σ β → Prop
  | ok {a : α} {b : β} {s s' : σ} (hresult : R a b) (hstate : S s s') :
    EndsAlike S R (.ok a s) (.ok b s')
  | error {e : ε} {s s' : σ} (hstate : S s s') : EndsAlike S R (.error e s) (.error e s')

/-- From states that are alike, both pieces of work come to ends that are alike. -/
def InStep (S : σ → σ → Prop) (R : α → β → Prop) (work : EStateM ε σ α) (work' : EStateM ε σ β) :
    Prop :=
  ∀ s s', S s s' → EndsAlike S R (work s) (work' s')

theorem InStep.bind {work : EStateM ε σ α} {work' : EStateM ε σ β} {next : α → EStateM ε σ γ}
    {next' : β → EStateM ε σ δ} (hwork : InStep S R work work')
    (hnext : ∀ a b, R a b → InStep S Q (next a) (next' b)) :
    InStep S Q (work >>= next) (work' >>= next') := by
  intro s s' hs
  have hends := hwork s s' hs
  show EndsAlike S Q (EStateM.bind work next s) (EStateM.bind work' next' s')
  unfold EStateM.bind
  generalize work s = x at hends
  generalize work' s' = y at hends
  cases hends with
  | ok hresult hstate => exact hnext _ _ hresult _ _ hstate
  | error hstate => exact .error hstate

theorem inStep_pure {a : α} {b : β} (hab : R a b) :
    InStep S R (pure a : EStateM ε σ α) (pure b) :=
  fun _ _ hs ↦ .ok hab hs

theorem InStep.imp {work : EStateM ε σ α} {work' : EStateM ε σ β} {R' : α → β → Prop}
    (hwork : InStep S R work work') (himp : ∀ a b, R a b → R' a b) : InStep S R' work work' := by
  intro s s' hs
  have hends := hwork s s' hs
  generalize work s = x at hends ⊢
  generalize work' s' = y at hends ⊢
  cases hends with
  | ok hresult hstate => exact .ok (himp _ _ hresult) hstate
  | error hstate => exact .error hstate

theorem inStep_throw (e : ε) : InStep S R (throw e : EStateM ε σ α) (throw e) :=
  fun _ _ hs ↦ .error hs

end InStep

/-! ### Workplaces with different parsers -/

namespace Record

/-- The records among some that are not the parser's. -/
def ofScanner (records : List Record) : List Record :=
  records.filter fun record ↦ record.channel = .scanner

theorem ofScanner_push (records : Array Record) (record : Record) :
    ofScanner (records.push record).toList = ofScanner records.toList ++ ofScanner [record] := by
  simp [ofScanner]

theorem ofScanner_parsing (path : String) : ofScanner [.parsing path] = [] := rfl

end Record

/-- The same heap, and the same records but for those of the parsers. -/
structure Workplace.Alike (w w' : Workplace) : Prop where
  heap : w.heap = w'.heap
  records : Record.ofScanner w.records.toList = Record.ofScanner w'.records.toList

namespace Scan

variable {α β : Type}

/-- In workplaces that are alike the work ends alike, with the same result. -/
def Blind (work : Scan α) : Prop := InStep Workplace.Alike Eq work work

theorem Blind.bind {work : Scan α} {next : α → Scan β} (hwork : Blind work)
    (hnext : ∀ a, Blind (next a)) : Blind (work >>= next) := by
  apply InStep.bind hwork
  rintro a _ rfl
  exact hnext a

theorem blind_pure (a : α) : Blind (pure a : Scan α) := inStep_pure rfl

theorem blind_throw (e : Fault) : Blind (throw e : Scan α) := inStep_throw e

theorem Blind.map {work : Scan α} (hwork : Blind work) (f : α → β) : Blind (f <$> work) := by
  rw [map_eq_pure_bind]
  exact hwork.bind fun a ↦ blind_pure (f a)

/-- Reading a step leaves a workplace as it was, but for the parser and its records. -/
theorem afterParse_alike {w w' : Workplace} (hw : w.Alike w') (path : String) :
    (afterParse w path).Alike (afterParse w' path) := by
  have hrecords : ∀ w : Workplace,
      Record.ofScanner (afterParse w path).records.toList = Record.ofScanner w.records.toList := by
    intro w
    simp only [afterParse]
    split
    · rw [Record.ofScanner_push, Record.ofScanner_parsing, List.append_nil]
    · rfl
  exact ⟨hw.heap, by rw [hrecords, hrecords, hw.records]⟩

theorem blind_parse (path : String) : Blind (parse path) := by
  intro w w' hw
  have hafter := afterParse_alike hw path
  obtain ⟨e, hstep⟩ | ⟨step, hstep⟩ :
      (∃ e, Step.decode path = .error e) ∨ ∃ step, Step.decode path = .ok step := by
    cases Step.decode path <;> simp
  · rw [parse_of_error hstep, parse_of_error hstep]
    exact .error hafter
  · rw [parse_of_ok hstep, parse_of_ok hstep]
    exact .ok rfl hafter

theorem blind_inspect (look : Heap → Except Fault α) : Blind (inspect look) := by
  intro w w' hw
  unfold inspect
  rw [← hw.heap]
  cases look w.heap with
  | error e => exact .error hw
  | ok a => exact .ok rfl hw

theorem blind_edit (change : Heap → Except Fault Heap) : Blind (edit change) := by
  intro w w' hw
  unfold edit
  rw [← hw.heap]
  cases change w.heap with
  | error e => exact .error hw
  | ok h => exact .ok rfl ⟨rfl, hw.records⟩

theorem blind_alloc (c : Cell) : Blind (alloc c) := by
  intro w w' hw
  unfold alloc
  rw [← hw.heap]
  exact .ok rfl ⟨rfl, hw.records⟩

theorem blind_note (record : Record) : Blind (note record) := by
  intro w w' hw
  refine .ok rfl ⟨hw.heap, ?_⟩
  rw [Record.ofScanner_push, Record.ofScanner_push, hw.records]

theorem blind_clone (v : Value) : Blind (clone v) := by
  intro w w' hw
  unfold clone
  rw [← hw.heap]
  cases w.heap.clone? v with
  | none => exact .error hw
  | some copied => exact .ok rfl ⟨rfl, hw.records⟩

/-! ### Reading and removing -/

theorem Follows.blind {look : Heap → Ref → (step : Step) → Except Fault (Move step α)}
    {scan : Ref → String → Scan α} (hscan : Follows look scan) (root : Ref) (path : String) :
    Blind (scan root path) := by
  rw [hscan]
  refine (blind_parse path).bind fun ⟨step, hstep⟩ ↦ (blind_inspect _).bind fun move ↦ ?_
  cases move with
  | done a => exact blind_pure a
  | enter child rest hrest =>
    have := Step.length_rest_lt hstep hrest
    exact hscan.blind child rest
termination_by path.length

theorem blind_getAs (root : Ref) (path : String) (expected : Option Expected) :
    Blind (getAs root path expected) := by
  cases expected with
  | none => exact blind_throw _
  | some expected => exact (follows_get.blind root path).bind fun v ↦ blind_inspect _

theorem blind_forM {work : Ref → Scan Unit} {rs : List Ref} (hwork : ∀ r, Blind (work r)) :
    Blind (rs.forM work) := by
  induction rs with
  | nil => exact blind_pure ()
  | cons r rs ih => exact (hwork r).bind fun _ ↦ ih

theorem blind_remove (root : Ref) (path : String) : Blind (remove root path) := by
  rw [remove_eq]
  refine (blind_parse path).bind fun ⟨step, hstep⟩ ↦ (blind_inspect _).bind fun removal ↦ ?_
  cases removal with
  | done h =>
    show Blind (edit fun _ ↦ .ok h)
    exact blind_edit _
  | enter children rest hrest =>
    have := Step.length_rest_lt hstep hrest
    show Blind (children.forM (remove · rest))
    exact blind_forM fun child ↦ blind_remove child rest
termination_by path.length

/-! ### Writing -/

theorem blind_openList (limit : Option Nat) (root : Ref) (step : Step) :
    Blind (openList limit root step) := by
  unfold openList
  split
  · exact blind_pure none
  · refine (blind_inspect _).bind fun _ ↦ (blind_inspect _).bind fun v ↦ ?_
    cases v with
    | null => exact (blind_note _).bind fun _ ↦ (blind_alloc _).map some
    | _ => exact blind_inspect _

theorem blind_openMapping (root : Ref) (step : Step) (list : Option Ref) :
    Blind (openMapping root step list) := by
  refine (blind_inspect _).bind fun v ↦ ?_
  cases v with
  | null => exact (blind_note _).bind fun _ ↦ blind_alloc _
  | _ => exact blind_inspect _

theorem blind_store (root : Ref) (step : Step) (list : Option Ref) (v : Value) :
    Blind (store root step list v) := by
  cases list with
  | none =>
    show Blind (edit fun h ↦ h.assign root (.text step.name) v)
    exact blind_edit _
  | some list =>
    simp only [store]
    cases step.place with
    | key | every => exact (blind_edit _).bind fun _ ↦ blind_edit _
    | item n =>
      refine (blind_inspect _).bind fun size ↦ ?_
      by_cases hsize : size ≤ n
      · simp only [hsize, if_true]
        exact (blind_note _).bind fun _ ↦ (blind_edit _).bind fun _ ↦ blind_edit _
      · simp only [hsize, if_false]
        exact (blind_edit _).bind fun _ ↦ blind_edit _

theorem blind_set (limit : Option Nat) (root : Ref) (path : String) (v : Value) :
    Blind (set limit root path v) := by
  rw [set_eq]
  refine (blind_parse path).bind fun ⟨step, hstep⟩ ↦
    (blind_openList limit root step).bind fun list ↦ ?_
  unfold setFrom
  split
  · exact blind_store root step list v
  · next rest hrest =>
    have := Step.length_rest_lt hstep hrest
    exact (blind_openMapping root step list).bind fun child ↦
      (blind_set limit child rest v).bind fun _ ↦ blind_store root step list _
termination_by path.length

theorem blind_subMapping (limit : Option Nat) (root : Ref) (path : String) :
    Blind (subMapping limit root path) := by
  rw [subMapping_eq]
  refine (blind_getAs _ _ _).bind fun v ↦ (blind_inspect _).bind fun node ↦ ?_
  cases node with
  | mapping r _ _ => exact blind_pure r
  | list _ _ | scalar =>
    exact (blind_alloc _).bind fun r ↦ (blind_set _ _ _ _).bind fun _ ↦ blind_pure r

/-! ### Scanners -/

theorem blind_borrow (data : Value) : Blind (borrow data) := blind_inspect _

theorem blind_own (data : Value) : Blind (own data) := by
  refine (blind_inspect _).bind fun node ↦ ?_
  have hcopy : Blind (do
      let scanner ← borrow (← clone data)
      return { scanner with ownership := .owned }) :=
    (blind_clone data).bind fun copy ↦ (blind_borrow copy).bind fun scanner ↦ blind_pure _
  cases data with
  | null => exact (blind_alloc _).bind fun root ↦ blind_pure _
  | _ =>
    cases node with
    | mapping _ _ _ => exact hcopy
    | list _ _ | scalar => exact blind_inspect _

theorem blind_toTree (scanner : Scanner) : Blind (toTree scanner) := blind_clone _

theorem blind_render (scanner : Scanner) : Blind (render scanner) := blind_inspect _

/-- Work with a parser of its own is in step with the same work with another one. -/
theorem inStep_afresh (config config' : Config) {work : Scan α} (hwork : Blind work) :
    InStep Workplace.Alike Eq (afresh config work) (afresh config' work) := by
  intro w w' hw
  have hends := hwork { w with parser := w.parser.fresh config.cacheSize }
    { w' with parser := w'.parser.fresh config'.cacheSize } ⟨hw.heap, hw.records⟩
  unfold afresh
  generalize work { w with parser := w.parser.fresh config.cacheSize } = x at hends
  generalize work { w' with parser := w'.parser.fresh config'.cacheSize } = y at hends
  cases hends with
  | ok hresult hstate => exact .ok hresult ⟨hstate.heap, hstate.records⟩
  | error hstate => exact .error ⟨hstate.heap, hstate.records⟩

end Scan

/-! ### Single accesses -/

namespace OneShot

open Scan

theorem blind_getValue (tree : Value) (path : String) (expected : Option Expected) :
    Blind (getValue tree path expected) := by
  refine inStep_afresh _ _ ((blind_borrow tree).bind fun scanner ↦ ?_)
  cases expected with
  | none => exact follows_get.blind _ path
  | some expected => exact blind_getAs _ path _

theorem blind_hasValue (tree : Value) (path : String) : Blind (hasValue tree path) :=
  inStep_afresh _ _ ((blind_borrow tree).bind fun _ ↦ follows_has.blind _ path)

/-- Storing in a copy does not depend on the size of the memory. -/
theorem inStep_withValue {config config' : Config} (hlimit : config.maxIndex = config'.maxIndex)
    (tree : Value) (path : String) (v : Value) :
    InStep Workplace.Alike Eq (withValue config tree path v) (withValue config' tree path v) := by
  unfold withValue
  rw [← hlimit]
  exact inStep_afresh _ _ ((blind_own tree).bind fun scanner ↦
    (blind_set _ _ path v).bind fun _ ↦ blind_toTree scanner)

theorem blind_withoutValue (tree : Value) (path : String) : Blind (withoutValue tree path) :=
  inStep_afresh _ _ ((blind_own tree).bind fun scanner ↦
    (blind_remove _ path).bind fun _ ↦ blind_toTree scanner)

end OneShot

theorem Scan.blind_assertValue (tree : Value) (path : String) (expected : Value) :
    Scan.Blind (assertValue tree path expected) := by
  refine inStep_afresh _ _ ((blind_borrow tree).bind fun scanner ↦
    (follows_has.blind _ path).bind fun found ↦ ?_)
  cases found with
  | false => exact blind_throw _
  | true => exact (follows_get.blind _ path).bind fun actual ↦ blind_inspect _

end DottedPath
