import DottedPath.Assertion
import DottedPath.Heap.Edit
import DottedPath.OneShot
import DottedPath.Session.Turn

/-!
# Running a session

What each request does in a session. `Session.perform` answers one request, and `Session.run` some
requests one after the other.
-/

set_option autoImplicit false
set_option relaxedAutoImplicit false

namespace DottedPath

namespace Turn

/-! ### Questions and single accesses -/

/-- The fault of a form. -/
def faultOf : FaultForm → Turn Fault
  | .shape field path expected actual mode => do
    return .shape ⟨field, path, expected, ← place actual, mode⟩
  | .path field path text => return .path field path (.worded text)
  | .argument text => return .argument (.worded text)
  | .general text => return .general text

/-- Answers a question. -/
def question : Question → Turn Answer
  | .catalogue => return .catalogue DottedPath.catalogue
  | .decode path =>
    match Step.decode path with
    | .ok step => return .step step
    | .error numeral => throw (.numeral numeral)
  | .kind literal => do
    let v ← place literal
    inspect fun h ↦ .ok (.kind (h.kindOf v))
  | .clone literal keep => do
    let v ← place literal
    answer keep (← scanAlone (Scan.clone v))
  | .config settings => return .config (← config settings)
  | .fault form => do
    let fault ← faultOf form
    inspect fun h ↦ .ok (.fault (fault.report h) fault.families)

/-- Does a single access to a tree. -/
def access (tree : Value) : Access → Turn Answer
  | .getValue path expected keep => do
    answer keep (← scanAlone (OneShot.getValue tree path expected))
  | .hasValue path => return .flag (← scanAlone (OneShot.hasValue tree path))
  | .withValue path literal settings keep => do
    let v ← place literal
    let config ← config settings
    answer keep (← scanAlone (OneShot.withValue config tree path v))
  | .withoutValue path keep => do
    answer keep (← scanAlone (OneShot.withoutValue tree path))
  | .assertValue path literal => do
    let expected ← place literal
    scanAlone (DottedPath.assertValue tree path expected)
    return .flag true

/-! ### Scanners -/

/-- Makes a scanner with a family of its own, and answers with its root mapping. -/
def create (ownership : Ownership) (name : String) (data : Literal) (settings : Settings) :
    Turn Answer := do
  let v ← place data
  let config ← config settings
  let scanner ← scanAlone <|
    match ownership with
    | .owned => Scan.own v
    | .borrowed => Scan.borrow v
  let family := (← get).families.size
  modify fun s ↦ { s with families := s.families.push ⟨config, .new config.cacheSize s.make⟩ }
  nameScanner name ⟨scanner, family⟩
  return .value (← describe (.object scanner.root))

/-- What the scanner tells about itself. -/
def info (member : Member) : Turn Answer := do
  let shared := (← get).families[member.family]?.getD default
  return .info ⟨member.scanner.ownership, shared.config, shared.parser.size, shared.parser.capacity⟩

/-- Lets a scanner act. -/
def act (member : Member) : Action → Turn Answer
  | .sub path name quiet => do
    let root ← scan member.family fun config ↦
      Scan.subMapping config.maxIndex member.scanner.root path
    nameScanner name ⟨⟨root, .borrowed⟩, member.family⟩
    if quiet then return .value .null
    else return .value (← describe (.object root))
  | .get path keep => do
    answer keep (← scan member.family fun _ ↦ Scan.get member.scanner.root path)
  | .getAs path expected keep => do
    answer keep (← scan member.family fun _ ↦ Scan.getAs member.scanner.root path expected)
  | .set path literal _ => do
    let v ← place literal
    scan member.family fun config ↦ Scan.set config.maxIndex member.scanner.root path v
    return .itself
  | .remove path _ => do
    scan member.family fun _ ↦ Scan.remove member.scanner.root path
    return .itself
  | .has path => return .flag (← scan member.family fun _ ↦ Scan.has member.scanner.root path)
  | .contains literal => do
    match ← place literal with
    | .text path => return .flag (← scan member.family fun _ ↦ Scan.has member.scanner.root path)
    | _ => return .flag false
  | .toTree keep => do answer keep (← scanAlone (Scan.toTree member.scanner))
  | .render => return .text (← scanAlone (Scan.render member.scanner))
  | .info => info member
  | .clearCache => do
    modify fun s ↦
      s.withParser member.family (s.families[member.family]?.getD default).parser.clear
    return .cached 0

/-- What two scanners have in common. -/
def shares (first second : Member) : Answer :=
  let together := decide (first.family = second.family)
  .shared together together (decide (first.scanner.root = second.scanner.root))

/-! ### Edits of kept values -/

/-- Does an edit. -/
def editKept : Edit → Turn Answer
  | .keep name literal => do answer (some name) (← place literal)
  | .tell name => do answer none (← kept name)
  | .same first second => do
    let v ← kept first
    let w ← kept second
    inspect fun h ↦ .ok (.flag (h.same v w))
  | .lookUp name keys keep => do
    let v ← kept name
    let keys ← keys.mapM placeKey
    answer keep (← inspect fun h ↦ keys.foldlM h.itemAt v)
  | .put name key literal => do
    let v ← kept name
    let key ← placeKey key
    let new ← place literal
    edit fun h ↦ h.putAt v key new
    answer none v
  | .push name literal => do
    let v ← kept name
    let new ← place literal
    edit fun h ↦ h.pushTo v new
    answer none v
  | .delete name key => do
    let v ← kept name
    let key ← placeKey key
    edit fun h ↦ h.deleteAt v key
    answer none v
  | .poke name => do
    match (← get).store.handles.find? name with
    | some r => do
      edit fun h ↦ .ok (h.countUp r)
      answer none (.object r)
    | none => throw (.unknownName name)

end Turn

namespace Action

/-- Whether the reply to an action shows the root mapping of the scanner. -/
def showsState : Action → Bool
  | sub _ _ quiet => !quiet
  | set _ _ quiet => !quiet
  | remove _ quiet => !quiet
  | _ => false

end Action

namespace Session

/-- The reply to a request, which may show the value of a tree and of a root mapping. -/
def reply (s : Session) (outcome : Except Fault Answer) (tree state : Option Value) : Reply where
  outcome := outcome.mapError fun fault ↦ fault.report s.heap
  tree := tree.map s.heap.describe
  state := state.map s.heap.describe
  records := s.records.toList

/-- The outcome of a turn, with the session after it. -/
def take {α : Type} (s : Session) (turn : Turn α) : Except Fault α × Session :=
  match turn s with
  | .ok a s => (.ok a, s)
  | .error fault s => (.error fault, s)

/-- The root mapping of the scanner that a name stands for now. -/
def rootOf? (s : Session) (name : String) : Option Value :=
  (s.scanners.find? name).map fun member ↦ .object member.scanner.root

/-- Answers a request. An action shows the root mapping of the scanner that its name stands for
afterwards, which a new scanner of that name may be. -/
def perform (s : Session) (request : Request) : Reply × Session :=
  let s := { s with records := #[] }
  let finish (outcome : Except Fault Answer × Session) (tree state : Option Value) :
      Reply × Session :=
    (outcome.2.reply outcome.1 tree state, outcome.2)
  match request with
  | .question question => finish (s.take (Turn.question question)) none none
  | .access literal access =>
    match s.take (Turn.place literal) with
    | (.error fault, s) => finish (.error fault, s) none none
    | (.ok tree, s) => finish (s.take (Turn.access tree access)) (some tree) none
  | .create ownership name data settings =>
    finish (s.take (Turn.create ownership name data settings)) none none
  | .action name action =>
    match s.take (Turn.member name) with
    | (.error fault, s) => finish (.error fault, s) none none
    | (.ok member, s) =>
      let acted := s.take (Turn.act member action)
      let state := if action.showsState then acted.2.rootOf? name else none
      finish acted none state
  | .shares first second =>
    finish (s.take do return Turn.shares (← Turn.member first) (← Turn.member second)) none none
  | .edit edit => finish (s.take (Turn.editKept edit)) none none

/-- The replies to some requests, one after the other. -/
def run (s : Session) : List Request → List Reply
  | [] => []
  | request :: requests => (s.perform request).1 :: run (s.perform request).2 requests

end Session

end DottedPath
