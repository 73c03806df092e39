import DottedPath.Catalogue
import DottedPath.Fault

/-!
# Requests and replies of a session

A session is a conversation about scanners and values that are kept under names, in two name spaces.
A request is a question by itself, a single access to a tree, the making of a scanner, an action of
a scanner, or the caller's own edit of a value. The reply holds the outcome, what the request may
have changed, and the records written meanwhile.
-/

set_option autoImplicit false
set_option relaxedAutoImplicit false

namespace DottedPath

/-! ### Requests -/

/-- A fault to be described without being met. -/
inductive FaultForm
  | shape (field path : String) (expected : Expected) (actual : Literal) (mode : AccessMode)
  | path (field path : String) (text : String)
  | argument (text : String)
  | general (text : String)

/-- A question that concerns no scanner. A value that is answered may be kept under a name. -/
inductive Question
  | catalogue
  | decode (path : String)
  | kind (value : Literal)
  | clone (value : Literal) (keep : Option String)
  | config (settings : Settings)
  | fault (form : FaultForm)

/-- A single access to a tree. -/
inductive Access
  | getValue (path : String) (expected : Option Expected) (keep : Option String)
  | hasValue (path : String)
  | withValue (path : String) (value : Literal) (settings : Settings) (keep : Option String)
  | withoutValue (path : String) (keep : Option String)
  | assertValue (path : String) (expected : Literal)

/-- An action of a scanner. A quiet one does not show the root mapping afterwards. A membership test
is made with any value, and fails with one that is not a text. -/
inductive Action
  | sub (path name : String) (quiet : Bool)
  | get (path : String) (keep : Option String)
  | getAs (path : String) (expected : Option Expected) (keep : Option String)
  | set (path : String) (value : Literal) (quiet : Bool)
  | remove (path : String) (quiet : Bool)
  | has (path : String)
  | contains (path : Literal)
  | toTree (keep : Option String)
  | render
  | info
  | clearCache

/-- The caller's own work on kept values. -/
inductive Edit
  | keep (name : String) (value : Literal)
  | tell (name : String)
  | same (first second : String)
  | lookUp (name : String) (keys : List Literal) (keep : Option String)
  | put (name : String) (key value : Literal)
  | push (name : String) (value : Literal)
  | delete (name : String) (key : Literal)
  | poke (handle : String)

/-- What a session is asked. -/
inductive Request
  | question (question : Question)
  | access (tree : Literal) (access : Access)
  | create (ownership : Ownership) (name : String) (data : Literal) (settings : Settings)
  | action (scanner : String) (action : Action)
  | shares (first second : String)
  | edit (edit : Edit)

/-! ### Replies -/

/-- What a scanner tells about itself: how it holds its root, its settings, and how much its parser
remembers out of how much it can. -/
structure Info where
  ownership : Ownership
  config : Config
  cached : Nat
  capacity : Nat

/-- What a request is answered with. -/
inductive Answer
  | value (value : Literal)
  | flag (flag : Bool)
  | text (text : String)
  | itself
  | catalogue (catalogue : Catalogue)
  | step (step : Step)
  | kind (kind : NodeKind)
  | config (config : Config)
  | fault (report : Report) (families : List Fault.Family)
  | info (info : Info)
  | cached (size : Nat)
  | shared (config parser data : Bool)

/-- The answer to a request or the fault that it met, the tree that a single access was given and
the root mapping of the scanner that acted, both as they are afterwards, and the records. -/
structure Reply where
  outcome : Except Report Answer
  tree : Option Literal
  state : Option Literal
  records : List Record

end DottedPath
