import DottedPath.Text.Quoted

/-!
# Log records

What a scanner and its parser note while they work: that a step is read anew into the memory, and
what a write creates or lets grow.
-/

set_option autoImplicit false
set_option relaxedAutoImplicit false

namespace DottedPath

/-- A note on the work done. -/
inductive Record
  | parsing (path : String)
  | creatingMapping (field path : String)
  | creatingList (field path : String)
  | growing (field : String) (before after : Nat)
  deriving DecidableEq, Inhabited

/-- Who writes a record. -/
inductive Channel
  | scanner
  | parser
  deriving DecidableEq, Inhabited

namespace Channel

def label : Channel → String
  | scanner => "scanner"
  | parser => "path.parser"

end Channel

namespace Record

def channel : Record → Channel
  | parsing _ => .parser
  | _ => .scanner

def message : Record → String
  | parsing path => "Parsing path " ++ Text.quoted path
  | creatingMapping field path =>
    "Creating mapping " ++ Text.quoted field ++ " while setting " ++ Text.quoted path
  | creatingList field path =>
    "Creating list " ++ Text.quoted field ++ " while setting " ++ Text.quoted path
  | growing field before after =>
    "Growing list " ++ Text.quoted field ++ " from " ++ toString before ++ " to "
      ++ toString after ++ " items"

end Record

end DottedPath
