import Typeahead.Candidate.Basic
import Typeahead.Text.Decimal

/-!
# Items

An item is a candidate in the form that editors take. Editors sort items by a
text of their own, which is here the number of the candidate in the answer.
-/

namespace Typeahead

/-- What kind of thing an item stands for. -/
inductive ItemKind
  | text
  | function
  | named
  | classType
  | keyword
  | snippet
  | operator
  deriving DecidableEq, Repr

/-- The number by which editors know a kind. -/
def ItemKind.code : ItemKind → Nat
  | text => 1
  | function => 3
  | named => 6
  | classType => 7
  | keyword => 14
  | snippet => 15
  | operator => 24

/-- A candidate for an editor. -/
structure Item where
  label : String
  kind : ItemKind
  detail : Option String
  /-- The text beside the label. -/
  description : Option String
  documentation : Option String
  insertText : String
  /-- Whether the inserted text has places where the cursor stops. -/
  isSnippet : Bool
  /-- What the editor compares with what is typed, if not the label. -/
  filterText : Option String
  sortText : String
  deriving DecidableEq, Repr

namespace Candidate

/-- The kind of the item for a candidate. -/
def itemKind (c : Candidate) : ItemKind :=
  match c.insertion with
  | .template _ => .snippet
  | .nothing => .text
  | .parens | .brackets => .operator
  | .plain =>
    if c.text.toList.head? == some ':' then .keyword
    else
      match c.priority with
      | .currentScopeLocals | .nestedScopeLocals => .named
      | .specialForms | .controlFlow => .keyword
      | .macroForms => .snippet
      | .phpInterop => .classType
      | _ => .function

/-- The text that the item for a candidate inserts. -/
def insertText (c : Candidate) : String :=
  match c.insertion with
  | .plain => c.text
  | .parens => "($0)"
  | .brackets => "[$0]"
  | .template t => t.snippet
  | .nothing => ""

/-- Whether the inserted text has places where the cursor stops. -/
def insertsSnippet (c : Candidate) : Bool :=
  match c.insertion with
  | .plain | .nothing => false
  | _ => true

/-- The text that an item is found by, if not its label. -/
def filterText? (c : Candidate) : Option String :=
  match c.insertion with
  | .template t => some t.keyword
  | _ => none

/-- The item for the candidate at a place in an answer. -/
def toItem (c : Candidate) (place : Nat) : Item where
  label := c.display
  kind := c.itemKind
  detail := c.hint
  description := c.signature
  documentation := c.documentation
  insertText := c.insertText
  isSnippet := c.insertsSnippet
  filterText := c.filterText?
  sortText := String.ofList (padded 4 place)

/-- The items for an answer. -/
def toItems (cs : List Candidate) : List Item := cs.mapIdx fun i c => c.toItem i

end Candidate

end Typeahead
