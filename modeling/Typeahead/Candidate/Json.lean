import Typeahead.Candidate.Item
import Typeahead.Json.Tree

/-!
# Candidates as JSON

The two forms in which answers are written: candidates with all their fields,
and the items of editors with the fields that have a value.
-/

namespace Typeahead

/-- The name of a template. -/
def Template.label : Template → String
  | fnDef => "Defn"
  | varDef => "Def"
  | letIn => "Let"
  | ifThen => "If"
  | lambda => "Fn"
  | whenThen => "When"

/-- The way a candidate is inserted, as JSON. -/
def Insertion.toJson : Insertion → JsonTree
  | plain => .text "Plain"
  | parens => .text "BalancedParens"
  | brackets => .text "BalancedBrackets"
  | template t => .object [("Template", .text t.label)]
  | nothing => .text "None"

/-- A candidate as JSON. -/
def Candidate.toJson (c : Candidate) : JsonTree :=
  .object
    [("text", .text c.text), ("displayText", .text c.display),
     ("typeHint", .ofOption .text c.hint), ("signature", .ofOption .text c.signature),
     ("documentation", .ofOption .text c.documentation),
     ("priority", .text c.priority.label), ("insertion", c.insertion.toJson)]

namespace Item

/-- A member of an object, if it has a value. -/
def member? (name : String) (v : Option JsonTree) : List (String × JsonTree) :=
  (v.map (name, ·)).toList

/-- An item as JSON. -/
def toJson (i : Item) : JsonTree :=
  let description := fun s => JsonTree.object [("description", .text s)]
  let markdown := fun s => JsonTree.object [("kind", .text "markdown"), ("value", .text s)]
  .object <|
    [("label", .text i.label)] ++ member? "labelDetails" (i.description.map description) ++
    [("kind", .number i.kind.code)] ++ member? "detail" (i.detail.map .text) ++
    member? "documentation" (i.documentation.map markdown) ++ [("sortText", .text i.sortText)] ++
    member? "filterText" (i.filterText.map .text) ++ [("insertText", .text i.insertText)] ++
    member? "insertTextFormat" (if i.isSnippet then some (.number 2) else none)

end Item

end Typeahead
