import Typeahead.Form.Clause
import Typeahead.Project.Path
import Typeahead.Tree.Reader

/-!
# Summaries of files

What a project file contributes to the others: its namespace and its public
definitions, found among its top-level forms.
-/

namespace Typeahead

/-- A public definition of a project file. -/
structure Definition where
  name : String
  kind : DefKind
  /-- The shape of a call, for functions and macros. -/
  signature : Option String
  deriving DecidableEq, Repr

/-- What is known about a project file. -/
structure Summary where
  path : String
  /-- The name of the namespace that the file declares. -/
  nsName : Option String
  definitions : List Definition
  deriving DecidableEq, Repr

namespace Summary

/-- The name of the file without its extension. -/
def stem (s : Summary) : String := fileStem s.path

/-- The summary of a file about which nothing is known. -/
def empty (path : String) : Summary := ⟨path, none, []⟩

end Summary

namespace Tree

variable (t : Tree)

/-- The text of the second form of a list, if it is a symbol. -/
def nameSlot? (n : Node) : Option Node := n.forms[1]?.filter (·.kind == .symbol)

/-- Whether the third form of a list is an attribute map that makes it
    private. -/
def isPrivate (n : Node) : Bool :=
  n.forms[2]?.any fun a => a.kind == .map && containsText ":private".toList (t.chars a)

/-- The public definition that a list with the head `h` is. -/
def definitionOf? (h : Head) (n : Node) : Option Definition := do
  let kind ← h.definitionKind?
  let name ← nameSlot? n
  if h.isPublic && !t.isPrivate n then
    return ⟨t.text name, kind, t.callSignature? n (t.text name)⟩
  else none

/-- The top-level lists that are not deactivated, with their heads. -/
def topLevelForms : List (Head × Node) :=
  t.root.judgedForms.filterMap fun (n, off) =>
    if n.kind.isCall && !off then (t.head? n).map (·, n) else none

/-- The first namespace that a top-level list declares. -/
def declaredNs? : Option String :=
  t.topLevelForms.findSome? fun (h, n) =>
    if h = .ns then (nameSlot? n).map t.text else none

/-- The public definitions of the top level. -/
def publicDefinitions : List Definition :=
  t.topLevelForms.filterMap fun (h, n) => t.definitionOf? h n

end Tree

/-- The summary of a file with the given text; a text of more than `maxText`
    bytes is not looked at. -/
def Summary.scan (path text : String) (maxText : Nat) : Summary :=
  let cs := text.toList
  if maxText < byteLength cs then .empty path
  else
    let t := Tree.read cs
    ⟨path, t.declaredNs?, t.publicDefinitions⟩

end Typeahead
