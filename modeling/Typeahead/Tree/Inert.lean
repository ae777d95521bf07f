import Typeahead.Tree.Marker
import Typeahead.Tree.MarkerText

/-!
# Inert code

Code is inert if a form that it belongs to is deactivated, however far outside.
Where no marker of the tree says so, the text of the vector around the form has
the last word.
-/

namespace Typeahead

/-- Whether the form at a location, or a form around it, is deactivated. -/
def Location.isInDeactivated (l : Location) : Bool :=
  l.selfAndAncestors.any fun a => a.node.kind.isForm && a.isDeactivated

/-- Whether the node at a location is inert; a node that is no form is judged by
    the form that it lies in. -/
def Tree.isInert (t : Tree) (l : Location) : Bool :=
  match l.enclosingForm? with
  | none => false
  | some form => form.isInDeactivated || t.isMarkedInText form

end Typeahead
