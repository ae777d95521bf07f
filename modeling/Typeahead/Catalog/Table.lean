import Typeahead.Catalog.Collections
import Typeahead.Catalog.Core
import Typeahead.Catalog.Forms
import Typeahead.Catalog.Libraries
import Typeahead.Catalog.Numbers

/-!
# The catalogue

All entries in the order in which they are offered. No two entries have the
same name.
-/

namespace Typeahead

open Catalog in
/-- All entries. -/
def catalogue : List Entry :=
  [specialForms, controlFlowForms, macroForms, arithmeticFunctions, predicates,
   collectionFunctions, coreFunctions, stringFunctions, jsonFunctions, base64Functions,
   htmlFunctions, httpFunctions, testFunctions, debugFunctions, replFunctions, phpForms].flatten

/-- The entry of a name. -/
def Entry.ofName? (name : String) : Option Entry := catalogue.find? (·.name == name)

/-- The entries of the groups that `p` accepts. -/
def catalogueOf (p : Group → Bool) : List Entry := catalogue.filter (p ·.group)

end Typeahead
