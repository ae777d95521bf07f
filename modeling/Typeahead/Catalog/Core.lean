import Typeahead.Catalog.Basic

/-!
# The core of the catalogue

The functions of the core that belong to no narrower group.
-/

namespace Typeahead.Catalog

/-- The functions of the core that belong to no narrower group. -/
def coreFunctions : List Entry :=
  Group.entries .core
    [("str", "(str & args)", "Concatenate the string forms of the arguments."),
     ("print", "(print & xs)", "Print the values."),
     ("println", "(println & xs)", "Print the values followed by a newline."),
     ("printf", "(printf fmt & xs)", "Print a formatted string."),
     ("print-str", "(print-str & xs)", "Printed form of the values as a string."),
     ("format", "(format fmt & xs)", "Format a string with placeholders."),
     ("apply", "(apply f expr*)", "Call a function with arguments spread from a collection."),
     ("identity", "(identity x)", "Return the argument unchanged."),
     ("constantly", "(constantly x)", "Function that always returns `x`."),
     ("comp", "(comp & fs)", "Compose functions right to left."),
     ("complement", "(complement f)", "Function returning the negation of `f`."),
     ("partial", "(partial f & args)", "Function with leading arguments fixed."),
     ("type", "(type x)", "Keyword naming the type of a value."),
     ("name", "(name x)", "Name part of a symbol or keyword."),
     ("namespace", "(namespace x)", "Namespace part of a symbol or keyword."),
     ("full-name", "(full-name x)", "Namespace-qualified name of a symbol or keyword."),
     ("symbol", "(symbol name-or-ns & [name])", "Create a symbol."),
     ("keyword", "(keyword x)", "Create a keyword."),
     ("gensym", "(gensym)", "Fresh unique symbol."),
     ("list", "(list & xs)", "Create a list."),
     ("vector", "(vector & xs)", "Create a vector."),
     ("hash-map", "(hash-map & xs)", "Create a map from key/value pairs."),
     ("set", "(set & xs)", "Create a set."),
     ("eval", "(eval form)", "Evaluate a form."),
     ("compile", "(compile form)", "Compile a form to PHP code."),
     ("read-string", "(read-string s)", "Read the first form of a string."),
     ("deref", "(deref variable)", "Current value of a variable."),
     ("set!", "(set! variable value)", "Set the value of a variable."),
     ("swap!", "(swap! variable f & args)", "Replace a variable's value with `(f value args)`."),
     ("slurp", "(slurp path & [opts])", "Read a whole file into a string."),
     ("spit", "(spit filename data & [opts])", "Write a string to a file."),
     ("transient", "(transient coll)", "Mutable copy of a persistent collection."),
     ("persistent", "(persistent coll)", "Persistent copy of a transient collection."),
     ("rand", "(rand)", "Random float between 0 and 1."),
     ("rand-int", "(rand-int n)", "Random integer between 0 and `n`."),
     ("rand-nth", "(rand-nth xs)", "Random element of a collection."),
     ("sum", "(sum xs)", "Sum of the numbers in a collection."),
     ("mean", "(mean xs)", "Arithmetic mean of the numbers in a collection."),
     ("re-seq", "(re-seq re s)", "All matches of a regular expression."),
     ("bit-and", "(bit-and x y & args)", "Bitwise and."),
     ("bit-or", "(bit-or x y & args)", "Bitwise or."),
     ("bit-xor", "(bit-xor x y & args)", "Bitwise exclusive or."),
     ("bit-not", "(bit-not x)", "Bitwise complement."),
     ("bit-shift-left", "(bit-shift-left x n)", "Shift bits left."),
     ("bit-shift-right", "(bit-shift-right x n)", "Shift bits right."),
     ("with-output-buffer", "(with-output-buffer & body)",
      "Capture everything printed by the body as a string."),
     ("php->phel", "(php->phel x)", "Convert a PHP array into Phel data."),
     ("phel->php", "(phel->php x)", "Convert Phel data into PHP arrays."),
     ("to-php-array", "(to-php-array coll)", "Copy a collection into a PHP array."),
     ("php-indexed-array", "(php-indexed-array & xs)", "Create a PHP indexed array."),
     ("php-associative-array", "(php-associative-array & xs)", "Create a PHP associative array.")]

end Typeahead.Catalog
