/-!
# Kinds of nodes

What a node of a source tree is. *Forms* are what a program consists of:
collections, quoted forms and atoms. Everything else is a token around them:
blanks and comments, delimiters, the sigil of a quoted form, the marker that
deactivates the form after it, and a closing delimiter that closes nothing.
-/

namespace Typeahead

/-- The kind of a node. -/
inductive Kind
  /-- The whole source. -/
  | root
  /-- A list in parentheses. -/
  | list
  /-- A vector in brackets. -/
  | vector
  /-- A map in braces. -/
  | map
  /-- A set, in braces after a number sign. -/
  | set
  /-- A short function, in parentheses after a bar. -/
  | shortFn
  /-- A sigil together with the form it applies to. -/
  | quoted
  | symbol
  | keyword
  | string
  | number
  | whitespace
  /-- A comment to the end of its line, or between its own delimiters. -/
  | lineComment
  /-- The marker that deactivates the next form. -/
  | formComment
  | openDelim
  | closeDelim
  /-- The sigil of a quoted form. -/
  | sigil
  /-- A closing delimiter that closes nothing. -/
  | error
  deriving DecidableEq, Repr

namespace Kind

/-- Whether nodes of this kind are forms. -/
def isForm : Kind → Bool
  | list | vector | map | set | shortFn | quoted | symbol | keyword | string | number => true
  | _ => false

/-- Whether nodes of this kind are collections of forms between delimiters. -/
def isCollection : Kind → Bool
  | list | vector | map | set | shortFn => true
  | _ => false

/-- Whether the first form of such a node is called. -/
def isCall : Kind → Bool
  | list | shortFn => true
  | _ => false

/-- Whether nodes of this kind are blanks or comments. -/
def isTrivia : Kind → Bool
  | whitespace | lineComment => true
  | _ => false

/-- Whether nodes of this kind are words that may still be typed on. -/
def isWord : Kind → Bool
  | symbol | keyword | number => true
  | _ => false

/-- Whether a search for a cursor goes on among the children of such a node. -/
def isNested (k : Kind) : Bool := k.isCollection || k == quoted

/-- The delimiter that closes a collection of this kind. -/
def closer? : Kind → Option Char
  | list | shortFn => some ')'
  | vector => some ']'
  | map | set => some '}'
  | _ => none

/-- The name of the kind in dumps and messages. -/
def label : Kind → String
  | root => "Root"
  | list => "List"
  | vector => "Vector"
  | map => "Map"
  | set => "Set"
  | shortFn => "ShortFn"
  | quoted => "Quoted"
  | symbol => "Symbol"
  | keyword => "Keyword"
  | string => "String"
  | number => "Number"
  | whitespace => "Whitespace"
  | lineComment => "LineComment"
  | formComment => "FormComment"
  | openDelim => "OpenDelim"
  | closeDelim => "CloseDelim"
  | sigil => "Prefix"
  | error => "Error"

/-- All kinds. -/
def all : List Kind :=
  [root, list, vector, map, set, shortFn, quoted, symbol, keyword, string, number, whitespace,
   lineComment, formComment, openDelim, closeDelim, sigil, error]

/-- The kind with a given name. -/
def ofLabel? (s : String) : Option Kind := all.find? (·.label == s)

end Kind

end Typeahead
