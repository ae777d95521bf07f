import Typeahead.Text.Blank
import Typeahead.Text.Split

/-!
# Clauses of a namespace declaration

A namespace declaration imports other namespaces, files and classes by clauses
of its own. While a clause is typed its parentheses are not balanced yet, so
that the clause of a cursor is found from the text before it: it is the
innermost parenthesis still open that the keyword of a clause follows.
-/

namespace Typeahead

/-- A place in a namespace declaration. -/
inductive NsClause
  /-- The name of the namespace. -/
  | name
  /-- Between two clauses. -/
  | between
  | require
  | requireFile
  | use
  deriving DecidableEq, Repr

/-- The name of a place. -/
def NsClause.label : NsClause → String
  | name => "Name"
  | between => "TopLevel"
  | require => "Require"
  | requireFile => "RequireFile"
  | use => "Use"

/-- The texts after each parenthesis of a text that is still open at its end,
    innermost first, `stack` being those of an earlier text. A parenthesis
    inside a string does not count; `inString` and `escaped` say whether the
    text starts inside a string, and after a backslash there. -/
def openParens (inString escaped : Bool) (stack : List (List Char)) :
    List Char → List (List Char)
  | [] => stack
  | c :: cs =>
    if inString then
      if escaped then openParens true false stack cs
      else if c == '\\' then openParens true true stack cs
      else openParens (c != '"') false stack cs
    else if c == '"' then openParens true false stack cs
    else if c == '(' then openParens false false (cs :: stack) cs
    else if c == ')' then openParens false false stack.tail cs
    else openParens false false stack cs

/-- The keywords of the clauses. One that continues another comes first. -/
def clauseKeywords : List (String × NsClause) :=
  [(":require-file", .requireFile), (":require", .require), (":use", .use)]

/-- Whether the text after the keyword of a clause shows that the keyword is
    complete. -/
def endsKeyword (cs : List Char) : Bool :=
  cs.head?.all fun c => isBlank c || c == '(' || c == '[' || c == '"'

/-- The clause that a text starts with, and the text after its keyword. -/
def clauseOf? (cs : List Char) : Option (NsClause × List Char) :=
  clauseKeywords.findSome? fun (keyword, clause) =>
    let rest := cs.drop keyword.toList.length
    if keyword.toList.isPrefixOf cs && endsKeyword rest then some (clause, rest) else none

/-- The innermost clause that is open at the end of a text, and the text after
    its keyword. -/
def openClause? (before : List Char) : Option (NsClause × List Char) :=
  (openParens false false [] before).findSome? clauseOf?

/-- The place in a declaration, after its name, where a text ends. -/
def clauseAt (before : List Char) : NsClause :=
  ((openClause? before).map Prod.fst).getD .between

end Typeahead
