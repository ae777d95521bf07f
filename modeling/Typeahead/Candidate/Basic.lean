import Typeahead.Candidate.Priority

/-!
# Candidates

A candidate is something that can be typed at the cursor, or a remark about it
that inserts nothing.
-/

namespace Typeahead

/-- The forms that can be inserted as a whole. -/
inductive Template
  | fnDef
  | varDef
  | letIn
  | ifThen
  | lambda
  | whenThen
  deriving DecidableEq, Repr

namespace Template

/-- All templates in the order in which they are offered. -/
def all : List Template := [fnDef, varDef, letIn, ifThen, lambda, whenThen]

/-- The head of the form. -/
def keyword : Template → String
  | fnDef => "defn"
  | varDef => "def"
  | letIn => "let"
  | ifThen => "if"
  | lambda => "fn"
  | whenThen => "when"

/-- The form as it is shown. -/
def expansion : Template → String
  | fnDef => "(defn name [] ())"
  | varDef => "(def name )"
  | letIn => "(let [bindings] body)"
  | ifThen => "(if condition then else)"
  | lambda => "(fn [params] body)"
  | whenThen => "(when condition body)"

/-- The form with the places where the cursor stops. -/
def snippet : Template → String
  | fnDef => "(defn $\x7b1:name\x7d [$2]\n  ($0))"
  | varDef => "(def $\x7b1:name\x7d $0)"
  | letIn => "(let [$\x7b1:bindings\x7d]\n  $0)"
  | ifThen => "(if $\x7b1:condition\x7d\n  $\x7b2:then\x7d\n  $\x7b3:else\x7d)"
  | lambda => "(fn [$\x7b1:params\x7d] $0)"
  | whenThen => "(when $\x7b1:condition\x7d\n  $0)"

/-- The template in words. -/
def description : Template → String
  | fnDef => "Function definition template"
  | varDef => "Variable definition template"
  | letIn => "Let binding template"
  | ifThen => "Conditional template"
  | lambda => "Anonymous function template"
  | whenThen => "When template"

end Template

/-- What accepting a candidate inserts. -/
inductive Insertion
  /-- The text of the candidate. -/
  | plain
  /-- A pair of parentheses, with the cursor between them. -/
  | parens
  /-- A pair of brackets, with the cursor between them. -/
  | brackets
  /-- A whole form. -/
  | template (t : Template)
  /-- Nothing: the candidate is a remark. -/
  | nothing
  deriving DecidableEq, Repr

/-- A suggestion. -/
structure Candidate where
  text : String
  /-- What is shown. -/
  display : String
  /-- A few words about the kind of the candidate. -/
  hint : Option String
  /-- The shape of a call, for functions. -/
  signature : Option String
  documentation : Option String
  priority : Priority
  insertion : Insertion
  deriving DecidableEq, Repr

namespace Candidate

/-- A candidate that shows and inserts a text. -/
def plain (text : String) (priority : Priority) : Candidate :=
  ⟨text, text, none, none, none, priority, .plain⟩

/-- A remark. -/
def remark (display hint : String) (priority : Priority) : Candidate :=
  ⟨"", display, some hint, none, none, priority, .nothing⟩

/-- A candidate that inserts a form. -/
def ofTemplate (t : Template) (priority : Priority) : Candidate :=
  ⟨t.keyword, t.expansion, some t.description, none, none, priority, .template t⟩

/-- A text that is not empty. -/
def nonempty? (s : String) : Option String := if s.isEmpty then none else some s

/-- The candidate with another text shown. -/
def withDisplay (c : Candidate) (display : String) : Candidate := { c with display }

/-- The candidate with a hint. -/
def withHint (c : Candidate) (hint : String) : Candidate := { c with hint := some hint }

/-- The candidate with a call shape, unless that is empty. -/
def withSignature (c : Candidate) (signature : String) : Candidate :=
  { c with signature := nonempty? signature }

/-- The candidate with a description, unless that is empty. -/
def withDocumentation (c : Candidate) (documentation : String) : Candidate :=
  { c with documentation := nonempty? documentation }

/-- The candidate with another way to insert it. -/
def withInsertion (c : Candidate) (insertion : Insertion) : Candidate := { c with insertion }

/-- Whether the candidate is a remark. -/
def isRemark (c : Candidate) : Bool := c.insertion = .nothing

/-- The candidate for an entry of the catalogue. -/
def ofEntry (e : Entry) : Candidate :=
  (plain e.name (.ofEntry e)).withHint e.group.label
    |>.withSignature e.signature |>.withDocumentation e.summary

/-- The candidate for a name that is bound at the cursor. -/
def ofBinding (b : Binding) : Candidate :=
  (plain b.name (.ofBinding b)).withHint b.hint |>.withSignature (b.signature.getD "")

end Candidate

end Typeahead
