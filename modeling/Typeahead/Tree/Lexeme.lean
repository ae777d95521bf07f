import Typeahead.Text.Blank
import Typeahead.Tree.Kind

/-!
# Lexemes

A source is cut into lexemes before anything is known about its nesting: where
a lexeme ends depends only on the characters from its start on. Every text can
be cut, and no character is lost.

* `nextLexeme_append`: a lexeme and what is left after it make up the text;
* `flatMap_text_lex`: the lexemes of a text make up the text.
-/

namespace Typeahead

/-- What a lexeme is for the nesting of forms. -/
inductive Shape
  /-- White space. -/
  | blank
  | comment
  /-- The marker that deactivates the next form. -/
  | marker
  /-- The start of a collection of the given kind. -/
  | opener (kind : Kind)
  /-- A closing delimiter. -/
  | closer (delimiter : Char)
  /-- A sigil that applies to the next form. -/
  | sigil
  /-- A form without parts, of the given kind. -/
  | atom (kind : Kind)
  deriving DecidableEq, Repr

/-- A smallest piece of a source. -/
structure Lexeme where
  shape : Shape
  text : List Char
  deriving DecidableEq, Repr

/-- Whether `c` ends an atom that stands before it. -/
def isTerminator (c : Char) : Bool :=
  isBlank c || c == '(' || c == ')' || c == '[' || c == ']' || c == '{' || c == '}' || c == '"' ||
    c == ';' || c == ','

/-- Whether `c` is a digit from 0 to 9. -/
def isDigit (c : Char) : Bool := '0' ≤ c && c ≤ '9'

/-- The kind of an atom: a keyword starts with a colon, a number with a digit,
    which a sign may precede. -/
def atomKind : List Char → Kind
  | [] => .symbol
  | ':' :: _ => .keyword
  | c :: cs =>
    if isDigit c then .number
    else if (c == '+' || c == '-') && cs.head?.any isDigit then .number
    else .symbol

/-- The rest of a string literal up to its closing quote, and the text after
    it. A character after a backslash does not close the literal. -/
def stringRest : List Char → List Char × List Char
  | [] => ([], [])
  | '\\' :: c :: cs => let (s, t) := stringRest cs; ('\\' :: c :: s, t)
  | c :: cs => if c = '"' then ([c], cs) else let (s, t) := stringRest cs; (c :: s, t)

/-- The rest of a delimited comment up to its end, and the text after it. -/
def commentRest : List Char → List Char × List Char
  | [] => ([], [])
  | '|' :: '#' :: cs => (['|', '#'], cs)
  | c :: cs => let (s, t) := commentRest cs; (c :: s, t)

/-- The kind of the collection that the single character `c` opens. -/
def openerKind? (c : Char) : Option Kind :=
  if c = '(' then some .list
  else if c = '[' then some .vector
  else if c = '{' then some .map
  else none

/-- Whether `c` is a closing delimiter. -/
def isCloser (c : Char) : Bool := c == ')' || c == ']' || c == '}'

/-- Whether the single character `c` is a sigil, whatever follows it. -/
def isSigil (c : Char) : Bool := c == '\'' || c == '\x60' || c == '@' || c == '^'

namespace Lexeme

/-- A run of blanks that starts with `c`. -/
def blank (c : Char) (cs : List Char) : Lexeme × List Char :=
  (⟨.blank, c :: cs.takeWhile isBlank⟩, cs.dropWhile isBlank)

/-- A comment that starts with `c` and goes on to the end of the line. -/
def lineComment (c : Char) (cs : List Char) : Lexeme × List Char :=
  (⟨.comment, c :: cs.takeWhile (· != '\n')⟩, cs.dropWhile (· != '\n'))

/-- An atom that starts with `c`. -/
def atom (c : Char) (cs : List Char) : Lexeme × List Char :=
  let text := c :: cs.takeWhile (!isTerminator ·)
  (⟨.atom (atomKind text), text⟩, cs.dropWhile (!isTerminator ·))

/-- The lexeme that starts with a number sign, followed by the text `cs`. -/
def afterNumberSign : List Char → Lexeme × List Char
  | '_' :: cs => (⟨.marker, ['#', '_']⟩, cs)
  | '{' :: cs => (⟨.opener .set, ['#', '{']⟩, cs)
  | '|' :: cs => (⟨.comment, '#' :: '|' :: (commentRest cs).1⟩, (commentRest cs).2)
  | cs => lineComment '#' cs

/-- The lexeme that starts with a bar, followed by the text `cs`. -/
def afterBar : List Char → Lexeme × List Char
  | '(' :: cs => (⟨.opener .shortFn, ['|', '(']⟩, cs)
  | cs => atom '|' cs

/-- The lexeme that starts with a comma, followed by the text `cs`. -/
def afterComma : List Char → Lexeme × List Char
  | '@' :: cs => (⟨.sigil, [',', '@']⟩, cs)
  | cs => (⟨.sigil, [',']⟩, cs)

end Lexeme

/-- The first lexeme of the text `c :: cs`, and the text after it. -/
def nextLexeme (c : Char) (cs : List Char) : Lexeme × List Char :=
  if isBlank c then Lexeme.blank c cs
  else if c = ';' then Lexeme.lineComment c cs
  else if c = '#' then Lexeme.afterNumberSign cs
  else if c = '|' then Lexeme.afterBar cs
  else if c = ',' then Lexeme.afterComma cs
  else if c = '"' then (⟨.atom .string, c :: (stringRest cs).1⟩, (stringRest cs).2)
  else if isCloser c then (⟨.closer c, [c]⟩, cs)
  else if isSigil c then (⟨.sigil, [c]⟩, cs)
  else
    match openerKind? c with
    | some kind => (⟨.opener kind, [c]⟩, cs)
    | none => Lexeme.atom c cs

theorem stringRest_append (cs : List Char) : (stringRest cs).1 ++ (stringRest cs).2 = cs := by
  fun_induction stringRest cs <;> simp_all

theorem commentRest_append (cs : List Char) : (commentRest cs).1 ++ (commentRest cs).2 = cs := by
  fun_induction commentRest cs <;> simp_all

namespace Lexeme

theorem blank_append (c : Char) (cs : List Char) :
    (blank c cs).1.text ++ (blank c cs).2 = c :: cs := by simp [blank]

theorem lineComment_append (c : Char) (cs : List Char) :
    (lineComment c cs).1.text ++ (lineComment c cs).2 = c :: cs := by simp [lineComment]

theorem atom_append (c : Char) (cs : List Char) :
    (atom c cs).1.text ++ (atom c cs).2 = c :: cs := by simp [atom]

theorem afterNumberSign_append (cs : List Char) :
    (afterNumberSign cs).1.text ++ (afterNumberSign cs).2 = '#' :: cs := by
  rw [afterNumberSign.eq_def]
  split
  · rfl
  · rfl
  · simp [commentRest_append]
  · exact lineComment_append '#' cs

theorem afterBar_append (cs : List Char) :
    (afterBar cs).1.text ++ (afterBar cs).2 = '|' :: cs := by
  rw [afterBar.eq_def]
  split
  · rfl
  · exact atom_append '|' cs

theorem afterComma_append (cs : List Char) :
    (afterComma cs).1.text ++ (afterComma cs).2 = ',' :: cs := by
  rw [afterComma.eq_def]
  split <;> rfl

theorem afterNumberSign_text_ne_nil (cs : List Char) : (afterNumberSign cs).1.text ≠ [] := by
  rw [afterNumberSign.eq_def]
  split <;> simp [lineComment]

theorem afterBar_text_ne_nil (cs : List Char) : (afterBar cs).1.text ≠ [] := by
  rw [afterBar.eq_def]
  split <;> simp [atom]

theorem afterComma_text_ne_nil (cs : List Char) : (afterComma cs).1.text ≠ [] := by
  rw [afterComma.eq_def]
  split <;> simp

end Lexeme

theorem nextLexeme_append (c : Char) (cs : List Char) :
    (nextLexeme c cs).1.text ++ (nextLexeme c cs).2 = c :: cs := by
  rw [nextLexeme]
  split
  · exact Lexeme.blank_append c cs
  split
  · exact Lexeme.lineComment_append c cs
  split
  · next h => rw [h]; exact Lexeme.afterNumberSign_append cs
  split
  · next h => rw [h]; exact Lexeme.afterBar_append cs
  split
  · next h => rw [h]; exact Lexeme.afterComma_append cs
  split
  · simp [stringRest_append]
  split
  · rfl
  split
  · rfl
  split
  · rfl
  · exact Lexeme.atom_append c cs

theorem nextLexeme_text_ne_nil (c : Char) (cs : List Char) : (nextLexeme c cs).1.text ≠ [] := by
  rw [nextLexeme]
  split
  · simp [Lexeme.blank]
  split
  · simp [Lexeme.lineComment]
  split
  · exact Lexeme.afterNumberSign_text_ne_nil cs
  split
  · exact Lexeme.afterBar_text_ne_nil cs
  split
  · exact Lexeme.afterComma_text_ne_nil cs
  split
  · simp
  split
  · simp
  split
  · simp
  split
  · simp
  · simp [Lexeme.atom]

theorem length_nextLexeme_le (c : Char) (cs : List Char) :
    (nextLexeme c cs).2.length ≤ cs.length := by
  have happ := congrArg List.length (nextLexeme_append c cs)
  have hpos := List.length_pos_iff.2 (nextLexeme_text_ne_nil c cs)
  simp only [List.length_append, List.length_cons] at happ
  omega

/-- The lexemes of a text. -/
def lex : List Char → List Lexeme
  | [] => []
  | c :: cs => (nextLexeme c cs).1 :: lex (nextLexeme c cs).2
termination_by cs => cs.length
decreasing_by exact Nat.lt_succ_of_le (length_nextLexeme_le c cs)

theorem flatMap_text_lex (cs : List Char) : (lex cs).flatMap (·.text) = cs := by
  fun_induction lex cs with
  | case1 => rfl
  | case2 c cs ih => rw [List.flatMap_cons, ih, nextLexeme_append]

end Typeahead
