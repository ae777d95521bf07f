import Typeahead.Text.Bytes
import Typeahead.Text.Quoted

/-!
# Fixtures

A fixture is a source text in which a mark shows the place of the cursor. A text
that shows a fault is made smaller by cutting characters off its end.
-/

namespace Typeahead

/-- What is wrong with a fixture. -/
inductive FixtureError
  | noMark (fixture : List Char)
  | manyMarks (fixture : List Char)
  deriving DecidableEq, Repr

/-- The wording of an error. -/
def FixtureError.message : FixtureError → String
  | noMark cs => "fixture has no cursor marker: " ++ String.ofList (quote cs)
  | manyMarks cs => "fixture has more than one cursor marker: " ++ String.ofList (quote cs)

/-- The mark of a cursor. -/
def cursorMark : Char := '¦'

/-- The text of a fixture without its mark, and the offset of the mark. -/
def readFixture (cs : List Char) : Except FixtureError (List Char × Nat) :=
  let before := cs.takeWhile (· != cursorMark)
  match cs.dropWhile (· != cursorMark) with
  | [] => .error (.noMark cs)
  | _ :: after =>
    if after.contains cursorMark then .error (.manyMarks cs)
    else .ok (before ++ after, byteLength before)

/-- The texts that are left when up to eight characters are cut off, the longest
    first. -/
def truncations (cs : List Char) : List (List Char) :=
  ((List.range (min cs.length 8)).map fun i => cs.take (cs.length - 1 - i))

end Typeahead
