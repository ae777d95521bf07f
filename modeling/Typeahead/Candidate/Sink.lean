import Typeahead.Candidate.Basic
import Typeahead.Text.Lowercase

/-!
# Sinks

A sink takes candidates one after the other. It keeps those that fit what has
been typed, whatever the case of the letters, and of several with the same key
only the first.
-/

namespace Typeahead

/-- By what a candidate is told from others: its text, or what it shows if it
    does not insert that. -/
def Candidate.key (c : Candidate) : String := if c.insertion = .plain then c.text else c.display

/-- Whether a candidate fits what has been typed, in small letters. Candidates
    that stand for no name always do. -/
def Candidate.fits (typed : List Char) (c : Candidate) : Bool :=
  match c.insertion with
  | .plain | .template _ => typed.isPrefixOf (lowercase c.text.toList)
  | _ => true

/-- The candidates taken so far. -/
structure Sink where
  /-- What has been typed, in small letters. -/
  typed : List Char
  candidates : List Candidate

namespace Sink

/-- The empty sink for what has been typed. -/
def new (typed : String) : Sink := ⟨lowercase typed.toList, []⟩

/-- Whether a candidate with a given key was taken. -/
def contains (s : Sink) (key : String) : Bool := s.candidates.any (·.key == key)

/-- Whether the sink takes a candidate. -/
def admits (s : Sink) (c : Candidate) : Bool := c.fits s.typed && !s.contains c.key

/-- Takes a candidate, if it fits and its key is new. -/
def push (s : Sink) (c : Candidate) : Sink :=
  if s.admits c then { s with candidates := s.candidates ++ [c] } else s

/-- Takes candidates in order. -/
def pushAll (s : Sink) (cs : List Candidate) : Sink := cs.foldl push s

end Sink

end Typeahead
