import Typeahead.Candidate.Basic

/-!
# Ranking

Candidates are sorted by their tiers, those of one tier keeping their order or
going by what they show.
-/

namespace Typeahead

/-- How candidates of one tier are ordered. -/
inductive TieBreak
  | insertionOrder
  | alphabetical
  deriving DecidableEq, Repr

/-- How candidates are ranked. -/
structure Criteria where
  tieBreak : TieBreak := .insertionOrder
  /-- How many candidates are kept, if limited. -/
  maxResults : Option Nat := none
  deriving DecidableEq, Repr

namespace Candidate

/-- The candidate with its tier in the arguments of the function `called`.
    Remarks keep theirs. -/
def adjust (called : Option String) (c : Candidate) : Candidate :=
  if c.isRemark then c else { c with priority := c.priority.adjust called c.text }

/-- Whether a candidate may stand before another one. -/
def precedes (tie : TieBreak) (c d : Candidate) : Bool :=
  match tie with
  | .insertionOrder => c.priority ≤ d.priority
  | .alphabetical =>
    c.priority.rank < d.priority.rank ||
      (c.priority.rank == d.priority.rank && c.display ≤ d.display)

/-- The candidates in order, as many as the criteria allow. -/
def rank (called : Option String) (criteria : Criteria) (cs : List Candidate) : List Candidate :=
  let sorted := (cs.map (adjust called)).mergeSort (precedes criteria.tieBreak)
  match criteria.maxResults with
  | some n => sorted.take n
  | none => sorted

end Candidate

end Typeahead
