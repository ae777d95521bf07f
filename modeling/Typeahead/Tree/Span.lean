/-!
# Spans

A span is the half-open range of the bytes that a node covers in its source.
Nothing keeps a span from ending before it starts: such a span is empty and
holds no offset.
-/

namespace Typeahead

/-- The bytes from `start` up to, not including, `stop`. -/
structure Span where
  start : Nat
  stop : Nat
  deriving DecidableEq, Repr

namespace Span

/-- The empty span at an offset. -/
def empty (offset : Nat) : Span := ⟨offset, offset⟩

/-- The number of bytes in the span. -/
def length (s : Span) : Nat := s.stop - s.start

/-- Whether the span holds no byte. -/
def isEmpty (s : Span) : Bool := s.length == 0

/-- Whether the byte at `offset` belongs to the span. -/
def contains (s : Span) (offset : Nat) : Bool := s.start ≤ offset && offset < s.stop

/-- Whether a cursor at `offset` is inside the span or at one of its ends. -/
def touches (s : Span) (offset : Nat) : Bool := s.start ≤ offset && offset ≤ s.stop

/-- Whether the span `s` covers the span `t`. -/
def covers (s t : Span) : Bool := s.start ≤ t.start && t.stop ≤ s.stop

/-- The span as its two offsets with two dots between them. -/
def render (s : Span) : String := toString s.start ++ ".." ++ toString s.stop

end Span

end Typeahead
