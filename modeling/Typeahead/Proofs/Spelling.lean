import Typeahead.Proofs.Construction

/-!
# Well-nested texts

The *outline* of a tree is what is left of it without numbers, spans and blanks:
the kinds of its nodes, how they are nested, and the texts of the leaves.

Lexemes *spell* a form if placing them, whatever is open, adds nodes with the
outlines of the form to the innermost open node (`Spells`, `SpellsAll`); but for
the markers in front of it, a form is a single node that spans the lexemes
(`SpellsOne`). A text spells a form if its lexemes do, whatever is written after
it and ends a word (`Spelled`, `SpelledOne`); texts with single blanks in between
spell several forms (`SpelledAll`). What is spelled is read without recovery:
every collection is closed, and there is no error.

* `SpellsOne.atom`, `SpellsOne.quoted`, `SpellsOne.collection`, `Spells.discarded`:
  how the lexemes of larger forms are made of those of smaller ones;
* `SpellsAll.outlined_read`: a text whose lexemes spell forms is read into nodes
  with their outlines;
* `SpelledOne.word`, `SpelledOne.string`, `SpelledOne.quoted`,
  `SpelledOne.collection`, `Spelled.discarded`: the same steps for texts.
-/

namespace Typeahead

/-! ### Outlines -/

/-- A node without its number and its span. -/
inductive Outline
  /-- A node without children, with its text. -/
  | leaf (kind : Kind) (text : List Char)
  | node (kind : Kind) (children : List Outline)
  deriving Repr

namespace Node

mutual

/-- The outline of a node over the source `src`. -/
def outline (src : List Char) : Node → Outline
  | ⟨_, kind, span, []⟩ => .leaf kind (slice src span.start span.stop)
  | ⟨_, kind, _, n :: ns⟩ => .node kind (outlineAll src (n :: ns))

/-- The outlines of nodes, without the blanks among them. -/
def outlineAll (src : List Char) : List Node → List Outline
  | [] => []
  | n :: ns =>
    if n.kind = .whitespace then outlineAll src ns else n.outline src :: outlineAll src ns

end

theorem outlineAll_append (src : List Char) (ms ns : List Node) :
    outlineAll src (ms ++ ns) = outlineAll src ms ++ outlineAll src ns := by
  induction ms with
  | nil => rfl
  | cons m ms ih =>
    rw [List.cons_append, outlineAll, outlineAll]
    split
    · exact ih
    · rw [ih, List.cons_append]

/-- The node needs no recovery: it is no error, and closed if it is a
    collection. -/
def Whole (n : Node) : Prop :=
  n.kind ≠ .error ∧ (n.kind.isCollection = true → n.isClosed = true)

end Node

/-- The outlines of what stands at the top level of a tree. -/
def Tree.outline (t : Tree) : List Outline := Node.outlineAll t.source t.root.children

/-- The outline of a collection of the given kind between two delimiters. -/
def Outline.collection (kind : Kind) (opener : List Char) (closer : Char)
    (items : List Outline) : Outline :=
  .node kind (.leaf .openDelim opener :: items ++ [.leaf .closeDelim [closer]])

/-! ### Adding finished nodes -/

namespace Builder

variable (b : Builder) (ns : List Node) (next : Nat)

/-- The construction with finished nodes added to the innermost open one, and
    `next` as the number of the next node. -/
def extend : Builder :=
  { b with top := { b.top with children := ns.reverse ++ b.top.children }, next }

theorem extend_extend (ms : List Node) (last : Nat) :
    (b.extend ns next).extend ms last = b.extend (ns ++ ms) last := by
  simp [extend]

theorem extend_token (kind : Kind) (span : Span) :
    (b.token kind span).extend ns next = b.extend (⟨b.next, kind, span, []⟩ :: ns) next := by
  simp [extend, token, Frame.add]

theorem token_extend (kind : Kind) (span : Span) :
    (b.extend ns next).token kind span =
      b.extend (ns ++ [⟨next, kind, span, []⟩]) (next + 1) := by
  simp [extend, token, Frame.add]

variable {b}

/-- Only quoted forms are settled. -/
theorem settle_of_kind_ne (h : b.top.kind ≠ .quoted) (stop : Nat) : b.settle stop = b := by
  rw [settle]
  cases hbelow : b.below with
  | nil => rw [settle.go, ← hbelow]
  | cons f fs => rw [settle.go, if_neg h, ← hbelow]

/-- Settling frames does not look at the frames of the construction itself. -/
theorem settle_go_frames (stop : Nat) (f : Frame) (fs : List Frame) (top : Frame)
    (below : List Frame) :
    settle.go stop { b with top := f, below := fs } top below = settle.go stop b top below := by
  induction below generalizing top with
  | nil => rfl
  | cons g gs ih =>
    rw [settle.go, settle.go]
    split
    · exact ih _
    · rfl

/-- A quoted form that has its form is closed, and settling goes on around it. -/
theorem settle_of_kind_eq {f : Frame} {fs : List Frame} (h : b.top.kind = .quoted)
    (hbelow : b.below = f :: fs) (stop : Nat) :
    b.settle stop = (b.finish stop).settle stop := by
  rw [settle, hbelow, settle.go, if_pos h, finish_cons hbelow]
  exact (settle_go_frames stop _ fs _ fs).symm

/-- Nothing is unwound if the delimiter closes the innermost open node. -/
theorem unwindTo_of_closer? {d : Char} (h : b.top.kind.closer? = some d) (stop : Nat) :
    b.unwindTo d stop = b := by
  rw [unwindTo]
  cases hbelow : b.below with
  | nil => rw [unwindTo.go, ← hbelow]
  | cons f fs => rw [unwindTo.go, if_pos h, ← hbelow]

theorem closes_of_closer? {d : Char} (h : b.top.kind.closer? = some d) : b.closes d = true := by
  simp [closes, h]

/-- A node that was opened, given children and closed is one more child of the
    node around it. -/
theorem finish_extend_start (kind : Kind) (start stop : Nat) :
    ((b.start kind start).extend ns next).finish stop =
      b.extend [⟨b.next, kind, ⟨start, stop⟩, ns⟩] next := by
  rw [finish_cons rfl]
  simp [extend, Builder.start, Frame.add, Frame.close]

/-- The delimiter of a collection becomes its last child, and completes the
    quoted forms that wait for the collection. -/
theorem place_closer_extend_start {kind : Kind} {d : Char} (h : kind.closer? = some d)
    (start stop : Nat) :
    ((b.start kind start).extend ns next).place stop ⟨.closer d, [d]⟩ =
      (b.extend [⟨b.next, kind, ⟨start, stop + byteLength [d]⟩,
        ns ++ [⟨next, .closeDelim, ⟨stop, stop + byteLength [d]⟩, []⟩]⟩] (next + 1)).settle
        (stop + byteLength [d]) := by
  have htop : ((b.start kind start).extend ns next).top.kind.closer? = some d := h
  rw [place]
  simp only [closes_of_closer? htop, if_true]
  rw [unwindTo_of_closer? htop, token_extend, finish_extend_start]

end Builder

/-- The nodes have the given outlines, and none of them needs recovery. -/
structure Node.Outlined (src : List Char) (ns : List Node) (os : List Outline) : Prop where
  outline_eq : Node.outlineAll src ns = os
  whole : ∀ n ∈ Node.preorderAll ns, n.Whole

namespace Node.Outlined

variable {src : List Char} {ns ms : List Node} {os ps : List Outline} {kind : Kind}

theorem nil (src : List Char) : Outlined src [] [] :=
  ⟨by rw [outlineAll], fun _ h => absurd h (by rw [preorderAll]; exact List.not_mem_nil)⟩

theorem append (hns : Outlined src ns os) (hms : Outlined src ms ps) :
    Outlined src (ns ++ ms) (os ++ ps) := by
  refine ⟨by rw [outlineAll_append, hns.outline_eq, hms.outline_eq], fun n hn => ?_⟩
  rw [preorderAll_append] at hn
  exact (List.mem_append.1 hn).elim (hns.whole n) (hms.whole n)

theorem whole_token (herr : kind ≠ .error) (hcoll : kind.isCollection = false) (id : Nat)
    (span : Span) : ∀ n ∈ preorderAll [⟨id, kind, span, []⟩], n.Whole := by
  intro n hn
  rw [preorderAll, preorder, preorderAll, List.append_nil, List.mem_singleton] at hn
  subst hn
  exact ⟨herr, fun h => absurd (hcoll.symm.trans h) Bool.false_ne_true⟩

/-- A token that stands where its text does. -/
theorem token {text : List Char} {start : Nat} (hblank : kind ≠ .whitespace)
    (herr : kind ≠ .error) (hcoll : kind.isCollection = false) (h : StandsAt src start text)
    (id : Nat) :
    Outlined src [⟨id, kind, ⟨start, start + byteLength text⟩, []⟩] [.leaf kind text] :=
  ⟨by rw [outlineAll, if_neg hblank, outline, outlineAll, h.slice_eq], whole_token herr hcoll _ _⟩

theorem blank (src : List Char) (id : Nat) (span : Span) :
    Outlined src [⟨id, .whitespace, span, []⟩] [] :=
  ⟨by rw [outlineAll, if_pos rfl, outlineAll], whole_token (by decide) rfl _ _⟩

/-- A node around nodes that need no recovery, which is closed if it is a
    collection. -/
theorem node {id : Nat} {span : Span} (hblank : kind ≠ .whitespace) (herr : kind ≠ .error)
    (hclosed : kind.isCollection = true → Node.isClosed ⟨id, kind, span, ns⟩ = true)
    (hne : ns ≠ []) (h : Outlined src ns os) :
    Outlined src [⟨id, kind, span, ns⟩] [.node kind os] := by
  constructor
  · cases ns with
    | nil => exact absurd rfl hne
    | cons n ns => rw [outlineAll, if_neg hblank, outline, h.outline_eq, outlineAll]
  · intro n hn
    rw [preorderAll, preorder, preorderAll, List.append_nil] at hn
    rcases List.mem_cons.1 hn with rfl | hn
    · exact ⟨herr, hclosed⟩
    · exact h.whole n hn

/-- A collection with both of its delimiters. -/
theorem collection {d : Char} {opener : List Char} {start stop : Nat}
    (hk : kind.closer? = some d) (hopen : StandsAt src start opener)
    (hclose : StandsAt src stop [d]) (h : Outlined src ns os) (id first last : Nat) (span : Span) :
    Outlined src
      [⟨id, kind, span, ⟨first, .openDelim, ⟨start, start + byteLength opener⟩, []⟩ :: ns ++
        [⟨last, .closeDelim, ⟨stop, stop + byteLength [d]⟩, []⟩]⟩]
      [.collection kind opener d os] := by
  have hcoll := Kind.isCollection_of_closer? hk
  refine node ?_ ?_ (fun _ => ?_) (by simp) ?_
  · rintro rfl
    exact absurd hcoll (by decide)
  · rintro rfl
    exact absurd hcoll (by decide)
  · rw [Node.isClosed, List.getLast?_concat]
    rfl
  · exact ((token (by decide) (by decide) rfl hopen first).append h).append
      (token (by decide) (by decide) rfl hclose last)

end Node.Outlined

/-! ### Lexemes that spell forms -/

theorem Kind.isForm_of_isAtom {k : Kind} (h : k.isAtom = true) : k.isForm = true := by
  revert h
  cases k <;> decide

theorem Kind.isForm_of_closer? {k : Kind} {d : Char} (h : k.closer? = some d) :
    k.isForm = true := by
  cases k <;> first | rfl | cases h

/-- The lexemes spell one form, together with the markers in front of it:
    wherever they are placed, nodes with these outlines are added to the innermost
    open node, and complete the quoted forms that wait for a form. -/
def Spells (ls : List Lexeme) (os : List Outline) : Prop :=
  ∀ (b : Builder) (start : Nat), StandsAt b.source start (ls.flatMap (·.text)) →
    ∃ ns next, Node.Outlined b.source ns os ∧
      b.placeAll start ls = (b.extend ns next).settle (start + byteLength (ls.flatMap (·.text)))

/-- The lexemes spell one form that is a single node: wherever they are placed, a form
    with this outline that spans them is added to the innermost open node, and
    completes the quoted forms that wait for a form. -/
def SpellsOne (ls : List Lexeme) (o : Outline) : Prop :=
  ∀ (b : Builder) (start : Nat), StandsAt b.source start (ls.flatMap (·.text)) →
    ∃ n next, Node.Outlined b.source [n] [o] ∧ n.kind.isForm = true ∧
      n.span = ⟨start, start + byteLength (ls.flatMap (·.text))⟩ ∧
      b.placeAll start ls = (b.extend [n] next).settle (start + byteLength (ls.flatMap (·.text)))

/-- The lexemes spell any number of forms, with blanks around them: placed inside
    a node that takes more than one form, they add nodes with these outlines. -/
def SpellsAll (ls : List Lexeme) (os : List Outline) : Prop :=
  ∀ (b : Builder) (start : Nat), b.top.kind ≠ .quoted →
    StandsAt b.source start (ls.flatMap (·.text)) →
    ∃ ns next, Node.Outlined b.source ns os ∧ b.placeAll start ls = b.extend ns next

section

variable {ls ms : List Lexeme} {os ps : List Outline} {kind : Kind} {text : List Char}

theorem SpellsAll.nil : SpellsAll [] [] := fun b _ _ _ => ⟨[], b.next, .nil _, rfl⟩

theorem SpellsAll.blank (hls : SpellsAll ls os) (text : List Char) :
    SpellsAll (⟨.blank, text⟩ :: ls) os := by
  intro b start hb hsrc
  rw [List.flatMap_cons] at hsrc
  obtain ⟨ns, next, hns, hplace⟩ :=
    hls (b.token .whitespace ⟨start, start + byteLength text⟩) _ hb hsrc.append.2
  rw [Builder.extend_token] at hplace
  exact ⟨_, next, (Node.Outlined.blank _ _ _).append hns, hplace⟩

theorem SpellsAll.form (hls : Spells ls os) (hms : SpellsAll ms ps) :
    SpellsAll (ls ++ ms) (os ++ ps) := by
  intro b start hb hsrc
  rw [List.flatMap_append] at hsrc
  obtain ⟨hform, hrest⟩ := hsrc.append
  obtain ⟨ns, mid, hns, hplace⟩ := hls b start hform
  obtain ⟨ns', next, hns', hplace'⟩ := hms (b.extend ns mid) _ hb hrest
  -- inside a node that takes more than one form, there is nothing to settle
  have hopen : (b.extend ns mid).top.kind ≠ .quoted := hb
  rw [Builder.settle_of_kind_ne hopen] at hplace
  refine ⟨ns ++ ns', next, hns.append hns', ?_⟩
  rw [Builder.placeAll_append, hplace, hplace', Builder.extend_extend]

theorem SpellsOne.spells {o : Outline} (hls : SpellsOne ls o) : Spells ls [o] := by
  intro b start hsrc
  obtain ⟨n, next, hn, -, -, hplace⟩ := hls b start hsrc
  exact ⟨[n], next, hn, hplace⟩

theorem SpellsOne.atom (hk : kind.isAtom = true) (text : List Char) :
    SpellsOne [⟨.atom kind, text⟩] (.leaf kind text) := by
  intro b start hsrc
  rw [List.flatMap_singleton] at hsrc ⊢
  refine ⟨_, _, .token ?_ ?_ (Kind.isCollection_of_isAtom hk) hsrc b.next,
    Kind.isForm_of_isAtom hk, rfl, rfl⟩
  · rintro rfl
    cases hk
  · rintro rfl
    cases hk

/-- A marker stays a sibling of the form after it. -/
theorem Spells.discarded (hls : Spells ls os) (text : List Char) :
    Spells (⟨.marker, text⟩ :: ls) (.leaf .formComment text :: os) := by
  intro b start hsrc
  rw [List.flatMap_cons] at hsrc ⊢
  obtain ⟨hmarker, hrest⟩ := hsrc.append
  obtain ⟨ns, next, hns, hplace⟩ :=
    hls (b.token .formComment ⟨start, start + byteLength text⟩) _ hrest
  rw [Builder.extend_token] at hplace
  have hnode : Node.Outlined b.source
      [⟨b.next, .formComment, ⟨start, start + byteLength text⟩, []⟩] [.leaf .formComment text] :=
    .token (by decide) (by decide) rfl hmarker b.next
  rw [byteLength_append, ← Nat.add_assoc]
  exact ⟨_, next, hnode.append hns, hplace⟩

theorem SpellsOne.quoted (hls : Spells ls os) (text : List Char) :
    SpellsOne (⟨.sigil, text⟩ :: ls) (.node .quoted (.leaf .sigil text :: os)) := by
  intro b start hsrc
  rw [List.flatMap_cons] at hsrc ⊢
  obtain ⟨hsigil, hrest⟩ := hsrc.append
  obtain ⟨ns, next, hns, hplace⟩ :=
    hls ((b.start .quoted start).token .sigil ⟨start, start + byteLength text⟩) _ hrest
  -- the node of the sigil is what settling closes first
  rw [Builder.extend_token, Builder.settle_of_kind_eq rfl rfl,
    Builder.finish_extend_start] at hplace
  have hnode : Node.Outlined b.source
      [⟨b.next + 1, .sigil, ⟨start, start + byteLength text⟩, []⟩] [.leaf .sigil text] :=
    .token (by decide) (by decide) rfl hsigil (b.next + 1)
  have hitems := hnode.append hns
  rw [byteLength_append, ← Nat.add_assoc]
  exact ⟨_, next, .node (by decide) (by decide) (fun h => absurd h Bool.false_ne_true)
    (List.cons_ne_nil _ _) hitems, rfl, rfl, hplace⟩

/-- Lexemes between the delimiters of a collection that add nodes to it and leave it open: the
    collection is added as one node around them. -/
theorem Builder.placeAll_collection {b : Builder} {start stop next : Nat} {d : Char}
    {ns : List Node} (hk : kind.closer? = some d)
    (hplace : ((b.start kind start).token .openDelim ⟨start, start + byteLength text⟩).placeAll
      (start + byteLength text) ls =
        ((b.start kind start).token .openDelim ⟨start, start + byteLength text⟩).extend ns next)
    (hstop : start + byteLength text + byteLength (ls.flatMap (·.text)) = stop) :
    b.placeAll start (⟨.opener kind, text⟩ :: (ls ++ [⟨.closer d, [d]⟩])) =
      (b.extend [⟨b.next, kind, ⟨start, stop + byteLength [d]⟩,
        ⟨b.next + 1, .openDelim, ⟨start, start + byteLength text⟩, []⟩ :: ns ++
          [⟨next, .closeDelim, ⟨stop, stop + byteLength [d]⟩, []⟩]⟩] (next + 1)).settle
        (stop + byteLength [d]) := by
  -- after the items the collection is the innermost open node again
  have hrun : (b.place start ⟨.opener kind, text⟩).placeAll (start + byteLength text) ls =
      (b.start kind start).extend
        (⟨b.next + 1, .openDelim, ⟨start, start + byteLength text⟩, []⟩ :: ns) next :=
    hplace.trans (Builder.extend_token ..)
  rw [Builder.placeAll, Builder.placeAll_append, hrun, hstop]
  exact Builder.place_closer_extend_start _ _ hk _ _

theorem SpellsOne.collection {d : Char} (hk : kind.closer? = some d) (hls : SpellsAll ls os)
    (text : List Char) :
    SpellsOne (⟨.opener kind, text⟩ :: (ls ++ [⟨.closer d, [d]⟩])) (.collection kind text d os) := by
  intro b start hsrc
  have hopened : kind ≠ .quoted := by
    rintro rfl
    cases hk
  rw [List.flatMap_cons, List.flatMap_append, List.flatMap_singleton] at hsrc ⊢
  obtain ⟨hopen, hrest⟩ := hsrc.append
  obtain ⟨hitems, hclose⟩ := hrest.append
  obtain ⟨ns, next, hns, hplace⟩ :=
    hls ((b.start kind start).token .openDelim ⟨start, start + byteLength text⟩) _ hopened hitems
  rw [byteLength_append, byteLength_append, ← Nat.add_assoc, ← Nat.add_assoc]
  exact ⟨_, next + 1, .collection hk hopen hclose hns _ (b.next + 1) next _,
    Kind.isForm_of_closer? hk, rfl, Builder.placeAll_collection hk hplace rfl⟩

end

/-- A text whose lexemes spell forms is read into nodes with their outlines, none
    of which needs recovery. -/
theorem SpellsAll.outlined_read {cs : List Char} {os : List Outline} (h : SpellsAll (lex cs) os) :
    (Tree.read cs).source = cs ∧ (∀ n ∈ (Tree.read cs).nodes, n.Whole) ∧
      Node.outlineAll cs (Tree.read cs).root.children = os := by
  have hsrc : StandsAt cs 0 ((lex cs).flatMap (·.text)) := by
    rw [flatMap_text_lex]
    exact standsAt_self cs
  have hroot : Kind.root ≠ .quoted := by decide
  obtain ⟨ns, next, hns, hplace⟩ := h (Builder.new cs) 0 hroot hsrc
  have hread : Tree.read cs = ⟨cs, ⟨0, .root, ⟨0, byteLength cs⟩, ns⟩⟩ := by
    rw [Tree.read, hplace]
    simp [Builder.toTree, Builder.extend, Builder.new, Frame.closeAll, Frame.close]
  rw [hread]
  refine ⟨rfl, fun n hn => ?_, hns.outline_eq⟩
  rw [Tree.nodes, Node.preorder] at hn
  rcases List.mem_cons.1 hn with rfl | hn
  · exact ⟨Kind.noConfusion, fun h => absurd h Bool.false_ne_true⟩
  · exact hns.whole n hn

/-! ### Texts that spell forms -/

/-- A word that stands before the text ends there. -/
def EndsWord (cs : List Char) : Prop := ∀ c ∈ cs.head?, isTerminator c = true

/-- The text does not begin with a blank. -/
def BeginsDark (cs : List Char) : Prop := ∀ c ∈ cs.head?, isBlank c = false

/-- The text spells one form with the given outlines, whatever follows it and
    ends a word. -/
structure Spelled (text : List Char) (os : List Outline) : Prop where
  ne_nil : text ≠ []
  beginsDark : BeginsDark text
  lexes : ∀ rest, EndsWord rest →
    ∃ ls, lex (text ++ rest) = ls ++ lex rest ∧ Spells ls os

/-- The text spells one form that is a single node with the given outline. -/
structure SpelledOne (text : List Char) (o : Outline) : Prop where
  ne_nil : text ≠ []
  beginsDark : BeginsDark text
  lexes : ∀ rest, EndsWord rest →
    ∃ ls, lex (text ++ rest) = ls ++ lex rest ∧ SpellsOne ls o

theorem SpelledOne.spelled {text : List Char} {o : Outline} (h : SpelledOne text o) :
    Spelled text [o] := by
  refine ⟨h.ne_nil, h.beginsDark, fun rest hrest => ?_⟩
  obtain ⟨ls, hlex, hls⟩ := h.lexes rest hrest
  exact ⟨ls, hlex, hls.spells⟩

/-- The text spells forms with the given outlines, whatever follows them and is
    neither a blank nor part of a word. -/
structure SpelledAll (text : List Char) (os : List Outline) : Prop where
  beginsDark : BeginsDark text
  lexes : ∀ rest, EndsWord rest → BeginsDark rest →
    ∃ ls, lex (text ++ rest) = ls ++ lex rest ∧ SpellsAll ls os

theorem lex_cons {c : Char} {cs rest : List Char} {l : Lexeme} (h : nextLexeme c cs = (l, rest)) :
    lex (c :: cs) = l :: lex rest := by
  rw [lex, h]

theorem lex_blank {c : Char} {cs : List Char} (hc : isBlank c = true) (hcs : BeginsDark cs) :
    lex (c :: cs) = ⟨.blank, [c]⟩ :: lex cs := by
  refine lex_cons ?_
  rw [nextLexeme, if_pos hc, Lexeme.blank]
  cases cs with
  | nil => rfl
  | cons x xs =>
    have hx : isBlank x = false := hcs x rfl
    simp [hx]

theorem ne_of_isBlank {c d : Char} (hc : isBlank c = true) (hd : isBlank d = false) : c ≠ d := by
  rintro rfl
  rw [hc] at hd
  cases hd

theorem isTerminator_of_isBlank {c : Char} (h : isBlank c = true) : isTerminator c = true := by
  simp [isTerminator, h]

theorem beginsDark_cons {c : Char} (hc : isBlank c = false) (cs : List Char) :
    BeginsDark (c :: cs) := by
  intro x hx
  obtain rfl : c = x := Option.some.inj hx
  exact hc

theorem endsWord_cons {c : Char} (hc : isTerminator c = true) (cs : List Char) :
    EndsWord (c :: cs) := by
  intro x hx
  obtain rfl : c = x := Option.some.inj hx
  exact hc

theorem BeginsDark.append {s t : List Char} (hs : BeginsDark s) (ht : BeginsDark t) :
    BeginsDark (s ++ t) := by
  cases s with
  | nil => exact ht
  | cons c s => exact hs

namespace SpelledAll

variable {s t : List Char} {os ps : List Outline}

theorem nil : SpelledAll [] [] :=
  ⟨fun _ h => absurd h (by simp), fun rest _ _ => ⟨[], rfl, .nil⟩⟩

theorem one (h : Spelled s os) : SpelledAll s os := by
  refine ⟨h.beginsDark, fun rest hend _ => ?_⟩
  obtain ⟨ls, hlex, hls⟩ := h.lexes rest hend
  refine ⟨ls, hlex, ?_⟩
  have hform := SpellsAll.form hls .nil
  rwa [List.append_nil, List.append_nil] at hform

/-- A form, a blank and more forms. -/
theorem cons {c : Char} (hc : isBlank c = true) (hs : Spelled s os) (ht : SpelledAll t ps) :
    SpelledAll (s ++ c :: t) (os ++ ps) := by
  constructor
  · obtain ⟨x, xs, rfl⟩ := List.exists_cons_of_ne_nil hs.ne_nil
    exact hs.beginsDark
  · intro rest hend hdark
    obtain ⟨ms, hlex', hms⟩ := ht.lexes rest hend hdark
    obtain ⟨ls, hlex, hls⟩ :=
      hs.lexes (c :: (t ++ rest)) (endsWord_cons (isTerminator_of_isBlank hc) _)
    -- the blank ends the form before it, and is a lexeme by itself: what follows begins dark
    refine ⟨ls ++ ⟨.blank, [c]⟩ :: ms, ?_, .form hls (.blank hms [c])⟩
    rw [List.append_assoc, List.cons_append, hlex, lex_blank hc (ht.beginsDark.append hdark),
      hlex', List.append_assoc, List.cons_append]

/-- A text that spells forms is read into nodes with their outlines. -/
theorem outlined_read (h : SpelledAll s os) :
    (Tree.read s).source = s ∧ (∀ n ∈ (Tree.read s).nodes, n.Whole) ∧
      Node.outlineAll s (Tree.read s).root.children = os := by
  obtain ⟨ls, hlex, hls⟩ :=
    h.lexes [] (fun _ hc => absurd hc (by simp)) (fun _ hc => absurd hc (by simp))
  rw [List.append_nil, lex, List.append_nil] at hlex
  exact SpellsAll.outlined_read (hlex ▸ hls)

end SpelledAll

/-! ### Forms made of smaller ones -/

/-- Whether `c` is the first character of a word. -/
def startsWord (c : Char) : Bool := !isTerminator c && c != '#' && c != '|' && !isSigil c

theorem nextLexeme_of_startsWord {c : Char} (h : startsWord c = true) (cs : List Char) :
    nextLexeme c cs = Lexeme.atom c cs := by
  simp only [startsWord, isTerminator, Bool.and_eq_true, Bool.not_eq_true', Bool.or_eq_false_iff,
    bne_iff_ne, beq_eq_false_iff_ne, ne_eq] at h
  simp [nextLexeme, h, isCloser, openerKind?]

theorem isBlank_of_startsWord {c : Char} (h : startsWord c = true) : isBlank c = false := by
  cases hc : isBlank c with
  | false => rfl
  | true => simp [startsWord, isTerminator_of_isBlank hc] at h

/-- A word is cut where the text after it ends words. -/
theorem atom_append_of_endsWord {c : Char} {cs rest : List Char}
    (hcs : ∀ x ∈ cs, isTerminator x = false) (hrest : EndsWord rest) :
    Lexeme.atom c (cs ++ rest) = (⟨.atom (atomKind (c :: cs)), c :: cs⟩, rest) := by
  have hcs' : ∀ x ∈ cs, (!isTerminator x) = true := fun x hx => by simp [hcs x hx]
  rw [Lexeme.atom, List.takeWhile_append_of_pos hcs', List.dropWhile_append_of_pos hcs']
  cases rest with
  | nil => simp
  | cons x xs =>
    have hx : isTerminator x = true := hrest x rfl
    simp [hx]

theorem stringRest_append_quote {cs : List Char} (hcs : ∀ x ∈ cs, x ≠ '"' ∧ x ≠ '\\')
    (rest : List Char) : stringRest (cs ++ '"' :: rest) = (cs ++ ['"'], rest) := by
  induction cs with
  | nil => rw [List.nil_append, stringRest] <;> simp
  | cons c cs ih =>
    obtain ⟨hquote, hslash⟩ := hcs c List.mem_cons_self
    rw [List.cons_append, stringRest, ih fun x hx => hcs x (List.mem_cons_of_mem _ hx)]
    · simp [hquote]
    · exact fun _ _ h => absurd h hslash

/-- The text that opens a collection of the kind. -/
def Kind.opener : Kind → List Char
  | list => ['(']
  | vector => ['[']
  | map => ['\x7b']
  | set => ['#', '\x7b']
  | shortFn => ['|', '(']
  | _ => []

theorem Kind.exists_opener_eq {kind : Kind} {d : Char} (h : kind.closer? = some d) :
    ∃ c cs, kind.opener = c :: cs ∧ isBlank c = false := by
  cases kind <;> first | exact ⟨_, _, rfl, by decide⟩ | cases h

theorem lex_opener {kind : Kind} {d : Char} (h : kind.closer? = some d) (cs : List Char) :
    lex (kind.opener ++ cs) = ⟨.opener kind, kind.opener⟩ :: lex cs := by
  cases kind <;> first | exact lex_cons rfl | cases h

theorem closing_of_closer? {kind : Kind} {d : Char} (h : kind.closer? = some d)
    (cs : List Char) :
    EndsWord (d :: cs) ∧ BeginsDark (d :: cs) ∧ lex (d :: cs) = ⟨.closer d, [d]⟩ :: lex cs := by
  cases kind <;> cases h
  all_goals exact ⟨endsWord_cons (by decide) _, beginsDark_cons (by decide) _, lex_cons rfl⟩

namespace SpelledOne

variable {s : List Char} {os : List Outline} {c : Char} {cs : List Char}

theorem word (hc : startsWord c = true) (hcs : ∀ x ∈ cs, isTerminator x = false) :
    SpelledOne (c :: cs) (.leaf (atomKind (c :: cs)) (c :: cs)) := by
  refine ⟨List.cons_ne_nil _ _, beginsDark_cons (isBlank_of_startsWord hc) _,
    fun rest hrest => ⟨[_], lex_cons ?_, .atom (isAtom_atomKind _) _⟩⟩
  exact (nextLexeme_of_startsWord hc _).trans (atom_append_of_endsWord hcs hrest)

theorem string (hcs : ∀ x ∈ cs, x ≠ '"' ∧ x ≠ '\\') :
    SpelledOne ('"' :: cs ++ ['"']) (.leaf .string ('"' :: cs ++ ['"'])) := by
  refine ⟨List.cons_ne_nil _ _, beginsDark_cons (by decide) _, fun rest _ => ?_⟩
  refine ⟨[_], ?_, .atom rfl _⟩
  have hnext : nextLexeme '"' (cs ++ '"' :: rest) =
      (⟨.atom .string, '"' :: (cs ++ ['"'])⟩, rest) := by
    have hrest := stringRest_append_quote hcs rest
    simp [nextLexeme, hrest, show isBlank '"' = false by decide]
  rw [List.append_assoc]
  exact lex_cons hnext

theorem quoted (h : Spelled s os) :
    SpelledOne ('\'' :: s) (.node .quoted (.leaf .sigil ['\''] :: os)) := by
  refine ⟨List.cons_ne_nil _ _, beginsDark_cons (by decide) _, fun rest hrest => ?_⟩
  obtain ⟨ls, hlex, hls⟩ := h.lexes rest hrest
  have hfirst : lex ('\'' :: (s ++ rest)) = ⟨.sigil, ['\'']⟩ :: lex (s ++ rest) := lex_cons rfl
  refine ⟨⟨.sigil, ['\'']⟩ :: ls, ?_, .quoted hls _⟩
  rw [List.cons_append, hfirst, hlex, List.cons_append]

/-- Forms between the delimiters of a collection. -/
theorem collection {kind : Kind} {d : Char} (hk : kind.closer? = some d) (h : SpelledAll s os) :
    SpelledOne (kind.opener ++ (s ++ [d])) (.collection kind kind.opener d os) := by
  obtain ⟨o, opener, hopener, ho⟩ := Kind.exists_opener_eq hk
  refine ⟨by simp [hopener], ?_, fun rest _ => ?_⟩
  · rw [hopener]
    exact beginsDark_cons ho _
  · obtain ⟨hword, hdark, hlast⟩ := closing_of_closer? hk rest
    obtain ⟨ls, hlex, hls⟩ := h.lexes (d :: rest) hword hdark
    refine ⟨⟨.opener kind, kind.opener⟩ :: (ls ++ [⟨.closer d, [d]⟩]), ?_, .collection hk hls _⟩
    rw [List.append_assoc, List.append_assoc, List.singleton_append, lex_opener hk, hlex, hlast]
    simp

end SpelledOne

theorem Spelled.discarded {s : List Char} {os : List Outline} (h : Spelled s os) :
    Spelled ('#' :: '_' :: s) (.leaf .formComment ['#', '_'] :: os) := by
  refine ⟨List.cons_ne_nil _ _, beginsDark_cons (by decide) _, fun rest hrest => ?_⟩
  obtain ⟨ls, hlex, hls⟩ := h.lexes rest hrest
  have hfirst : lex ('#' :: '_' :: (s ++ rest)) = ⟨.marker, ['#', '_']⟩ :: lex (s ++ rest) :=
    lex_cons rfl
  refine ⟨⟨.marker, ['#', '_']⟩ :: ls, ?_, hls.discarded _⟩
  rw [List.cons_append, List.cons_append, hfirst, hlex, List.cons_append]

end Typeahead
