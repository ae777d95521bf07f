import Typeahead.Proofs.Answers
import Typeahead.Proofs.Lookup
import Typeahead.Proofs.MarkerInText
import Typeahead.Proofs.NameSlots
import Typeahead.Proofs.Openers

/-!
# Inside literals

A word that is put into a string literal or a comment becomes part of it, though the literal
may end elsewhere then: the word may come between a backslash and the quote that it escaped,
or between the two characters that end a comment. The text after it is read in another way in
that case, but the nodes around the literal are those that were open before it, with the same
children up to it. So a call around it has the same head with the word as without it, and a
literal outside of namespace declarations gets no candidates.

* `CutsLexeme.exists_lex_insert`: the lexemes of the text with the word;
* `LiteralAt.exists_alike`: the nodes around literals after the same lexemes;
* `LiteralAt.exists_head_eq`: the heads of the calls around them;
* `Engine.completeSource_literal`: the answer inside a literal.
-/

namespace Typeahead

/-! ### Lexemes -/

/-- Whether a lexeme of this shape is a comment or a string literal. -/
def Shape.isLiteral : Shape → Bool
  | .comment | .atom .string => true
  | _ => false

theorem Shape.eq_of_isLiteral {s : Shape} (h : s.isLiteral = true) :
    s = .comment ∨ s = .atom .string := by
  cases s with
  | comment => exact .inl rfl
  | atom kind => cases kind <;> first | exact .inr rfl | cases h
  | _ => cases h

section Lexing

variable {c d : Char} {l : Lexeme} {p r x y v w : List Char}

/-- Comments and string literals are known by their first characters. -/
theorem FirstLexeme.first_of_isLiteral (h : FirstLexeme c x l w)
    (hliteral : l.shape.isLiteral = true) : c = ';' ∨ c = '#' ∨ c = '"' := by
  cases h with
  | lineComment hc => exact hc.imp_right .inl
  | blockComment hc => exact .inr (.inl hc)
  | string hc => exact .inr (.inr hc)
  | word =>
    have hword := isWord_atomKind (Lexeme.atom c x).1.text
    have hshape : (Lexeme.atom c x).1.shape = .atom (atomKind (Lexeme.atom c x).1.text) := rfl
    rw [hshape] at hliteral
    cases hkind : atomKind (Lexeme.atom c x).1.text <;> simp_all [Shape.isLiteral, Kind.isWord]
  | _ => cases hliteral

/-- The character after a number sign says what begins there. -/
theorem Lexeme.shape_afterNumberSign (c : Char) (cs : List Char) :
    (afterNumberSign (c :: cs)).1.shape =
      if c = '_' then .marker else if c = '\x7b' then .opener .set else .comment := by
  rw [afterNumberSign_cons]
  repeat' split
  all_goals rfl

/-- A comment or a string literal stays one when an ordinary character is put into it. -/
theorem shape_nextLexeme_insert (h : (nextLexeme c (x ++ v)).1.shape.isLiteral = true)
    (hd : isOrdinary d = true) (w : List Char) :
    (nextLexeme c (x ++ d :: w)).1.shape = (nextLexeme c (x ++ v)).1.shape := by
  rcases (firstLexeme_nextLexeme c (x ++ v)).first_of_isLiteral h with rfl | rfl | rfl
  · rfl
  · have hnext : ∀ cs, nextLexeme '#' cs = Lexeme.afterNumberSign cs := fun _ => rfl
    rw [hnext] at h
    rw [hnext, hnext]
    cases x with
    | nil =>
      -- the number sign alone is before the character, which begins nothing else
      rw [List.nil_append, Lexeme.shape_afterNumberSign, if_neg (ne_of_isOrdinary hd (by decide)),
        if_neg (ne_of_isOrdinary hd (by decide))]
      cases v with
      | nil => rfl
      | cons a v =>
        rw [List.nil_append, Lexeme.shape_afterNumberSign] at h ⊢
        split at h
        · cases h
        split at h
        · cases h
        · simp_all
    | cons a x => simp only [List.cons_append, Lexeme.shape_afterNumberSign]
  · rfl

/-- A comment or a string literal that is closed before an ordinary character is closed
    there whatever comes next. -/
theorem nextLexeme_of_isLiteral_closed (hd : isOrdinary d = true)
    (hliteral : l.shape.isLiteral = true) (h : nextLexeme c (x ++ d :: w) = (l, d :: w))
    (z : List Char) : nextLexeme c (x ++ z) = (l, z) := by
  have hline : d ≠ '\n' := ne_of_isOrdinary hd (by decide)
  have hfirst := firstLexeme_nextLexeme c (x ++ d :: w)
  rw [h] at hfirst
  rcases hfirst.first_of_isLiteral hliteral with rfl | rfl | rfl
  · exact absurd (congrArg Prod.snd h) (snd_lineComment_ne hline ';' x)
  · exact Lexeme.afterNumberSign_of_closed hline h z
  · have hnext : ∀ cs, nextLexeme '"' cs =
        (⟨.atom .string, '"' :: (stringRest cs).1⟩, (stringRest cs).2) := fun _ => rfl
    rw [hnext] at h ⊢
    obtain ⟨rfl, hrest⟩ := Prod.mk.inj h
    rw [stringRest_of_closed hrest z]

/-- A comment or a string literal that ends before the word is the same without the word. -/
theorem snd_nextLexeme_of_insert (hp : ∀ c ∈ p, isOrdinary c = true) (hne : p ≠ [])
    (hliteral : (nextLexeme c (x ++ (p ++ v))).1.shape.isLiteral = true)
    (h : (nextLexeme c (x ++ (p ++ v))).2 = r ++ (p ++ v)) :
    (nextLexeme c (x ++ v)).2 = r ++ v := by
  cases r with
  | nil =>
    obtain ⟨d, p, rfl⟩ := List.exists_cons_of_ne_nil hne
    have hd := hp d List.mem_cons_self
    rw [nextLexeme_of_isLiteral_closed hd hliteral (Prod.ext rfl h) v]
    rfl
  | cons a r => rw [nextLexeme_append_congr (by simp) h]

/-- The first lexeme of a text takes an ordinary word in, if it is a comment or a string
    literal that reaches over the place of the word. -/
theorem exists_nextLexeme_insert (hp : ∀ c ∈ p, isOrdinary c = true) (hne : p ≠ [])
    (hliteral : (nextLexeme c (x ++ v)).1.shape.isLiteral = true)
    (hover : (nextLexeme c (x ++ v)).1.text = c :: x ++ y) (hy : y ≠ []) :
    ∃ z rest, nextLexeme c (x ++ (p ++ v)) =
      (⟨(nextLexeme c (x ++ v)).1.shape, c :: x ++ (p ++ z)⟩, rest) := by
  have hshape : (nextLexeme c (x ++ (p ++ v))).1.shape = (nextLexeme c (x ++ v)).1.shape := by
    obtain ⟨d, p, rfl⟩ := List.exists_cons_of_ne_nil hne
    exact shape_nextLexeme_insert hliteral (hp d List.mem_cons_self) (p ++ v)
  rcases passes_nextLexeme x v hp hne c with ⟨r, hr⟩ | ⟨z, hz⟩
  · -- it would end before the word, and so before the place of the word
    exfalso
    have hrest := snd_nextLexeme_of_insert hp hne (hshape ▸ hliteral) hr
    have hlength := congrArg List.length (nextLexeme_append c (x ++ v))
    have hpos := List.length_pos_iff.2 hy
    rw [hrest, hover] at hlength
    simp only [List.length_append, List.length_cons] at hlength
    omega
  · have htext : (nextLexeme c (x ++ (p ++ v))).1.text = c :: x ++ (p ++ z) := by
      refine List.append_cancel_right ((nextLexeme_append c (x ++ (p ++ v))).trans ?_)
      rw [List.append_assoc, List.append_assoc, hz]
      rfl
    refine ⟨z, (nextLexeme c (x ++ (p ++ v))).2, Prod.ext ?_ rfl⟩
    rw [← hshape, ← htext]

end Lexing

variable {u v x y p : List Char} {before after : List Lexeme} {l : Lexeme}

/-- A word put into a comment or a string literal becomes part of it, and the lexemes before
    it stay the same. -/
theorem CutsLexeme.exists_lex_insert (h : CutsLexeme u v before l x y after)
    (hliteral : l.shape.isLiteral = true) (hp : ∀ c ∈ p, isOrdinary c = true) (hne : p ≠ []) :
    ∃ z after', lex (u ++ (p ++ v)) = before ++ ⟨l.shape, x ++ (p ++ z)⟩ :: after' := by
  obtain ⟨c, x, rfl⟩ := List.exists_cons_of_ne_nil h.left_ne_nil
  have hbare := h.lex_append v
  rw [h.lex_eq, List.append_cancel_left_eq, List.cons_append, lex] at hbare
  obtain ⟨rfl, -⟩ := List.cons.inj hbare
  obtain ⟨z, rest, hnext⟩ := exists_nextLexeme_insert hp hne hliteral h.text_eq h.right_ne_nil
  refine ⟨z, lex rest, ?_⟩
  rw [h.lex_append, List.cons_append, lex, hnext]

/-! ### The nodes around -/

/-- The token of a comment or a string literal is added to the nodes that are open before
    it. -/
theorem Builder.exists_leaf_place {b : Builder} (hb : Stacked b.frames)
    (hliteral : l.shape.isLiteral = true) (start : Nat) :
    Stacked (b.place start l).frames ∧ ∃ kind ∈ l.shape.kinds,
      ⟨⟨b.next, kind, ⟨start, start + byteLength l.text⟩, []⟩, b.trail⟩ ∈
        (b.place start l).leaves := by
  obtain ⟨shape, text⟩ := l
  have hmem : ∀ kind span, ⟨⟨b.next, kind, span, []⟩, b.trail⟩ ∈ (b.token kind span).leaves :=
    fun kind span => by simp [leaves_token]
  rcases Shape.eq_of_isLiteral hliteral with rfl | rfl
  · exact ⟨hb.token _ _, .lineComment, List.mem_singleton_self _, hmem _ _⟩
  · obtain ⟨hstacked, hleaves⟩ := (closing_settle (b.token .string
      ⟨start, start + byteLength text⟩) (start + byteLength text)).leaves_eq (hb.token _ _)
    exact ⟨hstacked, .string, List.mem_singleton_self _, hleaves ▸ hmem _ _⟩

theorem Lexeme.Sound.isLiteral_of_mem_kinds (h : l.Sound) {kind : Kind}
    (hmem : kind ∈ l.shape.kinds) (hkind : kind = .string ∨ kind = .lineComment) :
    l.shape.isLiteral = true := by
  cases hshape : l.shape with
  | comment => rfl
  | atom k =>
    have hatom := h.atom k hshape
    rw [hshape, Shape.kinds, List.mem_singleton] at hmem
    subst hmem
    rcases hkind with rfl | rfl
    · rfl
    · cases hatom
  | _ =>
    rw [hshape] at hmem
    rcases hkind with rfl | rfl <;> simp [Shape.kinds] at hmem

theorem Tree.exists_leaf_of_literal {cs : List Char} {l : Location}
    (hl : l ∈ (Tree.read cs).locations)
    (hkind : l.node.kind = .string ∨ l.node.kind = .lineComment) :
    ∃ leaf ∈ (Tree.read cs).leaves, leaf.node = l.node := by
  refine exists_leaf_of_mem_nodes (mem_nodes_of_mem_locations hl) ?_ ?_ <;>
    rcases hkind with hkind | hkind <;> rw [hkind]
  · exact Kind.noConfusion
  · exact Kind.noConfusion
  · rfl
  · rfl

/-- The location `l` in the tree of `cs` is that of the comment or string literal `k`, which
    comes after the lexemes `before`. -/
structure LiteralAt (cs : List Char) (before : List Lexeme) (k : Lexeme) (l : Location) :
    Prop where
  exists_lex_eq : ∃ after, lex cs = before ++ k :: after
  isLiteral : k.shape.isLiteral = true
  mem : l ∈ (Tree.read cs).locations
  children_eq : l.node.children = []
  kind_mem : l.node.kind ∈ k.shape.kinds
  span_eq : l.node.span = ⟨byteLength (before.flatMap (·.text)),
    byteLength (before.flatMap (·.text)) + byteLength k.text⟩
  trail_eq : l.trail = (Builder.readUpTo cs before).trail

section LiteralAt

variable {cs cs' : List Char} {k k' : Lexeme} {loc loc' : Location}

theorem exists_literalAt (hlex : lex cs = before ++ k :: after)
    (hliteral : k.shape.isLiteral = true) : ∃ loc, LiteralAt cs before k loc := by
  have hsound : ∀ j ∈ lex cs, j.Sound := fun _ hj => sound_of_mem_lex hj
  obtain ⟨hstacked, kind, hkind, hleaf⟩ :=
    Builder.exists_leaf_place (Builder.orderly_readUpTo hlex).stacked hliteral
      (byteLength (before.flatMap (·.text)))
  have hafter : ∀ j ∈ after, j.Sound := fun j hj => hsound j (by simp [hlex, hj])
  have hmem := Builder.mem_leaves_toTree hstacked hleaf hafter
    (byteLength (before.flatMap (·.text)) + byteLength k.text)
  rw [← Builder.placeAll, ← Builder.read_eq_readUpTo hlex] at hmem
  obtain ⟨loc, hloc, hnode, htrail⟩ := Tree.exists_location_of_mem_leaves hmem
  exact ⟨loc, ⟨after, hlex⟩, hliteral, hloc, by rw [hnode], by rwa [hnode], by rw [hnode], htrail⟩

namespace LiteralAt

theorem ne_nil (h : LiteralAt cs before k loc) : cs ≠ [] := by
  rintro rfl
  obtain ⟨after, hlex⟩ := h.exists_lex_eq
  simp [lex] at hlex

/-- The nodes around the token are those that were open before it. -/
theorem exists_node_around (h : LiteralAt cs before k loc) {qs rest : List Frame} {f : Frame}
    (hframes : (Builder.readUpTo cs before).frames = qs ++ f :: rest) :
    ∃ path n outer c post, loc.above = path ++ n :: outer ∧ path.length = qs.length ∧
      n.heading = f.heading ∧ n.children = f.children.reverse ++ c :: post ∧
      ⟨c, n :: outer⟩ ∈ loc.selfAndAncestors := by
  obtain ⟨after, hlex⟩ := h.exists_lex_eq
  have hsound : ∀ j ∈ k :: after, j.Sound := fun j hj =>
    sound_of_mem_lex (hlex ▸ List.mem_append_right _ hj : j ∈ lex cs)
  have horderly := Builder.orderly_readUpTo hlex
  obtain ⟨path, n, outer, c, post, habove, hpath, hn, -, hchildren, hmem, -⟩ :=
    Tree.exists_node_around h.ne_nil (Builder.read_eq_readUpTo hlex) hsound horderly.laid
      horderly.ids_eq hframes h.mem h.trail_eq (by rw [h.span_eq])
  have hlength := congrArg List.length hpath
  rw [List.length_map, List.length_map] at hlength
  exact ⟨path, n, outer, c, post, habove, hlength, hn, hchildren, hmem⟩

/-- Each of them was open, with its children so far. -/
theorem exists_frame (h : LiteralAt cs before k loc) {n : Node} (hn : n ∈ loc.above) :
    ∃ qs f rest outer c post, (Builder.readUpTo cs before).frames = qs ++ f :: rest ∧
      n.heading = f.heading ∧ n.children = f.children.reverse ++ c :: post ∧
      ⟨c, n :: outer⟩ ∈ loc.selfAndAncestors := by
  obtain ⟨path, outer, habove⟩ := List.append_of_mem hn
  have htrail := h.trail_eq
  rw [Location.trail, Builder.trail, habove, List.map_append, List.map_cons, eq_comm,
    List.map_eq_append_iff] at htrail
  obtain ⟨qs, tail, hframes, hqs, htail⟩ := htrail
  obtain ⟨f, rest, rfl, -, -⟩ := List.map_eq_cons_iff.1 htail
  -- the node at that depth is `n`
  obtain ⟨path', n', outer', c, post, habove', hlength, hheading, hchildren, hmem⟩ :=
    h.exists_node_around hframes
  have hpath := congrArg List.length hqs
  rw [List.length_map, List.length_map] at hpath
  obtain ⟨rfl, heq⟩ := List.append_inj (habove.symm.trans habove') (by omega)
  obtain ⟨rfl, rfl⟩ := List.cons.inj heq
  exact ⟨qs, f, rest, outer, c, post, hframes, hheading, hchildren, hmem⟩

/-- Literals after the same lexemes, in texts that may differ from there on, are in nodes of
    the same kinds, which have the same children before them. -/
theorem exists_alike (h : LiteralAt cs before k loc) (h' : LiteralAt cs' before k' loc') {n' : Node}
    (hn' : n' ∈ loc'.above) : ∃ n ∈ loc.above, n.kind = n'.kind ∧ ∃ pre c post c' post' outer,
      n.children = pre ++ c :: post ∧ n'.children = pre ++ c' :: post' ∧
      ⟨c', n' :: outer⟩ ∈ loc'.selfAndAncestors ∧
      ∀ m ∈ pre, m.span.stop ≤ byteLength (before.flatMap (·.text)) := by
  obtain ⟨qs, f, rest, outer, c', post', hframes', hn', hchildren', hmem⟩ := h'.exists_frame hn'
  -- the source is kept for later: what is open depends on the lexemes alone
  have hframes : (Builder.readUpTo cs before).frames = qs ++ f :: rest := by
    rw [← hframes']
    exact (congrArg Builder.frames
      (Builder.placeAll_withSource (Builder.new cs) cs' 0 before)).symm
  obtain ⟨_, n, _, c, post, habove, -, hn, hchildren, -⟩ := h.exists_node_around hframes
  obtain ⟨after, hlex⟩ := h.exists_lex_eq
  have hlaid := (Builder.orderly_readUpTo hlex).laid
  have hstops := hlaid.tiled.1.stop_le (fun g hg j hj => hlaid.le g hg j hj j j.mem_preorder_self) f
    (by simp [hframes])
  exact ⟨n, by simp [habove], congrArg Heading.kind (hn.trans hn'.symm), f.children.reverse, c,
    post, c', post', outer, hchildren, hchildren', hmem,
    fun m hm => hstops.2 m (List.mem_reverse.1 hm)⟩

theorem kind_eq (h : LiteralAt cs before k loc) :
    loc.node.kind = .string ∨ loc.node.kind = .lineComment := by
  have hkind := h.kind_mem
  rcases Shape.eq_of_isLiteral h.isLiteral with hshape | hshape
  · rw [hshape] at hkind
    exact .inr (List.mem_singleton.1 hkind)
  · rw [hshape] at hkind
    exact .inl (List.mem_singleton.1 hkind)

theorem isCall_eq_false (h : LiteralAt cs before k loc) : loc.node.kind.isCall = false := by
  rcases h.kind_eq with hkind | hkind <;> (rw [hkind]; rfl)

/-- No other string literal or comment starts where it does. -/
theorem eq_of_start_eq (h : LiteralAt cs before k loc) {other : Location}
    (hother : other ∈ (Tree.read cs).locations)
    (hkind : other.node.kind = .string ∨ other.node.kind = .lineComment)
    (hstart : other.node.span.start = loc.node.span.start) : other = loc := by
  obtain ⟨leaf, hleaf, hnode⟩ := Tree.exists_leaf_of_literal h.mem h.kind_eq
  obtain ⟨leaf', hleaf', hnode'⟩ := Tree.exists_leaf_of_literal hother hkind
  rw [← hnode, ← hnode'] at hstart
  refine Tree.eq_of_node_eq hother h.mem ?_
  rw [← hnode', ← hnode, Tree.eq_of_start_eq hleaf' hleaf hstart]

theorem exists_eq_append (h : LiteralAt cs before k loc) :
    ∃ rest, cs = before.flatMap (·.text) ++ rest := by
  obtain ⟨after, hlex⟩ := h.exists_lex_eq
  refine ⟨(k :: after).flatMap (·.text), ?_⟩
  rw [← List.flatMap_append, ← hlex, flatMap_text_lex]

theorem standsIn (h : LiteralAt cs before k loc) (config : Config) {offset : Nat}
    (hstart : loc.node.span.start ≤ offset) (hstop : offset ≤ loc.node.span.stop) :
    (Cursor.ofLocation (Tree.read cs) config loc offset).StandsIn cs :=
  ⟨h.ne_nil, h.mem, hstart, hstop⟩

/-- The text of a node before the literals is the same in both texts. -/
theorem text_eq (h : LiteralAt cs before k loc) (h' : LiteralAt cs' before k' loc') {m : Node}
    (hm : m.span.stop ≤ byteLength (before.flatMap (·.text))) :
    (Tree.read cs).text m = (Tree.read cs').text m := by
  obtain ⟨rest, hrest⟩ := h.exists_eq_append
  obtain ⟨rest', hrest'⟩ := h'.exists_eq_append
  rw [Tree.text, Tree.text, Tree.chars, Tree.chars, Tree.source_read, Tree.source_read, hrest,
    hrest', slice_append_left rest hm, slice_append_left rest' hm]

/-- A call around a literal, after its head, has the same head in the other text. -/
theorem exists_head_eq (h : LiteralAt cs before k loc) (h' : LiteralAt cs' before k' loc')
    {c : Cursor} (hc : c.StandsIn cs') (hloc : c.location = loc') {n' : Node}
    (hn' : n' ∈ loc'.above) (hordinal : c.ordinal n' ≠ 0) :
    ∃ n ∈ loc.above, n.kind = n'.kind ∧ (Tree.read cs).head? n = (Tree.read cs').head? n' := by
  obtain ⟨n, hn, hkind, pre, m, post, m', post', outer, hchildren, hchildren', hmem, hstops⟩ :=
    h.exists_alike h' hn'
  refine ⟨n, hn, hkind, ?_⟩
  subst hloc
  have hmem' := Tree.selfAndAncestors_subset_locations hc.mem hmem
  have hbefore := (Tree.siblings_of_children_eq hc.ne_nil hmem' rfl hchildren').1
  rw [hc.ordinal_eq hmem rfl, Location.activeBefore, hbefore, List.reverse_reverse] at hordinal
  obtain ⟨d, ds, hactive⟩ := List.exists_cons_of_length_pos (Nat.pos_of_ne_zero hordinal)
  have hd : d.span.stop ≤ byteLength (before.flatMap (·.text)) :=
    hstops d (activeAmong_subset [] pre (by simp [hactive]))
  have hhead : ∀ j : Node, ∀ js, j.children = pre ++ js → j.activeForms.head? = some d := by
    intro j js hj
    rw [Node.activeForms_eq_activeAmong, hj, activeAmong_append, hactive]
    rfl
  rw [Tree.head?, Tree.head?, hhead n _ hchildren, hhead n' _ hchildren']
  dsimp only
  rw [h.text_eq h' hd]

end LiteralAt

end LiteralAt

/-! ### Answers -/

section Answers

variable {cs cs' : List Char} {k k' : Lexeme} {loc loc' : Location}

/-- A literal outside of namespace declarations stays outside of them in a text that has
    the same lexemes before it. -/
theorem LiteralAt.namespaceSlot?_eq_none (h : LiteralAt cs before k loc)
    (h' : LiteralAt cs' before k' loc') {c : Cursor} (hc : c.StandsIn cs')
    (hloc : c.location = loc')
    (hns : ∀ n ∈ loc.above, n.kind.isCall = true → (Tree.read cs).head? n ≠ some .ns)
    (config : Config) : (Tree.read cs').namespaceSlot? config c = none := by
  rw [Tree.namespaceSlot?]
  cases hfind : (Tree.read cs').namespaceAround? config c with
  | none => rfl
  | some n' =>
    have hhead := List.find?_some hfind
    obtain ⟨hn', hcall⟩ := Cursor.mem_above_of_mem_calls (hloc ▸ h'.isCall_eq_false)
      (List.mem_of_find?_eq_some hfind)
    by_cases hordinal : c.ordinal n' = 0
    · simp [bind, Option.bind, hordinal]
    · obtain ⟨n, hn, hkind, hsame⟩ := h.exists_head_eq h' hc hloc (hloc ▸ hn') hordinal
      exact absurd (hsame.trans (by simpa using hhead)) (hns n hn (hkind ▸ hcall))

/-- A cursor in a literal outside of namespace declarations gets no candidates in a text that
    has the same lexemes before it. -/
theorem LiteralAt.isMute_slot (h : LiteralAt cs before k loc) (h' : LiteralAt cs' before k' loc')
    {c : Cursor} (hc : c.StandsIn cs') (hloc : c.location = loc')
    (hns : ∀ n ∈ loc.above, n.kind.isCall = true → (Tree.read cs).head? n ≠ some .ns)
    (config : Config) : Engine.isMute c ((Tree.read cs').slot config c) = true := by
  have hkind :
      (c.location.node.kind == .string || c.location.node.kind == .lineComment) = true := by
    rw [hloc]
    simpa using h'.kind_eq
  have hslot : ∀ clause, (Tree.read cs').slot config c = .inNamespace clause → False := by
    intro clause hslot
    have hsome := Tree.namespaceSlot?_of_slot_eq hslot
    rw [h.namespaceSlot?_eq_none h' hc hloc hns config] at hsome
    cases hsome
  rw [Engine.isMute, hkind, Bool.true_and]
  exact hslot

end Answers

/-- An offset strictly inside a string literal or a comment cuts the text in its lexeme. -/
theorem exists_cutsLiteral {loc : Location} (hloc : loc ∈ (Tree.read (u ++ v)).locations)
    (hkind : loc.node.kind = .string ∨ loc.node.kind = .lineComment)
    (hstart : loc.node.span.start < byteLength u) (hstop : byteLength u < loc.node.span.stop) :
    ∃ before k x y after, CutsLexeme u v before k x y after ∧
      LiteralAt (u ++ v) before k loc := by
  obtain ⟨leaf, hleaf, hnode⟩ := Tree.exists_leaf_of_literal hloc hkind
  obtain ⟨before, k, x, y, after, hcut, htoken⟩ :=
    exists_cutsLexeme hleaf (by rwa [hnode]) (by rwa [hnode])
  have hmem : k ∈ lex (u ++ v) := by simp [hcut.lex_eq]
  have hliteral : k.shape.isLiteral = true :=
    (sound_of_mem_lex hmem).isLiteral_of_mem_kinds htoken.kind_mem (by rwa [hnode])
  obtain ⟨other, hother⟩ := exists_literalAt hcut.lex_eq hliteral
  obtain rfl : loc = other :=
    hother.eq_of_start_eq hloc hkind (by rw [hother.span_eq, ← hnode, htoken.span_eq])
  exact ⟨before, k, x, y, after, hcut, hother⟩

/-- The token over a word that is put into a string literal or a comment. -/
theorem CutsLexeme.exists_holds (h : CutsLexeme u v before l x y after)
    (hliteral : l.shape.isLiteral = true) (hp : ∀ c ∈ p, isOrdinary c = true) (hne : p ≠ []) :
    ∃ k loc, LiteralAt (u ++ (p ++ v)) before k loc ∧
      (Tree.read (u ++ (p ++ v))).Holds u p v loc := by
  obtain ⟨z, after', hlex⟩ := h.exists_lex_insert hliteral hp hne
  obtain ⟨loc, hloc⟩ := exists_literalAt hlex hliteral
  obtain ⟨held, hheld⟩ := Tree.exists_holds_read hp hne u v
  have hbytes := congrArg byteLength h.left_eq
  have hspan := hloc.span_eq
  simp only [byteLength_append] at hbytes hspan
  obtain rfl : loc = held := by
    refine hheld.unique _ hloc.mem hloc.children_eq ?_ ?_ <;> (rw [hspan]; dsimp only; omega)
  exact ⟨_, loc, hloc, hheld⟩

namespace Engine

variable {e : Engine}

theorem complete_of_isMute {t : Tree} {c : Cursor}
    (h : isMute c (t.slot e.config c) = true) {cache : Cache} {currentFile : Option String} :
    e.complete cache t c currentFile = ([], cache) := by
  rw [complete]
  exact if_pos h

/-- Nothing is offered inside a string literal or a comment, unless a call around it declares
    a namespace. -/
theorem completeSource_literal (hconfig : e.config.placeholder = ({} : Config).placeholder)
    {cs : List Char} {offset : Nat} (hoffset : isBoundary cs offset = true) {l : Location}
    (hl : l ∈ (Tree.read cs).locations)
    (hkind : l.node.kind = .string ∨ l.node.kind = .lineComment)
    (hstart : l.node.span.start < offset) (hstop : offset < l.node.span.stop)
    (hns : ∀ n ∈ l.above, n.kind.isCall = true → (Tree.read cs).head? n ≠ some .ns)
    (cache : Cache) (currentFile : Option String) :
    e.completeSource cache cs offset currentFile = .ok ([], cache) := by
  have hp := Config.insertable_of_placeholder_eq hconfig
  obtain ⟨⟨u, v⟩, hsplit⟩ := Option.isSome_iff_exists.1 hoffset
  obtain ⟨rfl, rfl⟩ := append_of_splitAtByte? hsplit
  -- the literal in the text as it is, and in the text with the placeholder
  obtain ⟨before, k, x, y, after, hcut, hl⟩ := exists_cutsLiteral hl hkind hstart hstop
  obtain ⟨k', l', hl', hholds⟩ := hcut.exists_holds hl.isLiteral hp.ordinary hp.ne_nil
  have hc := hl'.standsIn e.config hholds.covers.1
    (Nat.le_trans (Nat.le_add_right _ _) hholds.covers.2)
  rw [completeSource, Cursor.inSource_eq_ok hholds]
  exact congrArg Except.ok (complete_of_isMute (hl.isMute_slot hl' hc rfl hns e.config))

/-- Between a backslash and the quote that it escapes: with the placeholder the quote ends the
    literal. -/
theorem completeSource_literal_escape :
    let cs := "(ns a) (f 'b \"(ns \\\"c\")".toList
    isBoundary cs 19 = true ∧
    (∃ l ∈ (Tree.read cs).locations, l.node.kind = .string ∧ l.node.span.start < 19 ∧
      19 < l.node.span.stop ∧
      ∀ n ∈ l.above, n.kind.isCall = true → (Tree.read cs).head? n ≠ some .ns) ∧
    limitedEngine.completeSource .standard cs 19 none = .ok ([], .standard) := by
  intro cs
  have hoffset : isBoundary cs 19 = true := by decide
  have hl : ∃ l ∈ (Tree.read cs).locations, l.node.kind = .string ∧ l.node.span.start < 19 ∧
      19 < l.node.span.stop ∧
      ∀ n ∈ l.above, n.kind.isCall = true → (Tree.read cs).head? n ≠ some .ns := by
    decide +kernel
  obtain ⟨l, hmem, hkind, hstart, hstop, hns⟩ := hl
  exact ⟨hoffset, ⟨l, hmem, hkind, hstart, hstop, hns⟩,
    completeSource_literal rfl hoffset hmem (.inl hkind) hstart hstop hns .standard none⟩

/-- A short function is a call as well: one with the head of a namespace declaration gets the
    clauses of one, though no list around the literal has that head. -/
theorem completeSource_literal_shortFn :
    let cs := "|(ns a \"bc\")".toList
    let e := Engine.new {}
    e.config.invalid? = none ∧ e.config.containsPlaceholder cs = false ∧
    isBoundary cs 9 = true ∧
    (∃ l ∈ (Tree.read cs).locations, l.node.kind = .string ∧ l.node.span.start < 9 ∧
      9 < l.node.span.stop ∧
      ∀ n ∈ l.above, n.kind = .list → (Tree.read cs).head? n ≠ some .ns) ∧
    ∃ answer, e.completeSource .standard cs 9 none = .ok (answer, .standard) ∧ answer ≠ [] := by
  intro cs e
  have hoffset : isBoundary cs 9 = true := by decide
  have hl : ∃ l ∈ (Tree.read cs).locations, l.node.kind = .string ∧ l.node.span.start < 9 ∧
      9 < l.node.span.stop ∧
      ∀ n ∈ l.above, n.kind = .list → (Tree.read cs).head? n ≠ some .ns := by
    decide +kernel
  have hslot : (Cursor.inSource e.config cs 9).toOption.map (fun x =>
      (x.1.slot e.config x.2, x.2.typed)) = some (.inNamespace .between, "") := by
    decide +kernel
  obtain ⟨t, c, hcursor⟩ := Cursor.exists_inSource_eq_ok e.config hoffset
  rw [hcursor] at hslot
  obtain ⟨hslot, htyped⟩ := Prod.mk.inj (Option.some.inj hslot)
  have hmute : isMute c (.inNamespace .between) = false := Bool.and_false _
  refine ⟨by decide, by decide +kernel, hoffset, hl,
    e.answer .standard (Context.ofCursor t e.config c)
      (Offer.inClause .between [] [] []), ?_, ?_⟩
  · have hcontext : (Context.ofCursor t e.config c).slot = .inNamespace .between := hslot
    rw [completeSource, hcursor]
    refine congrArg Except.ok ?_
    simp only [complete, hcontext, hmute, Offer.atCursor, slotSignature]
    rfl
  · obtain ⟨d, hd⟩ : ∃ d, d ∈ Offer.inClause .between [] [] [] := ⟨_, List.mem_cons_self⟩
    have hfits : d.fits (lowercase (Context.ofCursor t e.config c).typed.toList) = true := by
      have hcontext : (Context.ofCursor t e.config c).typed = "" := htyped
      rw [hcontext, Candidate.fits.eq_def]
      split <;> rfl
    have hkey := e.key_mem_answer .standard (Context.ofCursor t e.config c) _ rfl hd hfits
    intro hnil
    rw [hnil] at hkey
    cases hkey

end Engine

end Typeahead
