import Typeahead.Proofs.Answers
import Typeahead.Proofs.Binders
import Typeahead.Proofs.Composition
import Typeahead.Proofs.Lookup

/-!
# Typing a definition

Where a definition is being typed, no name that exists is of use: first a new one has
to be found for it, and then, if it is a function, the parameters come. What is around it
does not matter, as long as the text before is complete. The lexemes of a list that has
just been opened follow those of that text, and placing them ends with the list as the last
node of the top level, open, with the words typed so far and the placeholder in it. The
search for the cursor ends in the placeholder, whose only call around it is the list. Its
ordinal there is the number of words typed, which decides between the rules for slots.
-/

namespace Typeahead

/-! ### Symbols -/

/-- The text is read as a single symbol. -/
def IsSymbol (cs : List Char) : Prop := (Tree.read cs).tokens.map (·.kind) = [.symbol]

instance (cs : List Char) : Decidable (IsSymbol cs) := inferInstanceAs (Decidable (_ = _))

namespace IsSymbol

variable {cs : List Char}

theorem lex_eq (h : IsSymbol cs) : lex cs = [⟨.atom .symbol, cs⟩] := by
  have htokens := Tree.tokens_leaves_read cs
  have htext := flatMap_text_lex cs
  rw [IsSymbol, ← Tree.map_node_leaves, List.map_map] at h
  obtain ⟨leaf, leaves, hleaves, hkind, hrest⟩ := List.map_eq_cons_iff.1 h
  rw [hleaves, List.map_eq_nil_iff.1 hrest] at htokens
  generalize lex cs = ls at htokens htext
  cases htokens with
  | @cons _ l _ _ _ hleaf hnil =>
    cases hnil
    have hsymbol : leaf.node.kind = .symbol := hkind
    have hmem := hleaf.kind_mem
    rw [hsymbol] at hmem
    have hshape := Shape.eq_atom_of_mem_kinds hmem rfl
    rw [List.flatMap_singleton] at htext
    obtain ⟨shape, text⟩ := l
    subst hshape htext
    rfl

theorem isTerminator_eq_false (h : IsSymbol cs) : ∀ c ∈ cs, isTerminator c = false := by
  have hlex : lex cs = [] ++ ⟨.atom .symbol, cs⟩ :: [] := h.lex_eq
  exact ((endsBefore_of_lex hlex).isTerminator_endsWord rfl rfl).1

/-- A symbol begins as a word does, or with a bar. -/
theorem startsWord_or_eq {c : Char} (h : IsSymbol (c :: cs)) : startsWord c = true ∨ c = '|' := by
  have hterm := h.isTerminator_eq_false c List.mem_cons_self
  have hshape : (nextLexeme c cs).1.shape = .atom .symbol := by
    have hlex := h.lex_eq
    rw [lex] at hlex
    rw [(List.cons.inj hlex).1]
  by_cases hbar : c = '|'
  · exact .inr hbar
  refine .inl ?_
  have hsharp : c ≠ '#' := by
    rintro rfl
    have hnot : (Lexeme.afterNumberSign cs).1.shape ≠ .atom .symbol := by
      rw [Lexeme.afterNumberSign.eq_def]
      split <;> exact Shape.noConfusion
    exact hnot hshape
  have hsigil : isSigil c = false := by
    rw [Bool.eq_false_iff]
    intro hsigil
    simp only [isSigil, Bool.or_eq_true, beq_iff_eq] at hsigil
    rcases hsigil with ((rfl | rfl) | rfl) | rfl <;> cases hshape
  simp [startsWord, hterm, hbar, hsharp, hsigil]

theorem ne_nil (h : IsSymbol cs) : cs ≠ [] := by
  rintro rfl
  have hlex := h.lex_eq
  rw [lex] at hlex
  cases hlex

theorem beginsDark_append (h : IsSymbol cs) (rest : List Char) : BeginsDark (cs ++ rest) := by
  obtain ⟨c, cs, rfl⟩ := List.exists_cons_of_ne_nil h.ne_nil
  refine beginsDark_cons ?_ (cs ++ rest)
  rw [Bool.eq_false_iff]
  intro hblank
  have hterm := h.isTerminator_eq_false c List.mem_cons_self
  rw [isTerminator_of_isBlank hblank] at hterm
  cases hterm

theorem nextLexeme_eq {c : Char} (h : IsSymbol (c :: cs)) {rest : List Char}
    (hrest : ∀ x ∈ rest.head?, x ≠ '(') :
    nextLexeme c (cs ++ rest) = Lexeme.atom c (cs ++ rest) := by
  rcases h.startsWord_or_eq with hc | rfl
  · exact nextLexeme_of_startsWord hc _
  have hbar (t : List Char) : nextLexeme '|' t = Lexeme.afterBar t := rfl
  have hhead : ∀ x ∈ (cs ++ rest).head?, x ≠ '(' := by
    cases cs with
    | nil => exact hrest
    | cons d cs =>
      rintro _ ⟨⟩ rfl
      exact absurd (h.isTerminator_eq_false '(' (by simp)) (by decide)
  rw [hbar]
  cases ht : cs ++ rest with
  | nil => rfl
  | cons d t =>
    rw [ht] at hhead
    rw [Lexeme.afterBar_cons, if_neg (hhead d rfl)]

/-- A symbol before a blank is cut off as at the end of a text. -/
theorem lex_append (h : IsSymbol cs) {b : Char} (hb : isBlank b = true) (rest : List Char) :
    lex (cs ++ b :: rest) = ⟨.atom .symbol, cs⟩ :: lex (b :: rest) := by
  obtain ⟨c, cs, rfl⟩ := List.exists_cons_of_ne_nil h.ne_nil
  have hlex {t : List Char} (ht : EndsWord t) (hparen : ∀ x ∈ t.head?, x ≠ '(') :
      lex (c :: cs ++ t) = ⟨.atom (atomKind (c :: cs)), c :: cs⟩ :: lex t :=
    lex_cons ((h.nextLexeme_eq hparen).trans (atom_append_of_endsWord
      (fun x hx => h.isTerminator_eq_false x (List.mem_cons_of_mem _ hx)) ht))
  have hkind : atomKind (c :: cs) = .symbol := by
    have hend := hlex (t := []) (fun _ hx => by cases hx) (fun _ hx => by cases hx)
    rw [List.append_nil, h.lex_eq] at hend
    exact (Shape.atom.inj (Lexeme.mk.inj (List.cons.inj hend).1).1).symm
  rw [hlex (endsWord_cons (isTerminator_of_isBlank hb) rest), hkind]
  rintro _ ⟨⟩ rfl
  exact absurd hb (by decide)

end IsSymbol

/-! ### The lexemes of an open list -/

/-- A list that has been opened and in which some words have been written, each with a
    blank after it. -/
def opened (words : List (List Char)) : List Char := '(' :: words.flatMap (· ++ [' '])

/-- The lexemes of symbols with a blank after each. -/
def wordLexemes (words : List (List Char)) : List Lexeme :=
  words.flatMap fun w => [⟨.atom .symbol, w⟩, ⟨.blank, [' ']⟩]

theorem flatMap_text_wordLexemes (words : List (List Char)) :
    (wordLexemes words).flatMap (·.text) = words.flatMap (· ++ [' ']) := by
  induction words with
  | nil => rfl
  | cons w words ih => simpa [wordLexemes] using ih

theorem lex_words {words : List (List Char)} {p : List Char} (hwords : ∀ w ∈ words, IsSymbol w)
    (hp : IsSymbol p) :
    lex (words.flatMap (· ++ [' ']) ++ p) = wordLexemes words ++ [⟨.atom .symbol, p⟩] := by
  induction words with
  | nil => exact hp.lex_eq
  | cons w words ih =>
    have hdark : BeginsDark (words.flatMap (· ++ [' ']) ++ p) := by
      cases words with
      | nil => exact List.append_nil p ▸ hp.beginsDark_append []
      | cons v words =>
        rw [List.flatMap_cons, List.append_assoc, List.append_assoc]
        exact (hwords v (by simp)).beginsDark_append _
    have hw := hwords w List.mem_cons_self
    have happ : (w :: words).flatMap (· ++ [' ']) ++ p =
        w ++ ' ' :: (words.flatMap (· ++ [' ']) ++ p) := by simp
    rw [happ, hw.lex_append rfl, lex_blank rfl hdark,
      ih fun v hv => hwords v (List.mem_cons_of_mem _ hv)]
    rfl

theorem lex_opened {words : List (List Char)} {p : List Char} (hwords : ∀ w ∈ words, IsSymbol w)
    (hp : IsSymbol p) : lex (opened words ++ p) =
      ⟨.opener .list, ['(']⟩ :: (wordLexemes words ++ [⟨.atom .symbol, p⟩]) := by
  have hlist : Kind.list.closer? = some ')' := rfl
  rw [← lex_words hwords hp]
  exact lex_opener hlist _

theorem spellsAll_words (words : List (List Char)) :
    SpellsAll (wordLexemes words) (words.map (.leaf .symbol)) := by
  induction words with
  | nil => exact .nil
  | cons w words ih =>
    have hw : Spells [⟨.atom .symbol, w⟩] [.leaf .symbol w] := (SpellsOne.atom rfl w).spells
    exact SpellsAll.form hw (ih.blank [' '])

/-! ### The tree of an open list -/

/-- Reading goes on after a text, if the text after it does not change its lexemes. -/
theorem Builder.reading_append {a b : List Char} (h : lex (a ++ b) = lex a ++ lex b) :
    reading (a ++ b) = ((reading a).withSource (a ++ b)).placeAll (byteLength a) (lex b) := by
  have hplace := placeAll_withSource (new a) (a ++ b) 0 (lex a)
  rw [reading, h, placeAll_append, flatMap_text_lex, Nat.zero_add]
  exact congrArg (placeAll · _ _) hplace

/-- A list at the end of a tree in which some words have been written, and then one more at
    the offset, the node `last`. -/
structure Tree.Opens (t : Tree) (words : List (List Char)) (offset : Nat) (list last : Node) :
    Prop where
  mem : ⟨last, [list, t.root]⟩ ∈ t.locations
  kind_list : list.kind = .list
  kind_last : last.kind = .symbol
  span_last : last.span = ⟨offset, t.length⟩
  children_eq : ∃ pre, list.children = pre ++ [last] ∧ (∀ c ∈ pre, c.kind ≠ .formComment) ∧
    (pre.filter (·.kind.isForm)).map (Node.outline t.source) = words.map (.leaf .symbol)

/-- What is read if a list is opened at the top level and finished nodes and a symbol are
    added to it. -/
theorem Builder.root_toTree_open {b : Builder} (hbelow : b.below = []) (start next : Nat)
    (span last : Span) (ns : List Node) :
    let stop := byteLength b.source
    let list : Node := ⟨b.next, .list, ⟨start, stop⟩,
      ⟨b.next + 1, .openDelim, span, []⟩ :: ns ++ [⟨next, .symbol, last, []⟩]⟩
    (((((b.start .list start).token .openDelim span).extend ns next).token .symbol
      last).toTree).root = (b.top.add list).close stop := by
  intro stop list
  have hlist : (((((b.start .list start).token .openDelim span).extend ns next).token .symbol
      last).top).close stop = list := by
    simp [list, extend, token, Builder.start, Frame.add, Frame.close]
  rw [← hlist]
  simp only [toTree, extend, token, Builder.start, hbelow, Frame.closeAll]
  rfl

/-- Placing the lexemes of an open list adds a list with nodes for the words and a symbol
    after them. -/
theorem Builder.exists_placeAll_opened {b : Builder} {s p : List Char}
    {words : List (List Char)} (hsource : b.source = s ++ (opened words ++ p)) :
    ∃ ns next, Node.Outlined b.source ns (words.map (.leaf .symbol)) ∧
      b.placeAll (byteLength s)
          (⟨.opener .list, ['(']⟩ :: (wordLexemes words ++ [⟨.atom .symbol, p⟩])) =
        (((b.start .list (byteLength s)).token .openDelim
          ⟨byteLength s, byteLength s + 1⟩).extend ns next).token .symbol
            ⟨byteLength (s ++ opened words), byteLength b.source⟩ := by
  have hcut : b.source = (s ++ ['(']) ++ ((wordLexemes words).flatMap (·.text) ++ p) := by
    simp [hsource, opened, flatMap_text_wordLexemes]
  obtain ⟨ns, next, houtlined, hplace⟩ := spellsAll_words words
    ((b.start .list (byteLength s)).token .openDelim ⟨byteLength s, byteLength s + 1⟩)
    (byteLength s + 1) (by simp [token, Builder.start, Frame.add])
    ⟨s ++ ['('], p, hcut, by rw [byteLength_append]; rfl⟩
  refine ⟨ns, next, houtlined, ?_⟩
  have hfirst : b.place (byteLength s) ⟨.opener .list, ['(']⟩ =
      (b.start .list (byteLength s)).token .openDelim ⟨byteLength s, byteLength s + 1⟩ := rfl
  have hwords : byteLength s + 1 + byteLength ((wordLexemes words).flatMap (·.text)) =
      byteLength (s ++ opened words) := by
    rw [flatMap_text_wordLexemes, byteLength_append, Nat.add_assoc]
    rfl
  have hstop : byteLength (s ++ opened words) + byteLength p = byteLength b.source := by
    rw [hsource, ← List.append_assoc, byteLength_append (s ++ opened words)]
  rw [placeAll, hfirst, show byteLength s + byteLength ['('] = byteLength s + 1 from rfl,
    placeAll_append, hplace, hwords, placeAll, placeAll, place, hstop]
  exact settle_of_kind_ne (by simp [token, extend, Builder.start, Frame.add]) _

/-- Nodes that are words and blanks hold no marker, and their forms are the words. -/
theorem Node.Outlined.of_words {src : List Char} {ns : List Node} {words : List (List Char)}
    (h : Node.Outlined src ns (words.map (.leaf .symbol))) :
    (∀ c ∈ ns, c.kind ≠ .formComment) ∧
      (ns.filter (·.kind.isForm)).map (Node.outline src) = words.map (.leaf .symbol) := by
  constructor
  · intro c hc hkind
    have hmem : c.outline src ∈ outlineAll src ns :=
      outline_mem_outlineAll hc (by rw [hkind]; exact Kind.noConfusion)
    rw [h.outline_eq] at hmem
    obtain ⟨w, -, hw⟩ := List.mem_map.1 hmem
    have hsymbol := (of_outline_eq_leaf hw.symm).1
    rw [hkind] at hsymbol
    cases hsymbol
  · rw [map_outline_filter, h.outline_eq, List.filter_eq_self]
    intro o ho
    obtain ⟨w, -, rfl⟩ := List.mem_map.1 ho
    rfl

/-- After a complete text that ends with blanks, an open list is the last node of the top
    level, with the words in it. -/
theorem Tree.exists_opens {s : List Char} (hs : (Tree.read s).Complete)
    (hblank : s = [] ∨ (Tree.read s).tokens.getLast?.map (·.kind) = some .whitespace)
    {words : List (List Char)} {p : List Char} (hwords : ∀ w ∈ words, IsSymbol w)
    (hp : IsSymbol p) : ∃ list last,
      (Tree.read (s ++ (opened words ++ p))).Opens words (byteLength (s ++ opened words))
        list last := by
  have hlex := lex_append_of_blank (shape_of_getLast?_tokens hblank)
    (beginsDark_cons (show isBlank '(' = false by decide) (words.flatMap (· ++ [' ']) ++ p))
  have hread := Builder.reading_append hlex
  have hopened : '(' :: words.flatMap (· ++ [' ']) ++ p = opened words ++ p := rfl
  rw [← List.cons_append, hopened, lex_opened hwords hp] at hread
  have hsource : ((Builder.reading s).withSource (s ++ (opened words ++ p))).source =
      s ++ (opened words ++ p) := rfl
  obtain ⟨ns, next, houtlined, hplace⟩ := Builder.exists_placeAll_opened hsource
  have hbelow : ((Builder.reading s).withSource (s ++ (opened words ++ p))).below = [] :=
    Builder.below_reading_of_complete hs
  have hroot := Builder.root_toTree_open hbelow (byteLength s) next
    ⟨byteLength s, byteLength s + 1⟩
    ⟨byteLength (s ++ opened words), byteLength (s ++ (opened words ++ p))⟩ ns
  have htree := (congrArg (fun b => b.toTree.root) (hread.trans hplace)).trans hroot
  generalize hlist : (⟨_, Kind.list, _, _⟩ : Node) = list at htree
  have hchild : list ∈ (Tree.read (s ++ (opened words ++ p))).root.children := by
    rw [show (Tree.read (s ++ (opened words ++ p))).root = _ from htree]
    simp [Frame.add, Frame.close]
  have hmem := children_subset_locations
    ((Tree.read (s ++ (opened words ++ p))).root.self_mem_locations [])
    (List.mem_map.2 ⟨list, hchild, rfl⟩)
  subst hlist
  have hwritten := houtlined.of_words
  refine ⟨_, _, ⟨children_subset_locations hmem (List.mem_map.2 ⟨_, List.mem_append_right _
    List.mem_cons_self, rfl⟩), rfl, rfl, ?_, ⟨_, rfl, ?_, ?_⟩⟩⟩
  · rw [Tree.length, Tree.source_read]
  · intro c hc
    rcases List.mem_cons.1 hc with rfl | hc
    · exact Kind.noConfusion
    · exact hwritten.1 c hc
  · rw [Tree.source_read]
    exact hwritten.2

/-! ### The slot at the end of an open list -/

theorem activeAmong_of_unmarked {ns : List Node} (h : ∀ c ∈ ns, c.kind ≠ .formComment) :
    activeAmong [] ns = ns.filter (·.kind.isForm) := by
  rw [activeAmong, judgeForms_of_unmarked (fun k hk => absurd hk List.not_mem_nil) h]
  simp [List.filter_map, Function.comp_def]

namespace Tree.Opens

variable {cs : List Char} {words : List (List Char)} {offset : Nat} {list last : Node}

/-- The active forms of an open list are the words and the one after them. -/
theorem exists_activeForms_eq {t : Tree} (h : t.Opens words offset list last) : ∃ forms,
    list.activeForms = forms ++ [last] ∧
      forms.map (Node.outline t.source) = words.map (.leaf .symbol) := by
  obtain ⟨pre, hchildren, hunmarked, hwords⟩ := h.children_eq
  refine ⟨pre.filter (·.kind.isForm), ?_, hwords⟩
  have hlast : last.kind.isForm = true := by rw [h.kind_last]; rfl
  rw [Node.activeForms_eq_forms, Node.forms, hchildren, List.filter_append,
    List.filter_cons_of_pos (by simp [hlast])]
  · rfl
  · rw [hchildren]
    intro c hc
    rcases List.mem_append.1 hc with hc | hc
    · exact hunmarked c hc
    · rw [List.mem_singleton.1 hc, h.kind_last]
      exact Kind.noConfusion

/-- The head of an open list is that with the name that was written first. -/
theorem head?_eq {t : Tree} {h : Head}
    (hopens : t.Opens (h.name.toList :: words) offset list last) : t.head? list = some h := by
  obtain ⟨forms, hforms, houtlines⟩ := hopens.exists_activeForms_eq
  obtain ⟨hd, forms, rfl, hhd, -⟩ := List.map_eq_cons_iff.1 houtlines
  have hsymbol : hd.kind = .symbol := (Node.of_outline_eq_leaf hhd).1
  rw [Tree.head?, hforms]
  refine (if_pos hsymbol).trans ?_
  rw [Tree.text_of_outline_eq rfl hhd, String.ofList_toList, Head.ofName?_name]

/-- The cursor before the last word of an open list. -/
def cursor (t : Tree) (config : Config) (offset : Nat) (list last : Node) : Cursor :=
  Cursor.ofLocation t config ⟨last, [list, t.root]⟩ offset

theorem isWord_cursor {t : Tree} (h : t.Opens words offset list last) (config : Config) :
    (cursor t config offset list last).location.node.kind.isWord = true := by
  change last.kind.isWord = true
  rw [h.kind_last]
  rfl

variable {config : Config}

/-- The open list is the only call around the cursor. -/
theorem calls_cursor (h : (Tree.read cs).Opens words offset list last) (config : Config)
    {depth : Nat} (hdepth : 0 < depth) :
    (cursor (Tree.read cs) config offset list last).calls depth = [list] := by
  obtain ⟨ms, hcalls, hms⟩ := Cursor.exists_calls_eq (h.isWord_cursor config) rfl
    (by rw [h.kind_list]; rfl) hdepth
  have hnone : ms = [] := by
    refine List.eq_nil_iff_forall_not_mem.2 fun m hm => ?_
    have hcall : m.kind.isCall = true := by
      have hmem := hcalls ▸ List.mem_cons_of_mem list hm
      exact (List.mem_filter.1 hmem).2
    rw [List.mem_singleton.1 (hms hm), (Tree.orderly_read cs).1] at hcall
    cases hcall
  rw [hcalls, hnone]

theorem standsIn_cursor (h : (Tree.read cs).Opens words offset list last) (config : Config) :
    (cursor (Tree.read cs) config offset list last).StandsIn cs := by
  have hne := ne_nil_of_mem_below (mem_below_of_above_ne_nil h.mem (List.cons_ne_nil _ _))
  have hspan : (cursor (Tree.read cs) config offset list last).location.node.span = _ :=
    h.span_last
  have hlt := lt_stop_read hne last (mem_nodes_of_mem_locations h.mem)
  rw [h.span_last] at hlt
  refine ⟨hne, h.mem, ?_, ?_⟩ <;> rw [hspan]
  · exact Nat.le_refl _
  · exact Nat.le_of_lt hlt

/-- As many forms stand before the cursor as words were written. -/
theorem ordinal_cursor (h : (Tree.read cs).Opens words offset list last) :
    (cursor (Tree.read cs) config offset list last).ordinal list = words.length := by
  obtain ⟨pre, hchildren, hunmarked, hwords⟩ := h.children_eq
  have hstands := h.standsIn_cursor config
  have hbefore := (siblings_of_children_eq hstands.ne_nil h.mem rfl hchildren).1
  rw [hstands.ordinal_eq List.mem_cons_self rfl, Location.activeBefore]
  have hlength := congrArg List.length hwords
  rw [List.length_map, List.length_map] at hlength
  change (activeAmong [] (Location.before ⟨last, [list, (Tree.read cs).root]⟩).reverse).length = _
  rw [hbefore, List.reverse_reverse, activeAmong_of_unmarked hunmarked, hlength]

/-- The last form of the list is where its parameter vector has to start, if so many words
    were written. -/
theorem parameterVectorSlot?_cursor (h : (Tree.read cs).Opens words offset list last)
    (hdepth : 0 < config.maxTraversalDepth) :
    (Tree.read cs).parameterVectorSlot? config (cursor (Tree.read cs) config offset list last) =
      if ((Tree.read cs).head? list).bind (·.parameterSlot?) = some words.length then
        some .parameterVector
      else none := by
  have hlast : list.activeForms[words.length]? = some last := by
    obtain ⟨forms, hforms, houtlines⟩ := h.exists_activeForms_eq
    have hlength := congrArg List.length houtlines
    rw [List.length_map, List.length_map] at hlength
    rw [hforms, ← hlength, List.getElem?_concat_length]
  rw [Tree.parameterVectorSlot?, Tree.functionAround?, h.calls_cursor config hdepth,
    List.findSome?_singleton]
  cases ((Tree.read cs).head? list).bind (·.parameterSlot?) with
  | none => simp
  | some slot =>
    by_cases hslot : slot = words.length
    · subst hslot
      have hid : (cursor (Tree.read cs) config offset list last).location.node.id = last.id := rfl
      simp [h.ordinal_cursor, hlast, hid]
    · have hne : ¬ words.length = slot := fun heq => hslot heq.symm
      simp [h.ordinal_cursor, hslot, hne]

/-- The slot after the words that have been written in an open list. -/
theorem slot_cursor {h : Head}
    (hopens : (Tree.read cs).Opens (h.name.toList :: words) offset list last)
    (hdepth : 0 < config.maxTraversalDepth) :
    let slot := (Tree.read cs).slot config (cursor (Tree.read cs) config offset list last)
    (h.parameterSlot? = some (words.length + 1) → slot = .parameterVector) ∧
      (h.isDefinition = true → words = [] → slot = .definitionName) := by
  have hkeyword : (cursor (Tree.read cs) config offset list last).keywordSlot? = none := by
    refine if_neg ?_
    change ¬ last.kind = .keyword
    rw [hopens.kind_last]
    exact Kind.noConfusion
  have hcalls := hopens.calls_cursor config hdepth
  have hform : (cursor (Tree.read cs) config offset list last).newFormSlot?
      config.maxTraversalDepth = none := by
    rw [Cursor.newFormSlot?, hcalls]
    rfl
  have hhead := hopens.head?_eq
  have hbinding := Cursor.bindingSlot?_eq_none (t := Tree.read cs) hdepth
    (hopens.isWord_cursor config) rfl (by rw [hopens.kind_list]; rfl)
  intro slot
  simp only [slot, Tree.slot, hkeyword, hform, hopens.parameterVectorSlot?_cursor hdepth, hbinding,
    Cursor.definitionSlot?_eq hcalls hopens.ordinal_cursor, hhead, Option.bind_some,
    List.length_cons]
  constructor
  · intro hslot
    rw [if_pos hslot]
    rfl
  · rintro hdefines rfl
    have hslot : ¬ h.parameterSlot? = some 1 := by
      revert hdefines
      cases h <;> decide
    rw [List.length_nil, if_neg hslot, if_pos ⟨hdefines, rfl⟩]
    rfl

end Tree.Opens

/-! ### The cursor at the end of an open list -/

theorem Config.maxTraversalDepth_pos {config : Config} (h : config.invalid? = none) :
    0 < config.maxTraversalDepth := by
  refine Nat.pos_of_ne_zero fun hzero => ?_
  rw [invalid?, if_pos hzero] at h
  split at h <;> cases h

theorem Head.isSymbol_name (h : Head) : IsSymbol h.name.toList := by
  cases h <;> decide +kernel

/-- A request at the end of an open list is made at a word after those written there. -/
theorem Cursor.exists_inSource_opened {config : Config}
    (hplaceholder : IsSymbol config.placeholder.toList) {s : List Char}
    (hs : (Tree.read s).Complete)
    (hblank : s = [] ∨ (Tree.read s).tokens.getLast?.map (·.kind) = some .whitespace)
    {words : List (List Char)} (hwords : ∀ w ∈ words, IsSymbol w) :
    ∃ cs list last, (Tree.read cs).Opens words (byteLength (s ++ opened words)) list last ∧
      inSource config (s ++ opened words) (byteLength (s ++ opened words)) =
        .ok (Tree.read cs,
          Tree.Opens.cursor (Tree.read cs) config (byteLength (s ++ opened words)) list last) := by
  obtain ⟨list, last, hopens⟩ := Tree.exists_opens hs hblank hwords hplaceholder
  rw [← List.append_assoc] at hopens
  refine ⟨_, list, last, hopens, ?_⟩
  have hinsert : insertAt (s ++ opened words) (byteLength (s ++ opened words))
      config.placeholder.toList = .ok (s ++ opened words ++ config.placeholder.toList) := by
    have hsplit := splitAtByte?_append (s ++ opened words) []
    rw [List.append_nil] at hsplit
    rw [insertAt, hsplit]
    exact congrArg Except.ok (List.append_nil _)
  have hstands := hopens.standsIn_cursor config
  have hfind := Tree.findAt_root_eq_of_isWord hopens.mem (hopens.isWord_cursor config)
    (Span.touches_iff.2 ⟨hstands.start_le, hstands.le_stop⟩)
  rw [inSource, hinsert]
  simp only [bind, Except.bind, locate_eq_ok hfind, pure, Except.pure]
  rfl

/-! ### Answers -/

namespace Engine

variable {e : Engine}

/-- A single candidate that always fits is the answer. -/
theorem exists_answer_singleton (hlimit : e.criteria.maxResults ≠ some 0) (cache : Cache)
    (context : Context) {c : Candidate} (hfits : ∀ typed, c.fits typed = true) :
    ∃ d, e.answer cache context [c] = [d] ∧ Candidate.Alike d c := by
  have hkept : ((Sink.new context.typed).pushAll [c]).candidates = [c] := by
    simp [Sink.pushAll, Sink.push, Sink.admits, hfits, Sink.new, Sink.contains]
  obtain ⟨sorted, hperm, -, hrank⟩ :=
    Candidate.exists_rank_eq context.called e.criteria [withUsage cache c]
  have hsorted := List.perm_singleton.1 hperm
  have htake : e.criteria.maxResults.getD 1 ≠ 0 := by
    cases h : e.criteria.maxResults with
    | none => exact Nat.one_ne_zero
    | some n => exact fun hn => hlimit (h.trans (congrArg some hn))
  obtain ⟨k, hk⟩ := Nat.exists_eq_succ_of_ne_zero htake
  refine ⟨(withUsage cache c).adjust context.called, ?_,
    (Candidate.alike_adjust _ _).trans (Candidate.alike_withUsage cache c)⟩
  rw [answer, hkept]
  refine hrank.trans ?_
  change List.take (e.criteria.maxResults.getD 1) _ = _
  rw [hsorted, hk, List.take_succ_cons, List.take_nil]

/-- At a symbol in a slot with one candidate that always fits, it is the answer. -/
theorem exists_complete_eq (hlimit : e.criteria.maxResults ≠ some 0) (cache : Cache) {t : Tree}
    {c : Cursor} (hkind : c.location.node.kind = .symbol) (currentFile : Option String)
    {d : Candidate} (hfits : ∀ typed, d.fits typed = true)
    (hslot : t.slot e.config c = .parameterVector ∧ Offer.parameterVector = [d] ∨
      t.slot e.config c = .definitionName ∧ Offer.definitionName = [d]) :
    ∃ d', e.complete cache t c currentFile = ([d'], cache) ∧ Candidate.Alike d' d := by
  obtain ⟨d', hanswer, halike⟩ :=
    exists_answer_singleton hlimit cache (Context.ofCursor t e.config c) hfits
  refine ⟨d', ?_, halike⟩
  have hmute : isMute c (t.slot e.config c) = false := by
    simp [isMute, hkind]
  have hcontext : (Context.ofCursor t e.config c).slot = t.slot e.config c := rfl
  rw [complete, hcontext, hmute]
  rcases hslot with ⟨hslot, hoffer⟩ | ⟨hslot, hoffer⟩
  · simp only [hslot, Slot.needsProject, slotSignature, Offer.atCursor, hcontext, hoffer, hanswer,
      Bool.false_eq_true, if_false]
  · simp only [hslot, Slot.needsProject, slotSignature, Offer.atCursor, hcontext, hoffer, hanswer,
      Bool.false_eq_true, if_false]

/-- While a definition is typed after a complete text, no name that exists is offered: after
    the head the answer is the remark that a new name is needed, and after the head of a
    function or macro and its name the answer is the start of the parameter vector. -/
theorem completeSource_definition (hvalid : e.config.invalid? = none)
    (hconfig : e.config.placeholder = ({} : Config).placeholder)
    (hlimit : e.criteria.maxResults ≠ some 0) (cache : Cache) (currentFile : Option String)
    {s : List Char} (hs : (Tree.read s).Complete)
    (hblank : s = [] ∨ (Tree.read s).tokens.getLast?.map (·.kind) = some .whitespace) (h : Head) :
    let answerAfter := fun words => e.completeSource cache (s ++ opened words)
      (byteLength (s ++ opened words)) currentFile
    (h.isDefinition = true → ∃ d, answerAfter [h.name.toList] = .ok ([d], cache) ∧
      d.isRemark = true ∧ d.text = "") ∧
    (h ∈ [Head.fnDef, .fnDefPrivate, .macroDef, .macroDefPrivate] →
      ∀ name, IsSymbol name → ∃ d, answerAfter [h.name.toList, name] = .ok ([d], cache) ∧
        d.insertion = .brackets) := by
  have hplaceholder : IsSymbol e.config.placeholder.toList := by
    rw [hconfig]
    decide +kernel
  have hdepth : 0 < e.config.maxTraversalDepth := Config.maxTraversalDepth_pos hvalid
  have hhead := h.isSymbol_name
  have hread {words : List (List Char)} (hwords : ∀ w ∈ words, IsSymbol w) :=
    Cursor.exists_inSource_opened hplaceholder hs hblank hwords
  have hanswer {cs : List Char} {offset : Nat} {t : Tree} {c : Cursor} {d : Candidate}
      (hcursor : Cursor.inSource e.config cs offset = .ok (t, c))
      (hcomplete : e.complete cache t c currentFile = ([d], cache)) :
      e.completeSource cache cs offset currentFile = .ok ([d], cache) := by
    rw [completeSource, hcursor]
    exact congrArg Except.ok hcomplete
  intro answerAfter
  constructor
  · intro hdefines
    obtain ⟨cs, list, last, hopens, hcursor⟩ := hread (List.forall_mem_singleton.2 hhead)
    obtain ⟨d, hcomplete, halike⟩ := exists_complete_eq hlimit cache hopens.kind_last currentFile
      (fun _ => rfl) (.inr ⟨(hopens.slot_cursor hdepth).2 hdefines rfl, rfl⟩)
    refine ⟨d, hanswer hcursor hcomplete, ?_, halike.text_eq⟩
    rw [Candidate.isRemark, halike.insertion_eq]
    rfl
  · intro hfunction name hname
    have hslot : h.parameterSlot? = some 2 := by
      revert hfunction
      cases h <;> decide
    obtain ⟨cs, list, last, hopens, hcursor⟩ :=
      hread (List.forall_mem_cons.2 ⟨hhead, List.forall_mem_singleton.2 hname⟩)
    obtain ⟨d, hcomplete, halike⟩ := exists_complete_eq hlimit cache hopens.kind_last currentFile
      (fun _ => rfl) (.inl ⟨(hopens.slot_cursor hdepth).1 hslot, rfl⟩)
    exact ⟨d, hanswer hcursor hcomplete, halike.insertion_eq⟩

/-- After a delimiter with no opening one, a parenthesis in a string, a comment, another
    definition and a marker that waits for its form. -/
theorem completeSource_definition_pending :
    let s := ") \"(\" (defn f [x] x) ; ( one\n#_ ".toList
    let answerAfter := fun words => limitedEngine.completeSource .standard (s ++ opened words)
      (byteLength (s ++ opened words)) (some "a.phel")
    (Tree.read s).Complete ∧
    (∃ d, answerAfter ["defstruct".toList] = .ok ([d], .standard) ∧ d.isRemark = true ∧
      d.text = "") ∧
    ∃ d, answerAfter ["defn-".toList, "|f".toList] = .ok ([d], .standard) ∧
      d.insertion = .brackets := by
  intro s answerAfter
  have hs : (Tree.read s).Complete := ⟨by decide +kernel, by decide +kernel⟩
  have hblank : s = [] ∨ (Tree.read s).tokens.getLast?.map (·.kind) = some .whitespace :=
    .inr (by decide +kernel)
  have hvalid : limitedEngine.config.invalid? = none := by decide +kernel
  have hlimit : limitedEngine.criteria.maxResults ≠ some 0 := by decide
  have hname := completeSource_definition hvalid rfl hlimit .standard (some "a.phel") hs hblank
    .structDef
  have hvector := completeSource_definition hvalid rfl hlimit .standard (some "a.phel") hs hblank
    .fnDefPrivate
  exact ⟨hs, hname.1 rfl, hvector.2 (by decide) "|f".toList (by decide +kernel)⟩

end Engine

end Typeahead
