import Typeahead.Proofs.Boundary
import Typeahead.Proofs.Search
import Typeahead.Proofs.Stability

/-!
# Inserting a word

A word of ordinary characters that is put into a text becomes part of a single
token, wherever it is put: of a word, which it may begin, continue or end, of a
string or of a comment. The reason is that no lexeme can begin or end inside it,
and that it does not complete a delimiter, a marker or an escape that the text
before it leaves open.

* `exists_lex_through`: an inserted word lies within one lexeme;
* `exists_holds_read`: the token of that lexeme is the only one over the inserted
  word, and the search at its start finds it.
-/

namespace Typeahead

/-- Whether `c` belongs to words only: it ends none, and no delimiter, marker,
    sigil or escape goes on with it. -/
def isOrdinary (c : Char) : Bool := startsWord c && c != '_' && c != '\\'

theorem ne_of_isOrdinary {c d : Char} (hc : isOrdinary c = true) (hd : isOrdinary d = false) :
    c ≠ d := by
  rintro rfl
  rw [hc] at hd
  cases hd

theorem startsWord_of_isOrdinary {c : Char} (h : isOrdinary c = true) : startsWord c = true := by
  rw [isOrdinary, Bool.and_eq_true, Bool.and_eq_true] at h
  exact h.1.1

theorem isTerminator_of_startsWord {c : Char} (h : startsWord c = true) :
    isTerminator c = false := by
  rw [startsWord, Bool.and_eq_true, Bool.and_eq_true, Bool.and_eq_true, Bool.not_eq_true'] at h
  exact h.1.1.1

theorem isTerminator_of_isOrdinary {c : Char} (h : isOrdinary c = true) : isTerminator c = false :=
  isTerminator_of_startsWord (startsWord_of_isOrdinary h)

theorem EndsWord.of_append {s t : List Char} (h : EndsWord (s ++ t)) : EndsWord s := by
  intro c hc
  refine h c ?_
  rw [List.head?_append, Option.mem_def.1 hc]
  rfl

theorem Kind.isForm_of_isWord {kind : Kind} (h : kind.isWord = true) : kind.isForm = true := by
  revert h
  cases kind <;> decide

theorem Kind.ne_root_of_isWord {kind : Kind} (h : kind.isWord = true) :
    kind ≠ .root ∧ kind.isNested = false := by
  revert h
  cases kind <;> decide

/-! ### Lexemes around an inserted word -/

/-- What is left after a cut of a text that ends with `p ++ v`: the cut is before
    `p` or after it. -/
def Passes (p v rest : List Char) : Prop := (∃ r, rest = r ++ (p ++ v)) ∨ rest <:+ v

section Passes

variable {p : List Char} (u v : List Char)

theorem passes_dropWhile {q : Char → Bool} (hq : ∀ c ∈ p, q c = true) :
    Passes p v ((u ++ (p ++ v)).dropWhile q) := by
  rw [List.dropWhile_append]
  split
  · rw [List.dropWhile_append_of_pos hq]
    exact .inr (List.dropWhile_suffix q)
  · exact .inl ⟨_, rfl⟩

variable (hp : ∀ c ∈ p, isOrdinary c = true)
include hp

theorem snd_stringRest_of_ordinary : (stringRest (p ++ v)).2 <:+ v := by
  induction p with
  | nil => exact ⟨_, stringRest_append v⟩
  | cons c p ih =>
    have hc := hp c List.mem_cons_self
    rw [List.cons_append, stringRest_cons (ne_of_isOrdinary hc (by decide)),
      if_neg (ne_of_isOrdinary hc (by decide))]
    exact ih fun x hx => hp x (List.mem_cons_of_mem _ hx)

theorem snd_commentRest_of_ordinary : (commentRest (p ++ v)).2 <:+ v := by
  induction p with
  | nil => exact ⟨_, commentRest_append v⟩
  | cons c p ih =>
    have hc := hp c List.mem_cons_self
    rw [List.cons_append, commentRest_cons fun _ h => absurd h (ne_of_isOrdinary hc (by decide))]
    exact ih fun x hx => hp x (List.mem_cons_of_mem _ hx)

variable (hne : p ≠ [])
include hne

theorem passes_stringRest : Passes p v (stringRest (u ++ (p ++ v))).2 := by
  fun_induction stringRest u with
  | case1 => exact .inr (snd_stringRest_of_ordinary v hp)
  | case2 c cs _ _ _ ih => exact ih
  | case3 cs _ =>
    rw [List.cons_append, stringRest_cons (by decide), if_pos rfl]
    exact .inl ⟨cs, rfl⟩
  | case4 c cs hnot hc _ _ _ ih =>
    cases cs with
    | cons x cs =>
      rw [List.cons_append, stringRest_cons fun hb => hnot x cs hb rfl, if_neg hc]
      exact ih
    | nil =>
      by_cases hb : c = '\\'
      · -- the backslash before `p` escapes its first character
        subst hb
        obtain ⟨x, p, rfl⟩ := List.exists_cons_of_ne_nil hne
        exact .inr (snd_stringRest_of_ordinary v fun y hy => hp y (List.mem_cons_of_mem _ hy))
      · rw [List.cons_append, stringRest_cons hb, if_neg hc]
        exact ih

theorem passes_commentRest : Passes p v (commentRest (u ++ (p ++ v))).2 := by
  fun_induction commentRest u with
  | case1 => exact .inr (snd_commentRest_of_ordinary v hp)
  | case2 cs => exact .inl ⟨cs, rfl⟩
  | case3 c cs hnot _ _ _ ih =>
    have hend : ∀ cs', c = '|' → cs ++ (p ++ v) = '#' :: cs' → False := by
      intro cs' hc h
      cases cs with
      | cons x cs => exact hnot cs hc (by rw [(List.cons.inj h).1])
      | nil =>
        obtain ⟨x, p, rfl⟩ := List.exists_cons_of_ne_nil hne
        exact ne_of_isOrdinary (hp x List.mem_cons_self) (by decide) (List.cons.inj h).1
    rw [List.cons_append, commentRest_cons hend]
    exact ih

theorem passes_blank (c : Char) : Passes p v (Lexeme.blank c (u ++ (p ++ v))).2 := by
  rw [Lexeme.blank, List.dropWhile_append]
  split
  · obtain ⟨x, p, rfl⟩ := List.exists_cons_of_ne_nil hne
    have hx := isBlank_of_startsWord (startsWord_of_isOrdinary (hp x List.mem_cons_self))
    exact .inl ⟨[], by simp [hx]⟩
  · exact .inl ⟨_, rfl⟩

omit hne in
theorem passes_lineComment (c : Char) : Passes p v (Lexeme.lineComment c (u ++ (p ++ v))).2 := by
  refine passes_dropWhile u v fun x hx => bne_iff_ne.2 ?_
  exact ne_of_isOrdinary (hp x hx) (by decide)

omit hne in
theorem passes_atom (c : Char) : Passes p v (Lexeme.atom c (u ++ (p ++ v))).2 := by
  refine passes_dropWhile u v fun x hx => ?_
  rw [isTerminator_of_isOrdinary (hp x hx)]
  rfl

theorem passes_afterNumberSign : Passes p v (Lexeme.afterNumberSign (u ++ (p ++ v))).2 := by
  cases u with
  | nil =>
    obtain ⟨x, q, rfl⟩ := List.exists_cons_of_ne_nil hne
    have hx := hp x List.mem_cons_self
    rw [List.nil_append, List.cons_append, Lexeme.afterNumberSign_cons,
      if_neg (ne_of_isOrdinary hx (by decide)), if_neg (ne_of_isOrdinary hx (by decide)),
      if_neg (ne_of_isOrdinary hx (by decide))]
    exact passes_lineComment [] v hp '#'
  | cons x u =>
    rw [List.cons_append, Lexeme.afterNumberSign_cons]
    split
    · exact .inl ⟨u, rfl⟩
    split
    · exact .inl ⟨u, rfl⟩
    split
    · exact passes_commentRest u v hp hne
    · exact passes_lineComment (x :: u) v hp '#'

theorem passes_afterBar : Passes p v (Lexeme.afterBar (u ++ (p ++ v))).2 := by
  cases u with
  | nil =>
    obtain ⟨x, q, rfl⟩ := List.exists_cons_of_ne_nil hne
    rw [List.nil_append, List.cons_append, Lexeme.afterBar_cons,
      if_neg (ne_of_isOrdinary (hp x List.mem_cons_self) (by decide))]
    exact passes_atom [] v hp '|'
  | cons x u =>
    rw [List.cons_append, Lexeme.afterBar_cons]
    split
    · exact .inl ⟨u, rfl⟩
    · exact passes_atom (x :: u) v hp '|'

theorem passes_afterComma : Passes p v (Lexeme.afterComma (u ++ (p ++ v))).2 := by
  cases u with
  | nil =>
    obtain ⟨x, q, rfl⟩ := List.exists_cons_of_ne_nil hne
    rw [List.nil_append, List.cons_append, Lexeme.afterComma_cons,
      if_neg (ne_of_isOrdinary (hp x List.mem_cons_self) (by decide))]
    exact .inl ⟨[], rfl⟩
  | cons x u =>
    rw [List.cons_append, Lexeme.afterComma_cons]
    split
    · exact .inl ⟨u, rfl⟩
    · exact .inl ⟨x :: u, rfl⟩

/-- A lexeme that starts before an inserted word ends before it or after it. -/
theorem passes_nextLexeme (c : Char) : Passes p v (nextLexeme c (u ++ (p ++ v))).2 := by
  rw [nextLexeme]
  split
  · exact passes_blank u v hp hne c
  split
  · exact passes_lineComment u v hp c
  split
  · exact passes_afterNumberSign u v hp hne
  split
  · exact passes_afterBar u v hp hne
  split
  · exact passes_afterComma u v hp hne
  split
  · exact passes_stringRest u v hp hne
  split
  · exact .inl ⟨u, rfl⟩
  split
  · exact .inl ⟨u, rfl⟩
  split
  · exact .inl ⟨u, rfl⟩
  · exact passes_atom u v hp c

end Passes

/-- A word `p` inserted between `u` and `v` lies within the lexeme `l`: the lexemes
    `ls` end before it, `l` reaches from the part `x` at the end of `u` to the part
    `y` at the beginning of `v`, and the lexemes of the rest `z` come after it. -/
structure Through (u p v : List Char) (ls : List Lexeme) (l : Lexeme) (x y z : List Char) :
    Prop where
  lex_eq : lex (u ++ (p ++ v)) = ls ++ l :: lex z
  left_eq : u = ls.flatMap (·.text) ++ x
  right_eq : v = y ++ z
  text_eq : l.text = x ++ (p ++ y)
  /-- A lexeme that starts with the inserted word is a word. -/
  word : x = [] → ∃ kind, l.shape = .atom kind ∧ kind.isWord = true

/-- An inserted word lies within one lexeme. -/
theorem exists_lex_through {p : List Char} (hp : ∀ c ∈ p, isOrdinary c = true) (hne : p ≠ [])
    (u v : List Char) : ∃ ls l x y z, Through u p v ls l x y z := by
  match u with
  | [] =>
    obtain ⟨c, q, rfl⟩ := List.exists_cons_of_ne_nil hne
    have hc := startsWord_of_isOrdinary (hp c List.mem_cons_self)
    have hq : ∀ x ∈ q, (!isTerminator x) = true := fun x hx => by
      rw [isTerminator_of_isOrdinary (hp x (List.mem_cons_of_mem _ hx))]
      rfl
    refine ⟨[], (Lexeme.atom c (q ++ v)).1, [], v.takeWhile (!isTerminator ·),
      v.dropWhile (!isTerminator ·), ?_, rfl, List.takeWhile_append_dropWhile.symm, ?_,
      fun _ => ⟨_, rfl, isWord_atomKind _⟩⟩
    · rw [List.nil_append, List.cons_append, lex, nextLexeme_of_startsWord hc]
      rw [← List.dropWhile_append_of_pos hq]
      rfl
    · rw [Lexeme.atom, List.takeWhile_append_of_pos hq]
      rfl
  | c :: u =>
    have happ := nextLexeme_append c (u ++ (p ++ v))
    have hpass := passes_nextLexeme u v hp hne c
    have hnil := nextLexeme_text_ne_nil c (u ++ (p ++ v))
    have hlex : lex (c :: u ++ (p ++ v)) =
        (nextLexeme c (u ++ (p ++ v))).1 :: lex (nextLexeme c (u ++ (p ++ v))).2 := by
      rw [List.cons_append, lex]
    generalize nextLexeme c (u ++ (p ++ v)) = cut at happ hpass hnil hlex
    obtain ⟨first, rest⟩ := cut
    rcases hpass with ⟨r, rfl⟩ | ⟨y, rfl⟩
    · -- the first lexeme ends before the inserted word
      have hu : first.text ++ r = c :: u := by
        rw [← List.append_assoc] at happ
        exact List.append_cancel_right happ
      have hlt : r.length < (c :: u).length := by
        have hpos : 0 < first.text.length := List.length_pos_iff.2 hnil
        rw [← hu, List.length_append]
        omega
      obtain ⟨ls, l, x, y, z, hrest⟩ := exists_lex_through hp hne r v
      refine ⟨first :: ls, l, x, y, z, ?_, ?_, hrest.right_eq, hrest.text_eq, hrest.word⟩
      · rw [hlex, hrest.lex_eq]
        rfl
      · rw [← hu, hrest.left_eq, List.flatMap_cons, List.append_assoc]
    · -- the first lexeme goes on over the inserted word
      refine ⟨[], first, c :: u, y, rest, hlex, rfl, rfl, ?_,
        fun h => absurd h (List.cons_ne_nil _ _)⟩
      have hsplit : first.text ++ rest = c :: u ++ (p ++ y) ++ rest := by
        rw [happ, List.append_assoc, List.append_assoc, List.cons_append]
      exact List.append_cancel_right hsplit
termination_by u.length
decreasing_by exact hlt

theorem isOrdinary_of_isPunctuation {c : Char} (h : isPunctuation c = true) :
    isOrdinary c = false := by
  rw [Bool.eq_false_iff]
  intro hc
  have hstart := startsWord_of_isOrdinary hc
  simp only [isPunctuation, isCloser, openerKind?, Bool.or_eq_true, beq_iff_eq] at h
  simp only [startsWord, isTerminator, Bool.and_eq_true, Bool.not_eq_true', Bool.or_eq_false_iff,
    bne_iff_ne, beq_eq_false_iff_ne, ne_eq] at hstart
  simp_all

/-- Ordinary characters stand in comments, strings and words only. -/
theorem Lexeme.EndsBefore.cases_of_isOrdinary {l : Lexeme} {rest : List Char} {c : Char}
    (h : l.EndsBefore rest) (hmem : c ∈ l.text) (hc : isOrdinary c = true) :
    l.shape = .comment ∨ l.shape = .atom .string ∨
      ∃ kind, l.shape = .atom kind ∧ kind.isWord = true ∧
        (∀ x ∈ l.text, isTerminator x = false) ∧ EndsWord rest := by
  cases h with
  | blank _ hblank =>
    have hnot := isBlank_of_startsWord (startsWord_of_isOrdinary hc)
    rw [hblank c hmem] at hnot
    cases hnot
  | lineComment hs | delimitedComment hs => exact .inl hs
  | marker _ htext =>
    rw [htext] at hmem
    rw [List.mem_cons, List.mem_singleton] at hmem
    rcases hmem with rfl | rfl
    · cases hc
    · cases hc
  | punctuation _ hpunctuation =>
    rw [isOrdinary_of_isPunctuation (hpunctuation c hmem)] at hc
    cases hc
  | string hs => exact .inr (.inl hs)
  | word hs hk hnot hrest => exact .inr (.inr ⟨_, hs, hk, hnot, hrest⟩)

/-! ### The token over an inserted word -/

namespace Tree

theorem exists_below_of_mem_leaves {t : Tree} {leaf : Leaf} (h : leaf ∈ t.leaves) :
    ∃ l ∈ t.below, l.node = leaf.node ∧ l.trail = leaf.trail := by
  rw [t.leaves_eq] at h
  obtain ⟨l, hl, rfl⟩ := List.mem_map.1 h
  exact ⟨l, (List.mem_filter.1 hl).1, rfl, rfl⟩

theorem children_eq_nil {cs : List Char} {n : Node} (hn : n ∈ (Tree.read cs).nodes)
    (hroot : n.kind ≠ .root) (hnested : n.kind.isNested = false) : n.children = [] := by
  by_contra hne
  rcases ((orderly_read cs).2 n hn).nested hne with h | h
  · exact hroot h
  · rw [hnested] at h
    cases h

/-- A node of the tree of a text that is no root and has no parts is a leaf. -/
theorem exists_leaf_of_mem_nodes {cs : List Char} {n : Node} (hn : n ∈ (Tree.read cs).nodes)
    (hroot : n.kind ≠ .root) (hnested : n.kind.isNested = false) :
    ∃ leaf ∈ (Tree.read cs).leaves, leaf.node = n := by
  have hnil := children_eq_nil hn hroot hnested
  obtain ⟨l, hl, rfl⟩ := exists_location_of_mem_nodes hn
  rcases mem_leaves_of_mem_locations hl hnil with rfl | hleaf
  · exact absurd (orderly_read cs).1 hroot
  · exact ⟨_, hleaf, rfl⟩

theorem exists_leaf_of_isWord {cs : List Char} {n : Node} (hn : n ∈ (Tree.read cs).nodes)
    (hword : n.kind.isWord = true) : ∃ leaf ∈ (Tree.read cs).leaves, leaf.node = n :=
  have hkind := Kind.ne_root_of_isWord hword
  exists_leaf_of_mem_nodes hn hkind.1 hkind.2

/-- The root covers the whole text. -/
theorem span_root_read {cs : List Char} (hcs : cs ≠ []) :
    (Tree.read cs).root.span = ⟨0, byteLength cs⟩ := by
  have htokens := tokens_leaves_read cs
  have hleaves : (Tree.read cs).leaves ≠ [] := by
    intro h
    rw [h] at htokens
    refine hcs ?_
    rw [← flatMap_text_lex cs]
    generalize lex cs = ls at htokens
    cases htokens
    rfl
  have hne : (Tree.read cs).root.children ≠ [] := by
    intro h
    rw [leaves, h] at hleaves
    exact hleaves rfl
  have hroot : (Tree.read cs).root ∈ (Tree.read cs).nodes := Node.mem_preorder_self _
  have htiles := Node.tiles_leavesAll [(Tree.read cs).root.heading] _
    (fun m hm => filled_read cs m (List.mem_of_mem_tail (by rwa [tail_nodes])))
    (filled_read cs _ hroot hne)
  obtain ⟨hstart, hstop⟩ := Tiles.unique (mt List.map_eq_nil_iff.1 hleaves) htiles htokens.tiles
  rw [Nat.zero_add, flatMap_text_lex] at hstop
  rw [← hstart, ← hstop]

/-- No node of the tree of a text is empty, unless the text is. -/
theorem lt_stop_read {cs : List Char} (hcs : cs ≠ []) :
    ∀ n ∈ (Tree.read cs).nodes, n.span.start < n.span.stop := by
  intro n hn
  obtain ⟨l, hl, rfl⟩ := exists_location_of_mem_nodes hn
  rw [locations_eq] at hl
  rcases List.mem_cons.1 hl with rfl | hl
  · rw [span_root_read hcs]
    exact byteLength_pos hcs
  · have hpos := byteLength_pos (chars_ne_nil_of_mem_below hl)
    obtain ⟨before, run, after, -, hrun⟩ := exists_run_of_mem_below hl
    rw [hrun.chars_eq] at hpos
    rw [hrun.span_eq]
    exact Nat.lt_add_of_pos_right hpos

/-- A token of the tree of a text, with the lexemes and the tokens before and after
    it. -/
structure Splits (cs : List Char) (before : List Lexeme) (l : Lexeme) (after : List Lexeme)
    (as : List Leaf) (leaf : Leaf) (bs : List Leaf) : Prop where
  lex_eq : lex cs = before ++ l :: after
  leaves_eq : (Tree.read cs).leaves = as ++ leaf :: bs
  tokens_before : Tokens 0 before as
  isToken : leaf.IsToken (byteLength (before.flatMap (·.text))) l
  tokens_after : Tokens (byteLength (before.flatMap (·.text)) + byteLength l.text) after bs

theorem exists_splits {cs : List Char} {before after : List Lexeme} {l : Lexeme}
    (h : lex cs = before ++ l :: after) : ∃ as leaf bs, Splits cs before l after as leaf bs := by
  have htokens := tokens_leaves_read cs
  rw [h] at htokens
  obtain ⟨as, leaf, bs, hleaves, has, hleaf, hbs⟩ := htokens.exists_split
  rw [Nat.zero_add] at hleaf hbs
  exact ⟨as, leaf, bs, h, hleaves, has, hleaf, hbs⟩

namespace Splits

variable {cs : List Char} {before after : List Lexeme} {l : Lexeme} {as bs : List Leaf}
  {leaf : Leaf}

theorem ne_nil (h : Splits cs before l after as leaf bs) : cs ≠ [] := by
  rintro rfl
  have hlex := h.lex_eq
  simp [lex] at hlex

/-- The text of a token is that of its lexeme. -/
theorem chars_eq (h : Splits cs before l after as leaf bs) :
    (Tree.read cs).chars leaf.node = l.text := by
  have hstands : StandsAt cs (byteLength (before.flatMap (·.text))) l.text := by
    refine ⟨before.flatMap (·.text), after.flatMap (·.text), ?_, rfl⟩
    rw [← List.flatMap_cons, ← List.flatMap_append, ← h.lex_eq, flatMap_text_lex]
  have hsource : (Tree.read cs).source = cs := Builder.source_reading cs
  rw [chars, h.isToken.span_eq, hsource, hstands.slice_eq]

/-- Another token ends before the token starts, or starts after it ends. -/
theorem cases_of_mem (h : Splits cs before l after as leaf bs) {other : Leaf}
    (hother : other ∈ (Tree.read cs).leaves) :
    other = leaf ∨ other ∈ as ∧ other.node.span.stop ≤ leaf.node.span.start ∨
      leaf.node.span.stop ≤ other.node.span.start := by
  rw [h.leaves_eq] at hother
  rw [h.isToken.span_eq]
  rcases List.mem_append.1 hother with hother | hother
  · have hstop := (h.tokens_before.span_of_mem hother).2
    rw [Nat.zero_add] at hstop
    exact .inr (.inl ⟨hother, hstop⟩)
  rcases List.mem_cons.1 hother with hother | hother
  · exact .inl hother
  · exact .inr (.inr (h.tokens_after.span_of_mem hother).1)

/-- A word before a token that does not end it stands apart from the token. -/
theorem stop_lt_of_isWord (h : Splits cs before l after as leaf bs) (hends : ¬ EndsWord l.text)
    {other : Leaf} (hmem : other ∈ as) (hword : other.node.kind.isWord = true) :
    other.node.span.stop < leaf.node.span.start := by
  obtain ⟨ms, m, ns, rfl, hm⟩ := h.tokens_before.exists_lexeme hmem
  have hlex : lex cs = ms ++ m :: (ns ++ l :: after) := by rw [h.lex_eq]; simp
  have hgap : ns.flatMap (·.text) ≠ [] := by
    intro hnil
    have hshape := Shape.eq_atom_of_mem_kinds hm.kind_mem (Kind.isForm_of_isWord hword)
    have hrest := (endsBefore_of_lex hlex).endsWord hshape hword
    rw [List.flatMap_append, hnil, List.nil_append, List.flatMap_cons] at hrest
    exact hends hrest.of_append
  have hpos := byteLength_pos hgap
  rw [hm.span_eq, h.isToken.span_eq]
  simp only [List.flatMap_append, List.flatMap_cons, byteLength_append]
  omega

/-- The only word that touches an offset in a token is the token itself, unless
    the token starts there and ends the word before it. -/
theorem eq_of_touches (h : Splits cs before l after as leaf bs) {offset : Nat}
    (hstart : leaf.node.span.start ≤ offset) (hstop : offset < leaf.node.span.stop)
    (hends : leaf.node.span.start = offset → ¬ EndsWord l.text) {n : Node}
    (hn : n ∈ (Tree.read cs).nodes) (hword : n.kind.isWord = true)
    (htouches : n.span.touches offset = true) : n = leaf.node := by
  obtain ⟨other, hother, rfl⟩ := exists_leaf_of_isWord hn hword
  simp only [Span.touches, Bool.and_eq_true, decide_eq_true_eq] at htouches
  rcases h.cases_of_mem hother with rfl | ⟨hmem, hbefore⟩ | hafter
  · rfl
  · -- the word before the token ends where the token starts, so the token ends it
    have hlt := h.stop_lt_of_isWord (hends (by omega)) hmem hword
    omega
  · omega

/-- A search for an offset in a token does not go astray, if the token is a word, or
    the offset inside a string, a comment or a blank, and no word ends right before it
    at the offset. -/
theorem targets (h : Splits cs before l after as leaf bs) {loc : Location}
    (hnode : loc.node = leaf.node) (htrail : loc.trail = leaf.trail) {offset : Nat}
    (hstart : leaf.node.span.start ≤ offset) (hstop : offset < leaf.node.span.stop)
    (hkind : leaf.node.kind.isWord = true ∨
      leaf.node.kind ∈ [.string, .lineComment, .whitespace] ∧ leaf.node.span.start < offset)
    (hends : leaf.node.span.start = offset → ¬ EndsWord l.text) :
    (Tree.read cs).Targets offset loc := by
  have hcs := h.ne_nil
  have htoken : leaf.node.kind.isNested = false ∧ leaf.node.kind ≠ .openDelim ∧
      leaf.node.kind ≠ .sigil := by
    revert hkind
    cases leaf.node.kind <;> simp [Kind.isWord, Kind.isNested, Kind.isCollection]
  have hinside := (h.isToken.inside.resolve_left htoken.2.1).resolve_left htoken.2.2
  have hspan := h.isToken.span_eq
  refine ⟨filled_read cs, lt_stop_read hcs, ?_, ?_, ?_, ?_, ?_⟩
  · rw [hnode]
    exact htoken.1
  · rw [hnode]
    exact ⟨hstart, hstop⟩
  · intro n hn
    have hheading : n.heading ∈ leaf.trail.dropLast := by
      rw [← htrail, Location.trail, ← List.map_dropLast]
      exact List.mem_map_of_mem hn
    have hnested := h.isToken.nested _ hheading
    refine ⟨hnested, ?_⟩
    rcases hinside _ (List.dropLast_subset _ hheading) with hroot | hlt
    · have hroot : n.kind = .root := hroot
      have hnested : n.kind.isNested = true := hnested
      rw [hroot] at hnested
      cases hnested
    · rw [hspan] at hstart
      exact Nat.lt_of_lt_of_le hlt hstart
  · intro n hn hword htouches
    rw [hnode]
    exact h.eq_of_touches hstart hstop hends hn hword htouches
  · rw [hnode]
    exact hkind.imp_right And.right

/-- A location whose node has no children and covers part of a token is that of
    the token. -/
theorem eq_of_covers (h : Splits cs before l after as leaf bs) {loc other : Location}
    (hloc : loc ∈ (Tree.read cs).locations) (hnode : loc.node = leaf.node)
    (hother : other ∈ (Tree.read cs).locations) (hnil : other.node.children = [])
    {start stop : Nat} (hlt : start < stop) (hstart : leaf.node.span.start ≤ start)
    (hstop : stop ≤ leaf.node.span.stop) (hostart : other.node.span.start ≤ start)
    (hostop : stop ≤ other.node.span.stop) : other = loc := by
  have hleaf : ⟨other.node, other.trail⟩ ∈ (Tree.read cs).leaves := by
    refine (mem_leaves_of_mem_locations hother hnil).resolve_left ?_
    rintro rfl
    -- the root is no leaf, since there is one
    have hleaves := h.leaves_eq
    have hnil : (Tree.read cs).root.children = [] := hnil
    rw [leaves, hnil] at hleaves
    simp [Node.leavesAll] at hleaves
  have heq : other.node = leaf.node := by
    rcases h.cases_of_mem hleaf with heq | ⟨-, hbefore⟩ | hafter
    · rw [← heq]
    · simp only at hbefore
      omega
    · simp only at hafter
      omega
  have hid := locationOf_read hother
  rw [heq, ← hnode, locationOf_read hloc] at hid
  exact (Except.ok.inj hid).symm

end Splits

end Tree

namespace Through

variable {u p v : List Char} {ls : List Lexeme} {l : Lexeme} {x y z : List Char}

/-- The token over an inserted word is a string or a comment that begins before it,
    or a word that ends after it. -/
theorem kind_of_isToken (h : Through u p v ls l x y z) (hp : ∀ c ∈ p, isOrdinary c = true)
    (hne : p ≠ []) {leaf : Leaf} {start : Nat} (htoken : leaf.IsToken start l) :
    leaf.node.kind ∈ [.string, .lineComment] ∧ x ≠ [] ∨
      leaf.node.kind.isWord = true ∧ (∀ c ∈ l.text, isTerminator c = false) ∧ EndsWord z := by
  obtain ⟨c, hc⟩ := List.exists_mem_of_ne_nil p hne
  have hmem := htoken.kind_mem
  have hword := h.word
  have hends := endsBefore_of_lex h.lex_eq
  rw [flatMap_text_lex] at hends
  rcases hends.cases_of_isOrdinary (by simp [h.text_eq, hc]) (hp c hc) with
    hs | hs | ⟨kind, hs, hk, hnot, hrest⟩
  · rw [hs] at hmem hword
    refine .inl ⟨List.mem_cons_of_mem _ hmem, fun hx => ?_⟩
    obtain ⟨kind, hshape, -⟩ := hword hx
    cases hshape
  · rw [hs] at hmem hword
    refine .inl ⟨List.mem_cons.2 (.inl (List.mem_singleton.1 hmem)), fun hx => ?_⟩
    obtain ⟨kind, hshape, hk⟩ := hword hx
    cases hshape
    cases hk
  · rw [hs] at hmem
    rw [List.mem_singleton.1 hmem]
    exact .inr ⟨hk, hnot, hrest⟩

/-- A lexeme that starts with the inserted word ends no word before it. -/
theorem not_endsWord (h : Through u p v ls l x y z) (hp : ∀ c ∈ p, isOrdinary c = true)
    (hne : p ≠ []) (hx : x = []) : ¬ EndsWord l.text := by
  obtain ⟨c, q, rfl⟩ := List.exists_cons_of_ne_nil hne
  have hc := isTerminator_of_isOrdinary (hp c List.mem_cons_self)
  rw [h.text_eq, hx]
  intro hends
  rw [hends c rfl] at hc
  cases hc

/-- The token over an inserted word starts before it, by the length of `x`, and
    ends after it. -/
theorem span_of_isToken (h : Through u p v ls l x y z) {leaf : Leaf}
    (htoken : leaf.IsToken (byteLength (ls.flatMap (·.text))) l) :
    leaf.node.span.start + byteLength x = byteLength u ∧
      byteLength u + byteLength p ≤ leaf.node.span.stop := by
  have hu : byteLength u = byteLength (ls.flatMap (·.text)) + byteLength x := by
    rw [h.left_eq, byteLength_append]
  have hl : byteLength l.text = byteLength x + (byteLength p + byteLength y) := by
    rw [h.text_eq, byteLength_append, byteLength_append]
  rw [htoken.span_eq]
  refine ⟨hu.symm, ?_⟩
  simp only
  omega

/-- A search for the place of an inserted word finds the token over it. -/
theorem targets (h : Through u p v ls l x y z) (hp : ∀ c ∈ p, isOrdinary c = true)
    (hne : p ≠ []) {as bs : List Leaf} {leaf : Leaf}
    (hsplits : Tree.Splits (u ++ (p ++ v)) ls l (lex z) as leaf bs) {loc : Location}
    (hnode : loc.node = leaf.node) (htrail : loc.trail = leaf.trail) :
    (Tree.read (u ++ (p ++ v))).Targets (byteLength u) loc := by
  obtain ⟨hstart, hstop⟩ := h.span_of_isToken hsplits.isToken
  have hpos := byteLength_pos hne
  refine hsplits.targets hnode htrail (by omega) (by omega) ?_ fun heq => ?_
  · rcases h.kind_of_isToken hp hne hsplits.isToken with ⟨hk, hx⟩ | ⟨hk, -⟩
    · have hx := byteLength_pos hx
      exact .inr ⟨List.mem_append_left [Kind.whitespace] hk, by omega⟩
    · exact .inl hk
  · refine h.not_endsWord hp hne ?_
    by_contra hx
    have hx := byteLength_pos hx
    omega

end Through

namespace Tree

/-- The token at the location `l` holds a word that was inserted into a text. The
    text is `u ++ v`, the word `p`, and the tree is that of `u ++ (p ++ v)`. -/
structure Holds (t : Tree) (u p v : List Char) (l : Location) : Prop where
  mem : l ∈ t.locations
  children_eq : l.node.children = []
  covers : l.node.span.start ≤ byteLength u ∧ byteLength u + byteLength p ≤ l.node.span.stop
  /-- It is the only token over the inserted word. -/
  unique : ∀ other ∈ t.locations, other.node.children = [] →
    other.node.span.start ≤ byteLength u → byteLength u + byteLength p ≤ other.node.span.stop →
      other = l
  findAt_eq : t.root.findAt (byteLength u) [] = l
  /-- The token is the word between `u'` and `v'`, or a string or a comment. -/
  cases : l.node.kind ∈ [.string, .lineComment] ∨ l.node.kind.isWord = true ∧
    ∃ u' x y v', u = u' ++ x ∧ v = y ++ v' ∧ l.node.span.start = byteLength u' ∧
      t.chars l.node = x ++ (p ++ y) ∧ (∀ c ∈ x ++ (p ++ y), isTerminator c = false) ∧
      EndsWord v'

/-- A word of ordinary characters, inserted anywhere into a text, is held by one
    token. -/
theorem exists_holds_read {p : List Char} (hp : ∀ c ∈ p, isOrdinary c = true) (hne : p ≠ [])
    (u v : List Char) :
    ∃ l, (Tree.read (u ++ (p ++ v))).Holds u p v l := by
  obtain ⟨ls, l, x, y, z, hthrough⟩ := exists_lex_through hp hne u v
  obtain ⟨as, leaf, bs, hsplits⟩ := exists_splits hthrough.lex_eq
  have hleaf : leaf ∈ (Tree.read (u ++ (p ++ v))).leaves := by simp [hsplits.leaves_eq]
  obtain ⟨loc, hbelow, hnode, htrail⟩ := exists_below_of_mem_leaves hleaf
  have hloc := mem_locations_of_below hbelow
  obtain ⟨hstart, hstop⟩ := hthrough.span_of_isToken hsplits.isToken
  have hle : leaf.node.span.start ≤ byteLength u := by omega
  refine ⟨loc, hloc, ?_, ?_, ?_, ?_, ?_⟩
  · rw [hnode]
    exact hsplits.isToken.children_eq
  · rw [hnode]
    exact ⟨hle, hstop⟩
  · intro other hother hnil hostart hostop
    exact hsplits.eq_of_covers hloc hnode hother hnil
      (Nat.lt_add_of_pos_right (byteLength_pos hne)) hle hstop hostart hostop
  · exact (hthrough.targets hp hne hsplits hnode htrail).findAt_eq [] _ (List.Subset.refl _) hbelow
  · rw [hnode]
    rcases hthrough.kind_of_isToken hp hne hsplits.isToken with ⟨hk, -⟩ | ⟨hk, hnot, hrest⟩
    · exact .inl hk
    · refine .inr ⟨hk, ls.flatMap (·.text), x, y, z, hthrough.left_eq, hthrough.right_eq, ?_, ?_,
        hthrough.text_eq ▸ hnot, hrest⟩
      · rw [hsplits.isToken.span_eq]
      · rw [hsplits.chars_eq, hthrough.text_eq]

end Tree

end Typeahead
