import Typeahead.Proofs.Boundary

/-!
# Lexemes around a marker

A marker that is put into a text right before a lexeme that opens a node changes no
lexeme, unless a word ends there, which would take the marker into itself. The lexemes
before the marker end at it on their own: a string and a comment are closed, and
whatever else there is ends before a delimiter, a sigil and a marker alike.

* `nextLexeme_of_closed`: one lexeme;
* `CutsBefore.lex_insert`: the lexemes of the text with the marker.
-/

namespace Typeahead

/-! ### Lexemes that end before a marker -/

section Cut

variable {cs w z : List Char} {c d : Char}

/-- A text from which nothing is taken is not shorter afterwards. -/
theorem snd_ne_of_fst_ne_nil {x : List Char × List Char} (hx : x.1 ++ x.2 = w) (hne : x.1 ≠ []) :
    x.2 ≠ w := by
  intro h
  rw [h] at hx
  exact hne (List.append_left_eq_self.1 hx)

theorem snd_stringRest_cons_ne (c d : Char) (w : List Char) :
    (stringRest (d :: w)).2 ≠ d :: w ∧ (c ≠ '"' → (stringRest (c :: d :: w)).2 ≠ d :: w) := by
  have hcons : (stringRest (d :: w)).1 ≠ [] := by
    rw [stringRest.eq_def]
    split
    · next heq => cases heq
    · exact List.cons_ne_nil _ _
    · split <;> exact List.cons_ne_nil _ _
  have hne := snd_ne_of_fst_ne_nil (stringRest_append (d :: w)) hcons
  refine ⟨hne, fun hc => ?_⟩
  by_cases hb : c = '\\'
  · subst hb
    -- the backslash takes the next character with it
    exact snd_ne_of_fst_ne_nil (x := (d :: (stringRest w).1, (stringRest w).2))
      (by rw [List.cons_append, stringRest_append]) (List.cons_ne_nil _ _)
  · rw [stringRest_cons hb, if_neg hc]
    exact hne

/-- A literal that is closed at the end of `cs` does not depend on what follows. -/
theorem snd_stringRest_of_closed (h : (stringRest (cs ++ d :: w)).2 = d :: w) (z : List Char) :
    (stringRest (cs ++ z)).2 = z := by
  fun_induction stringRest cs with
  | case1 => exact absurd h (snd_stringRest_cons_ne 'x' d w).1
  | case2 c cs _ _ _ ih => exact ih h
  | case3 cs _ =>
    rw [List.cons_append, stringRest_cons (by decide), if_pos rfl] at h ⊢
    rw [List.append_left_eq_self.1 h, List.nil_append]
  | case4 c cs hnot hc _ _ _ ih =>
    cases cs with
    | nil => exact absurd h ((snd_stringRest_cons_ne c d w).2 hc)
    | cons x cs =>
      have hb : c ≠ '\\' := fun hb => hnot x cs hb rfl
      rw [List.cons_append, stringRest_cons hb, if_neg hc] at h ⊢
      exact ih h

theorem snd_commentRest_cons_ne (c d : Char) (w : List Char) :
    (commentRest (d :: w)).2 ≠ d :: w ∧ (commentRest (c :: d :: w)).2 ≠ d :: w := by
  have hcons : ∀ (e : Char) (r : List Char), (commentRest (e :: r)).1 ≠ [] := by
    intro e r
    rw [commentRest.eq_def]
    split
    · next heq => cases heq
    · exact List.cons_ne_nil _ _
    · exact List.cons_ne_nil _ _
  have hne := snd_ne_of_fst_ne_nil (commentRest_append (d :: w)) (hcons d w)
  refine ⟨hne, ?_⟩
  rw [commentRest.eq_def]
  split
  · next heq => cases heq
  · next heq =>
    cases heq
    exact (List.cons_ne_self _ _).symm
  · next heq =>
    cases heq
    exact hne

/-- A delimited comment that is closed at the end of `cs` does not depend on what
    follows. -/
theorem snd_commentRest_of_closed (h : (commentRest (cs ++ d :: w)).2 = d :: w) (z : List Char) :
    (commentRest (cs ++ z)).2 = z := by
  fun_induction commentRest cs with
  | case1 => exact absurd h (snd_commentRest_cons_ne 'x' d w).1
  | case2 cs =>
    have h : cs ++ d :: w = d :: w := h
    rw [List.append_left_eq_self.1 h]
    rfl
  | case3 c cs hnot _ _ _ ih =>
    cases cs with
    | nil => exact absurd h (snd_commentRest_cons_ne c d w).2
    | cons x cs =>
      have hend : ∀ t cs', c = '|' → x :: cs ++ t = '#' :: cs' → False := by
        intro t cs' hc hx
        exact hnot cs hc (by rw [(List.cons.inj hx).1])
      rw [List.cons_append, commentRest_cons (hend _)] at h ⊢
      exact ih h

theorem snd_lineComment_ne (hd : d ≠ '\n') (c : Char) (cs : List Char) :
    (Lexeme.lineComment c (cs ++ d :: w)).2 ≠ d :: w := by
  intro h
  have hdrop : (cs ++ d :: w).dropWhile (· != '\n') = d :: w := h
  have hmem : d ∈ ((cs ++ d :: w).dropWhile (· != '\n')).head? := by
    rw [hdrop]
    rfl
  exact hd (by simpa using not_of_mem_head?_dropWhile hmem)

theorem stringRest_of_closed (h : (stringRest (cs ++ d :: w)).2 = d :: w) (z : List Char) :
    stringRest (cs ++ z) = ((stringRest (cs ++ d :: w)).1, z) := by
  have h' := snd_stringRest_of_closed h z
  rw [fst_eq_of_append (r := []) (stringRest_append _) (stringRest_append _) h h']
  exact Prod.ext rfl h'

theorem commentRest_of_closed (h : (commentRest (cs ++ d :: w)).2 = d :: w) (z : List Char) :
    commentRest (cs ++ z) = ((commentRest (cs ++ d :: w)).1, z) := by
  have h' := snd_commentRest_of_closed h z
  rw [fst_eq_of_append (r := []) (commentRest_append _) (commentRest_append _) h h']
  exact Prod.ext rfl h'

namespace Lexeme

theorem snd_afterNumberSign_ne (hd : d ≠ '\n') (w : List Char) :
    (afterNumberSign (d :: w)).2 ≠ d :: w := by
  rw [afterNumberSign_cons]
  split
  · exact (List.cons_ne_self d w).symm
  split
  · exact (List.cons_ne_self d w).symm
  split
  · exact not_append_of_cut (r := [d]) (commentRest_append w) (List.cons_ne_nil d [])
  · exact snd_lineComment_ne hd '#' []

variable {k l : Lexeme}

/-- A lexeme of fixed characters that ends where `cs` ends. -/
theorem fixed_of_closed (h : (k, cs ++ d :: w) = (l, d :: w)) (z : List Char) :
    (k, cs ++ z) = (l, z) := by
  obtain ⟨rfl, hrest⟩ := Prod.mk.inj h
  rw [List.append_left_eq_self.1 hrest, List.nil_append]

theorem blank_of_closed (h : blank c (cs ++ d :: w) = (l, d :: w)) (z : List Char) :
    blank c (cs ++ '#' :: z) = (l, '#' :: z) := by
  obtain ⟨rfl, hdrop⟩ := Prod.mk.inj h
  have htake : (cs ++ d :: w).takeWhile isBlank = cs := by
    have happ := List.takeWhile_append_dropWhile (p := isBlank) (l := cs ++ d :: w)
    rw [hdrop] at happ
    exact List.append_cancel_right happ
  have hall : ∀ x ∈ cs, isBlank x = true := fun x hx =>
    List.mem_takeWhile_imp (htake.symm ▸ hx)
  have hsign : isBlank '#' = false := by decide
  rw [blank, htake, List.takeWhile_append_of_pos hall, List.dropWhile_append_of_pos hall]
  simp [hsign]

theorem afterNumberSign_of_closed (hd : d ≠ '\n')
    (h : afterNumberSign (cs ++ d :: w) = (l, d :: w)) (z : List Char) :
    afterNumberSign (cs ++ z) = (l, z) := by
  cases cs with
  | nil => exact absurd (congrArg Prod.snd h) (snd_afterNumberSign_ne hd w)
  | cons x cs =>
    rw [List.cons_append, afterNumberSign_cons] at h ⊢
    by_cases hmarker : x = '_'
    · rw [if_pos hmarker] at h ⊢
      exact fixed_of_closed h z
    rw [if_neg hmarker] at h ⊢
    by_cases hset : x = '\x7b'
    · rw [if_pos hset] at h ⊢
      exact fixed_of_closed h z
    rw [if_neg hset] at h ⊢
    by_cases hbar : x = '|'
    · rw [if_pos hbar] at h ⊢
      obtain ⟨rfl, hrest⟩ := Prod.mk.inj h
      rw [commentRest_of_closed hrest z]
    · rw [if_neg hbar] at h
      exact absurd (congrArg Prod.snd h) (snd_lineComment_ne hd '#' (x :: cs))

theorem atom_ne_of_not_word (hword : ∀ kind, l.shape = .atom kind → kind.isWord = false)
    (c : Char) (cs r : List Char) : atom c cs ≠ (l, r) := by
  intro h
  obtain ⟨rfl, -⟩ := Prod.mk.inj h
  exact absurd (isWord_atomKind _) (ne_true_of_eq_false (hword _ rfl))

theorem afterBar_of_closed (hword : ∀ kind, l.shape = .atom kind → kind.isWord = false)
    (h : afterBar (cs ++ d :: w) = (l, d :: w)) (z : List Char) :
    afterBar (cs ++ z) = (l, z) := by
  cases cs with
  | nil =>
    rw [List.nil_append, afterBar_cons] at h
    split at h
    · exact absurd (Prod.mk.inj h).2 (List.cons_ne_self d w).symm
    · exact absurd h (atom_ne_of_not_word hword _ _ _)
  | cons x cs =>
    rw [List.cons_append, afterBar_cons] at h ⊢
    split at h
    · next hx =>
      rw [if_pos hx]
      exact fixed_of_closed h z
    · exact absurd h (atom_ne_of_not_word hword _ _ _)

theorem afterComma_of_closed (h : afterComma (cs ++ d :: w) = (l, d :: w)) (z : List Char) :
    afterComma (cs ++ '#' :: z) = (l, '#' :: z) := by
  cases cs with
  | nil =>
    rw [List.nil_append, afterComma_cons] at h
    split at h
    · exact absurd (Prod.mk.inj h).2 (List.cons_ne_self d w).symm
    · rw [← (Prod.mk.inj h).1]
      rfl
  | cons x cs =>
    rw [List.cons_append, afterComma_cons] at h ⊢
    split at h
    · next hx =>
      rw [if_pos hx]
      exact fixed_of_closed h _
    · exact absurd (List.append_left_eq_self.1 (Prod.mk.inj h).2) (List.cons_ne_nil x cs)

end Lexeme

/-- A lexeme that ends where `cs` ends is the same if a marker follows, unless it is a
    word or a comment up to the end of the line. -/
theorem nextLexeme_of_closed {l : Lexeme} (hd : d ≠ '\n')
    (hword : ∀ kind, l.shape = .atom kind → kind.isWord = false)
    (h : nextLexeme c (cs ++ d :: w) = (l, d :: w)) (z : List Char) :
    nextLexeme c (cs ++ '#' :: z) = (l, '#' :: z) := by
  rw [nextLexeme] at h ⊢
  by_cases hblank : isBlank c = true
  · rw [if_pos hblank] at h ⊢
    exact Lexeme.blank_of_closed h z
  rw [if_neg hblank] at h ⊢
  by_cases hline : c = ';'
  · rw [if_pos hline] at h
    exact absurd (congrArg Prod.snd h) (snd_lineComment_ne hd c cs)
  rw [if_neg hline] at h ⊢
  by_cases hsign : c = '#'
  · rw [if_pos hsign] at h ⊢
    exact Lexeme.afterNumberSign_of_closed hd h _
  rw [if_neg hsign] at h ⊢
  by_cases hbar : c = '|'
  · rw [if_pos hbar] at h ⊢
    exact Lexeme.afterBar_of_closed hword h _
  rw [if_neg hbar] at h ⊢
  by_cases hcomma : c = ','
  · rw [if_pos hcomma] at h ⊢
    exact Lexeme.afterComma_of_closed h z
  rw [if_neg hcomma] at h ⊢
  by_cases hquote : c = '"'
  · rw [if_pos hquote] at h ⊢
    obtain ⟨rfl, hrest⟩ := Prod.mk.inj h
    rw [stringRest_of_closed hrest]
  rw [if_neg hquote] at h ⊢
  by_cases hcloser : isCloser c = true
  · rw [if_pos hcloser] at h ⊢
    exact Lexeme.fixed_of_closed h _
  rw [if_neg hcloser] at h ⊢
  by_cases hsigil : isSigil c = true
  · rw [if_pos hsigil] at h ⊢
    exact Lexeme.fixed_of_closed h _
  rw [if_neg hsigil] at h ⊢
  cases hopener : openerKind? c with
  | some kind =>
    rw [hopener] at h
    exact Lexeme.fixed_of_closed h _
  | none =>
    rw [hopener] at h
    exact absurd h (Lexeme.atom_ne_of_not_word hword _ _ _)

end Cut

theorem byteLength_marker (w : List Char) : byteLength ('#' :: '_' :: w) = byteLength w + 2 := by
  have hsize : '#'.utf8Size = 1 ∧ '_'.utf8Size = 1 := by decide
  rw [byteLength_cons, byteLength_cons, hsize.1, hsize.2]
  omega

/-- The text `u ++ w` is cut before the lexeme `l`, which opens a node, and not right
    after a word. -/
structure CutsBefore (u w : List Char) (before : List Lexeme) (l : Lexeme)
    (after : List Lexeme) : Prop where
  lex_eq : lex (u ++ w) = before ++ l :: after
  left_eq : before.flatMap (·.text) = u
  opens : (∃ kind, l.shape = .opener kind) ∨ l.shape = .sigil
  not_word : ∀ k ∈ before.getLast?, ∀ kind, k.shape = .atom kind → kind.isWord = false

namespace CutsBefore

variable {u w : List Char} {before : List Lexeme} {l : Lexeme} {after : List Lexeme}

theorem right_eq (h : CutsBefore u w before l after) : w = l.text ++ after.flatMap (·.text) := by
  have htext := flatMap_text_lex (u ++ w)
  rw [h.lex_eq, List.flatMap_append, h.left_eq, List.flatMap_cons] at htext
  exact (List.append_cancel_left htext).symm

theorem ne_nil_of_mem (h : CutsBefore u w before l after) {k : Lexeme} (hk : k ∈ before ++ [l]) :
    k.text ≠ [] := by
  have hmem : k ∈ lex (u ++ w) := by
    rw [h.lex_eq, List.append_cons]
    exact List.mem_append_left _ hk
  exact (sound_of_mem_lex hmem).text_ne_nil

/-- What is cut off does not begin with a line break. -/
theorem exists_cons (h : CutsBefore u w before l after) : ∃ d w', w = d :: w' ∧ d ≠ '\n' := by
  obtain ⟨d, w', hnext⟩ := exists_nextLexeme_of_lex h.lex_eq
  have happ := nextLexeme_append d w'
  rw [hnext] at happ
  refine ⟨d, w', h.right_eq.trans happ, ?_⟩
  rintro rfl
  have hblank : l.shape = .blank := by
    rw [nextLexeme, if_pos (by decide), Lexeme.blank] at hnext
    rw [← (Prod.mk.inj hnext).1]
  rcases h.opens with ⟨kind, hshape⟩ | hshape
  · rw [hblank] at hshape
    cases hshape
  · rw [hblank] at hshape
    cases hshape

/-- What opens a node is made of delimiters and sigils. -/
theorem isPunctuation_of_mem (h : CutsBefore u w before l after) :
    ∀ c ∈ l.text, isPunctuation c = true := by
  have hshape : l.shape ≠ .blank ∧ l.shape ≠ .comment ∧ l.shape ≠ .marker ∧
      ∀ kind, l.shape ≠ .atom kind := by
    rcases h.opens with ⟨kind, hshape⟩ | hshape <;> rw [hshape] <;> simp
  cases endsBefore_of_lex h.lex_eq with
  | blank hs => exact absurd hs hshape.1
  | lineComment hs | delimitedComment hs => exact absurd hs hshape.2.1
  | marker hs => exact absurd hs hshape.2.2.1
  | punctuation _ htext => exact htext
  | string hs | word hs => exact absurd hs (hshape.2.2.2 _)

/-- No word ends at the cut, so that the text before it does not end with the last letter
    of a keyword, either. -/
theorem getLast?_ne (h : CutsBefore u w before l after) : ∀ c ∈ u.getLast?, c ≠ 'e' := by
  rintro c hc rfl
  cases hlast : before.getLast? with
  | none =>
    rw [List.getLast?_eq_none_iff] at hlast
    rw [← h.left_eq, hlast] at hc
    cases hc
  | some k =>
    obtain ⟨init, rfl⟩ := List.getLast?_eq_some_iff.1 hlast
    have hlex := h.lex_eq
    rw [List.append_assoc, List.singleton_append] at hlex
    have hne := h.ne_nil_of_mem (k := k) (by simp)
    have hend : k.text.getLast? = some 'e' := by
      have hleft := h.left_eq
      rw [List.flatMap_append, List.flatMap_singleton] at hleft
      rwa [← hleft, List.getLast?_append, Option.mem_def,
        Option.or_of_isSome (List.getLast?_isSome.2 hne)] at hc
    have hmem : 'e' ∈ k.text := List.mem_of_getLast? hend
    obtain ⟨d, w', hw, hd⟩ := h.exists_cons
    have hright : (l :: after).flatMap (·.text) = d :: w' := by
      rw [List.flatMap_cons, ← h.right_eq, hw]
    have hends := endsBefore_of_lex hlex
    rw [hright] at hends
    cases hends with
    | blank _ hblank => exact absurd (hblank 'e' hmem) (by decide)
    | lineComment _ hline => exact hd (hline d rfl)
    | delimitedComment _ hclosed =>
      obtain ⟨s, hs⟩ := hclosed.resolve_left (List.cons_ne_nil d w')
      simp [hs] at hend
    | marker _ htext => simp [htext] at hend
    | punctuation _ hpunctuation => exact absurd (hpunctuation 'e' hmem) (by decide)
    | string _ hclosed =>
      obtain ⟨s, hs⟩ := hclosed.resolve_left (List.cons_ne_nil d w')
      simp [hs] at hend
    | word hshape hword => exact absurd hword (by simp [h.not_word k hlast _ hshape])

/-- The lexemes before the cut stay the same if a marker follows. -/
theorem lex_append (h : CutsBefore u w before l after) (z : List Char) :
    lex (u ++ '#' :: z) = before ++ lex ('#' :: z) ∧ lex w = l :: after := by
  obtain ⟨d, w, rfl, hd⟩ := h.exists_cons
  induction before generalizing u with
  | nil =>
    obtain rfl : [] = u := h.left_eq
    exact ⟨rfl, h.lex_eq⟩
  | cons k before ih =>
    obtain ⟨c, s, htext⟩ := List.exists_cons_of_ne_nil (h.ne_nil_of_mem List.mem_cons_self)
    have hu := h.left_eq
    rw [List.flatMap_cons, htext, List.cons_append] at hu
    subst hu
    have hlex := h.lex_eq
    rw [List.cons_append, lex, List.cons_append] at hlex
    obtain ⟨hfst, hrest⟩ := List.cons.inj hlex
    have hsnd : (nextLexeme c (s ++ before.flatMap (·.text) ++ d :: w)).2 =
        before.flatMap (·.text) ++ d :: w := by
      have happ := nextLexeme_append c (s ++ before.flatMap (·.text) ++ d :: w)
      rw [hfst, htext, List.cons_append] at happ
      rw [List.append_assoc] at happ ⊢
      exact List.append_cancel_left (List.cons.inj happ).2
    rw [hsnd] at hrest
    have hcut : CutsBefore (before.flatMap (·.text)) (d :: w) before l after := by
      refine ⟨hrest, rfl, h.opens, fun j hj => h.not_word j ?_⟩
      rw [List.getLast?_cons, Option.mem_def.1 hj]
      rfl
    obtain ⟨hbefore, hafter⟩ := ih hcut
    refine ⟨?_, hafter⟩
    have hnext : nextLexeme c (s ++ before.flatMap (·.text) ++ '#' :: z) =
        (k, before.flatMap (·.text) ++ '#' :: z) := by
      cases before with
      | nil =>
        rw [List.flatMap_nil, List.append_nil] at hsnd hfst ⊢
        exact nextLexeme_of_closed hd (h.not_word k rfl) (Prod.ext hfst hsnd) z
      | cons j before =>
        have hj := h.ne_nil_of_mem (k := j) (by simp)
        rw [nextLexeme_append_congr (by simp [hj]) hsnd, hfst]
    rw [List.cons_append, lex_cons hnext, hbefore]
    rfl

/-- The lexemes of the text with a marker at the cut. -/
theorem lex_insert (h : CutsBefore u w before l after) :
    lex (u ++ '#' :: '_' :: w) = before ++ ⟨.marker, ['#', '_']⟩ :: l :: after := by
  have hmarker : nextLexeme '#' ('_' :: w) = (⟨.marker, ['#', '_']⟩, w) := rfl
  obtain ⟨hbefore, hafter⟩ := h.lex_append ('_' :: w)
  rw [hbefore, lex_cons hmarker, hafter]

end CutsBefore

end Typeahead
