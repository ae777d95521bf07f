import Typeahead.Proofs.Slice
import Typeahead.Tree.Lexeme

/-!
# What lexing promises

Two facts about lexemes carry the theory of reading.

A lexeme is *sound*: it is not empty, it opens only collections, it closes only
with its own text, and its atoms are forms without parts (`Lexeme.Sound`).

A lexeme is *decided* by the text up to one character past its end: whatever
stands further on, the lexeme stays the same. So two texts that begin alike have
the same lexemes up to the one that reaches the end of what they share.

* `sound_of_mem_lex`: the lexemes of a text are sound;
* `nextLexeme_append_congr`: a lexeme does not depend on what follows the
  character after it;
* `exists_lex_append`: two texts that begin with `u` have the same lexemes, up
  to a rest of `u` that the next lexeme does not leave before its end.
-/

namespace Typeahead

/-- Whether nodes of this kind are forms without parts. -/
def Kind.isAtom (k : Kind) : Bool := k.isForm && !k.isNested

/-- What the shape of a lexeme says about its text and about the kinds of the
    nodes that come from it. -/
structure Lexeme.Sound (l : Lexeme) : Prop where
  text_ne_nil : l.text ≠ []
  opener : ∀ kind, l.shape = .opener kind → kind.isCollection = true
  closer : ∀ d, l.shape = .closer d → isCloser d = true ∧ l.text = [d]
  atom : ∀ kind, l.shape = .atom kind → kind.isAtom = true

theorem isAtom_atomKind (cs : List Char) : (atomKind cs).isAtom = true := by
  rw [atomKind.eq_def]
  split
  · rfl
  · rfl
  · split
    · rfl
    · split <;> rfl

theorem isCollection_of_openerKind? {c : Char} {kind : Kind} (h : openerKind? c = some kind) :
    kind.isCollection = true := by
  rw [openerKind?] at h
  split at h
  · cases h; rfl
  split at h
  · cases h; rfl
  split at h
  · cases h; rfl
  · cases h

namespace Lexeme

theorem sound_blank (c : Char) (cs : List Char) : (blank c cs).1.Sound := by
  constructor <;> simp [blank]

theorem sound_lineComment (c : Char) (cs : List Char) : (lineComment c cs).1.Sound := by
  constructor <;> simp [lineComment]

theorem sound_atom (c : Char) (cs : List Char) : (atom c cs).1.Sound := by
  constructor <;> simp [atom, isAtom_atomKind]

theorem sound_afterNumberSign (cs : List Char) : (afterNumberSign cs).1.Sound := by
  rw [afterNumberSign.eq_def]
  split
  · constructor <;> simp
  · constructor <;> simp [Kind.isCollection]
  · constructor <;> simp
  · exact sound_lineComment '#' cs

theorem sound_afterBar (cs : List Char) : (afterBar cs).1.Sound := by
  rw [afterBar.eq_def]
  split
  · constructor <;> simp [Kind.isCollection]
  · exact sound_atom '|' cs

theorem sound_afterComma (cs : List Char) : (afterComma cs).1.Sound := by
  rw [afterComma.eq_def]
  split <;> constructor <;> simp

end Lexeme

theorem sound_nextLexeme (c : Char) (cs : List Char) : (nextLexeme c cs).1.Sound := by
  rw [nextLexeme]
  split
  · exact Lexeme.sound_blank c cs
  split
  · exact Lexeme.sound_lineComment c cs
  split
  · exact Lexeme.sound_afterNumberSign cs
  split
  · exact Lexeme.sound_afterBar cs
  split
  · exact Lexeme.sound_afterComma cs
  split
  · constructor <;> simp [Kind.isAtom, Kind.isForm, Kind.isNested, Kind.isCollection]
  split
  · constructor <;> simp_all
  split
  · constructor <;> simp
  split
  · next hk => constructor <;> simp [isCollection_of_openerKind? hk]
  · exact Lexeme.sound_atom c cs

theorem sound_of_mem_lex {cs : List Char} {l : Lexeme} (h : l ∈ lex cs) : l.Sound := by
  fun_induction lex cs with
  | case1 => exact absurd h List.not_mem_nil
  | case2 c cs ih =>
    rcases List.mem_cons.1 h with rfl | h
    · exact sound_nextLexeme c cs
    · exact ih h

/-! ### Decided lexemes -/

section Decided

variable {cs r v w : List Char}

/-- If two texts `cs ++ v` and `cs ++ w` are cut in two and what is left of the
    one is `r ++ v` and of the other `r ++ w`, then the cut is the same. -/
theorem fst_eq_of_append {x y : List Char × List Char} (hx : x.1 ++ x.2 = cs ++ v)
    (hy : y.1 ++ y.2 = cs ++ w) (hxr : x.2 = r ++ v) (hyr : y.2 = r ++ w) : x.1 = y.1 := by
  rw [hxr, ← List.append_assoc] at hx
  rw [hyr, ← List.append_assoc] at hy
  have hcut : x.1 ++ r = y.1 ++ r :=
    (List.append_cancel_right hx).trans (List.append_cancel_right hy).symm
  exact List.append_cancel_right hcut

/-- A cut that leaves more than `v` of `cs ++ v` is not inside `v`. -/
theorem not_append_of_cut {x : List Char × List Char} (hx : x.1 ++ x.2 = v) (hr : r ≠ []) :
    x.2 ≠ r ++ v := by
  intro h
  have hlen := congrArg List.length hx
  have hpos := List.length_pos_iff.2 hr
  rw [List.length_append, h, List.length_append] at hlen
  omega

theorem dropWhile_append_congr {p : Char → Bool} (h : (cs ++ v).dropWhile p = r ++ v)
    (hr : r ≠ []) : (cs ++ w).dropWhile p = r ++ w := by
  -- The run ends in `cs`: had it gone on into `v`, less than `v` would be left.
  have hne : (cs.dropWhile p).isEmpty = false := by
    rw [Bool.eq_false_iff]
    intro hnil
    rw [List.dropWhile_append, if_pos hnil] at h
    exact not_append_of_cut (x := (v.takeWhile p, v.dropWhile p))
      List.takeWhile_append_dropWhile hr h
  rw [List.dropWhile_append, hne] at h ⊢
  simp only [Bool.false_eq_true, if_false, List.append_cancel_right_eq] at h ⊢
  exact h

theorem takeWhile_append_congr {p : Char → Bool} (h : (cs ++ v).dropWhile p = r ++ v)
    (hr : r ≠ []) : (cs ++ w).takeWhile p = (cs ++ v).takeWhile p :=
  (fst_eq_of_append (x := (_, _)) (y := (_, _)) List.takeWhile_append_dropWhile
    List.takeWhile_append_dropWhile h (dropWhile_append_congr h hr)).symm

theorem stringRest_cons {c : Char} (hc : c ≠ '\\') (cs : List Char) :
    (stringRest (c :: cs)).2 = if c = '"' then cs else (stringRest cs).2 := by
  rw [stringRest.eq_def]
  split
  · next heq => cases heq
  · next heq => cases heq; exact absurd rfl hc
  · next heq => cases heq; split <;> rfl

theorem stringRest_singleton_append_ne (c : Char) (v : List Char) (hr : r ≠ []) :
    (stringRest (c :: v)).2 ≠ r ++ v := by
  rw [stringRest.eq_def]
  split
  · next heq => cases heq
  · next x v heq =>
    cases heq
    exact not_append_of_cut (x := (x :: (stringRest v).1, (stringRest v).2))
      (by simp [stringRest_append]) hr
  · next v _ heq =>
    cases heq
    split
    · exact not_append_of_cut (x := ([], v)) rfl hr
    · exact not_append_of_cut (x := stringRest v) (stringRest_append v) hr

theorem snd_stringRest_append_congr (h : (stringRest (cs ++ v)).2 = r ++ v) (hr : r ≠ []) :
    (stringRest (cs ++ w)).2 = r ++ w := by
  fun_induction stringRest cs with
  | case1 => exact absurd h (not_append_of_cut (stringRest_append v) hr)
  | case2 c cs _ _ _ ih => exact ih h
  | case3 cs _ =>
    rw [List.cons_append, stringRest_cons (by decide), if_pos rfl] at h ⊢
    rw [List.append_cancel_right h]
  | case4 c cs hnot hc _ _ _ ih =>
    cases cs with
    | nil =>
      -- A backslash at the end of `cs` escapes the first character of `v`, but
      -- then the literal does not end in `cs`.
      exact absurd h (stringRest_singleton_append_ne c v hr)
    | cons x cs =>
      have hb : c ≠ '\\' := fun hb => hnot x cs hb rfl
      rw [List.cons_append, stringRest_cons hb, if_neg hc] at h ⊢
      exact ih h

theorem stringRest_append_congr (h : (stringRest (cs ++ v)).2 = r ++ v) (hr : r ≠ []) :
    stringRest (cs ++ w) = ((stringRest (cs ++ v)).1, r ++ w) := by
  have h' := snd_stringRest_append_congr (w := w) h hr
  rw [fst_eq_of_append (stringRest_append _) (stringRest_append _) h h', ← h']

theorem commentRest_cons {c : Char} {cs : List Char}
    (hc : ∀ cs', c = '|' → cs = '#' :: cs' → False) :
    (commentRest (c :: cs)).2 = (commentRest cs).2 := by
  rw [commentRest.eq_def]
  split
  · next heq => cases heq
  · next heq => cases heq; exact absurd rfl (hc _ rfl)
  · next heq => cases heq; rfl

theorem commentRest_singleton_append_ne (c : Char) (v : List Char) (hr : r ≠ []) :
    (commentRest (c :: v)).2 ≠ r ++ v := by
  rw [commentRest.eq_def]
  split
  · next heq => cases heq
  · next v heq =>
    cases heq
    exact not_append_of_cut (x := (['#'], v)) rfl hr
  · next heq =>
    cases heq
    exact not_append_of_cut (x := commentRest v) (commentRest_append v) hr

theorem snd_commentRest_append_congr (h : (commentRest (cs ++ v)).2 = r ++ v) (hr : r ≠ []) :
    (commentRest (cs ++ w)).2 = r ++ w := by
  fun_induction commentRest cs with
  | case1 => exact absurd h (not_append_of_cut (commentRest_append v) hr)
  | case2 cs =>
    have h : cs ++ v = r ++ v := h
    rw [← List.append_cancel_right h]
    rfl
  | case3 c cs hnot _ _ _ ih =>
    cases cs with
    | nil => exact absurd h (commentRest_singleton_append_ne c v hr)
    | cons x cs =>
      have hend : ∀ t cs', c = '|' → x :: cs ++ t = '#' :: cs' → False := by
        intro t cs' hc hx
        exact hnot cs hc (by rw [(List.cons.inj hx).1])
      rw [List.cons_append, commentRest_cons (hend _)] at h ⊢
      exact ih h

theorem commentRest_append_congr (h : (commentRest (cs ++ v)).2 = r ++ v) (hr : r ≠ []) :
    commentRest (cs ++ w) = ((commentRest (cs ++ v)).1, r ++ w) := by
  have h' := snd_commentRest_append_congr (w := w) h hr
  rw [fst_eq_of_append (commentRest_append _) (commentRest_append _) h h', ← h']

namespace Lexeme

theorem blank_append_congr {c : Char} (h : (blank c (cs ++ v)).2 = r ++ v) (hr : r ≠ []) :
    blank c (cs ++ w) = ((blank c (cs ++ v)).1, r ++ w) := by
  rw [blank, dropWhile_append_congr h hr, takeWhile_append_congr h hr]
  rfl

theorem lineComment_append_congr {c : Char} (h : (lineComment c (cs ++ v)).2 = r ++ v)
    (hr : r ≠ []) : lineComment c (cs ++ w) = ((lineComment c (cs ++ v)).1, r ++ w) := by
  rw [lineComment, dropWhile_append_congr h hr, takeWhile_append_congr h hr]
  rfl

theorem atom_append_congr {c : Char} (h : (atom c (cs ++ v)).2 = r ++ v) (hr : r ≠ []) :
    atom c (cs ++ w) = ((atom c (cs ++ v)).1, r ++ w) := by
  rw [atom, dropWhile_append_congr h hr, takeWhile_append_congr h hr]
  rfl

theorem afterNumberSign_cons (c : Char) (cs : List Char) :
    afterNumberSign (c :: cs) =
      if c = '_' then (⟨.marker, ['#', '_']⟩, cs)
      else if c = '\x7b' then (⟨.opener .set, ['#', '\x7b']⟩, cs)
      else if c = '|' then (⟨.comment, '#' :: '|' :: (commentRest cs).1⟩, (commentRest cs).2)
      else lineComment '#' (c :: cs) := by
  rw [afterNumberSign.eq_def]
  split <;> simp_all

theorem afterBar_cons (c : Char) (cs : List Char) :
    afterBar (c :: cs) =
      if c = '(' then (⟨.opener .shortFn, ['|', '(']⟩, cs) else atom '|' (c :: cs) := by
  rw [afterBar.eq_def]
  split <;> simp_all

theorem afterComma_cons (c : Char) (cs : List Char) :
    afterComma (c :: cs) =
      if c = '@' then (⟨.sigil, [',', '@']⟩, cs) else (⟨.sigil, [',']⟩, c :: cs) := by
  rw [afterComma.eq_def]
  split <;> simp_all

theorem afterNumberSign_append_congr (hcs : cs ≠ []) (hr : r ≠ []) :
    (afterNumberSign (cs ++ v)).2 = r ++ v →
      afterNumberSign (cs ++ w) = ((afterNumberSign (cs ++ v)).1, r ++ w) := by
  obtain ⟨x, cs, rfl⟩ := List.exists_cons_of_ne_nil hcs
  simp only [List.cons_append, afterNumberSign_cons]
  split
  · intro h
    rw [List.append_cancel_right h]
  split
  · intro h
    rw [List.append_cancel_right h]
  split
  · intro h
    rw [commentRest_append_congr h hr]
  · intro h
    have h : (lineComment '#' (x :: cs ++ v)).2 = r ++ v := h
    exact lineComment_append_congr h hr

theorem afterBar_append_congr (hcs : cs ≠ []) (hr : r ≠ []) :
    (afterBar (cs ++ v)).2 = r ++ v → afterBar (cs ++ w) = ((afterBar (cs ++ v)).1, r ++ w) := by
  obtain ⟨x, cs, rfl⟩ := List.exists_cons_of_ne_nil hcs
  simp only [List.cons_append, afterBar_cons]
  split
  · intro h
    rw [List.append_cancel_right h]
  · intro h
    have h : (atom '|' (x :: cs ++ v)).2 = r ++ v := h
    exact atom_append_congr h hr

theorem afterComma_append_congr (hcs : cs ≠ []) :
    (afterComma (cs ++ v)).2 = r ++ v →
      afterComma (cs ++ w) = ((afterComma (cs ++ v)).1, r ++ w) := by
  obtain ⟨x, cs, rfl⟩ := List.exists_cons_of_ne_nil hcs
  simp only [List.cons_append, afterComma_cons]
  split
  · intro h
    rw [List.append_cancel_right h]
  · intro h
    have h : x :: cs ++ v = r ++ v := h
    rw [← List.append_cancel_right h]
    rfl

end Lexeme

/-- A lexeme that ends before the last character of `c :: cs` is the same,
    whatever follows. -/
theorem nextLexeme_append_congr {c : Char} (hr : r ≠ []) :
    (nextLexeme c (cs ++ v)).2 = r ++ v →
      nextLexeme c (cs ++ w) = ((nextLexeme c (cs ++ v)).1, r ++ w) := by
  intro h
  -- The lexeme has a character at least, so what is left of it is from `cs`.
  have hcs : cs ≠ [] := by
    rintro rfl
    have hlen := length_nextLexeme_le c v
    have hpos := List.length_pos_iff.2 hr
    rw [List.nil_append] at h
    rw [h, List.length_append] at hlen
    omega
  revert h
  simp only [nextLexeme]
  split
  · exact fun h => Lexeme.blank_append_congr h hr
  split
  · exact fun h => Lexeme.lineComment_append_congr h hr
  split
  · exact Lexeme.afterNumberSign_append_congr hcs hr
  split
  · exact Lexeme.afterBar_append_congr hcs hr
  split
  · exact Lexeme.afterComma_append_congr hcs
  split
  · intro h
    rw [stringRest_append_congr h hr]
  split
  · intro h
    rw [List.append_cancel_right h]
  split
  · intro h
    rw [List.append_cancel_right h]
  split
  · intro h
    rw [List.append_cancel_right h]
  · exact fun h => Lexeme.atom_append_congr h hr

end Decided

/-- Two texts that begin with `u` have the same lexemes `ls`, until only the
    part `r` of `u` is left, which a lexeme of the first text covers whole. -/
theorem exists_lex_append (u v w : List Char) :
    ∃ ls r, u = ls.flatMap (·.text) ++ r ∧ lex (u ++ v) = ls ++ lex (r ++ v) ∧
      lex (u ++ w) = ls ++ lex (r ++ w) ∧
      ∀ l ls', lex (r ++ v) = l :: ls' → byteLength r ≤ byteLength l.text := by
  match u with
  | [] => exact ⟨[], [], rfl, rfl, rfl, fun _ _ _ => Nat.zero_le _⟩
  | c :: cs =>
    have hcover : ∀ t, (nextLexeme c (cs ++ v)).1.text = c :: cs ++ t →
        ∀ l ls', lex (c :: cs ++ v) = l :: ls' → byteLength (c :: cs) ≤ byteLength l.text := by
      intro t ht l ls' hl
      rw [List.cons_append, lex] at hl
      rw [← (List.cons.inj hl).1, ht, byteLength_append]
      exact Nat.le_add_right ..
    have happ : (nextLexeme c (cs ++ v)).1.text ++ (nextLexeme c (cs ++ v)).2 = c :: cs ++ v :=
      nextLexeme_append c (cs ++ v)
    rcases List.append_eq_append_iff.1 happ with ⟨r, hu, hrest⟩ | ⟨t, htext, -⟩
    · by_cases hr : r = []
      · exact ⟨[], c :: cs, rfl, rfl, rfl, hcover [] (by rw [hu, hr, List.append_nil, List.append_nil])⟩
      · -- The first lexeme leaves the part `r` of `u`: go on with that.
        have hlt : r.length < (c :: cs).length := by
          have hpos := List.length_pos_iff.2 (nextLexeme_text_ne_nil c (cs ++ v))
          rw [hu, List.length_append]
          omega
        obtain ⟨ls, r', hr', hv, hw, hlast⟩ := exists_lex_append r v w
        refine ⟨(nextLexeme c (cs ++ v)).1 :: ls, r', ?_, ?_, ?_, hlast⟩
        · rw [List.flatMap_cons, List.append_assoc, ← hr', ← hu]
        · rw [List.cons_append, lex, hrest, hv]
          rfl
        · rw [List.cons_append, lex, nextLexeme_append_congr hr hrest, hw]
          rfl
    · exact ⟨[], c :: cs, rfl, rfl, rfl, hcover t htext⟩
termination_by u.length
decreasing_by exact hlt

end Typeahead
