import Mathlib.Data.List.TakeWhile
import Typeahead.Proofs.Spelling

/-!
# Where lexemes end

A lexeme ends where the text after it cannot go on with it. What that means
depends on the lexeme (`Lexeme.EndsBefore`): a word ends before a terminator or
at the end of the text, a comment at the end of its line or after its closing
delimiter, a literal after its quote, and everything else has its own fixed
characters.

* `endsBefore_nextLexeme`: the first lexeme of a text ends before the rest;
* `endsBefore_of_lex`: every lexeme of a text ends before those after it;
* `isWord_of_lex`: a lexeme that starts as a word is one.
-/

namespace Typeahead

/-- Whether `c` belongs to a delimiter or a sigil. -/
def isPunctuation (c : Char) : Bool :=
  isCloser c || isSigil c || (openerKind? c).isSome || c == ',' || c == '#' || c == '|'

/-- The lexeme ends before the text `rest`. -/
inductive Lexeme.EndsBefore (l : Lexeme) (rest : List Char) : Prop
  | blank : l.shape = .blank → (∀ c ∈ l.text, isBlank c = true) → l.EndsBefore rest
  | lineComment : l.shape = .comment → (∀ c ∈ rest.head?, c = '\n') → l.EndsBefore rest
  | delimitedComment : l.shape = .comment → (rest = [] ∨ ∃ s, l.text = s ++ ['|', '#']) →
    l.EndsBefore rest
  | marker : l.shape = .marker → l.text = ['#', '_'] → l.EndsBefore rest
  /-- A delimiter or a sigil. -/
  | punctuation : (∀ kind, l.shape ≠ .atom kind) → (∀ c ∈ l.text, isPunctuation c = true) →
    l.EndsBefore rest
  | string : l.shape = .atom .string → (rest = [] ∨ ∃ s, l.text = s ++ ['"']) → l.EndsBefore rest
  | word {kind : Kind} : l.shape = .atom kind → kind.isWord = true →
    (∀ c ∈ l.text, isTerminator c = false) → EndsWord rest → l.EndsBefore rest

theorem isWord_atomKind (cs : List Char) : (atomKind cs).isWord = true := by
  rw [atomKind.eq_def]
  split
  · rfl
  · rfl
  · split
    · rfl
    · split <;> rfl

/-- A literal that does not reach the end of the text has its closing quote. -/
theorem stringRest_closed (cs : List Char) :
    (stringRest cs).2 = [] ∨ ∃ s, (stringRest cs).1 = s ++ ['"'] := by
  fun_induction stringRest cs with
  | case1 => exact .inl rfl
  | case2 c cs s t hst ih =>
    rw [hst] at ih
    rcases ih with ht | ⟨s', hs⟩
    · exact .inl ht
    · exact .inr ⟨'\\' :: c :: s', congrArg (fun r => '\\' :: c :: r) hs⟩
  | case3 cs _ => exact .inr ⟨[], rfl⟩
  | case4 c cs _ _ s t hst ih =>
    rw [hst] at ih
    rcases ih with ht | ⟨s', hs⟩
    · exact .inl ht
    · exact .inr ⟨c :: s', congrArg (c :: ·) hs⟩

/-- A delimited comment that does not reach the end of the text has its end. -/
theorem commentRest_closed (cs : List Char) :
    (commentRest cs).2 = [] ∨ ∃ s, (commentRest cs).1 = s ++ ['|', '#'] := by
  fun_induction commentRest cs with
  | case1 => exact .inl rfl
  | case2 cs => exact .inr ⟨[], rfl⟩
  | case3 c cs _ s t hst ih =>
    rw [hst] at ih
    rcases ih with ht | ⟨s', hs⟩
    · exact .inl ht
    · exact .inr ⟨c :: s', congrArg (c :: ·) hs⟩

theorem not_of_mem_head?_dropWhile {p : Char → Bool} {cs : List Char} {c : Char}
    (hc : c ∈ (cs.dropWhile p).head?) : p c = false := by
  have h := List.head?_dropWhile_not p cs
  rw [Option.mem_def.1 hc] at h
  exact h

namespace Lexeme

theorem endsBefore_blank {c : Char} (hc : isBlank c = true) (cs : List Char) :
    (blank c cs).1.EndsBefore (blank c cs).2 := by
  refine .blank rfl fun x hx => ?_
  rcases List.mem_cons.1 hx with rfl | hx
  · exact hc
  · exact List.mem_takeWhile_imp hx

theorem endsBefore_lineComment (c : Char) (cs : List Char) :
    (lineComment c cs).1.EndsBefore (lineComment c cs).2 := by
  refine .lineComment rfl fun x hx => ?_
  simpa using not_of_mem_head?_dropWhile hx

theorem endsBefore_atom {c : Char} (hc : isTerminator c = false) (cs : List Char) :
    (atom c cs).1.EndsBefore (atom c cs).2 := by
  refine .word rfl (isWord_atomKind _) (fun x hx => ?_) fun x hx => ?_
  · rcases List.mem_cons.1 hx with rfl | hx
    · exact hc
    · simpa using List.mem_takeWhile_imp hx
  · simpa using not_of_mem_head?_dropWhile hx

theorem endsBefore_afterNumberSign (cs : List Char) :
    (afterNumberSign cs).1.EndsBefore (afterNumberSign cs).2 := by
  rw [afterNumberSign.eq_def]
  split
  · exact .marker rfl rfl
  · exact .punctuation (fun _ h => by cases h) (by simp [isPunctuation, openerKind?])
  · next cs =>
    refine .delimitedComment rfl ((commentRest_closed cs).imp_right ?_)
    rintro ⟨s, hs⟩
    exact ⟨'#' :: '|' :: s, by rw [hs]; rfl⟩
  · exact endsBefore_lineComment '#' cs

theorem endsBefore_afterBar (cs : List Char) :
    (afterBar cs).1.EndsBefore (afterBar cs).2 := by
  rw [afterBar.eq_def]
  split
  · exact .punctuation (fun _ h => by cases h) (by simp [isPunctuation, openerKind?])
  · exact endsBefore_atom (by decide) cs

theorem endsBefore_afterComma (cs : List Char) :
    (afterComma cs).1.EndsBefore (afterComma cs).2 := by
  rw [afterComma.eq_def]
  split
  · exact .punctuation (fun _ h => by cases h) (by simp [isPunctuation, isSigil])
  · exact .punctuation (fun _ h => by cases h) (by simp [isPunctuation])

end Lexeme

/-- A character that starts no other lexeme does not end words. -/
theorem isTerminator_of_openerKind?_eq_none {c : Char} (hopener : openerKind? c = none)
    (hblank : ¬ isBlank c = true) (hsemicolon : c ≠ ';') (hcomma : c ≠ ',') (hquote : c ≠ '"')
    (hcloser : ¬ isCloser c = true) : isTerminator c = false := by
  have hparen : c ≠ '(' := fun h => absurd (h ▸ hopener) (by decide)
  have hbracket : c ≠ '[' := fun h => absurd (h ▸ hopener) (by decide)
  have hbrace : c ≠ '\x7b' := fun h => absurd (h ▸ hopener) (by decide)
  simp_all [isTerminator, isCloser]

/-- The first lexeme of a text ends before the rest. -/
theorem endsBefore_nextLexeme (c : Char) (cs : List Char) :
    (nextLexeme c cs).1.EndsBefore (nextLexeme c cs).2 := by
  rw [nextLexeme]
  split
  · next hc => exact Lexeme.endsBefore_blank hc cs
  next hblank =>
  split
  · exact Lexeme.endsBefore_lineComment c cs
  next hsemicolon =>
  split
  · exact Lexeme.endsBefore_afterNumberSign cs
  split
  · exact Lexeme.endsBefore_afterBar cs
  split
  · exact Lexeme.endsBefore_afterComma cs
  next hcomma =>
  split
  · refine .string rfl ((stringRest_closed cs).imp_right ?_)
    rintro ⟨s, hs⟩
    exact ⟨c :: s, by rw [hs]; rfl⟩
  next hquote =>
  split
  · next hc => exact .punctuation (fun _ h => by cases h) (by simp [isPunctuation, hc])
  next hcloser =>
  split
  · next hc => exact .punctuation (fun _ h => by cases h) (by simp [isPunctuation, hc])
  split
  · next hc => exact .punctuation (fun _ h => by cases h) (by simp [isPunctuation, hc])
  · next hopener =>
    exact Lexeme.endsBefore_atom (isTerminator_of_openerKind?_eq_none hopener hblank hsemicolon
      hcomma hquote hcloser) cs

/-- Every lexeme of a text is the first one of the text from there on. -/
theorem exists_nextLexeme_of_lex {cs : List Char} {before after : List Lexeme} {l : Lexeme}
    (h : lex cs = before ++ l :: after) :
    ∃ c rest, nextLexeme c rest = (l, after.flatMap (·.text)) := by
  fun_induction lex cs generalizing before with
  | case1 => simp at h
  | case2 c cs ih =>
    cases before with
    | nil =>
      obtain ⟨rfl, rfl⟩ := List.cons.inj h
      exact ⟨c, cs, by rw [flatMap_text_lex]⟩
    | cons l' before => exact ih (List.cons.inj h).2

/-- Every lexeme of a text ends before those after it. -/
theorem endsBefore_of_lex {cs : List Char} {before after : List Lexeme} {l : Lexeme}
    (h : lex cs = before ++ l :: after) : l.EndsBefore (after.flatMap (·.text)) := by
  obtain ⟨c, rest, hnext⟩ := exists_nextLexeme_of_lex h
  have hends := endsBefore_nextLexeme c rest
  rwa [hnext] at hends

/-- A lexeme that starts as a word is one. -/
theorem isWord_of_lex {cs s : List Char} {before after : List Lexeme} {l : Lexeme} {c : Char}
    (h : lex cs = before ++ l :: after) (htext : l.text = c :: s) (hc : startsWord c = true) :
    ∃ kind, l.shape = .atom kind ∧ kind.isWord = true := by
  obtain ⟨d, rest, hnext⟩ := exists_nextLexeme_of_lex h
  have happ := nextLexeme_append d rest
  rw [hnext, htext] at happ
  obtain ⟨rfl, -⟩ := List.cons.inj happ
  rw [nextLexeme_of_startsWord hc] at hnext
  obtain ⟨rfl, -⟩ := Prod.mk.inj hnext
  exact ⟨_, rfl, isWord_atomKind _⟩

/-- A word has no terminator in it, and ends before one or at the end of the text. -/
theorem Lexeme.EndsBefore.isTerminator_endsWord {l : Lexeme} {rest : List Char} {kind : Kind}
    (h : l.EndsBefore rest) (hshape : l.shape = .atom kind) (hkind : kind.isWord = true) :
    (∀ c ∈ l.text, isTerminator c = false) ∧ EndsWord rest := by
  cases h with
  | blank hs | lineComment hs | delimitedComment hs | marker hs =>
    rw [hs] at hshape
    cases hshape
  | punctuation hs => exact absurd hshape (hs kind)
  | string hs =>
    rw [hs] at hshape
    cases hshape
    cases hkind
  | word _ _ htext hrest => exact ⟨htext, hrest⟩

theorem Lexeme.EndsBefore.endsWord {l : Lexeme} {rest : List Char} {kind : Kind}
    (h : l.EndsBefore rest) (hshape : l.shape = .atom kind) (hkind : kind.isWord = true) :
    EndsWord rest :=
  (h.isTerminator_endsWord hshape hkind).2

end Typeahead
