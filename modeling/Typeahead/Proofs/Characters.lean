import Typeahead.Proofs.Insertion
import Typeahead.Tree.MarkerText

/-!
# Characters of names and of lexemes

A scan for markers has its own idea of a name, in terms of letters and word
characters, and knows nothing of lexemes. These are the facts that relate the
two: a letter starts a word, and what separates words is no part of a name.

* `of_isAsciiLetter`: letters start words that are symbols;
* `isNameChar_of_isTerminator`: what ends a word is no part of a name;
* `isNameChar_of_isPunctuation`: nor are delimiters and sigils.
-/

namespace Typeahead

/-- What holds of all ASCII characters can be checked one by one. -/
theorem of_lt_ascii {P : Char → Bool} (h : ∀ n < 128, P (Char.ofNat n) = true) {c : Char}
    (hc : c.toNat < 128) : P c = true := by
  have hP := h c.toNat hc
  rwa [Char.ofNat_toNat] at hP

theorem toNat_lt_of_isAsciiLetter {c : Char} (h : isAsciiLetter c = true) : c.toNat < 128 := by
  have hnat : (97 ≤ c.toNat ∧ c.toNat ≤ 122) ∨ (65 ≤ c.toNat ∧ c.toNat ≤ 90) := by
    simp only [isAsciiLetter, Bool.or_eq_true, Bool.and_eq_true, decide_eq_true_eq] at h
    exact h
  omega

/-- Letters start words that are symbols. -/
theorem of_isAsciiLetter {c : Char} (h : isAsciiLetter c = true) :
    isOrdinary c = true ∧ ∀ cs, atomKind (c :: cs) = .symbol := by
  have hP := of_lt_ascii (P := fun c => !isAsciiLetter c || (isOrdinary c && !isDigit c &&
    c != '+' && c != '-' && c != ':')) (by decide +kernel) (toNat_lt_of_isAsciiLetter h)
  simp only [h, Bool.not_true, Bool.false_or, Bool.and_eq_true, Bool.not_eq_true', bne_iff_ne,
    ne_eq] at hP
  obtain ⟨⟨⟨⟨hword, hdigit⟩, hplus⟩, hminus⟩, hcolon⟩ := hP
  refine ⟨hword, fun cs => ?_⟩
  rw [atomKind.eq_def]
  split
  · rfl
  · next heq => exact absurd (List.cons.inj heq).1 hcolon
  · next heq =>
    obtain ⟨rfl, rfl⟩ := List.cons.inj heq
    simp [hdigit, hplus, hminus]

theorem isNameChar_of_isBlank {c : Char} (h : isBlank c = true) : isNameChar c = false := by
  have hblanks : ∀ n ∈ [9, 10, 11, 12, 13, 0x20, 0x85, 0xa0, 0x1680, 0x2000, 0x2001, 0x2002,
      0x2003, 0x2004, 0x2005, 0x2006, 0x2007, 0x2008, 0x2009, 0x200a, 0x2028, 0x2029, 0x202f,
      0x205f, 0x3000], isNameChar (Char.ofNat n) = false := by
    decide +kernel
  have hc := hblanks c.toNat (by
    simp only [isBlank, Bool.or_eq_true, Bool.and_eq_true, decide_eq_true_eq, beq_iff_eq] at h
    simp only [List.mem_cons, List.not_mem_nil, or_false]
    omega)
  rwa [Char.ofNat_toNat] at hc

/-- What ends a word is no part of a name. -/
theorem isNameChar_of_isTerminator {c : Char} (h : isTerminator c = true) :
    isNameChar c = false := by
  cases hc : isBlank c with
  | true => exact isNameChar_of_isBlank hc
  | false =>
    simp only [isTerminator, hc, Bool.false_or, Bool.or_eq_true, beq_iff_eq] at h
    rcases h with (((((((rfl | rfl) | rfl) | rfl) | rfl) | rfl) | rfl) | rfl) | rfl <;> decide

/-- Delimiters and sigils are no part of a name. -/
theorem isNameChar_of_isPunctuation {c : Char} (h : isPunctuation c = true) :
    isNameChar c = false ∧ c ≠ ':' := by
  have hc : c = '(' ∨ c = '[' ∨ c = '\x7b' ∨ isPunctuation c = true ∧ openerKind? c = none := by
    rw [openerKind?]
    split
    · exact .inl ‹_›
    split
    · exact .inr (.inl ‹_›)
    split
    · exact .inr (.inr (.inl ‹_›))
    · exact .inr (.inr (.inr ⟨h, rfl⟩))
  rcases hc with rfl | rfl | rfl | ⟨h, hopener⟩
  · decide
  · decide
  · decide
  · simp only [isPunctuation, hopener, isCloser, isSigil, Option.isSome_none, Bool.or_false,
      Bool.or_eq_true, beq_iff_eq] at h
    rcases h with (((((rfl | rfl) | rfl) | ((rfl | rfl) | rfl) | rfl) | rfl) | rfl) | rfl <;> decide

end Typeahead
