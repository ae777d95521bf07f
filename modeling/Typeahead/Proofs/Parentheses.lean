import Typeahead.Namespace.Clause
import Typeahead.Proofs.Boundary
import Typeahead.Proofs.Masking
import Typeahead.Proofs.Openers
import Typeahead.Proofs.Recovery

/-!
# Parentheses in the text of a tree

The scan for open parentheses knows strings and parentheses, and no other lexemes. A
text is *balanced* if the scan leaves open behind it what was open before it.

* `FirstLexeme.balanced`: lexemes are balanced, apart from comments, parentheses and a
  string without an end;
* `Tree.balanced_token`: so are the tokens inside a call, delimiters and comments apart.
-/

namespace Typeahead

/-- Whether the scan for open parentheses takes notice of `c` outside of strings. -/
def isScanned (c : Char) : Bool := c == '(' || c == ')' || c == '"'

/-- The scan goes over the text and leaves the open parentheses as they were. -/
def Balanced (x : List Char) : Prop :=
  ∀ stack y, openParens false false stack (x ++ y) = openParens false false stack y

theorem openParens_paren (stack : List (List Char)) (y : List Char) :
    openParens false false stack ('(' :: y) = openParens false false (y :: stack) y := rfl

theorem openParens_of_unscanned {c : Char} (h : isScanned c = false) (stack : List (List Char))
    (y : List Char) : openParens false false stack (c :: y) = openParens false false stack y := by
  simp only [isScanned, Bool.or_eq_false_iff] at h
  simp [openParens, h]

theorem Balanced.of_unscanned {x : List Char} (h : ∀ c ∈ x, isScanned c = false) : Balanced x := by
  intro stack z
  induction x with
  | nil => rfl
  | cons c x ih =>
    rw [List.cons_append, openParens_of_unscanned (h c List.mem_cons_self)]
    exact ih fun d hd => h d (List.mem_cons_of_mem _ hd)

/-- The scan leaves a string where the reader does. -/
theorem openParens_stringRest {cs : List Char} (h : (stringRest cs).2 ≠ [])
    (stack : List (List Char)) (y : List Char) :
    openParens true false stack ((stringRest cs).1 ++ y) = openParens false false stack y := by
  fun_induction stringRest cs with
  | case1 => exact absurd rfl h
  | case2 c cs s t hst ih =>
    rw [hst] at ih
    exact ih h
  | case3 cs _ => rfl
  | case4 c cs hbackslash hquote s t hst ih =>
    rw [hst] at ih
    by_cases hc : c = '\\'
    · -- a backslash at the end of the text
      cases cs with
      | nil =>
        obtain ⟨-, rfl⟩ := Prod.mk.inj hst
        exact absurd rfl h
      | cons d ds => exact absurd rfl (hbackslash d ds hc)
    · have hstep : openParens true false stack (c :: (s ++ y)) =
          openParens true false stack (s ++ y) := by
        have hopen : (c != '"') = true := bne_iff_ne.2 hquote
        simp [openParens, hc, hopen]
      exact hstep.trans (ih h)

/-! ### Lexemes -/

theorem isScanned_of_isTerminator {c : Char} (h : isTerminator c = false) :
    isScanned c = false := by
  simp only [isTerminator, Bool.or_eq_false_iff] at h
  simp [isScanned, h]

theorem isScanned_of_isBlank {c : Char} (h : isBlank c = true) : isScanned c = false := by
  rw [isScanned, Bool.or_eq_false_iff, Bool.or_eq_false_iff]
  refine ⟨⟨?_, ?_⟩, ?_⟩ <;> exact beq_eq_false_iff_ne.2 (ne_of_isBlank h (by decide))

namespace Lexeme

/-- Not the lexeme but the text around it tells what its parentheses are: it is a comment,
    or a parenthesis. -/
def IsLoose (l : Lexeme) : Prop :=
  l.shape = .comment ∨ l.shape = .closer ')' ∨ ∃ kind, l.shape = .opener kind ∧ kind.isCall = true

theorem balanced_atom {c : Char} (hc : isTerminator c = false) (cs : List Char) :
    Balanced (atom c cs).1.text := by
  refine .of_unscanned fun d hd => isScanned_of_isTerminator ?_
  rcases List.mem_cons.1 hd with rfl | hd
  · exact hc
  · simpa using List.mem_takeWhile_imp hd

end Lexeme

/-- The delimiters of collections that are no calls are balanced. -/
theorem Kind.balanced_opener? {k : Kind} (hcall : k.isCall = false) {text : List Char}
    (h : k.opener? = some text) : Balanced text := by
  refine .of_unscanned ?_
  cases k with
  | list | shortFn => cases hcall
  | vector | map | set =>
    cases h
    simp [isScanned]
  | _ => cases h

/-- A lexeme that does not reach the end of the text is balanced or loose. -/
theorem FirstLexeme.balanced {c : Char} {cs rest : List Char} {l : Lexeme}
    (h : FirstLexeme c cs l rest) (hrest : rest ≠ []) : Balanced l.text ∨ l.IsLoose := by
  cases h with
  | blank hc =>
    refine .inl (.of_unscanned fun d hd => isScanned_of_isBlank ?_)
    rcases List.mem_cons.1 hd with rfl | hd
    · exact hc
    · exact List.mem_takeWhile_imp hd
  | lineComment _ => exact .inr (.inl rfl)
  | blockComment _ _ => exact .inr (.inl rfl)
  | marker hc _ => exact .inl (.of_unscanned (by simp [hc, isScanned]))
  | @opener kind text _ hopener _ =>
    by_cases hcall : kind.isCall = true
    · exact .inr (.inr (.inr ⟨kind, rfl, hcall⟩))
    · exact .inl (Kind.balanced_opener? (Bool.eq_false_iff.2 hcall) hopener)
  | closer hc =>
    by_cases hparen : c = ')'
    · exact .inr (.inr (.inl (by rw [hparen])))
    · refine .inl (.of_unscanned fun d hd => ?_)
      rw [List.mem_singleton.1 hd]
      simp only [isCloser, Bool.or_eq_true, beq_iff_eq] at hc
      rcases hc with (rfl | rfl) | rfl
      · exact absurd rfl hparen
      · rfl
      · rfl
  | sigil hc htext _ =>
    refine .inl (.of_unscanned ?_)
    simp only [isSigil, Bool.or_eq_true, beq_iff_eq] at hc
    rcases hc with (((rfl | rfl) | rfl) | rfl) | rfl <;> rcases htext with rfl | rfl <;>
      simp [isScanned]
  | string hc =>
    subst hc
    exact .inl fun stack y => openParens_stringRest hrest stack y
  | word hc => exact .inl (Lexeme.balanced_atom hc cs)

/-! ### Nodes -/

theorem Kind.closer?_of_isCall {k : Kind} (h : k.isCall = true) : k.closer? = some ')' := by
  cases k <;> first | rfl | cases h

/-- A call is opened by a parenthesis, and at most a bar in front of it. -/
theorem Kind.exists_opener?_of_isCall {k : Kind} (h : k.isCall = true) :
    ∃ a, k.opener? = some (a ++ ['(']) ∧ ∀ c ∈ a, isScanned c = false := by
  cases k with
  | list => exact ⟨[], rfl, by simp⟩
  | shortFn => exact ⟨['|'], rfl, by simp [isScanned]⟩
  | _ => cases h

namespace Tree

variable {cs : List Char} {n m : Node} {above : List Node}

/-- A node without parts is the token of a lexeme. -/
theorem exists_lexeme_of_children_eq_nil (hn : ⟨n, above⟩ ∈ (Tree.read cs).below)
    (hnil : n.children = []) :
    ∃ before l after, lex cs = before ++ l :: after ∧ (Tree.read cs).chars n = l.text ∧
      n.kind ∈ l.shape.kinds ∧
      n.span.stop + byteLength (after.flatMap (·.text)) = byteLength cs := by
  obtain ⟨before, run, after, hlex, hrun⟩ := exists_run_of_mem_below hn
  obtain ⟨id, kind, span, ns⟩ := n
  obtain rfl : ns = [] := hnil
  have htokens := hrun.tokens
  rw [Node.leaves] at htokens
  cases htokens with
  | @cons _ l _ _ _ htoken hnone =>
    cases hnone
    have htext : [l].flatMap (·.text) = l.text := List.append_nil _
    refine ⟨before, l, after, hlex, hrun.chars_eq.trans htext, htoken.kind_mem, ?_⟩
    have hlength := congrArg byteLength (flatMap_text_lex cs)
    rw [hlex, List.flatMap_append, List.flatMap_append, htext, byteLength_append,
      byteLength_append] at hlength
    rw [← hlength, show span = _ from htoken.span_eq, Nat.add_assoc]

/-- A token inside a call that does not reach the end of the source is balanced, unless it
    is a delimiter or a comment. -/
theorem balanced_token (hn : ⟨n, above⟩ ∈ (Tree.read cs).below) (hnil : n.children = [])
    (hopen : n.kind ≠ .openDelim) (hclose : n.kind ≠ .closeDelim)
    (hstop : n.span.stop < byteLength cs)
    (hcomment : n.kind = .lineComment → Balanced ((Tree.read cs).chars n))
    (habove : ∃ a ∈ above, a.kind.isCall = true) : Balanced ((Tree.read cs).chars n) := by
  obtain ⟨before, l, after, hlex, hchars, hkind, hlength⟩ :=
    exists_lexeme_of_children_eq_nil hn hnil
  have hafter : after.flatMap (·.text) ≠ [] := by
    intro hnil
    rw [hnil, byteLength_nil] at hlength
    omega
  obtain ⟨c, rest, hfirst⟩ := exists_firstLexeme_of_lex hlex
  have hl : l ∈ lex cs := by simp [hlex]
  rw [hchars]
  rcases hfirst.balanced hafter with h | h | h | ⟨kind, h, -⟩
  · exact h
  · -- a comment
    rw [h] at hkind
    exact hchars ▸ hcomment (List.mem_singleton.1 hkind)
  · -- a parenthesis that closes nothing cannot be in a call
    rw [h] at hkind
    have herror : n.kind = .error :=
      (List.mem_cons.1 hkind).elim (absurd · hclose) List.mem_singleton.1
    obtain ⟨-, d, -, htext, hstray⟩ :=
      error_stray_read (mem_locations_of_below hn) herror
    obtain ⟨a, ha, hcall⟩ := habove
    obtain rfl : d = ')' := by
      rw [hchars, ((sound_of_mem_lex hl).closer _ h).2] at htext
      exact (List.cons.inj htext).1.symm
    exact absurd (Kind.closer?_of_isCall hcall) (hstray a ha)
  · rw [h] at hkind
    exact absurd (List.mem_singleton.1 hkind) hopen

/-- A call begins with its parenthesis. -/
theorem exists_opener_of_isCall (hn : n ∈ (Tree.read cs).nodes) (hcall : n.kind.isCall = true) :
    ∃ o rest a, n.children = o :: rest ∧ o.kind = .openDelim ∧
      (Tree.read cs).chars o = a ++ ['('] ∧ (∀ c ∈ a, isScanned c = false) ∧
      ∀ c ∈ rest, c.kind ≠ .openDelim := by
  have hbegins := begins_read cs n hn
  obtain ⟨a, hopener, ha⟩ := Kind.exists_opener?_of_isCall hcall
  rw [Begins, hopener] at hbegins
  obtain ⟨o, rest, hchildren, ho, htext, hrest⟩ := hbegins
  refine ⟨o, rest, a, hchildren, ho, ?_, ha, hrest⟩
  rw [chars, source_read, htext]

/-- A closed collection is what stands between its delimiters. -/
theorem exists_delimiters (hn : n ∈ (Tree.read cs).nodes) {opener : List Char}
    (hopener : n.kind.opener? = some opener) (hclosed : n.isClosed = true) :
    ∃ o mid z d, n.children = o :: (mid ++ [z]) ∧ (Tree.read cs).chars o = opener ∧
      n.kind.closer? = some d ∧ (Tree.read cs).chars z = [d] ∧
      ∀ m ∈ mid, m.kind ≠ .openDelim ∧ m.kind ≠ .closeDelim := by
  have hbegins := begins_read cs n hn
  rw [Begins, hopener] at hbegins
  obtain ⟨o, rest, hrest, ho, hchars, hinner⟩ := hbegins
  obtain ⟨z, hz, hclose⟩ : ∃ z, n.children.getLast? = some z ∧ z.kind = .closeDelim := by
    simpa [Node.isClosed, Option.any_eq_true] using hclosed
  -- the closing delimiter is not the opening one
  obtain ⟨mid, rfl⟩ : ∃ mid, rest = mid ++ [z] := by
    rw [hrest] at hz
    rcases List.eq_nil_or_concat rest with rfl | ⟨mid, z', rfl⟩
    · obtain rfl : o = z := by simpa using hz
      rw [ho] at hclose
      cases hclose
    · rw [List.concat_eq_append, ← List.cons_append, List.getLast?_concat] at hz
      rw [List.concat_eq_append, Option.some.inj hz]
      exact ⟨mid, rfl⟩
  obtain ⟨-, d, hcloser, htext⟩ := closeDelim_own_read hn (List.mem_of_getLast? hz) hclose
  have hdropLast : n.children.dropLast = o :: mid := by
    rw [hrest, ← List.cons_append, List.dropLast_concat]
  refine ⟨o, mid, z, d, hrest, ?_, hcloser, htext, fun m hm => ⟨?_, ?_⟩⟩
  · rw [chars, source_read, hchars]
  · exact hinner m (List.mem_append_left _ hm)
  · refine ((orderly_read cs).2 n hn).closeDelim_last m ?_
    rw [hdropLast]
    exact List.mem_cons_of_mem _ hm

/-- The delimiters of other collections are balanced. -/
theorem balanced_delimiter (hn : n ∈ (Tree.read cs).nodes) (hcall : n.kind.isCall = false)
    (hm : m ∈ n.children) (hdelimiter : m.kind = .openDelim ∨ m.kind = .closeDelim) :
    Balanced ((Tree.read cs).chars m) := by
  rcases hdelimiter with hopen | hclose
  · have hbegins := begins_read cs n hn
    rw [Begins] at hbegins
    split at hbegins
    · next text hopener =>
      obtain ⟨o, rest, hchildren, -, htext, hrest⟩ := hbegins
      rw [hchildren] at hm
      rcases List.mem_cons.1 hm with rfl | hm
      · rw [chars, source_read, htext]
        exact Kind.balanced_opener? hcall hopener
      · exact absurd hopen (hrest m hm)
    · exact absurd hopen (hbegins m hm)
  · obtain ⟨-, d, hcloser, htext⟩ := closeDelim_own_read hn hm hclose
    rw [htext]
    refine .of_unscanned ?_
    revert hcall hcloser
    cases n.kind <;> simp [Kind.isCall, Kind.closer?] <;> rintro rfl <;> simp [isScanned]

end Tree

end Typeahead
