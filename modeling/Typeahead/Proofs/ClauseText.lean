import Mathlib.Data.List.Find
import Typeahead.Namespace.Clause
import Typeahead.Proofs.Boundary

/-!
# The clause of a text

The clause of a namespace declaration that is open at the end of a text is found by the
parentheses in it and the keywords after them. The beginning of the text may be left out,
unless a string or the clause starts in it. A marker that is put in before a delimiter
changes nothing, unless a keyword ends right there.

* `clauseName?_append`: the clause that a text starts with is found by its first word;
* `CutsTo.clauseAt_eq`: the open clause of a text and of its end;
* `clauseAt_marker`: the open clause with and without the marker.
-/

namespace Typeahead

/-- The clause that a text starts with. -/
def clauseName? (cs : List Char) : Option NsClause := (clauseOf? cs).map Prod.fst

/-- Whether a text starts with the complete keyword of a clause. -/
def startsClause (keyword cs : List Char) : Bool :=
  keyword.isPrefixOf cs && endsKeyword (cs.drop keyword.length)

theorem clauseName?_eq (cs : List Char) :
    clauseName? cs =
      (clauseKeywords.find? fun k => startsClause k.1.toList cs).map Prod.snd := by
  rw [clauseName?, clauseOf?]
  induction clauseKeywords with
  | nil => rfl
  | cons k ks ih =>
    obtain ⟨keyword, clause⟩ := k
    rw [List.findSome?_cons, List.find?_cons]
    dsimp only
    cases hstarts : startsClause keyword.toList cs with
    | true =>
      rw [startsClause] at hstarts
      rw [hstarts]
      rfl
    | false =>
      rw [startsClause] at hstarts
      rw [hstarts]
      exact ih

theorem clauseAt_eq (cs : List Char) :
    clauseAt cs =
      (((openParens false false [] cs).map clauseName?).findSome? id).getD .between := by
  rw [clauseAt, openClause?, List.findSome?_map]
  congr 1
  induction openParens false false [] cs with
  | nil => rfl
  | cons r rs ih =>
    rw [List.findSome?_cons, List.findSome?_cons]
    cases hclause : clauseOf? r with
    | none => simpa [clauseName?, hclause] using ih
    | some x => simp [clauseName?, hclause]

/-! ### Keywords in a text -/

theorem isTerminator_of_endsKeyword {c : Char} {cs : List Char}
    (h : endsKeyword (c :: cs) = true) : isTerminator c = true := by
  simp only [endsKeyword, List.head?_cons, Option.all_some, Bool.or_eq_true, beq_iff_eq] at h
  rcases h with ((h | rfl) | rfl) | rfl
  · exact isTerminator_of_isBlank h
  · rfl
  · rfl
  · rfl

theorem clauseKeyword_of_mem {k : String × NsClause} (hk : k ∈ clauseKeywords) :
    k.1.toList.head? = some ':' ∧ ∀ c ∈ k.1.toList, isTerminator c = false := by
  have hall : clauseKeywords.all (fun k => k.1.toList.head? == some ':' &&
      k.1.toList.all (!isTerminator ·)) = true := by decide +kernel
  simpa using List.all_eq_true.1 hall k hk

/-- A text that starts with a word starts with the keywords that are this word. -/
theorem startsClause_append {keyword word rest : List Char}
    (hkeyword : ∀ c ∈ keyword, isTerminator c = false) (hword : ∀ c ∈ word, isTerminator c = false)
    (hrest : EndsWord rest) :
    startsClause keyword (word ++ rest) = (keyword == word && endsKeyword rest) := by
  by_cases heq : keyword = word
  · have hstarts : keyword.isPrefixOf (keyword ++ rest) = true :=
      List.isPrefixOf_iff_prefix.2 (List.prefix_append keyword rest)
    rw [← heq, startsClause, hstarts, List.drop_left, beq_self_eq_true]
  rw [beq_eq_false_iff_ne.2 heq, Bool.false_and, startsClause, Bool.eq_false_iff]
  intro h
  obtain ⟨hstarts, hends⟩ := Bool.and_eq_true_iff.1 h
  obtain ⟨s, hs⟩ := List.isPrefixOf_iff_prefix.1 hstarts
  rw [← hs, List.drop_left] at hends
  rcases List.append_eq_append_iff.1 hs with ⟨a, rfl, rfl⟩ | ⟨a, rfl, rfl⟩
  · -- the word goes on after the keyword
    cases a with
    | nil => exact heq (List.append_nil _).symm
    | cons d a =>
      have hd := isTerminator_of_endsKeyword hends
      rw [hword d (by simp)] at hd
      cases hd
  · -- the keyword goes on after the word
    cases a with
    | nil => exact heq (List.append_nil _)
    | cons d a =>
      have hd := hrest d rfl
      rw [hkeyword d (by simp)] at hd
      cases hd

/-- The clause of a text that starts with a word. -/
theorem clauseName?_append {word rest : List Char} (hword : ∀ c ∈ word, isTerminator c = false)
    (hrest : EndsWord rest) :
    clauseName? (word ++ rest) =
      if endsKeyword rest then clauseKeywords.lookup (String.ofList word) else none := by
  have hstarts : ∀ k ∈ clauseKeywords, startsClause k.1.toList (word ++ rest) =
      (k.1.toList == word && endsKeyword rest) := fun k hk =>
    startsClause_append (clauseKeyword_of_mem hk).2 hword hrest
  rw [clauseName?_eq, List.find?_congr hstarts]
  cases endsKeyword rest with
  | false => simp
  | true =>
    simp only [Bool.and_true, if_true]
    induction clauseKeywords with
    | nil => rfl
    | cons k ks ih =>
      obtain ⟨keyword, clause⟩ := k
      have hsame : (keyword.toList == word) = (String.ofList word == keyword) := by
        rw [Bool.eq_iff_iff, beq_iff_eq, beq_iff_eq, ← String.toList_inj, String.toList_ofList,
          eq_comm]
      rw [List.find?_cons, List.lookup_cons, ← hsame]
      cases keyword.toList == word with
      | true => rfl
      | false => exact ih

/-- Every keyword of a clause starts with a colon. -/
theorem clauseName?_eq_none {cs : List Char} (h : ∀ c ∈ cs.head?, c ≠ ':') :
    clauseName? cs = none := by
  rw [clauseName?_eq, Option.map_eq_none_iff, List.find?_eq_none]
  intro k hk hstarts
  obtain ⟨s, rfl⟩ := List.isPrefixOf_iff_prefix.1 (Bool.and_eq_true_iff.1 hstarts).1
  refine h ':' ?_ rfl
  rw [List.head?_append, (clauseKeyword_of_mem hk).1]
  rfl

theorem lookup_clauseKeywords_eq_none {s : String} (h : ∀ c ∈ s.toList.head?, c ≠ ':') :
    clauseKeywords.lookup s = none := by
  rw [List.lookup_eq_none_iff]
  rintro k hk
  rw [bne_iff_ne]
  rintro rfl
  exact h ':' (clauseKeyword_of_mem hk).1 rfl

/-! ### One step of the scan -/

/-- Whether the scan is inside a string after the character `c`, and after a backslash
    there. -/
def stringStep (inString escaped : Bool) (c : Char) : Bool × Bool :=
  if inString then
    if escaped then (true, false) else if c == '\\' then (true, true) else (c != '"', false)
  else (c == '"', false)

/-- What is open after the character `c`, which the text `cs` follows. -/
def stackStep (inString : Bool) (c : Char) (cs : List Char) (stack : List (List Char)) :
    List (List Char) :=
  if inString then stack
  else if c == '(' then cs :: stack
  else if c == ')' then stack.tail
  else stack

theorem openParens_cons (inString escaped : Bool) (stack : List (List Char)) (c : Char)
    (cs : List Char) :
    openParens inString escaped stack (c :: cs) = openParens (stringStep inString escaped c).1
      (stringStep inString escaped c).2 (stackStep inString c cs stack) cs := by
  cases inString with
  | true =>
    simp only [openParens, stringStep, stackStep, if_true]
    split
    · rfl
    · split <;> rfl
  | false =>
    simp only [openParens, stringStep, stackStep, Bool.false_eq_true, if_false]
    by_cases hquote : c = '"'
    · subst hquote
      rfl
    · rw [beq_eq_false_iff_ne.2 hquote]
      simp only [Bool.false_eq_true, if_false]
      split
      · rfl
      · split <;> rfl

/-- Two texts go on with `y` and `z` after the same text `x`. If the clauses of every rest
    of `x` are the same with both, and so are those that `y` and `z` leave open, then the
    two texts have the same open clauses. -/
theorem map_openParens_append {x y z : List Char}
    (hrest : ∀ r, r <:+ x → clauseName? (r ++ y) = clauseName? (r ++ z))
    (hend : ∀ (inString escaped : Bool) (stack stack' : List (List Char)),
      stack.map clauseName? = stack'.map clauseName? →
      (openParens inString escaped stack y).map clauseName? =
        (openParens inString escaped stack' z).map clauseName?)
    {stack stack' : List (List Char)} (h : stack.map clauseName? = stack'.map clauseName?)
    (inString escaped : Bool) :
    (openParens inString escaped stack (x ++ y)).map clauseName? =
      (openParens inString escaped stack' (x ++ z)).map clauseName? := by
  induction x generalizing stack stack' inString escaped with
  | nil => exact hend _ _ _ _ h
  | cons c x ih =>
    rw [List.cons_append, List.cons_append, openParens_cons, openParens_cons]
    refine ih (fun r hr => hrest r (hr.trans (List.suffix_cons c x))) ?_ _ _
    rw [stackStep, stackStep]
    split
    · exact h
    split
    · rw [List.map_cons, List.map_cons, hrest x (List.suffix_cons c x), h]
    split
    · rw [List.map_tail, List.map_tail, h]
    · exact h

/-- Only the clauses of the open parentheses matter. -/
theorem map_openParens_congr {stack stack' : List (List Char)}
    (h : stack.map clauseName? = stack'.map clauseName?) (cs : List Char)
    (inString escaped : Bool) :
    (openParens inString escaped stack cs).map clauseName? =
      (openParens inString escaped stack' cs).map clauseName? := by
  have happ := map_openParens_append (x := cs) (y := []) (fun _ _ => rfl) (fun _ _ _ _ h => h) h
    inString escaped
  rwa [List.append_nil] at happ

/-- What is open below the stack stays open, as far as it is not closed. -/
theorem exists_openParens_append (lower : List (List Char)) (inString escaped : Bool)
    (stack : List (List Char)) (y : List Char) :
    ∃ k, openParens inString escaped (stack ++ lower) y =
      openParens inString escaped stack y ++ lower.drop k := by
  induction y generalizing inString escaped stack lower with
  | nil => exact ⟨0, rfl⟩
  | cons c y ih =>
    rw [openParens_cons, openParens_cons, stackStep, stackStep]
    split
    · exact ih ..
    split
    · exact ih lower _ _ (y :: stack)
    split
    · cases stack with
      | nil =>
        obtain ⟨k, hk⟩ := ih lower.tail (stringStep inString escaped c).1
          (stringStep inString escaped c).2 []
        rw [List.drop_tail] at hk
        exact ⟨k + 1, hk⟩
      | cons r rs => exact ih lower _ _ rs
    · exact ih ..

/-! ### Shortened texts -/

/-- Whether a text ends inside a string. As in the scan, `inString` and `escaped` say whether
    it starts inside a string, and after a backslash there. -/
def endsInString (inString escaped : Bool) : List Char → Bool
  | [] => inString
  | c :: cs =>
    endsInString (stringStep inString escaped c).1 (stringStep inString escaped c).2 cs

/-- After a text that ends outside of strings, the scan has open what was open before, and
    parentheses in that text. -/
theorem exists_openParens_of_endsInString {x : List Char} {inString escaped : Bool}
    (h : endsInString inString escaped x = false) (stack : List (List Char)) (y : List Char) :
    ∃ stack', (∀ r ∈ stack', r ∈ stack ∨ y.length ≤ r.length) ∧
      openParens inString escaped stack (x ++ y) = openParens false false stack' y := by
  induction x generalizing inString escaped stack with
  | nil =>
    obtain rfl : inString = false := h
    refine ⟨stack, fun r hr => .inl hr, ?_⟩
    cases y <;> rfl
  | cons c x ih =>
    obtain ⟨stack', hstack, heq⟩ := ih h (stackStep inString c (x ++ y) stack)
    refine ⟨stack', fun r hr => ?_, by rw [List.cons_append, openParens_cons, heq]⟩
    refine (hstack r hr).elim (fun hr => ?_) .inr
    rw [stackStep] at hr
    split at hr
    · exact .inl hr
    split at hr
    · rcases List.mem_cons.1 hr with rfl | hr
      · exact .inr (by simp)
      · exact .inl hr
    split at hr
    · exact .inl (List.mem_of_mem_tail hr)
    · exact .inl hr

/-- The text `x` may be cut to its end `y`: what is cut off leaves no string open, and the
    clause that is open at the end of `x`, if any, starts in `y`. -/
def CutsTo (x y : List Char) : Prop :=
  ∃ d, x = d ++ y ∧ endsInString false false d = false ∧
    ∀ r ∈ (openParens false false [] x).find? fun r => (clauseName? r).isSome, r.length < y.length

theorem CutsTo.clauseAt_eq {x y : List Char} (h : CutsTo x y) : clauseAt x = clauseAt y := by
  obtain ⟨d, rfl, hd, hclause⟩ := h
  obtain ⟨lower, hlower, heq⟩ := exists_openParens_of_endsInString hd [] y
  obtain ⟨k, hk⟩ := exists_openParens_append lower false false [] y
  rw [List.nil_append, ← heq] at hk
  rw [hk, List.find?_append] at hclause
  rw [Typeahead.clauseAt_eq, Typeahead.clauseAt_eq, hk, List.map_append, List.findSome?_append]
  cases hfind : ((openParens false false [] y).map clauseName?).findSome? id with
  | some clause => rfl
  | none =>
    -- there is no clause in `y`, so one that starts before it would be the clause of `x`
    rw [List.findSome?_map, List.findSome?_eq_none_iff] at hfind
    have hnone : (openParens false false [] y).find? (fun r => (clauseName? r).isSome) = none :=
      List.find?_eq_none.2 fun r hr => by simp [show clauseName? r = none from hfind r hr]
    rw [hnone, Option.none_or] at hclause
    have hlower : (lower.drop k).find? (fun r => (clauseName? r).isSome) = none := by
      refine Option.eq_none_iff_forall_not_mem.2 fun r hr => ?_
      have hlong := hlower r (List.mem_of_mem_drop (List.mem_of_find?_eq_some hr))
      exact absurd (hclause r hr) (Nat.not_lt.2 (hlong.resolve_left List.not_mem_nil))
    rw [Option.none_or, List.findSome?_map, List.findSome?_eq_none_iff.2]
    intro r hr
    simpa using List.find?_eq_none.1 hlower r hr

/-! ### Markers -/

/-- A keyword in front of a delimiter is complete before it, or not there at all. -/
theorem startsClause_congr {keyword r y z : List Char} {d e : Char}
    (hlast : keyword.getLast? = some 'e') (hkeyword : ∀ c ∈ keyword, isPunctuation c = false)
    (hr : ∀ c ∈ r.getLast?, c ≠ 'e') (hd : isPunctuation d = true) (he : isPunctuation e = true) :
    startsClause keyword (r ++ d :: y) = startsClause keyword (r ++ e :: z) := by
  have hnot : ∀ {f : Char} {t : List Char}, isPunctuation f = true → ¬ keyword <+: r →
      startsClause keyword (r ++ f :: t) = false := by
    rintro f t hf hprefix
    rw [startsClause, Bool.and_eq_false_iff]
    refine .inl ?_
    rw [Bool.eq_false_iff, ne_eq, List.isPrefixOf_iff_prefix]
    rintro ⟨s, hs⟩
    rcases List.append_eq_append_iff.1 hs with ⟨a, hr', -⟩ | ⟨a, hkeyword', hrest⟩
    · exact hprefix ⟨a, hr'.symm⟩
    · -- the keyword would go on with the delimiter
      cases a with
      | nil => exact hprefix ⟨[], by rw [hkeyword', List.append_nil, List.append_nil]⟩
      | cons x a =>
        obtain ⟨rfl, -⟩ := List.cons.inj hrest
        rw [hkeyword f (by simp [hkeyword'])] at hf
        cases hf
  by_cases hprefix : keyword <+: r
  · obtain ⟨t, rfl⟩ := hprefix
    cases t with
    | nil =>
      rw [List.append_nil] at hr
      exact absurd rfl (hr 'e' hlast)
    | cons x t =>
      have hstarts : ∀ s, keyword.isPrefixOf (keyword ++ s) = true := fun s =>
        List.isPrefixOf_iff_prefix.2 (List.prefix_append keyword s)
      rw [startsClause, startsClause, List.append_assoc, List.append_assoc, hstarts, hstarts,
        List.drop_left, List.drop_left]
      rfl
  · rw [hnot hd hprefix, hnot he hprefix]

theorem keyword_of_mem {k : String × NsClause} (hk : k ∈ clauseKeywords) :
    k.1.toList.getLast? = some 'e' ∧ ∀ c ∈ k.1.toList, isPunctuation c = false := by
  have hall : clauseKeywords.all (fun k => k.1.toList.getLast? == some 'e' &&
      k.1.toList.all (!isPunctuation ·)) = true := by decide +kernel
  have h := List.all_eq_true.1 hall k hk
  simpa using h

theorem clauseName?_congr {r y z : List Char} {d e : Char} (hr : ∀ c ∈ r.getLast?, c ≠ 'e')
    (hd : isPunctuation d = true) (he : isPunctuation e = true) :
    clauseName? (r ++ d :: y) = clauseName? (r ++ e :: z) := by
  rw [clauseName?_eq, clauseName?_eq]
  refine congrArg (Option.map Prod.snd) (List.find?_congr fun k hk => ?_)
  obtain ⟨hlast, hkeyword⟩ := keyword_of_mem hk
  exact startsClause_congr hlast hkeyword hr hd he

/-- A marker in front of a delimiter leaves the open parentheses as they are. -/
theorem map_openParens_marker {d : Char} (hd : isPunctuation d = true) (y : List Char)
    (inString escaped : Bool) {stack stack' : List (List Char)}
    (h : stack.map clauseName? = stack'.map clauseName?) :
    (openParens inString escaped stack ('#' :: '_' :: d :: y)).map clauseName? =
      (openParens inString escaped stack' (d :: y)).map clauseName? := by
  have hquote : (d != '"') = true := bne_iff_ne.2 fun heq => absurd (heq ▸ hd) (by decide)
  have hbackslash : d ≠ '\\' := fun heq => absurd (heq ▸ hd) (by decide)
  have hsame := map_openParens_congr h
  cases inString with
  | false => exact hsame (d :: y) false false
  | true =>
    -- a marker in a string completes an escape that the delimiter would complete
    cases escaped with
    | false => exact hsame (d :: y) true false
    | true =>
      have hmarker : openParens true true stack ('#' :: '_' :: d :: y) =
          openParens true false stack y := by
        simp [openParens, hquote, hbackslash]
      rw [hmarker]
      exact hsame y true false

/-- The clause that is open at the end of a text is the same with a marker in front of a
    delimiter, if no keyword can end there. -/
theorem clauseAt_marker {x y : List Char} {d : Char} (hx : ∀ c ∈ x.getLast?, c ≠ 'e')
    (hd : isPunctuation d = true) :
    clauseAt (x ++ '#' :: '_' :: d :: y) = clauseAt (x ++ d :: y) := by
  rw [clauseAt_eq, clauseAt_eq, map_openParens_append ?_ ?_ rfl]
  · rintro r ⟨s, rfl⟩
    refine clauseName?_congr (fun c hc => hx c ?_) (by decide) hd
    rw [List.getLast?_append, Option.mem_def.1 hc]
    rfl
  · exact fun inString escaped _ _ h => map_openParens_marker hd y inString escaped h

end Typeahead
