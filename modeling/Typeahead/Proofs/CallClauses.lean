import Typeahead.Proofs.CallSlots
import Typeahead.Proofs.ClauseText
import Typeahead.Proofs.Parentheses

/-!
# The clauses of calls

A clause of a namespace declaration is a call that begins with a keyword. In the text, the
keyword is found by the characters after a parenthesis, up to the cursor. In the tree, it
is the first child of the call after its delimiter (`Tree.callClause?`).

* `Tree.exists_mayBegin`: the kind of a node shows in its first character, as far as
  keywords are concerned;
* `Tree.clauseName?_slice`: the text and the tree have the same clauses;
* `Tree.callClause?_eq_none`: calls with a head have none.
-/

namespace Typeahead

/-! ### The first character of a node -/

/-- Whether a node of this kind, right after the keyword of a clause, shows that the keyword
    is complete. -/
def Kind.endsKeyword : Kind → Bool
  | .whitespace | .list | .vector | .string => true
  | _ => false

/-- A node of the kind `k` may start with the character `c`, as far as keywords and what
    ends them are concerned. -/
def Kind.MayBegin (k : Kind) (c : Char) : Prop :=
  Typeahead.endsKeyword [c] = k.endsKeyword ∧ (c = ':' → k = .keyword)

instance (k : Kind) (c : Char) : Decidable (k.MayBegin c) := inferInstanceAs (Decidable (_ ∧ _))

/-- A collection starts with its delimiter. -/
theorem Kind.exists_opener?_eq {k : Kind} (hnested : k.isNested = true) (hquoted : k ≠ .quoted) :
    ∃ c s, k.opener? = some (c :: s) ∧ k.MayBegin c := by
  cases k with
  | list => exact ⟨'(', [], rfl, by decide⟩
  | vector => exact ⟨'[', [], rfl, by decide⟩
  | map => exact ⟨'\x7b', [], rfl, by decide⟩
  | set => exact ⟨'#', ['\x7b'], rfl, by decide⟩
  | shortFn => exact ⟨'|', ['('], rfl, by decide⟩
  | quoted => exact absurd rfl hquoted
  | _ => cases hnested

theorem mayBegin_atomKind {c : Char} (hc : isTerminator c = false) (cs : List Char) :
    (atomKind (c :: cs)).MayBegin c := by
  constructor
  · have hword := isWord_atomKind (c :: cs)
    have hends : Typeahead.endsKeyword [c] = false := Bool.eq_false_iff.2 fun h => by
      rw [isTerminator_of_endsKeyword h] at hc
      cases hc
    rw [hends]
    revert hword
    cases atomKind (c :: cs) <;> decide
  · rintro rfl
    rfl

/-- A lexeme starts as its token does, unless it opens a collection. -/
theorem FirstLexeme.exists_mayBegin {c : Char} {cs rest : List Char} {l : Lexeme}
    (h : FirstLexeme c cs l rest) {k : Kind} (hk : k ∈ l.shape.kinds) (hopen : k ≠ .openDelim) :
    (∃ s, l.text = c :: s) ∧ k.MayBegin c := by
  cases h with
  | blank hc =>
    obtain rfl := List.mem_singleton.1 hk
    refine ⟨⟨_, rfl⟩, by simp [endsKeyword, hc, Kind.endsKeyword], ?_⟩
    rintro rfl
    exact absurd hc (by decide)
  | lineComment hc =>
    obtain rfl := List.mem_singleton.1 hk
    refine ⟨⟨_, rfl⟩, ?_⟩
    rcases hc with rfl | rfl <;> decide
  | blockComment hc _ | marker hc _ | string hc =>
    obtain rfl := List.mem_singleton.1 hk
    subst hc
    exact ⟨⟨_, rfl⟩, by decide⟩
  | opener _ _ => exact absurd (List.mem_singleton.1 hk) hopen
  | closer hc =>
    simp only [isCloser, Bool.or_eq_true, beq_iff_eq] at hc
    refine ⟨⟨_, rfl⟩, ?_⟩
    rcases List.mem_cons.1 hk with rfl | hk
    · rcases hc with (rfl | rfl) | rfl <;> decide
    · obtain rfl := List.mem_singleton.1 hk
      rcases hc with (rfl | rfl) | rfl <;> decide
  | sigil hc _ _ =>
    obtain rfl := List.mem_singleton.1 hk
    simp only [isSigil, Bool.or_eq_true, beq_iff_eq] at hc
    refine ⟨⟨_, rfl⟩, ?_⟩
    rcases hc with (((rfl | rfl) | rfl) | rfl) | rfl <;> decide
  | word hc =>
    obtain rfl := List.mem_singleton.1 hk
    exact ⟨⟨_, rfl⟩, mayBegin_atomKind hc _⟩

namespace Tree

variable {cs : List Char} {n : Node} {above : List Node}

/-- A token starts as nodes of its kind do. -/
theorem exists_mayBegin_of_children_eq_nil (hn : ⟨n, above⟩ ∈ (Tree.read cs).below)
    (hnil : n.children = []) (hopen : n.kind ≠ .openDelim) :
    ∃ c s, (Tree.read cs).chars n = c :: s ∧ n.kind.MayBegin c := by
  obtain ⟨before, l, after, hlex, hchars, hkind, -⟩ := exists_lexeme_of_children_eq_nil hn hnil
  obtain ⟨c, rest, hfirst⟩ := exists_firstLexeme_of_lex hlex
  obtain ⟨⟨s, htext⟩, hbegin⟩ := hfirst.exists_mayBegin hkind hopen
  exact ⟨c, s, hchars.trans htext, hbegin⟩

/-- So does every node that is no opening delimiter. -/
theorem exists_mayBegin (hn : ⟨n, above⟩ ∈ (Tree.read cs).below) (hopen : n.kind ≠ .openDelim) :
    ∃ c s, (Tree.read cs).chars n = c :: s ∧ n.kind.MayBegin c := by
  by_cases hnil : n.children = []
  · exact exists_mayBegin_of_children_eq_nil hn hnil hopen
  have hloc := mem_locations_of_below hn
  have hnode := mem_nodes_of_mem_locations hloc
  have hchars : (Tree.read cs).chars n = n.children.flatMap (Tree.read cs).chars :=
    chars_eq_flatMap hloc hnil
  have hnested := isNested_of_children_ne_nil hn hnil
  by_cases hquoted : n.kind = .quoted
  · obtain ⟨s, rest, hchildren, hsigil⟩ := ((orderly_read cs).2 n hnode).quoted_sigil hquoted
    have hs := below_of_mem_children hloc (hchildren ▸ List.mem_cons_self)
    have hleaf : s.children = [] := by
      refine Classical.byContradiction fun hne => ?_
      have h := isNested_of_children_ne_nil hs hne
      rw [hsigil] at h
      cases h
    obtain ⟨c, text, htext, hbegin⟩ := exists_mayBegin_of_children_eq_nil hs hleaf
      (by rw [hsigil]; decide)
    refine ⟨c, text ++ rest.flatMap (Tree.read cs).chars, ?_, ?_⟩
    · rw [hchars, hchildren, List.flatMap_cons, htext, List.cons_append]
    · rw [hsigil] at hbegin
      rw [hquoted]
      exact ⟨hbegin.1, fun hc => absurd (hbegin.2 hc) (by decide)⟩
  · obtain ⟨c, s, hopener, hbegin⟩ := Kind.exists_opener?_eq hnested hquoted
    have hbegins := begins_read cs n hnode
    rw [Begins, hopener] at hbegins
    obtain ⟨o, rest, hchildren, -, htext, -⟩ := hbegins
    refine ⟨c, s ++ rest.flatMap (Tree.read cs).chars, ?_, hbegin⟩
    rw [hchars, hchildren, List.flatMap_cons, chars, source_read, htext, List.cons_append]

/-- A word ends where the text after it ends words. -/
theorem endsWord_of_isWord (hn : ⟨n, above⟩ ∈ (Tree.read cs).below)
    (hword : n.kind.isWord = true) {rest : List Char}
    (hstands : StandsAt cs n.span.start ((Tree.read cs).chars n ++ rest)) : EndsWord rest := by
  have hnil : n.children = [] := by
    refine Classical.byContradiction fun hne => ?_
    have hnested := isNested_of_children_ne_nil hn hne
    revert hword hnested
    cases n.kind <;> decide
  obtain ⟨before, l, after, hlex, hchars, hkind, hlength⟩ :=
    exists_lexeme_of_children_eq_nil hn hnil
  have hshape := Shape.eq_atom_of_mem_kinds hkind (Kind.isForm_of_isWord hword)
  have hends := (endsBefore_of_lex hlex).endsWord hshape hword
  obtain ⟨a, b, hcs, ha⟩ := hstands
  have htext : cs = (before.flatMap (·.text) ++ l.text) ++ after.flatMap (·.text) := by
    rw [← flatMap_text_lex cs, hlex, List.flatMap_append, List.flatMap_cons, List.append_assoc]
  have hcs' : cs = (a ++ (Tree.read cs).chars n) ++ (rest ++ b) := by
    rw [List.append_assoc, ← List.append_assoc _ rest, ← hcs]
  have hstop : n.span.stop = n.span.start + byteLength ((Tree.read cs).chars n) :=
    (standsAt_of_mem_below hn).2
  have hsame : byteLength (a ++ (Tree.read cs).chars n) =
      byteLength (before.flatMap (·.text) ++ l.text) := by
    have htotal := congrArg byteLength htext
    rw [byteLength_append] at htotal
    rw [byteLength_append, ha]
    omega
  obtain ⟨-, hrest⟩ := append_inj_of_byteLength (hcs'.symm.trans htext) hsame
  rw [← hrest] at hends
  exact hends.of_append

end Tree

/-! ### Texts up to a word -/

/-- The text goes on at the offset with a character of a word. -/
def AtWord (cs : List Char) (offset : Nat) : Prop :=
  ∃ c rest, StandsAt cs offset (c :: rest) ∧ isTerminator c = false

theorem standsAt_slice {cs x rest : List Char} {start offset : Nat} (hstart : StandsAt cs start x)
    (hrest : StandsAt cs offset rest) (hle : start ≤ offset) :
    StandsAt cs start (slice cs start offset ++ rest) ∧
      start + byteLength (slice cs start offset) = offset := by
  obtain ⟨a, b, hcs, rfl⟩ := hstart
  obtain ⟨a', b', hcs', rfl⟩ := hrest
  obtain ⟨y, rfl, -⟩ := exists_append_of_byteLength_le (hcs'.symm.trans hcs) hle
  have hy : StandsAt cs (byteLength a) (y ++ rest) := ⟨a, b', by simp [hcs'], rfl⟩
  have hslice := hy.append.1.slice_eq
  rw [← byteLength_append] at hslice
  rw [hslice]
  exact ⟨hy, (byteLength_append a y).symm⟩

namespace AtWord

variable {cs : List Char} {offset : Nat}

theorem lt (h : AtWord cs offset) : offset < byteLength cs := by
  obtain ⟨c, rest, ⟨a, b, rfl, rfl⟩, -⟩ := h
  have hpos := byteLength_pos (List.cons_ne_nil c (rest ++ b))
  rw [List.cons_append, byteLength_append]
  omega

theorem ne_nil (h : AtWord cs offset) : cs ≠ [] := by
  rintro rfl
  exact absurd h.lt (Nat.not_lt_zero _)

/-- The text up to the word begins with a node that ends before the word. -/
theorem slice_eq_append (h : AtWord cs offset) {n : Node} {above : List Node}
    (hn : ⟨n, above⟩ ∈ (Tree.read cs).below) (hle : n.span.stop ≤ offset) :
    slice cs n.span.start offset = (Tree.read cs).chars n ++ slice cs n.span.stop offset := by
  obtain ⟨c, rest, hrest, -⟩ := h
  obtain ⟨hstands, hstop⟩ : StandsAt cs n.span.start ((Tree.read cs).chars n) ∧
    n.span.stop = n.span.start + byteLength ((Tree.read cs).chars n) :=
      Tree.standsAt_of_mem_below hn
  have hstands' : StandsAt cs n.span.start ((Tree.read cs).chars n ++ []) := by
    rwa [List.append_nil]
  rw [hstop] at hle ⊢
  obtain ⟨hafter, hlength⟩ := standsAt_slice hstands'.append.2 hrest hle
  have hslice := (hstands.trans hafter.append.1).slice_eq
  rwa [byteLength_append, ← Nat.add_assoc, hlength] at hslice

/-- The text up to the word is empty, or begins as the text that stands there. -/
theorem slice_eq_cons (h : AtWord cs offset) {start : Nat} {d : Char} {s : List Char}
    (hd : StandsAt cs start (d :: s)) (hle : start ≤ offset) :
    isTerminator d = false ∧ slice cs start offset = [] ∨ ∃ r, slice cs start offset = d :: r := by
  obtain ⟨c, rest, hrest, hc⟩ := h
  obtain ⟨⟨a, b, hcs, ha⟩, -⟩ := standsAt_slice hd hrest hle
  obtain ⟨a', b', hcs', ha'⟩ := hd
  obtain ⟨-, heq⟩ := append_inj_of_byteLength (hcs.symm.trans hcs') (ha.trans ha'.symm)
  cases hslice : slice cs start offset with
  | nil =>
    rw [hslice] at heq
    exact .inl ⟨(List.cons.inj heq).1 ▸ hc, rfl⟩
  | cons e r =>
    rw [hslice] at heq
    obtain rfl : e = d := (List.cons.inj heq).1
    exact .inr ⟨r, rfl⟩

end AtWord

namespace Tree

variable {cs : List Char} {n : Node} {above : List Node} {offset : Nat}

/-! ### The clause of a call -/

/-- The clause that a call begins with: its keyword stands right after the parenthesis. -/
def callClause? (t : Tree) (n : Node) : Option NsClause :=
  match n.children with
  | _ :: keyword :: next :: _ =>
    if next.kind.endsKeyword then clauseKeywords.lookup (t.text keyword) else none
  | _ => none

/-- The clause of the first call among the given nodes that begins with one. -/
def clauseAround? (t : Tree) (path : List Node) : Option NsClause :=
  (path.filter (·.kind.isCall)).findSome? t.callClause?

theorem clauseAround?_append (t : Tree) (path rest : List Node) :
    t.clauseAround? (path ++ rest) = (t.clauseAround? path).or (t.clauseAround? rest) := by
  rw [clauseAround?, List.filter_append, List.findSome?_append]
  rfl

theorem clauseAround?_singleton (t : Tree) (n : Node) :
    t.clauseAround? [n] = if n.kind.isCall then t.callClause? n else none := by
  cases hcall : n.kind.isCall <;> cases hclause : t.callClause? n <;>
    simp [clauseAround?, hcall, hclause]

/-- Only keywords start with a colon. -/
theorem head?_chars_ne (hn : ⟨n, above⟩ ∈ (Tree.read cs).below) (hopen : n.kind ≠ .openDelim)
    (hkeyword : n.kind ≠ .keyword) : ∀ c ∈ ((Tree.read cs).chars n).head?, c ≠ ':' := by
  obtain ⟨c, s, hchars, -, hcolon⟩ := exists_mayBegin hn hopen
  rw [hchars]
  rintro d hd rfl
  exact hkeyword (hcolon (Option.some.inj hd))

theorem callClause?_of_kind_ne {o k : Node} {ks : List Node}
    (hn : ⟨n, above⟩ ∈ (Tree.read cs).locations) (hchildren : n.children = o :: k :: ks)
    (hopen : k.kind ≠ .openDelim) (hkeyword : k.kind ≠ .keyword) :
    (Tree.read cs).callClause? n = none := by
  have hk : k ∈ n.children := hchildren ▸ List.mem_cons_of_mem o List.mem_cons_self
  have hlookup : clauseKeywords.lookup ((Tree.read cs).text k) = none := by
    refine lookup_clauseKeywords_eq_none ?_
    rw [text, String.toList_ofList]
    exact head?_chars_ne (below_of_mem_children hn hk) hopen hkeyword
  rw [callClause?, hchildren]
  cases ks with
  | nil => rfl
  | cons w ws =>
    simp only [hlookup]
    split <;> rfl

/-- A call that is cut off ends where the delimiter of another collection begins. -/
theorem exists_isCloser_of_not_isClosed (hn : ⟨n, above⟩ ∈ (Tree.read cs).locations)
    (hcall : n.kind.isCall = true) (hopen : n.isClosed = false)
    (hlt : n.span.stop < byteLength cs) :
    ∃ d, isCloser d = true ∧ StandsAt cs n.span.stop [d] := by
  have hcollection : n.kind.isCollection = true := by
    revert hcall
    cases n.kind <;> decide
  rcases unclosed_cut_read hn hcollection hopen with hend | ⟨a, ha, z, hz, hclose, hstart, -⟩
  · rw [length, source_read] at hend
    exact absurd hlt (Nat.not_lt.2 (Nat.le_of_eq hend.symm))
  · have hnode := mem_nodes_of_mem_above hn (List.mem_cons_of_mem _ ha)
    obtain ⟨-, d, hcloser, htext⟩ := closeDelim_own_read hnode hz hclose
    obtain ⟨l, hl, rfl⟩ := exists_location_of_mem_nodes hnode
    have hstands := (standsAt_chars hl hz).1
    rw [htext, hstart] at hstands
    refine ⟨d, ?_, hstands⟩
    revert hcloser
    cases l.node.kind <;> rintro ⟨⟩ <;> rfl

/-- The text up to a word begins with a keyword. -/
theorem clauseName?_of_keyword (hword : AtWord cs offset)
    (hn : ⟨n, above⟩ ∈ (Tree.read cs).below) (hkeyword : n.kind = .keyword)
    (hle : n.span.stop ≤ offset) {d : Char} {s : List Char}
    (hd : StandsAt cs n.span.stop (d :: s)) :
    clauseName? (slice cs n.span.start offset) =
      if endsKeyword [d] then clauseKeywords.lookup ((Tree.read cs).text n) else none := by
  have hkind : n.kind.isWord = true := by rw [hkeyword]; rfl
  have hnode := mem_nodes_of_mem_locations (mem_locations_of_below hn)
  obtain ⟨hstands, hstop⟩ := standsAt_of_mem_below hn
  have hends : isTerminator d = true :=
    endsWord_of_isWord hn hkind (hstands.trans (hstop ▸ hd)) d rfl
  rcases hword.slice_eq_cons hd hle with ⟨hd, -⟩ | ⟨r, hr⟩
  · rw [hd] at hends
    cases hends
  · rw [hword.slice_eq_append hn hle, hr,
      clauseName?_append (isTerminator_of_mem_chars hnode hkind) (endsWord_cons hends r)]
    rfl

/-- The text up to a word begins with no keyword. -/
theorem clauseName?_of_ne (hword : AtWord cs offset) {start : Nat} {d : Char} {s : List Char}
    (hd : StandsAt cs start (d :: s)) (hne : d ≠ ':') (hle : start ≤ offset) :
    clauseName? (slice cs start offset) = none := by
  refine clauseName?_eq_none ?_
  rcases hword.slice_eq_cons hd hle with ⟨-, hr⟩ | ⟨r, hr⟩
  · simp [hr]
  · rw [hr]
    rintro c hc rfl
    exact hne (Option.some.inj hc)

/-- In the text up to a word, a call begins with the clause that it begins with in the tree. -/
theorem clauseName?_slice (hword : AtWord cs offset)
    (hn : ⟨n, above⟩ ∈ (Tree.read cs).locations) (hcall : n.kind.isCall = true) {o : Node}
    {ks : List Node} (hchildren : n.children = o :: ks) (ho : o.span.stop ≤ offset)
    (hk : ∀ k ∈ ks.head?, k.kind = .keyword → k.span.stop ≤ offset) :
    clauseName? (slice cs o.span.stop offset) = (Tree.read cs).callClause? n := by
  have hnode := mem_nodes_of_mem_locations hn
  obtain ⟨o', ks', -, hopener, hopen, -, -, hinner⟩ := exists_opener_of_isCall hnode hcall
  obtain ⟨rfl, rfl⟩ := List.cons.inj (hopener.symm.trans hchildren)
  have htiles := filled_read cs n hnode (by simp [hchildren])
  rw [hchildren] at htiles
  have hbelow : ∀ k ∈ ks', ⟨k, n :: above⟩ ∈ (Tree.read cs).below := fun k hk =>
    below_of_mem_children hn (hchildren ▸ List.mem_cons_of_mem _ hk)
  -- a call without a delimiter at its end is followed by that of another node
  have hcut : ∀ k, n.children.getLast? = some k → k.kind ≠ .closeDelim → n.span.stop ≤ offset →
      ∃ d, isCloser d = true ∧ StandsAt cs n.span.stop [d] := by
    intro k hlast hclose hle
    refine exists_isCloser_of_not_isClosed hn hcall ?_ (Nat.lt_of_le_of_lt hle hword.lt)
    simpa [Node.isClosed, hlast] using hclose
  cases ks' with
  | nil =>
    have hstop : o'.span.stop = n.span.stop := htiles.2
    obtain ⟨d, hd, hstands⟩ := hcut o' (by simp [hchildren]) (by rw [hopen]; decide) (hstop ▸ ho)
    have hcolon : d ≠ ':' := by
      rintro rfl
      cases hd
    rw [callClause?, hchildren, hstop]
    exact clauseName?_of_ne hword hstands hcolon (hstop ▸ ho)
  | cons k ks =>
    have hk' := hbelow k List.mem_cons_self
    have hstart : k.span.start = o'.span.stop := htiles.2.1
    rw [← hstart]
    by_cases hkeyword : k.kind = .keyword
    · have hle := hk k rfl hkeyword
      cases ks with
      | nil =>
        have hstop : k.span.stop = n.span.stop := htiles.2.2
        obtain ⟨d, hd, hstands⟩ := hcut k (by simp [hchildren]) (by rw [hkeyword]; decide)
          (hstop ▸ hle)
        have hends : endsKeyword [d] = false := by
          simp only [isCloser, Bool.or_eq_true, beq_iff_eq] at hd
          rcases hd with (rfl | rfl) | rfl <;> decide
        rw [clauseName?_of_keyword hword hk' hkeyword hle (hstop ▸ hstands), hends, callClause?,
          hchildren]
        rfl
      | cons w ws =>
        have hw := hbelow w (by simp)
        obtain ⟨d, s, hchars, hkind, -⟩ := exists_mayBegin hw (hinner w (by simp))
        have hstands : StandsAt cs w.span.start _ := (standsAt_of_mem_below hw).1
        rw [hchars, show w.span.start = k.span.stop from htiles.2.2.1] at hstands
        rw [clauseName?_of_keyword hword hk' hkeyword hle hstands, hkind, callClause?, hchildren]
    · have hopen' := hinner k List.mem_cons_self
      rw [callClause?_of_kind_ne hn hchildren hopen' hkeyword]
      obtain ⟨d, s, hchars⟩ := List.exists_cons_of_ne_nil (chars_ne_nil_of_mem_below hk')
      have hcolon := head?_chars_ne hk' hopen' hkeyword d (by rw [hchars]; rfl)
      exact clauseName?_of_ne hword (hchars ▸ (standsAt_of_mem_below hk').1) hcolon (hstart ▸ ho)

/-- A call with a head begins with no clause. -/
theorem callClause?_eq_none (hn : ⟨n, above⟩ ∈ (Tree.read cs).locations)
    (hcall : n.kind.isCall = true) {hd : Head} (hhead : (Tree.read cs).head? n = some hd) :
    (Tree.read cs).callClause? n = none := by
  have hnode : n ∈ (Tree.read cs).nodes := mem_nodes_of_mem_locations hn
  obtain ⟨o, rest, -, hchildren, ho, -, -, hopen⟩ := exists_opener_of_isCall hnode hcall
  cases rest with
  | nil => rw [callClause?, hchildren]
  | cons k ks =>
    refine callClause?_of_kind_ne hn hchildren (hopen k List.mem_cons_self) fun hkind => ?_
    -- the keyword would be in the place of the head
    have hfirst : n.activeForms.head? = some k := by
      simp [Node.activeForms, Node.judgedForms, hchildren, judgeForms, ho, hkind, Kind.isForm,
        deactivates, markersBefore, continuesSequence]
    rw [head?, hfirst] at hhead
    simp [hkind] at hhead

end Tree

end Typeahead
