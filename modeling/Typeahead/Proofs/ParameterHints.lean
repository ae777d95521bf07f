import Typeahead.Catalog.Signature
import Typeahead.Proofs.CallSlots
import Typeahead.Proofs.DefinitionNames
import Typeahead.Proofs.Parentheses
import Typeahead.Proofs.Reports

/-!
# Parameters in a call shape

The call shape of a function is one line of text, and the parameters are found in it again by a
split at the blanks outside of all brackets and braces. A text that the split never divides is
*undivided* (`IsUndivided`): a word is, and so are brackets around a text that closes in it what it
opens (`IsInner`). Of this kind are the texts of parameters that are words, or closed vectors and
maps of such (`Node.isWordPattern`), however they are nested and spaced.

* `signatureParameters_eq`: the parameters of a line of undivided texts are these texts;
* `Tree.isUndivided_chars`: the text of a pattern is undivided;
* `Tree.assigns_callSignature?`: the call shape of a function gives every argument the parameter
  that takes it.
-/

namespace Typeahead

/-! ### The split -/

section Split

variable {c : Char} {depth : Nat} {token cs : List Char}

theorem shapeParts_of_isTerminator (h : isTerminator c = false) :
    shapeParts depth token (c :: cs) = shapeParts depth (token ++ [c]) cs := by
  simp only [isTerminator, Bool.or_eq_false_iff, beq_eq_false_iff_ne] at h
  simp [shapeParts, h]

/-- A blank divides a text outside of brackets only. -/
theorem shapeParts_of_isBlank (h : isBlank c = true) (htoken : token ≠ []) :
    shapeParts depth token (c :: cs) =
      if depth = 0 then token :: shapeParts 0 [] cs else shapeParts depth (token ++ [c]) cs := by
  have hbracket : ¬(c = '[' ∨ c = '\x7b') := by
    rintro (hc | hc) <;> exact ne_of_isBlank h (by decide) hc
  have hclosing : ¬(c = ']' ∨ c = '\x7d') := by
    rintro (hc | hc) <;> exact ne_of_isBlank h (by decide) hc
  rw [shapeParts, if_neg hbracket, if_neg hclosing]
  simp [h, htoken]

theorem shapeParts_opener (h : c = '[' ∨ c = '\x7b') :
    shapeParts depth token (c :: cs) = shapeParts (depth + 1) (token ++ [c]) cs := by
  rw [shapeParts, if_pos h]

theorem shapeParts_closer (h : c = ']' ∨ c = '\x7d') (htoken : token ≠ []) :
    shapeParts (depth + 1) token (c :: cs) = shapeParts depth (token ++ [c]) cs := by
  have hbracket : ¬(c = '[' ∨ c = '\x7b') := by
    rcases h with rfl | rfl <;> decide
  rw [shapeParts, if_neg hbracket, if_pos h]
  simp [htoken]

end Split

/-- The split goes over the text inside of brackets, leaves the depth as it was and divides nothing,
    and no parenthesis in the text ends the call shape. -/
structure IsInner (x : List Char) : Prop where
  shapeParts_append : ∀ depth token y, token ≠ [] →
    shapeParts (depth + 1) token (x ++ y) = shapeParts (depth + 1) (token ++ x) y
  paren_not_mem : ')' ∉ x

/-- The split goes over the text wherever it stands. -/
structure IsUndivided (x : List Char) : Prop where
  ne_nil : x ≠ []
  shapeParts_append : ∀ depth token y,
    shapeParts depth token (x ++ y) = shapeParts depth (token ++ x) y
  paren_not_mem : ')' ∉ x

namespace IsInner

variable {x y : List Char}

theorem nil : IsInner [] where
  shapeParts_append depth token y _ := by rw [List.append_nil, List.nil_append]
  paren_not_mem := List.not_mem_nil

theorem append (hx : IsInner x) (hy : IsInner y) : IsInner (x ++ y) where
  shapeParts_append depth token z htoken := by
    rw [List.append_assoc, hx.shapeParts_append _ _ _ htoken,
      hy.shapeParts_append _ _ _ (List.append_ne_nil_of_left_ne_nil htoken x), List.append_assoc]
  paren_not_mem := by
    rw [List.mem_append, not_or]
    exact ⟨hx.paren_not_mem, hy.paren_not_mem⟩

theorem flatMap {ns : List Node} {f : Node → List Char} (h : ∀ n ∈ ns, IsInner (f n)) :
    IsInner (ns.flatMap f) := by
  induction ns with
  | nil => exact nil
  | cons n ns ih =>
    rw [List.flatMap_cons]
    exact (h n List.mem_cons_self).append (ih fun m hm => h m (List.mem_cons_of_mem _ hm))

theorem blanks (h : ∀ c ∈ x, isBlank c = true) : IsInner x := by
  induction x with
  | nil => exact nil
  | cons c x ih =>
    refine append (x := [c]) ⟨fun depth token y htoken => ?_, ?_⟩
      (ih fun d hd => h d (List.mem_cons_of_mem _ hd))
    · rw [List.singleton_append, shapeParts_of_isBlank (h c List.mem_cons_self) htoken,
        if_neg (Nat.succ_ne_zero depth)]
    · rw [List.mem_singleton]
      exact (ne_of_isBlank (h c List.mem_cons_self) (by decide)).symm

end IsInner

namespace IsUndivided

variable {x : List Char}

theorem isInner (h : IsUndivided x) : IsInner x :=
  ⟨fun depth token y _ => h.shapeParts_append (depth + 1) token y, h.paren_not_mem⟩

theorem word (hne : x ≠ []) (h : ∀ c ∈ x, isTerminator c = false) : IsUndivided x where
  ne_nil := hne
  shapeParts_append depth token y := by
    clear hne
    induction x generalizing token with
    | nil => rw [List.nil_append, List.append_nil]
    | cons c x ih =>
      rw [List.cons_append, shapeParts_of_isTerminator (h c List.mem_cons_self),
        ih fun d hd => h d (List.mem_cons_of_mem _ hd), List.append_assoc, List.singleton_append]
  paren_not_mem hparen := absurd (h ')' hparen) (by decide)

/-- A text between brackets or braces. -/
theorem group (hx : IsInner x) {c d : Char} (hc : c = '[' ∨ c = '\x7b')
    (hd : d = ']' ∨ d = '\x7d') : IsUndivided (c :: (x ++ [d])) where
  ne_nil := List.cons_ne_nil _ _
  shapeParts_append depth token y := by
    -- the first delimiter begins a part if none is being read, so the last one does not stand alone
    have hbegun : token ++ [c] ≠ [] :=
      List.append_ne_nil_of_right_ne_nil token (List.cons_ne_nil c [])
    rw [List.cons_append, List.append_assoc, shapeParts_opener hc,
      hx.shapeParts_append depth _ _ hbegun, List.singleton_append,
      shapeParts_closer hd (List.append_ne_nil_of_left_ne_nil hbegun x)]
    simp
  paren_not_mem hparen := by
    rw [List.mem_cons, List.mem_append, List.mem_singleton] at hparen
    rcases hparen with hparen | hparen | hparen
    · rw [← hparen] at hc
      exact absurd hc (by decide)
    · exact hx.paren_not_mem hparen
    · rw [← hparen] at hd
      exact absurd hd (by decide)

end IsUndivided

theorem IsSymbol.isUndivided {x : List Char} (h : IsSymbol x) : IsUndivided x := by
  refine .word ?_ h.isTerminator_eq_false
  rintro rfl
  have hlex := h.lex_eq
  rw [lex] at hlex
  cases hlex

/-- Undivided texts with single spaces between them are divided at the spaces. -/
theorem shapeParts_intercalate : (xs : List (List Char)) → (∀ x ∈ xs, IsUndivided x) →
    shapeParts 0 [] ([' '].intercalate xs) = xs
  | [], _ => rfl
  | [x], h => by
    have hx := h x List.mem_cons_self
    have hsplit := hx.shapeParts_append 0 [] []
    rw [List.append_nil, List.nil_append] at hsplit
    rw [List.intercalate_singleton, hsplit, shapeParts]
    simp [hx.ne_nil]
  | x :: y :: xs, h => by
    have hx := h x List.mem_cons_self
    have hrest := shapeParts_intercalate (y :: xs) fun z hz => h z (List.mem_cons_of_mem _ hz)
    rw [List.intercalate_cons_cons, List.append_assoc, hx.shapeParts_append, List.nil_append,
      List.singleton_append, shapeParts_of_isBlank rfl hx.ne_nil, if_pos rfl, hrest]

theorem paren_not_mem_intercalate : (xs : List (List Char)) → (∀ x ∈ xs, IsUndivided x) →
    ')' ∉ [' '].intercalate xs
  | [], _ => List.not_mem_nil
  | [x], h => by
    rw [List.intercalate_singleton]
    exact (h x List.mem_cons_self).paren_not_mem
  | x :: y :: xs, h => by
    have hrest := paren_not_mem_intercalate (y :: xs) fun z hz => h z (List.mem_cons_of_mem _ hz)
    rw [List.intercalate_cons_cons, List.mem_append, List.mem_append, List.mem_singleton]
    rintro ((hparen | hparen) | hparen)
    · exact (h x List.mem_cons_self).paren_not_mem hparen
    · cases hparen
    · exact hrest hparen

theorem trim_parens (x : List Char) : trim ('(' :: (x ++ [')'])) = '(' :: (x ++ [')']) := by
  have hstart : trimStart ('(' :: (x ++ [')'])) = '(' :: (x ++ [')']) :=
    List.dropWhile_cons_of_neg (by decide)
  have hstop : trimStart (')' :: (x.reverse ++ ['('])) = ')' :: (x.reverse ++ ['(']) :=
    List.dropWhile_cons_of_neg (by decide)
  rw [trim, hstart, List.reverse_cons, List.reverse_append, List.reverse_singleton,
    List.singleton_append, List.cons_append, hstop]
  simp

theorem takeWhile_paren {x : List Char} (h : ')' ∉ x) : (x ++ [')']).takeWhile (· != ')') = x := by
  have hall : ∀ c ∈ x, (c != ')') = true := by
    intro c hc
    refine bne_iff_ne.2 ?_
    rintro rfl
    exact h hc
  rw [List.takeWhile_append_of_pos hall]
  simp

/-- The parameters of a line of undivided texts are these texts, without the first one. -/
theorem signatureParameters_eq {name : String} {params : List String}
    (h : ∀ s ∈ name :: params, IsUndivided s.toList) :
    signatureParameters ("(" ++ " ".intercalate (name :: params) ++ ")") = params := by
  have hundivided : ∀ x ∈ (name :: params).map String.toList, IsUndivided x := by
    intro x hx
    obtain ⟨s, hs, rfl⟩ := List.mem_map.1 hx
    exact h s hs
  have hline : ("(" ++ " ".intercalate (name :: params) ++ ")").toList =
      '(' :: ([' '].intercalate ((name :: params).map String.toList) ++ [')']) := by
    rw [String.toList_append, String.toList_append, String.toList_intercalate]
    rfl
  rw [signatureParameters, hline, trim_parens]
  simp only
  rw [takeWhile_paren (paren_not_mem_intercalate _ hundivided), shapeParts_intercalate _ hundivided]
  simp

/-! ### Arguments -/

/-- The call shape says of every argument which of the parameters takes it: without the sign `&`,
    each takes one; with the sign, each of those before it takes one, and the one after it all
    others. -/
structure Assigns (signature : String) (params : List String) : Prop where
  each : "&" ∉ params → ∀ i, parameterAt? signature i = params[i]?
  rest : ∀ before after, params = before ++ "&" :: after → "&" ∉ before → ∀ i,
    parameterAt? signature i = if i < before.length then before[i]? else after.head?

theorem assigns_signatureParameters (signature : String) :
    Assigns signature (signatureParameters signature) where
  each hnone i := by
    have hfind : (signatureParameters signature).findIdx? (· == "&") = none :=
      List.findIdx?_eq_none_iff.2 fun s hs => beq_eq_false_iff_ne.2 fun heq => hnone (heq ▸ hs)
    rw [parameterAt?, hfind]
  rest before after hparams hbefore i := by
    have hfind : (before ++ "&" :: after).findIdx? (· == "&") = some before.length := by
      have hnone : before.findIdx? (· == "&") = none :=
        List.findIdx?_eq_none_iff.2 fun s hs => beq_eq_false_iff_ne.2 fun heq => hbefore (heq ▸ hs)
      rw [List.findIdx?_append, hnone, List.findIdx?_cons]
      simp
    rw [parameterAt?, hparams]
    simp only [hfind]
    by_cases hi : i < before.length
    · rw [if_neg (Nat.not_le.2 hi), if_pos hi, List.getElem?_append_left hi]
    · rw [if_pos (Nat.not_lt.1 hi), if_neg hi, List.getElem?_append_right (Nat.le_succ _)]
      simp [List.head?_eq_getElem?]

/-! ### Patterns -/

namespace Node

mutual

/-- Whether a node is a word, or a closed vector or map of such nodes with blanks between them. -/
def isWordPattern : Node → Bool
  | ⟨id, kind, span, children⟩ =>
    match kind with
    | .symbol | .keyword | .number => true
    | .vector | .map => (⟨id, kind, span, children⟩ : Node).isClosed && areWordPatterns children
    | _ => false

/-- The same for all nodes but blanks and delimiters. -/
def areWordPatterns : List Node → Bool
  | [] => true
  | n :: ns =>
    (n.kind == .whitespace || n.kind == .openDelim || n.kind == .closeDelim || isWordPattern n) &&
      areWordPatterns ns

end

end Node

theorem FirstLexeme.isBlank_of_mem {c : Char} {cs rest : List Char} {l : Lexeme}
    (h : FirstLexeme c cs l rest) (hblank : l.shape = .blank) : ∀ d ∈ l.text, isBlank d = true := by
  cases h with
  | blank hc =>
    intro d hd
    rcases List.mem_cons.1 hd with rfl | hd
    · exact hc
    · exact List.mem_takeWhile_imp hd
  | _ => cases hblank

namespace Tree

variable {cs : List Char} {n ps : Node} {above : List Node}

theorem isUndivided_of_isWord (hn : ⟨n, above⟩ ∈ (Tree.read cs).below)
    (hword : n.kind.isWord = true) : IsUndivided ((Tree.read cs).chars n) :=
  .word (chars_ne_nil_of_mem_below hn)
    (isTerminator_of_mem_chars (mem_nodes_of_mem_locations (mem_locations_of_below hn)) hword)

theorem isInner_of_whitespace (hn : ⟨n, above⟩ ∈ (Tree.read cs).below)
    (hblank : n.kind = .whitespace) : IsInner ((Tree.read cs).chars n) := by
  have hnode := mem_nodes_of_mem_locations (mem_locations_of_below hn)
  have hnil : n.children = [] :=
    children_eq_nil hnode (by rw [hblank]; decide) (by rw [hblank]; rfl)
  obtain ⟨before, l, after, hlex, hchars, hkind, -⟩ := exists_lexeme_of_children_eq_nil hn hnil
  obtain ⟨c, rest, hfirst⟩ := exists_firstLexeme_of_lex hlex
  have hl : l ∈ lex cs := by simp [hlex]
  rw [hblank] at hkind
  rw [hchars]
  exact .blanks (hfirst.isBlank_of_mem ((sound_of_mem_lex hl).shape_eq_blank hkind))

/-- A closed vector or map is undivided if what is in it is inner. -/
theorem isUndivided_of_children (hn : ⟨n, above⟩ ∈ (Tree.read cs).below)
    (hkind : n.kind = .vector ∨ n.kind = .map) (hclosed : n.isClosed = true)
    (hchildren : ∀ m ∈ n.children, m.kind ≠ .openDelim → m.kind ≠ .closeDelim →
      IsInner ((Tree.read cs).chars m)) : IsUndivided ((Tree.read cs).chars n) := by
  have hloc := mem_locations_of_below hn
  obtain ⟨c, d, hopener, hcloser, hc, hd⟩ : ∃ c d, n.kind.opener? = some [c] ∧
      n.kind.closer? = some d ∧ (c = '[' ∨ c = '\x7b') ∧ (d = ']' ∨ d = '\x7d') := by
    rcases hkind with hkind | hkind
    · exact ⟨'[', ']', by rw [hkind]; rfl, by rw [hkind]; rfl, .inl rfl, .inl rfl⟩
    · exact ⟨'\x7b', '\x7d', by rw [hkind]; rfl, by rw [hkind]; rfl, .inr rfl, .inr rfl⟩
  obtain ⟨o, mid, z, d', hrest, ho, hown, hz, hinner⟩ :=
    exists_delimiters (mem_nodes_of_mem_locations hloc) hopener hclosed
  obtain rfl : d' = d := Option.some.inj (hown.symm.trans hcloser)
  have hmid : IsInner (mid.flatMap (Tree.read cs).chars) := by
    refine .flatMap fun m hm => hchildren m ?_ (hinner m hm).1 (hinner m hm).2
    rw [hrest]
    exact List.mem_cons_of_mem _ (List.mem_append_left _ hm)
  have hchars : (Tree.read cs).chars n = n.children.flatMap (Tree.read cs).chars :=
    chars_eq_flatMap hloc (by rw [hrest]; exact List.cons_ne_nil _ _)
  rw [hchars, hrest, List.flatMap_cons, List.flatMap_append, ho, List.flatMap_singleton, hz]
  exact .group hmid hc hd

mutual

/-- The text of a pattern is undivided. The induction is on the node; delimiters are not among the
    parts that it says something of, as one of them alone changes the depth. -/
theorem isUndivided_chars (above : List Node) : (n : Node) → ⟨n, above⟩ ∈ (Tree.read cs).below →
    n.isWordPattern = true → IsUndivided ((Tree.read cs).chars n)
  | ⟨id, kind, span, children⟩, hn, hpattern => by
    have hcollection : kind = .vector ∨ kind = .map →
        ((⟨id, kind, span, children⟩ : Node).isClosed && Node.areWordPatterns children) = true →
        IsUndivided ((Tree.read cs).chars ⟨id, kind, span, children⟩) := by
      intro hkind hboth
      rw [Bool.and_eq_true] at hboth
      refine isUndivided_of_children hn hkind hboth.1 ?_
      exact isInner_each (⟨id, kind, span, children⟩ :: above) children
        (fun m hm => below_of_mem_children (mem_locations_of_below hn) hm) hboth.2
    cases kind with
    | symbol | keyword | number => exact isUndivided_of_isWord hn rfl
    | vector => exact hcollection (.inl rfl) hpattern
    | map => exact hcollection (.inr rfl) hpattern
    | _ => cases hpattern

/-- What is in a pattern, delimiters apart, is divided at most outside of it. -/
theorem isInner_each (above : List Node) : (ns : List Node) →
    (∀ n ∈ ns, ⟨n, above⟩ ∈ (Tree.read cs).below) → Node.areWordPatterns ns = true →
    ∀ n ∈ ns, n.kind ≠ .openDelim → n.kind ≠ .closeDelim → IsInner ((Tree.read cs).chars n)
  | [], _, _ => fun n hn => absurd hn List.not_mem_nil
  | n :: ns, hns, hpatterns => by
    rw [Node.areWordPatterns, Bool.and_eq_true] at hpatterns
    intro m hm hopen hclose
    rcases List.mem_cons.1 hm with hm | hm
    · rw [hm] at hopen hclose ⊢
      have hbelow := hns n List.mem_cons_self
      have hfirst := hpatterns.1
      simp only [beq_eq_false_iff_ne.2 hopen, beq_eq_false_iff_ne.2 hclose, Bool.or_false,
        Bool.or_eq_true, beq_iff_eq] at hfirst
      rcases hfirst with hblank | hpattern
      · exact isInner_of_whitespace hbelow hblank
      · exact (isUndivided_chars above n hbelow hpattern).isInner
    · exact isInner_each above ns (fun k hk => hns k (List.mem_cons_of_mem _ hk)) hpatterns.2 m hm
        hopen hclose

end

/-! ### Functions -/

/-- The node is a function or a macro without markers, and `ps` is its parameter vector: after the
    head, and perhaps a name, a docstring and attributes, no vector and no call stands before it. -/
structure IsFunction (t : Tree) (n ps : Node) : Prop where
  unmarked : ∀ c ∈ n.children, c.kind ≠ .formComment
  exists_head : ∃ hd, n.forms.head? = some hd ∧ hd.kind = .symbol ∧
    t.text hd ∈ ["fn", "defn", "defn-", "defmacro", "defmacro-"]
  first : n.forms.tail.find? (fun m => m.kind == .vector || m.kind.isCall) = some ps
  isVector : ps.kind = .vector

theorem IsFunction.parameters?_eq {t : Tree} (h : t.IsFunction n ps) :
    t.parameters? n = some ps := by
  obtain ⟨hd, hhd, hsymbol, hname⟩ := h.exists_head
  obtain ⟨-, before, after, htail, hbefore⟩ := List.find?_eq_some_iff_append.1 h.first
  obtain ⟨rest, hrest⟩ := List.head?_eq_some_iff.1 hhd
  have hforms : n.activeForms = hd :: (before ++ ps :: after) := by
    rw [Node.activeForms_eq_forms h.unmarked, ← htail, hrest, List.tail_cons]
  have hvector : n.parameterVector? = some ps := by
    refine Node.parameterVector?_eq hforms h.isVector fun m hm => ?_
    simpa using hbefore m hm
  obtain ⟨hd', hhead, slot, hslot⟩ : ∃ hd', t.head? n = some hd' ∧
      ∃ slot, hd'.parameterSlot? = some slot := by
    rw [head?, hforms]
    simp only [List.head?_cons, hsymbol, if_true]
    simp only [List.mem_cons, List.not_mem_nil, or_false] at hname
    rcases hname with hname | hname | hname | hname | hname <;> rw [hname]
    · exact ⟨.lambda, by decide, 1, rfl⟩
    · exact ⟨.fnDef, by decide, 2, rfl⟩
    · exact ⟨.fnDefPrivate, by decide, 2, rfl⟩
    · exact ⟨.macroDef, by decide, 2, rfl⟩
    · exact ⟨.macroDefPrivate, by decide, 2, rfl⟩
  rw [parameters?, hhead, Option.bind_some, hslot, Option.bind_some, hvector]

theorem IsFunction.mem_nodes {t : Tree} (h : t.IsFunction n ps) (hn : n ∈ t.nodes) :
    ps ∈ t.nodes :=
  have hforms : ps ∈ n.forms := List.mem_of_mem_tail (List.mem_of_find?_eq_some h.first)
  mem_nodes_of_mem_children hn (List.mem_filter.1 hforms).1

/-- Every form in a node has its place in the tree. -/
theorem exists_below_of_mem_forms {t : Tree} {p : Node} (hn : n ∈ t.nodes) (hp : p ∈ n.forms) :
    ∃ above, ⟨p, above⟩ ∈ t.below := by
  obtain ⟨l, hl, rfl⟩ := exists_location_of_mem_nodes hn
  exact ⟨_, below_of_mem_children hl (List.mem_filter.1 hp).1⟩

/-- The call shape of a function says of every argument which parameter takes it, by the texts of
    the parameters. -/
theorem assigns_callSignature? {name : String} (hn : n ∈ (Tree.read cs).nodes)
    (hfunction : (Tree.read cs).IsFunction n ps)
    (hpatterns : ∀ p ∈ ps.forms, p.isWordPattern = true) (hname : IsSymbol name.toList) :
    ∃ signature, (Tree.read cs).callSignature? n name = some signature ∧
      Assigns signature (ps.forms.map (Tree.read cs).text) := by
  have hundivided : ∀ s ∈ name :: ps.forms.map (Tree.read cs).text, IsUndivided s.toList := by
    intro s hs
    rcases List.mem_cons.1 hs with rfl | hs
    · exact hname.isUndivided
    · obtain ⟨p, hp, rfl⟩ := List.mem_map.1 hs
      obtain ⟨above, hbelow⟩ := exists_below_of_mem_forms (hfunction.mem_nodes hn) hp
      rw [text, String.toList_ofList]
      exact isUndivided_chars above p hbelow (hpatterns p hp)
  refine ⟨_, by rw [callSignature?_eq, hfunction.parameters?_eq]; rfl, ?_⟩
  have hparams := signatureParameters_eq hundivided
  have hassigns := assigns_signatureParameters ((Tree.read cs).callShape name ps.forms)
  rwa [callShape, hparams] at hassigns

/-- A map and a vector, over two lines and after a docstring. -/
theorem assigns_callSignature?_nested :
    let t := Tree.read "(defmacro- f \"doc\" [a  \x7b:keys [b\n c]\x7d & [x :y]] a)".toList
    ∃ n ps signature, n ∈ t.nodes ∧ t.IsFunction n ps ∧
      (∀ p ∈ ps.forms, p.isWordPattern = true) ∧ IsSymbol "g".toList ∧
      t.callSignature? n "g" = some signature ∧ parameterAt? signature 0 = some "a" ∧
      parameterAt? signature 1 = some "\x7b:keys [b\n c]\x7d" ∧
      ∀ i, 2 ≤ i → parameterAt? signature i = some "[x :y]" := by
  intro t
  have htest : (t.nodes.any fun n => n.children.all (·.kind != .formComment) &&
      n.forms.head?.any (fun hd => hd.kind == .symbol && t.text hd == "defmacro-") &&
      (n.forms.tail.find? fun m => m.kind == .vector || m.kind.isCall).any fun ps =>
        ps.kind == .vector && ps.forms.all (·.isWordPattern) &&
          ps.forms.map t.text == ["a", "\x7b:keys [b\n c]\x7d", "&", "[x :y]"]) = true := by
    decide +kernel
  have hname : IsSymbol "g".toList := by decide +kernel
  obtain ⟨n, hn, htest⟩ := List.any_eq_true.1 htest
  simp only [Bool.and_eq_true, List.all_eq_true, bne_iff_ne, Option.any_eq_true, beq_iff_eq]
    at htest
  obtain ⟨⟨hunmarked, hd, hhd, hsymbol, htext⟩, ps, hfirst, ⟨hvector, hpatterns⟩, hparams⟩ := htest
  have hfunction : t.IsFunction n ps :=
    ⟨hunmarked, ⟨hd, hhd, hsymbol, by simp [htext]⟩, hfirst, hvector⟩
  obtain ⟨signature, hsignature, hassigns⟩ := assigns_callSignature? hn hfunction hpatterns hname
  have hrest := hassigns.rest ["a", "\x7b:keys [b\n c]\x7d"] ["[x :y]"] hparams (by decide)
  refine ⟨n, ps, signature, hn, hfunction, hpatterns, hname, hsignature, hrest 0, hrest 1, ?_⟩
  exact fun i hi => (hrest i).trans (if_neg (Nat.not_lt.2 hi))

end Tree

end Typeahead
