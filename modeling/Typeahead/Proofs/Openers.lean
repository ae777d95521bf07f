import Typeahead.Proofs.Boundary
import Typeahead.Proofs.Leaves

/-!
# Collections begin with their delimiters

The first child of a collection is the delimiter that opens it, and the text of the
delimiter tells the kind of the collection (`Kind.opener?`). There are no other opening
delimiters.

* `firstLexeme_nextLexeme`: what a lexeme can be, by its first character;
* `Builder.Opened.place`: placing a lexeme keeps this of open and of finished nodes;
* `Tree.begins_read`: it holds of all nodes of the tree of a text.
-/

namespace Typeahead

/-- The delimiter that opens a collection of this kind. -/
def Kind.opener? : Kind → Option (List Char)
  | .list => some ['(']
  | .vector => some ['[']
  | .map => some ['{']
  | .set => some ['#', '{']
  | .shortFn => some ['|', '(']
  | _ => none

/-- What the first lexeme of the text `c :: cs` can be, and the text after it. -/
inductive FirstLexeme (c : Char) (cs : List Char) : Lexeme → List Char → Prop
  | blank (hc : isBlank c = true) :
    FirstLexeme c cs ⟨.blank, c :: cs.takeWhile isBlank⟩ (cs.dropWhile isBlank)
  | lineComment (hc : c = ';' ∨ c = '#') :
    FirstLexeme c cs ⟨.comment, c :: cs.takeWhile (· != '\n')⟩ (cs.dropWhile (· != '\n'))
  | blockComment {rest : List Char} (hc : c = '#') (hcs : cs = '|' :: rest) :
    FirstLexeme c cs ⟨.comment, c :: '|' :: (commentRest rest).1⟩ (commentRest rest).2
  | marker (hc : c = '#') {rest : List Char} (hcs : cs = '_' :: rest) :
    FirstLexeme c cs ⟨.marker, [c, '_']⟩ rest
  | opener {kind : Kind} {text rest : List Char} (hopener : kind.opener? = some (c :: text))
      (hcs : cs = text ++ rest) : FirstLexeme c cs ⟨.opener kind, c :: text⟩ rest
  | closer (hc : isCloser c = true) : FirstLexeme c cs ⟨.closer c, [c]⟩ cs
  | sigil (hc : isSigil c = true ∨ c = ',') {text rest : List Char}
      (htext : text = [] ∨ text = ['@']) (hcs : cs = text ++ rest) :
    FirstLexeme c cs ⟨.sigil, c :: text⟩ rest
  | string (hc : c = '"') :
    FirstLexeme c cs ⟨.atom .string, c :: (stringRest cs).1⟩ (stringRest cs).2
  | word (hc : isTerminator c = false) :
    FirstLexeme c cs (Lexeme.atom c cs).1 (Lexeme.atom c cs).2

theorem opener?_of_openerKind? {c : Char} {kind : Kind} (h : openerKind? c = some kind) :
    kind.opener? = some [c] := by
  rw [openerKind?] at h
  split at h
  · next hc => cases h; rw [hc]; rfl
  split at h
  · next hc => cases h; rw [hc]; rfl
  split at h
  · next hc => cases h; rw [hc]; rfl
  · cases h

theorem firstLexeme_nextLexeme (c : Char) (cs : List Char) :
    FirstLexeme c cs (nextLexeme c cs).1 (nextLexeme c cs).2 := by
  have hset : Kind.set.opener? = some ['#', '{'] := rfl
  have hshort : Kind.shortFn.opener? = some ['|', '('] := rfl
  rw [nextLexeme]
  split
  · next hc => exact .blank hc
  next hblank =>
  split
  · next hc => exact .lineComment (.inl hc)
  next hsemicolon =>
  split
  · next hc =>
    subst hc
    rw [Lexeme.afterNumberSign.eq_def]
    split
    · exact .marker rfl rfl
    · exact .opener hset rfl
    · exact .blockComment rfl rfl
    · exact .lineComment (.inr rfl)
  split
  · next hc =>
    subst hc
    rw [Lexeme.afterBar.eq_def]
    split
    · exact .opener hshort rfl
    · exact .word (by decide)
  split
  · next hc =>
    subst hc
    rw [Lexeme.afterComma.eq_def]
    split
    · exact .sigil (.inr rfl) (.inr rfl) rfl
    · exact .sigil (.inr rfl) (.inl rfl) rfl
  next hcomma =>
  split
  · next hc => exact .string hc
  next hquote =>
  split
  · next hc => exact .closer hc
  next hcloser =>
  split
  · next hc => exact .sigil (.inl hc) (.inl rfl) rfl
  split
  · next hk => exact .opener (opener?_of_openerKind? hk) rfl
  · next hk =>
    exact .word (isTerminator_of_openerKind?_eq_none hk hblank hsemicolon hcomma hquote hcloser)

/-- Every lexeme of a text is the first one of the text from there on. -/
theorem exists_firstLexeme_of_lex {cs : List Char} {before after : List Lexeme} {l : Lexeme}
    (h : lex cs = before ++ l :: after) :
    ∃ c rest, FirstLexeme c rest l (after.flatMap (·.text)) := by
  obtain ⟨c, rest, hnext⟩ := exists_nextLexeme_of_lex h
  have hfirst := firstLexeme_nextLexeme c rest
  rw [hnext] at hfirst
  exact ⟨c, rest, hfirst⟩

/-- If the lexeme opens a collection, it is the delimiter for that. -/
def Lexeme.Opens (l : Lexeme) : Prop :=
  ∀ kind, l.shape = .opener kind → kind.opener? = some l.text

theorem FirstLexeme.opens {c : Char} {cs rest : List Char} {l : Lexeme}
    (h : FirstLexeme c cs l rest) : l.Opens := by
  cases h with
  | opener hopener _ =>
    rintro kind ⟨⟩
    exact hopener
  | _ => rintro kind ⟨⟩

theorem opens_of_mem_lex {cs : List Char} {l : Lexeme} (h : l ∈ lex cs) : l.Opens := by
  obtain ⟨before, after, hlex⟩ := List.append_of_mem h
  obtain ⟨c, rest, hfirst⟩ := exists_firstLexeme_of_lex hlex
  exact hfirst.opens

/-! ### The first child -/

/-- The nodes `ns` are the children of a node of the kind `kind`: those of a collection
    begin with its delimiter, and no other is an opening delimiter. -/
def Begins (src : List Char) (kind : Kind) (ns : List Node) : Prop :=
  match kind.opener? with
  | some text => ∃ o rest, ns = o :: rest ∧ o.kind = .openDelim ∧
      slice src o.span.start o.span.stop = text ∧ ∀ c ∈ rest, c.kind ≠ .openDelim
  | none => ∀ c ∈ ns, c.kind ≠ .openDelim

theorem Begins.of_none {src : List Char} {kind : Kind} (h : kind.opener? = none) :
    Begins src kind [] := by
  rw [Begins, h]
  exact fun _ hc => absurd hc List.not_mem_nil

theorem Begins.of_some {src text : List Char} {kind : Kind} {o : Node}
    (h : kind.opener? = some text) (ho : o.kind = .openDelim)
    (htext : slice src o.span.start o.span.stop = text) : Begins src kind [o] := by
  rw [Begins, h]
  exact ⟨o, [], rfl, ho, htext, fun _ hc => absurd hc List.not_mem_nil⟩

theorem Begins.concat {src : List Char} {kind : Kind} {ns : List Node} {n : Node}
    (h : Begins src kind ns) (hn : n.kind ≠ .openDelim) : Begins src kind (ns ++ [n]) := by
  have hmem : ∀ {ms : List Node}, (∀ c ∈ ms, c.kind ≠ .openDelim) →
      ∀ c ∈ ms ++ [n], c.kind ≠ .openDelim := by
    intro ms hms c hc
    rcases List.mem_append.1 hc with hc | hc
    · exact hms c hc
    · rwa [List.mem_singleton.1 hc]
  rw [Begins] at h ⊢
  split at h
  · obtain ⟨o, rest, rfl, ho, htext, hrest⟩ := h
    exact ⟨o, rest ++ [n], rfl, ho, htext, hmem hrest⟩
  · exact hmem h

namespace Builder

/-- Open and finished nodes begin as they should. -/
structure Opened (src : List Char) (b : Builder) : Prop where
  frames : ∀ f ∈ b.frames, f.kind ≠ .openDelim ∧ Begins src f.kind f.children.reverse
  finished : Finished (fun n => Begins src n.kind n.children) b

namespace Opened

variable {src : List Char} {b b' : Builder} {start stop : Nat} {l : Lexeme}

/-- One more child, which opens nothing, leaves the frames as they were. -/
theorem frames_add {f : Frame} {fs : List Frame} {n : Node} (hn : n.kind ≠ .openDelim)
    (h : ∀ g ∈ f :: fs, g.kind ≠ .openDelim ∧ Begins src g.kind g.children.reverse) :
    ∀ g ∈ f.add n :: fs, g.kind ≠ .openDelim ∧ Begins src g.kind g.children.reverse := by
  intro g hg
  rcases List.mem_cons.1 hg with rfl | hg
  · obtain ⟨hkind, hbegins⟩ := h f List.mem_cons_self
    refine ⟨hkind, ?_⟩
    rw [Frame.add, List.reverse_cons]
    exact hbegins.concat hn
  · exact h g (List.mem_cons_of_mem _ hg)

theorem token (h : Opened src b) {kind : Kind} (hkind : kind ≠ .openDelim)
    (hopener : kind.opener? = none) (span : Span) : Opened src (b.token kind span) where
  frames := frames_add hkind h.frames
  finished := h.finished.token (.of_none hopener)

theorem finish (h : Opened src b) (stop : Nat) : Opened src (b.finish stop) := by
  obtain ⟨hkind, hbegins⟩ := h.frames b.top List.mem_cons_self
  refine ⟨?_, h.finished.finish hbegins⟩
  rw [Builder.finish]
  split
  · exact h.frames
  · next f fs hbelow =>
    refine frames_add hkind fun g hg => h.frames g ?_
    rw [Builder.frames, hbelow]
    exact List.mem_cons_of_mem _ hg

theorem closing {p : Kind → Prop} (h : Opened src b) (hc : Closing stop p b b') : Opened src b' :=
  hc.keeps (fun _ _ _ hb => hb.finish stop) h

theorem startQuoted (h : Opened src b) (start : Nat) : Opened src (b.start .quoted start) where
  frames f hf := by
    rcases List.mem_cons.1 hf with rfl | hf
    · exact ⟨show Kind.quoted ≠ .openDelim by decide, .of_none rfl⟩
    · exact h.frames f hf
  finished := h.finished.start .quoted start

/-- A collection is opened by its delimiter. -/
theorem startCollection (h : Opened src b) {kind : Kind} {text : List Char}
    (hopener : kind.opener? = some text) (hsrc : StandsAt src start text) :
    Opened src ((b.start kind start).token .openDelim ⟨start, start + byteLength text⟩) where
  frames f hf := by
    rcases List.mem_cons.1 hf with rfl | hf
    · refine ⟨?_, .of_some hopener rfl hsrc.slice_eq⟩
      rintro rfl
      cases hopener
    · exact h.frames f hf
  finished := (h.finished.start kind start).token (.of_none rfl)

theorem place (h : Opened src b) (hl : l.Sound) (hopens : l.Opens)
    (hsrc : StandsAt src start l.text) : Opened src (b.place start l) := by
  rw [Builder.place.eq_def]
  split
  · exact h.token (by decide) rfl _
  · exact h.token (by decide) rfl _
  · exact h.token (by decide) rfl _
  · next kind hk => exact h.startCollection (hopens kind hk) hsrc
  · exact (h.startQuoted start).token (by decide) rfl _
  · next kind hk =>
    have hatom := hl.atom kind hk
    refine closing (h.token ?_ ?_ _) (closing_settle _ _)
    · rintro rfl
      cases hatom
    · cases kind <;> first | rfl | cases hatom
  · next d hk =>
    split
    · have hdelim : Kind.closeDelim ≠ .openDelim := by decide
      have hclosed := (h.closing (closing_unwindTo b d start)).token hdelim rfl
        ⟨start, start + byteLength l.text⟩
      exact closing (hclosed.finish _) (closing_settle _ _)
    · exact h.token (by decide) rfl _

theorem placeAll (h : Opened src b) {ls : List Lexeme} (hls : ∀ l ∈ ls, l.Sound ∧ l.Opens)
    (hsrc : StandsAt src start (ls.flatMap (·.text))) : Opened src (b.placeAll start ls) := by
  induction ls generalizing b start with
  | nil => exact h
  | cons l ls ih =>
    rw [List.flatMap_cons] at hsrc
    obtain ⟨hhere, hrest⟩ := hsrc.append
    obtain ⟨hl, hopens⟩ := hls l List.mem_cons_self
    exact ih (h.place hl hopens hhere) (fun l h => hls l (List.mem_cons_of_mem _ h)) hrest

end Opened

theorem opened_reading (cs : List Char) : Opened cs (reading cs) := by
  have hnew : Opened cs (new cs) := by
    refine ⟨fun f hf => ?_, fun f hf m hm => ?_⟩
    · rw [List.mem_singleton.1 hf]
      exact ⟨show Kind.root ≠ .openDelim by decide, .of_none rfl⟩
    · rw [List.mem_singleton.1 hf] at hm
      exact absurd hm List.not_mem_nil
  refine hnew.placeAll (fun l hl => ⟨sound_of_mem_lex hl, opens_of_mem_lex hl⟩) ?_
  rw [flatMap_text_lex]
  exact standsAt_self cs

end Builder

/-- In the tree of a text, collections begin with their delimiters. -/
theorem Tree.begins_read (cs : List Char) :
    ∀ n ∈ (Tree.read cs).nodes, Begins cs n.kind n.children := by
  have hopened := Builder.opened_reading cs
  obtain ⟨b', hclosing, -, htree⟩ := Builder.exists_closing_toTree (Builder.reading cs)
  have h := hopened.closing hclosing
  have hread : Tree.read cs = (Builder.reading cs).toTree := rfl
  rw [hread, htree]
  exact h.finished.close (h.frames b'.top List.mem_cons_self).2

end Typeahead
