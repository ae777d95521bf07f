import Typeahead.Proofs.Columns

/-!
# Positions and offsets

An editor gives the place of the cursor as a position, a line and a column in it, while the text is
cut at byte offsets. This module says when the two ways of giving a place agree.

Everything follows from what a line can be (`LineShape`). The last one is text throughout. The
others end in a break; a line feed, a carriage return or both do not count to the text of the line,
while the other breaks do, so that a column can be past them.

* `lineShape_of_lines_eq`: the lines of a text have these shapes;
* `Position.ofOffset?_of_lines_eq`, `Position.toOffset?_of_lines_eq`: both conversions, given the
  lines before and after a place;
* `Position.toOffset?_ofOffset?`: from an offset to its position and back;
* `Position.resolves_iff`: which positions stand for a place on their own line.
-/

namespace Typeahead

/-! ### Lines -/

/-- A line without whatever ends it. -/
def lineBody (l : List Char) : List Char := l.takeWhile fun c => !isLineBreak c

theorem lineBody_cons {c : Char} (hc : isLineBreak c = false) (l : List Char) :
    lineBody (c :: l) = c :: lineBody l := by
  rw [lineBody, List.takeWhile_cons_of_pos (by rw [hc]; rfl), ← lineBody]

theorem lineText_cons {c : Char} (hc : isLineBreak c = false) (l : List Char) :
    lineText (c :: l) = c :: lineText l := by
  have hkept : ¬(c == '\n' || c == '\r') = true := by
    rw [Bool.or_eq_true, beq_iff_eq, beq_iff_eq]
    rintro (rfl | rfl) <;> exact absurd hc (by decide)
  rw [lineText, List.reverse_cons, List.dropWhile_append,
    List.dropWhile_cons_of_neg (p := fun c => c == '\n' || c == '\r') hkept, lineText]
  split
  · next h => rw [List.isEmpty_iff.1 h, List.reverse_singleton, List.reverse_nil]
  · rw [List.reverse_append, List.reverse_singleton, List.singleton_append]

/-- The ends of a line that do not belong to its text. -/
inductive IsNewline : List Char → Prop
  | feed : IsNewline ['\n']
  | carriage : IsNewline ['\r']
  | both : IsNewline ['\r', '\n']

/-- What a line is that the lines `after` follow. The last line of a text has no end. The others end
    in a line feed, a carriage return or both, which do not belong to the text of the line, or in
    another break, which does. -/
inductive LineShape (l : List Char) (after : List (List Char)) : Prop
  | last (hafter : after = []) (hbody : lineBody l = l) (htext : lineText l = l)
  | newline {stop : List Char} (hafter : after ≠ []) (hstop : IsNewline stop)
      (hl : lineBody l ++ stop = l) (htext : lineText l = lineBody l)
  | other {c : Char} (hafter : after ≠ []) (hbreak : isLineBreak c = true) (hfeed : c ≠ '\n')
      (hreturn : c ≠ '\r') (hl : lineBody l ++ [c] = l) (htext : lineText l = l)

theorem IsNewline.ne_nil {stop : List Char} (h : IsNewline stop) : stop ≠ [] := by
  cases h <;> simp

namespace LineShape

variable {l : List Char} {after : List (List Char)}

theorem ne_nil (h : LineShape l after) (hafter : after ≠ []) : l ≠ [] := by
  cases h with
  | last hlast => exact absurd hlast hafter
  | newline _ hstop hl =>
    rw [← hl]
    exact List.append_ne_nil_of_right_ne_nil _ hstop.ne_nil
  | other _ _ _ _ hl =>
    rw [← hl]
    exact List.append_ne_nil_of_right_ne_nil _ (List.cons_ne_nil _ _)

theorem cons (h : LineShape l after) {c : Char} (hc : isLineBreak c = false) :
    LineShape (c :: l) after := by
  cases h with
  | last hafter hbody htext =>
    exact .last hafter (by rw [lineBody_cons hc, hbody]) (by rw [lineText_cons hc, htext])
  | newline hafter hstop hl htext =>
    exact .newline hafter hstop (by rw [lineBody_cons hc, List.cons_append, hl])
      (by rw [lineText_cons hc, htext, lineBody_cons hc])
  | other hafter hbreak hfeed hreturn hl htext =>
    exact .other hafter hbreak hfeed hreturn (by rw [lineBody_cons hc, List.cons_append, hl])
      (by rw [lineText_cons hc, htext])

theorem single {c : Char} (hc : isLineBreak c = true) (hafter : after ≠ []) :
    LineShape [c] after := by
  have hbody : lineBody [c] = [] := List.takeWhile_cons_of_neg (by rw [hc]; decide)
  by_cases hfeed : c = '\n'
  · subst hfeed
    exact .newline hafter .feed (by rw [hbody]; rfl) (by rw [hbody]; rfl)
  · by_cases hreturn : c = '\r'
    · subst hreturn
      exact .newline hafter .carriage (by rw [hbody]; rfl) (by rw [hbody]; rfl)
    · refine .other hafter hc hfeed hreturn (by rw [hbody]; rfl) ?_
      exact congrArg List.reverse (List.dropWhile_cons_of_neg (by simp [hfeed, hreturn]))

end LineShape

theorem lines_ne_nil (cs : List Char) : lines cs ≠ [] := by
  fun_cases lines cs <;> simp

/-- The lines of a text have breaks at their ends only, and only the last one has no end. -/
theorem lineShape_of_lines_eq {cs : List Char} {before : List (List Char)} {l : List Char}
    {after : List (List Char)} (h : lines cs = before ++ l :: after) : LineShape l after := by
  revert before l after
  fun_induction lines cs with
  | case1 =>
    intro before l after h
    obtain ⟨rfl, rfl⟩ : l = [] ∧ after = [] := by
      cases before with
      | nil => exact ⟨(List.cons.inj h).1.symm, (List.cons.inj h).2.symm⟩
      | cons m before => exact absurd (List.cons.inj h).2 (by simp)
    exact .last rfl rfl rfl
  | case2 cs ih =>
    intro before l after h
    cases before with
    | nil =>
      obtain ⟨rfl, rfl⟩ := List.cons.inj h
      exact .newline (lines_ne_nil cs) .both rfl rfl
    | cons m before => exact ih (List.cons.inj h).2
  | case3 c cs _ hc ih =>
    intro before l after h
    cases before with
    | nil =>
      obtain ⟨rfl, rfl⟩ := List.cons.inj h
      exact .single hc (lines_ne_nil cs)
    | cons m before => exact ih (List.cons.inj h).2
  | case4 c cs _ _ hnil => exact absurd hnil (lines_ne_nil cs)
  | case5 c cs _ hc m ls hcs ih =>
    intro before l after h
    cases before with
    | nil =>
      obtain ⟨rfl, rfl⟩ := List.cons.inj h
      exact (ih (show lines cs = [] ++ m :: ls from hcs)).cons (Bool.eq_false_iff.2 hc)
    | cons k before =>
      obtain ⟨-, rfl⟩ := List.cons.inj h
      exact ih (show lines cs = (m :: before) ++ l :: after from hcs)

/-! ### Places on lines -/

/-- A place in a text that consists of lines is on one of them: before its end, or at the end of the
    last one. -/
theorem exists_eq_append_of_flatten_eq {ls : List (List Char)} (hls : ls ≠ []) {pre post : List Char}
    (h : ls.flatten = pre ++ post) :
    ∃ before s t after, ls = before ++ (s ++ t) :: after ∧ pre = before.flatten ++ s ∧
      post = t ++ after.flatten ∧ (t = [] → after = []) := by
  induction ls generalizing pre with
  | nil => exact absurd rfl hls
  | cons l ls ih =>
    cases ls with
    | nil => exact ⟨[], pre, post, [], by simpa using h, rfl, by simp, fun _ => rfl⟩
    | cons m ls =>
      rw [List.flatten_cons] at h
      rcases List.append_eq_append_iff.1 h with ⟨u, rfl, hrest⟩ | ⟨t, rfl, rfl⟩
      · obtain ⟨before, s, t, after, hls, rfl, hpost, ht⟩ := ih (by simp) hrest
        exact ⟨l :: before, s, t, after, by rw [hls]; rfl, by simp, hpost, ht⟩
      · by_cases ht : t = []
        · -- the end of the first line is the start of the second
          subst ht
          have hrest : (m :: ls).flatten = [] ++ (m :: ls).flatten := rfl
          obtain ⟨before, s, t, after, hls, hpre, hpost, ht⟩ := ih (by simp) hrest
          exact ⟨pre :: before, s, t, after, by rw [hls, List.append_nil]; rfl,
            by rw [List.flatten_cons, List.append_assoc, ← hpre, List.append_nil], hpost, ht⟩
        · exact ⟨[], pre, t, m :: ls, rfl, rfl, rfl, fun h => absurd h ht⟩

theorem positionInLines_append (line : Nat) (before : List (List Char)) (s t : List Char)
    (after : List (List Char)) (ht : t = [] → after = []) :
    positionInLines line (byteLength (before.flatten ++ s)) (before ++ (s ++ t) :: after) =
      some ⟨line + before.length, unitLength s⟩ := by
  induction before generalizing line with
  | nil =>
    have htaken := takeWeight_total byteLength_nil byteLength_cons Char.utf8Size_pos s t
    have hlength := byteLength_append s t
    cases after with
    | nil =>
      rw [List.nil_append, List.flatten_nil, List.nil_append, positionInLines, if_pos (by omega), htaken]
      rfl
    | cons m after =>
      have hpos : 0 < byteLength t := byteLength_pos fun h => absurd (ht h) (by simp)
      rw [List.nil_append, List.flatten_nil, List.nil_append, positionInLines, if_pos (by omega), htaken]
      · rfl
      · simp
  | cons m before ih =>
    rw [List.cons_append, positionInLines, List.flatten_cons, List.append_assoc,
      byteLength_append m, if_neg (by omega), Nat.add_sub_cancel_left, ih, List.length_cons,
      Nat.add_assoc, Nat.add_comm 1]
    simp

namespace Position

variable {cs s t l : List Char} {before after : List (List Char)}

theorem ofOffset?_of_lines_eq (h : lines cs = before ++ (s ++ t) :: after)
    (ht : t = [] → after = []) :
    ofOffset? (byteLength (before.flatten ++ s)) cs = some ⟨before.length, unitLength s⟩ := by
  rw [ofOffset?, h, positionInLines_append 0 before s t after ht, Nat.zero_add]

theorem toOffset?_of_lines_eq (h : lines cs = before ++ l :: after) (character : Nat) :
    toOffset? ⟨before.length, character⟩ cs =
      some (byteLength (before.flatten ++ takeWeight unitCount character (lineText l))) := by
  rw [toOffset?, h, offsetInLines_append]

end Position

/-! ### From offsets to positions and back -/

/-- Whether an offset is between a carriage return and a line feed. -/
def isInsideNewline (cs : List Char) (offset : Nat) : Bool :=
  match splitAtByte? offset cs with
  | some (s, t) => s.getLast? == some '\r' && t.head? == some '\n'
  | none => false

/-- A place inside an end is between its two characters. -/
theorem IsNewline.eq_nil_or {u t : List Char} (h : IsNewline (u ++ t)) (ht : t ≠ []) :
    u = [] ∨ (u = ['\r'] ∧ t = ['\n']) := by
  generalize hstop : u ++ t = stop at h
  cases u with
  | nil => exact .inl rfl
  | cons c u =>
    cases h with
    | feed => exact absurd (List.append_eq_nil_iff.1 (List.cons.inj hstop).2).2 ht
    | carriage => exact absurd (List.append_eq_nil_iff.1 (List.cons.inj hstop).2).2 ht
    | both =>
      obtain ⟨rfl, hrest⟩ := List.cons.inj hstop
      cases u with
      | nil => exact .inr ⟨rfl, hrest⟩
      | cons d u => exact absurd (List.append_eq_nil_iff.1 (List.cons.inj hrest).2).2 ht

/-- What stands before a place on a line belongs to the text of the line, unless the place is inside
    the end of the line. -/
theorem LineShape.isPrefix_lineText {s t : List Char} {after : List (List Char)}
    (h : LineShape (s ++ t) after) (ht : t = [] → after = [])
    (hinside : ¬(s.getLast? = some '\r' ∧ t.head? = some '\n')) : s <+: lineText (s ++ t) := by
  cases h with
  | last _ _ htext =>
    rw [htext]
    exact List.prefix_append s t
  | other _ _ _ _ _ htext =>
    rw [htext]
    exact List.prefix_append s t
  | newline hafter hstop hl htext =>
    rw [htext]
    rcases List.append_eq_append_iff.1 hl with ⟨u, hs, rfl⟩ | ⟨u, hbody, -⟩
    · rcases hstop.eq_nil_or (mt ht hafter) with rfl | ⟨rfl, rfl⟩
      · rw [List.append_nil] at hs
        exact ⟨[], by rw [List.append_nil, ← hs]⟩
      · exact absurd ⟨by rw [hs]; simp, rfl⟩ hinside
    · exact ⟨u, hbody.symm⟩

/-- A text has at least as many bytes before a place as there are lines and, on its own line, units
    before it. -/
theorem length_add_unitLength_le {cs s l : List Char} {before after : List (List Char)}
    (h : lines cs = before ++ l :: after) :
    before.length + unitLength s ≤ byteLength (before.flatten ++ s) := by
  have hlines : ∀ m ∈ before, 0 < byteLength m := by
    intro m hm
    obtain ⟨u, v, rfl⟩ := List.append_of_mem hm
    rw [List.append_assoc, List.cons_append] at h
    exact byteLength_pos ((lineShape_of_lines_eq h).ne_nil (by simp))
  clear h
  induction before with
  | nil => exact (Nat.zero_add (unitLength s)).symm ▸ unitLength_le_byteLength s
  | cons m before ih =>
    have hm := hlines m List.mem_cons_self
    have hrest := ih fun k hk => hlines k (List.mem_cons_of_mem _ hk)
    rw [List.length_cons, List.flatten_cons, List.append_assoc, byteLength_append m]
    omega

/-- An offset on a character boundary is that of its own position, unless it is inside the end of a
    line. The numbers of the position are not larger than the offset, even together. -/
theorem Position.toOffset?_ofOffset? {cs : List Char} {offset : Nat}
    (hboundary : isBoundary cs offset = true) (hinside : isInsideNewline cs offset = false) :
    ∃ p, Position.ofOffset? offset cs = some p ∧ p.toOffset? cs = some offset ∧
      p.line + p.character ≤ offset := by
  rw [isBoundary] at hboundary
  obtain ⟨⟨pre, post⟩, hsplit⟩ := Option.isSome_iff_exists.1 hboundary
  rw [isInsideNewline, hsplit] at hinside
  obtain ⟨hcs, rfl⟩ := append_of_splitAtByte? hsplit
  obtain ⟨before, s, t, after, hlines, rfl, rfl, ht⟩ :=
    exists_eq_append_of_flatten_eq (lines_ne_nil cs) ((flatten_lines cs).trans hcs.symm)
  refine ⟨_, ofOffset?_of_lines_eq hlines ht, ?_, length_add_unitLength_le hlines⟩
  have hprefix : s <+: lineText (s ++ t) := by
    refine (lineShape_of_lines_eq hlines).isPrefix_lineText ht ?_
    rintro ⟨hs, ht⟩
    simp [hs, ht] at hinside
  obtain ⟨rest, hrest⟩ := hprefix
  rw [toOffset?_of_lines_eq hlines, ← hrest,
    takeWeight_total unitLength_nil unitLength_cons unitCount_pos]

/-- An offset after a character of two units and before the end of the line, and one after a line
    separator. -/
theorem Position.toOffset?_ofOffset?_separator :
    (isBoundary "a😀\r\nb\u2028c".toList 5 = true ∧
      isInsideNewline "a😀\r\nb\u2028c".toList 5 = false ∧
      ∃ p, Position.ofOffset? 5 "a😀\r\nb\u2028c".toList = some p ∧
        p.toOffset? "a😀\r\nb\u2028c".toList = some 5 ∧ p.line + p.character ≤ 5) ∧
    (isBoundary "a😀\r\nb\u2028c".toList 11 = true ∧
      isInsideNewline "a😀\r\nb\u2028c".toList 11 = false ∧
      ∃ p, Position.ofOffset? 11 "a😀\r\nb\u2028c".toList = some p ∧
        p.toOffset? "a😀\r\nb\u2028c".toList = some 11 ∧ p.line + p.character ≤ 11) :=
  ⟨⟨by decide, by decide, toOffset?_ofOffset? (by decide) (by decide)⟩,
    ⟨by decide, by decide, toOffset?_ofOffset? (by decide) (by decide)⟩⟩

/-! ### From positions to offsets and back -/

/-- The byte offset at which the line with a given number starts. -/
def lineStart (cs : List Char) (line : Nat) : Nat := byteLength ((lines cs).take line).flatten

namespace Position

/-- The position stands for a place on its own line, up to the end of the line and not after its
    column, or for none if the text has no such line. -/
def Resolves (p : Position) (cs : List Char) : Prop :=
  match (lines cs)[p.line]? with
  | none => p.toOffset? cs = none
  | some l => ∃ offset q, p.toOffset? cs = some offset ∧ lineStart cs p.line ≤ offset ∧
      offset ≤ lineStart cs p.line + byteLength (lineBody l) ∧
      ofOffset? offset cs = some q ∧ q.line = p.line ∧ q.character ≤ p.character

/-- The column is past a line that ends in a break other than a line feed or a carriage return. -/
def Overruns (p : Position) (cs : List Char) : Prop :=
  ∃ l c, (lines cs)[p.line]? = some l ∧ l.getLast? = some c ∧ isLineBreak c = true ∧ c ≠ '\n' ∧
    c ≠ '\r' ∧ unitLength l ≤ p.character

end Position

namespace LineShape

variable {l u : List Char} {after : List (List Char)}

/-- A whole line is taken, its end included, if the column is past it and its end belongs to its
    text. -/
theorem takeWeight_lineText_eq_iff (h : LineShape l after) (character : Nat) :
    after ≠ [] ∧ takeWeight unitCount character (lineText l) = l ↔
      ∃ c, l.getLast? = some c ∧ isLineBreak c = true ∧ c ≠ '\n' ∧ c ≠ '\r' ∧
        unitLength l ≤ character := by
  cases h with
  | last hlast hbody =>
    refine iff_of_false (fun h => h.1 hlast) ?_
    rintro ⟨c, hc, hbreak, -⟩
    have hall : (lineBody l).all (fun c => !isLineBreak c) = true := List.all_takeWhile
    rw [hbody] at hall
    have hunbroken := List.all_eq_true.1 hall c (List.mem_of_getLast? hc)
    rw [hbreak] at hunbroken
    exact absurd hunbroken (by decide)
  | newline hafter hstop hl htext =>
    refine iff_of_false ?_ ?_
    · rintro ⟨-, htaken⟩
      have hlength := (takeWeight_isPrefix unitCount character (lineText l)).length_le
      have hlengths := congrArg List.length hl
      have hpos := List.length_pos_iff.2 hstop.ne_nil
      rw [htaken, htext] at hlength
      rw [List.length_append] at hlengths
      omega
    · rintro ⟨c, hc, -, hfeed, hreturn, -⟩
      rw [← hl] at hc
      cases hstop with
      | feed => exact hfeed (Option.some.inj (hc.symm.trans List.getLast?_concat))
      | carriage => exact hreturn (Option.some.inj (hc.symm.trans List.getLast?_concat))
      | both => exact hfeed (Option.some.inj (hc.symm.trans (by simp)))
  | other hafter hbreak hfeed hreturn hl htext =>
    rw [htext, takeWeight_eq_self_iff unitLength_nil unitLength_cons]
    have hlast : l.getLast? = some _ := hl ▸ List.getLast?_concat
    refine ⟨fun h => ⟨_, hlast, hbreak, hfeed, hreturn, h.2⟩, ?_⟩
    rintro ⟨-, -, -, -, -, hle⟩
    exact ⟨hafter, hle⟩

/-- A part of the text of a line lies before the end of the line, if it is not the whole of one that
    others follow. -/
theorem isPrefix_lineBody (h : LineShape l after) (hu : u <+: lineText l)
    (hpart : ¬(after ≠ [] ∧ u = l)) : u <+: lineBody l := by
  cases h with
  | last _ hbody htext => rwa [hbody, ← htext]
  | newline _ _ _ htext => rwa [← htext]
  | other hafter _ _ _ hl htext =>
    rw [htext, ← hl] at hu
    rcases List.prefix_concat_iff.1 hu with heq | hu
    · exact absurd ⟨hafter, heq.trans hl⟩ hpart
    · exact hu

end LineShape

namespace Position

variable {cs l : List Char} {before after : List (List Char)}

theorem getElem?_lines_of_eq (h : lines cs = before ++ l :: after) :
    (lines cs)[before.length]? = some l := by
  rw [h, List.getElem?_append_right (Nat.le_refl _), Nat.sub_self, List.getElem?_cons_zero]

theorem overruns_iff (h : lines cs = before ++ l :: after) (character : Nat) :
    Overruns ⟨before.length, character⟩ cs ↔
      after ≠ [] ∧ takeWeight unitCount character (lineText l) = l := by
  rw [(lineShape_of_lines_eq h).takeWeight_lineText_eq_iff character]
  constructor
  · rintro ⟨l', c, hl', hc⟩
    obtain rfl : l = l' := Option.some.inj ((getElem?_lines_of_eq h).symm.trans hl')
    exact ⟨c, hc⟩
  · rintro ⟨c, hc⟩
    exact ⟨l, c, getElem?_lines_of_eq h, hc⟩

/-- A position that overruns its line stands for the start of the next one. -/
theorem ofOffset?_of_overruns {p : Position} (h : p.Overruns cs) :
    ∃ offset, p.toOffset? cs = some offset ∧ ofOffset? offset cs = some ⟨p.line + 1, 0⟩ := by
  obtain ⟨line, character⟩ := p
  have hline : line < (lines cs).length := by
    obtain ⟨l, c, hl, -⟩ := h
    exact (List.getElem?_eq_some_iff.1 hl).1
  obtain ⟨before, l, after, hlines, rfl⟩ := exists_eq_append_cons hline
  obtain ⟨hafter, htaken⟩ := (overruns_iff hlines character).1 h
  refine ⟨_, toOffset?_of_lines_eq hlines character, ?_⟩
  obtain ⟨m, after, rfl⟩ := List.exists_cons_of_ne_nil hafter
  have hnext : lines cs = (before ++ [l]) ++ ([] ++ m) :: after := by
    rw [hlines, List.append_assoc]
    rfl
  have hm : m = [] → after = [] := fun hm =>
    Decidable.byContradiction fun hafter => (lineShape_of_lines_eq hnext).ne_nil hafter hm
  have hstart := ofOffset?_of_lines_eq hnext hm
  rw [List.append_nil, List.flatten_append, List.flatten_singleton, List.length_append] at hstart
  rw [htaken]
  exact hstart

theorem resolves_of_not_overruns (h : lines cs = before ++ l :: after) {character : Nat}
    (hoverruns : ¬Overruns ⟨before.length, character⟩ cs) :
    Resolves ⟨before.length, character⟩ cs := by
  have hpart := mt (overruns_iff h character).2 hoverruns
  have hshape := lineShape_of_lines_eq h
  have htaken := takeWeight_isPrefix unitCount character (lineText l)
  have hbody := hshape.isPrefix_lineBody htaken hpart
  have hweight := total_takeWeight_le unitLength_nil unitLength_cons character (lineText l)
  have hoffset := toOffset?_of_lines_eq h character
  generalize takeWeight unitCount character (lineText l) = u at *
  obtain ⟨t, ht⟩ := htaken.trans (lineText_isPrefix l)
  have hlast : t = [] → after = [] := by
    rintro rfl
    rw [List.append_nil] at ht
    exact Decidable.byContradiction fun hafter => hpart ⟨hafter, ht⟩
  have hposition := ofOffset?_of_lines_eq (ht.symm ▸ h) hlast
  have hstart : lineStart cs before.length = byteLength before.flatten := by
    rw [lineStart, h, List.take_left]
  have hle : byteLength u ≤ byteLength (lineBody l) := by
    obtain ⟨rest, hrest⟩ := hbody
    rw [← hrest, byteLength_append]
    exact Nat.le_add_right ..
  rw [Resolves, getElem?_lines_of_eq h]
  refine ⟨_, _, hoffset, ?_, ?_, hposition, rfl, hweight⟩
  · rw [hstart, byteLength_append]
    exact Nat.le_add_right ..
  · rw [hstart, byteLength_append]
    exact Nat.add_le_add_left hle _

theorem not_resolves_of_overruns {p : Position} (h : p.Overruns cs) : ¬p.Resolves cs := by
  intro hresolves
  obtain ⟨offset, hoffset, hnext⟩ := ofOffset?_of_overruns h
  obtain ⟨l, c, hl, -⟩ := h
  rw [Resolves, hl] at hresolves
  obtain ⟨offset', q, hoffset', -, -, hq, hline, -⟩ := hresolves
  obtain rfl : offset = offset' := Option.some.inj (hoffset.symm.trans hoffset')
  obtain rfl : ⟨p.line + 1, 0⟩ = q := Option.some.inj (hnext.symm.trans hq)
  exact Nat.succ_ne_self p.line hline

/-- The line after the last one stands for the end of the text. -/
theorem toOffset?_of_line_eq {p : Position} (h : p.line = (lines cs).length) :
    p.toOffset? cs = some (byteLength cs) := by
  rw [toOffset?, h, offsetInLines_length, flatten_lines]

theorem toOffset?_eq_none_iff {p : Position} :
    p.toOffset? cs = none ↔ (lines cs).length < p.line := by
  refine ⟨fun h => ?_, offsetInLines_eq_none⟩
  obtain ⟨line, character⟩ := p
  rcases Nat.lt_trichotomy line (lines cs).length with hline | hline | hline
  · obtain ⟨before, l, after, hlines, rfl⟩ := exists_eq_append_cons hline
    exact absurd ((toOffset?_of_lines_eq hlines character).symm.trans h) (by simp)
  · exact absurd ((toOffset?_of_line_eq hline).symm.trans h) (by simp)
  · exact hline

/-- A position stands for a place on its own line, or for none if there is no such line, with two
    exceptions. The line after the last one stands for the end of the text, and a column past a line
    that ends in a break other than a line feed or a carriage return stands for the start of the
    next line. -/
theorem resolves_iff (p : Position) (cs : List Char) :
    (p.Resolves cs ↔ p.line ≠ (lines cs).length ∧ ¬p.Overruns cs) ∧
      (p.toOffset? cs = none ↔ (lines cs).length < p.line) ∧
      (p.line = (lines cs).length → p.toOffset? cs = some (byteLength cs)) ∧
      (p.Overruns cs →
        ∃ offset, p.toOffset? cs = some offset ∧ ofOffset? offset cs = some ⟨p.line + 1, 0⟩) := by
  refine ⟨?_, toOffset?_eq_none_iff, toOffset?_of_line_eq, ofOffset?_of_overruns⟩
  constructor
  · intro hresolves
    refine ⟨fun hline => ?_, fun hoverruns => not_resolves_of_overruns hoverruns hresolves⟩
    rw [Resolves, List.getElem?_eq_none (Nat.le_of_eq hline.symm)] at hresolves
    exact absurd (hresolves.symm.trans (toOffset?_of_line_eq hline)) (by simp)
  · rintro ⟨hline, hoverruns⟩
    rcases Nat.lt_or_gt_of_ne hline with hline | hline
    · obtain ⟨line, character⟩ := p
      obtain ⟨before, l, after, hlines, rfl⟩ := exists_eq_append_cons hline
      exact resolves_of_not_overruns hlines hoverruns
    · rw [Resolves, List.getElem?_eq_none (Nat.le_of_lt hline)]
      exact toOffset?_eq_none_iff.2 hline

/-- The line after the last one stands for the end of the text, and a column past a vertical tab for
    the start of the next line. -/
theorem unresolved_positions :
    ¬Resolves ⟨2, 0⟩ "ab\ncd".toList ∧ ¬Resolves ⟨0, 40⟩ "ab\x0bcd".toList := by
  constructor
  · intro h
    exact absurd (show toOffset? ⟨2, 0⟩ "ab\ncd".toList = none from h) (by decide)
  · exact not_resolves_of_overruns ⟨['a', 'b', '\x0b'], '\x0b', by decide⟩

end Position

end Typeahead
