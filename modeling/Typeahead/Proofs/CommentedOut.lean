import Typeahead.Proofs.ClauseText
import Typeahead.Proofs.CommentedSlots

/-!
# Commenting out a call

A marker right before a call around the cursor comments the call out. What may be typed
in the call is not changed by that: the cursor is found again in the same call, two bytes
later, and is in the same slot. There are places where the marker shows, which
`Cursor.KeepsAround` and a hypothesis about words leave out. The marker becomes a part of
a word that it follows. It can give the call around another operator or another parameter
vector. And it moves the start of the text that is looked at for the clauses of a
namespace declaration that is too long. That shows only if the clause, or a string, starts
in the text that is moved out or in.

* `Commented.Cursors.clauseAt_marked`: the clause of a namespace declaration;
* `Commented.inSource_marked`: the cursor in the marked text;
* `Cursor.slot_commentedOut`: its slot.
-/

namespace Typeahead

/-! ### Boundaries -/

theorem floorBoundary_of_isBoundary {cs : List Char} {n : Nat} (h : isBoundary cs n = true) :
    floorBoundary cs n = n := by
  cases n with
  | zero => rfl
  | succ n => exact if_pos h

theorem floorBoundary_le (cs : List Char) (n : Nat) : floorBoundary cs n ≤ n := by
  induction n with
  | zero => exact Nat.le_refl 0
  | succ n ih =>
    rw [floorBoundary]
    split
    · exact Nat.le_refl _
    · exact Nat.le_succ_of_le ih

theorem standsAt_floorBoundary (cs : List Char) (n : Nat) :
    StandsAt cs (floorBoundary cs n) [] := by
  induction n with
  | zero => exact ⟨[], cs, rfl, rfl⟩
  | succ n ih =>
    rw [floorBoundary]
    split
    · next h =>
      obtain ⟨p, hp⟩ := Option.isSome_iff_exists.1 h
      obtain ⟨happ, hlength⟩ := append_of_splitAtByte? hp
      exact ⟨p.1, p.2, happ.symm, hlength⟩
    · exact ih

/-! ### Windows -/

namespace Tree

variable {cs : List Char} {n : Node}

/-- The text of a node other than the root stands where the node starts. -/
theorem standsAt_of_mem_nodes (hn : n ∈ (Tree.read cs).nodes) (hroot : n.kind ≠ .root) :
    StandsAt cs n.span.start ((Tree.read cs).chars n) ∧
      n.span.stop = n.span.start + byteLength ((Tree.read cs).chars n) := by
  obtain ⟨l, hl, rfl⟩ := exists_location_of_mem_nodes hn
  exact standsAt_of_mem_below (below_of_kind_ne hl hroot)

/-- The window of a declaration that fits is all of it up to the cursor. -/
theorem namespaceWindow_eq (hn : n ∈ (Tree.read cs).nodes) (hroot : n.kind ≠ .root)
    {offset window : Nat} (hfits : byteLength ((Tree.read cs).chars n) ≤ window)
    (hstart : n.span.start ≤ offset) (hoffset : offset ≤ byteLength cs) :
    (Tree.read cs).namespaceWindow n offset window = slice cs n.span.start offset := by
  have hboundary := (standsAt_of_mem_nodes hn hroot).1.isBoundary_start
  rw [namespaceWindow, length, source_read, if_pos hfits, Nat.min_eq_left hoffset,
    Nat.min_eq_left hstart, floorBoundary_of_isBoundary hboundary]

/-- Where the text starts that is looked at of the declaration `n`. -/
def windowStart (t : Tree) (n : Node) (offset window : Nat) : Nat :=
  floorBoundary t.source (min (if byteLength (t.chars n) ≤ window then n.span.start
    else offset - window / 2) (min offset t.length))

theorem namespaceWindow_eq_slice {offset : Nat} (hoffset : offset ≤ byteLength cs)
    (window : Nat) : (Tree.read cs).namespaceWindow n offset window =
      slice cs ((Tree.read cs).windowStart n offset window) offset := by
  have hstop : min offset (Tree.read cs).length = offset := by
    rw [length, source_read, Nat.min_eq_left hoffset]
  rw [namespaceWindow, windowStart, hstop, source_read]

theorem standsAt_windowStart (n : Node) (offset window : Nat) :
    StandsAt cs ((Tree.read cs).windowStart n offset window) [] := by
  rw [windowStart, source_read]
  exact standsAt_floorBoundary ..

theorem windowStart_le (t : Tree) (n : Node) (offset window : Nat) :
    t.windowStart n offset window ≤ offset :=
  Nat.le_trans (floorBoundary_le ..) (Nat.le_trans (Nat.min_le_right ..) (Nat.min_le_left ..))

end Tree

/-! ### Slots -/

/-- A marker at `place` does not show in what is looked at of a namespace declaration. With
    the marker, the declaration `n'` fits in the window. Or else, the text that the marker
    moves out of the window, or into it, may be cut off. -/
def Cursor.KeepsWindow (window place : Nat) (t : Tree) (c : Cursor) (n : Node) (t' : Tree)
    (c' : Cursor) (n' : Node) : Prop :=
  let start := t.windowStart n c.offset window
  let shifted := slice t'.source (if place ≤ start then start + 2 else start) c'.offset
  let moved := t'.namespaceWindow n' c'.offset window
  byteLength (t'.chars n') ≤ window ∨ CutsTo shifted moved ∨ CutsTo moved shifted

/-- The marker does not show around the list. Of the list, the tree and the cursor
    are `l`, `t` and `c` without the marker, and `l'`, `t'` and `c'` with it. -/
structure Cursor.KeepsAround (config : Config) (t : Tree) (c : Cursor) (l : Location) (t' : Tree)
    (c' : Cursor) (l' : Location) : Prop where
  /-- A call that has the list in the place of its operator keeps its head. -/
  head_eq : ∀ p ∈ l.above.head?, ∀ p' ∈ l'.above.head?,
    p.kind.isCall = true → c.ordinal p = 0 → t'.head? p' = t.head? p
  /-- A function that has the list in the place of its parameter vector still has
      something there. -/
  isSome_eq : ∀ p ∈ l.above.head?, ∀ p' ∈ l'.above.head?, ∀ k,
    t.functionAround? config c = some (p, k) → c.ordinal p = k →
      p'.activeForms[k]?.isSome = p.activeForms[k]?.isSome
  /-- What the marker moves out of the window of a namespace declaration, or into it, does
      not matter. -/
  window : ∀ n ∈ t.namespaceAround? config c, ∀ n' ∈ t'.namespaceAround? config c',
    2 ≤ c.ordinal n →
      KeepsWindow config.namespaceWindow l.node.span.start t c n t' c' n'

namespace Commented

variable {u w : List Char} {cm : Commented u w} {c c' : Cursor}

namespace Cursors

theorem offset_le (h : Cursors cm c c') :
    c.offset ≤ byteLength (u ++ w) ∧ c'.offset ≤ byteLength (u ++ '#' :: '_' :: w) := by
  obtain ⟨s, rest, hw, hoffset⟩ := h.exists_text
  have hlength := congrArg byteLength hw
  simp only [byteLength_append] at hlength hoffset
  rw [h.offset_eq, byteLength_append, byteLength_append, byteLength_marker]
  omega

/-- A node around the cursor ends two bytes later with the marker. It starts where it
    started, or is shifted. -/
theorem span_marked (h : Cursors cm c c') {n : Node} (hn : n ∈ c.location.above) :
    (n.mark cm.mark).span = ⟨n.span.start, n.span.stop + 2⟩ ∧ n.span.start ≤ byteLength u ∨
      (n.mark cm.mark).span = ⟨n.span.start + 2, n.span.stop + 2⟩ ∧
        byteLength u ≤ n.span.start := by
  have hnode := h.mem_nodes hn
  cases cm.sides hnode with
  | before _ hstop =>
    -- the cursor would be before the marker
    have hcursor := Tree.stop_le_of_mem_above h.standsIn.ne_nil h.standsIn.mem hn
    have hspan := cm.span_mark_of_id_le (Tree.mem_nodes_of_mem_locations h.standsIn.mem)
      (cm.id_le_of_mem_above h.standsIn.mem h.mem_above)
    rw [Node.mark_of_stop_le (Nat.le_trans hcursor hstop)] at hspan
    have hstay := congrArg Span.stop hspan
    dsimp only at hstay
    omega
  | around hid hstart hstop _ =>
    have hheading : n.heading.mark cm.mark = n.heading := if_pos hid
    rw [Node.mark_of_lt_stop hstop, hheading]
    exact .inl ⟨rfl, hstart⟩
  | after hid hstart _ => exact .inr ⟨cm.span_mark_of_id_le hnode hid, hstart⟩

/-- The text of a declaration around the list, up to the cursor. -/
theorem clauseAt_slice (h : Cursors cm c c') {start : Nat} {part : List Char}
    (hpart : StandsAt (u ++ w) start part) (hstart : start ≤ byteLength u) :
    clauseAt (slice (u ++ '#' :: '_' :: w) start c'.offset) =
      clauseAt (slice (u ++ w) start c.offset) := by
  obtain ⟨s, rest, hw, hoffset⟩ := h.exists_text
  obtain ⟨a, b, happ, rfl⟩ := hpart
  obtain ⟨x, hu, -⟩ := exists_append_of_byteLength_le happ hstart
  obtain ⟨d, text, hopener⟩ := List.exists_cons_of_ne_nil
    (cm.cut.ne_nil_of_mem (k := cm.opener) (by simp))
  have hlength := congrArg byteLength hu
  rw [byteLength_append] at hlength
  have hx : ∀ e ∈ x.getLast?, e ≠ 'e' := by
    intro e he
    refine cm.cut.getLast?_ne e ?_
    rw [hu, List.getLast?_append, Option.mem_def.1 he]
    rfl
  have hd := cm.cut.isPunctuation_of_mem d (by simp [hopener])
  have hplain : slice (u ++ w) (byteLength a) c.offset = x ++ (cm.opener.text ++ s) := by
    have hpart : StandsAt (u ++ w) (byteLength a) (x ++ (cm.opener.text ++ s)) :=
      ⟨a, rest, by simp [hu, hw], rfl⟩
    rw [hoffset, byteLength_append, hlength, Nat.add_assoc, ← byteLength_append, hpart.slice_eq]
  have hmarked : slice (u ++ '#' :: '_' :: w) (byteLength a) c'.offset =
      x ++ '#' :: '_' :: (cm.opener.text ++ s) := by
    have hpart : StandsAt (u ++ '#' :: '_' :: w) (byteLength a)
        (x ++ '#' :: '_' :: (cm.opener.text ++ s)) := ⟨a, rest, by simp [hu, hw], rfl⟩
    rw [h.offset_eq, hoffset, byteLength_append, hlength, Nat.add_assoc, Nat.add_assoc,
      ← byteLength_marker, ← byteLength_append, hpart.slice_eq]
  rw [hplain, hmarked, hopener]
  exact clauseAt_marker hx hd

/-- The marker does not show in what is looked at of the declaration. -/
def KeepsWindow (cm : Commented u w) (window : Nat) (c c' : Cursor) (n : Node) : Prop :=
  Cursor.KeepsWindow window (byteLength u) (Tree.read (u ++ w)) c n
    (Tree.read (u ++ '#' :: '_' :: w)) c' (n.mark cm.mark)

theorem clauseAt_marked (h : Cursors cm c c') {n : Node} (hn : n ∈ c.location.above)
    (hroot : n.kind ≠ .root) {window : Nat} (hwindow : KeepsWindow cm window c c' n) :
    clauseAt ((Tree.read (u ++ '#' :: '_' :: w)).namespaceWindow (n.mark cm.mark) c'.offset
        window) =
      clauseAt ((Tree.read (u ++ w)).namespaceWindow n c.offset window) := by
  have hmarked : n.mark cm.mark ∈ c'.location.above := by
    rw [h.location_eq]
    exact List.mem_map_of_mem hn
  have hnode := h.mem_nodes hn
  have hnode' := Tree.mem_nodes_of_mem_above h.standsIn_marked.mem (List.mem_cons_of_mem _ hmarked)
  have hroot' : (n.mark cm.mark).kind ≠ .root := by rwa [Node.kind_mark]
  have hstart := Nat.le_trans (Tree.start_le_of_mem_above h.standsIn.ne_nil h.standsIn.mem hn)
    h.standsIn.start_le
  have hstart' := Nat.le_trans (Tree.start_le_of_mem_above h.standsIn_marked.ne_nil
    h.standsIn_marked.mem hmarked) h.standsIn_marked.start_le
  have hspan := h.span_marked hn
  obtain ⟨hpart, hstop⟩ := Tree.standsAt_of_mem_nodes hnode hroot
  have hlonger : byteLength ((Tree.read (u ++ w)).chars n) ≤
      byteLength ((Tree.read (u ++ '#' :: '_' :: w)).chars (n.mark cm.mark)) := by
    have hstop' := (Tree.standsAt_of_mem_nodes hnode' hroot').2
    rcases hspan with ⟨heq, -⟩ | ⟨heq, -⟩ <;> rw [heq] at hstop' <;> dsimp only at hstop' <;> omega
  rcases hwindow with hfits | hcuts
  · rw [Tree.namespaceWindow_eq hnode' hroot' hfits hstart' h.offset_le.2,
      Tree.namespaceWindow_eq hnode hroot (Nat.le_trans hlonger hfits) hstart h.offset_le.1]
    rcases hspan with ⟨heq, hle⟩ | ⟨heq, hle⟩
    · rw [heq]
      exact h.clauseAt_slice hpart hle
    · rw [heq, h.offset_eq, slice_marked hle hstart]
  · -- both windows are compared with the one that the marker does not move
    rw [← hcuts.elim CutsTo.clauseAt_eq fun hcuts => hcuts.clauseAt_eq.symm,
      Tree.namespaceWindow_eq_slice h.offset_le.1, Tree.source_read]
    split
    · next hle => rw [h.offset_eq, slice_marked hle (Tree.windowStart_le ..)]
    · next hlt => exact h.clauseAt_slice (Tree.standsAt_windowStart ..) (Nat.le_of_not_le hlt)

theorem namespaceSlot?_marked (h : Cursors cm c c') (hkeep : KeepsHead cm c) {config : Config}
    (hwindow : ∀ n, (Tree.read (u ++ w)).namespaceAround? config c = some n → 2 ≤ c.ordinal n →
      KeepsWindow cm config.namespaceWindow c c' n) :
    (Tree.read (u ++ '#' :: '_' :: w)).namespaceSlot? config c' =
      (Tree.read (u ++ w)).namespaceSlot? config c := by
  rw [Tree.namespaceSlot?, Tree.namespaceSlot?, h.namespaceAround?_marked hkeep]
  cases hns : (Tree.read (u ++ w)).namespaceAround? config c with
  | none => simp only [Option.map_none, Option.bind_eq_bind, Option.bind_none]
  | some n =>
    obtain ⟨hn, hcall⟩ := h.mem_above_of_mem_calls (List.mem_of_find?_eq_some hns)
    simp only [Option.map_some, Option.bind_eq_bind, Option.bind_some, h.ordinal_marked hn]
    have hroot : n.kind ≠ .root := by
      intro hkind
      rw [hkind] at hcall
      cases hcall
    cases hordinal : c.ordinal n with
    | zero => rfl
    | succ i =>
      cases i with
      | zero => rfl
      | succ k =>
        have hpast : 2 ≤ c.ordinal n := hordinal ▸ Nat.le_add_left 2 k
        simp only [h.clauseAt_marked hn hroot (hwindow n hns hpast)]

/-- With the marker the cursor is in the same slot. -/
theorem slot_marked (h : Cursors cm c c') (hcall : cm.list.node.kind.isCall = true)
    {config : Config} (hkeep : KeepsHead cm c) (hslot : KeepsSlot cm config c)
    (hwindow : ∀ n, (Tree.read (u ++ w)).namespaceAround? config c = some n → 2 ≤ c.ordinal n →
      KeepsWindow cm config.namespaceWindow c c' n) :
    (Tree.read (u ++ '#' :: '_' :: w)).slot config c' = (Tree.read (u ++ w)).slot config c := by
  have hcalls : ∀ n ∈ c.calls config.maxTraversalDepth, n ∈ c.location.above := fun n hn =>
    (h.mem_above_of_mem_calls hn).1
  rw [Tree.slot, Tree.slot, h.keywordSlot?_marked, h.newFormSlot?_marked,
    h.parameterVectorSlot?_marked hkeep hslot, h.bindingSlot?_marked hkeep hcall,
    h.definitionSlot?_marked hkeep, h.namespaceSlot?_marked hkeep hwindow, h.calls_marked,
    h.callSlot?_marked config hcalls]

theorem slot_of_keepsAround (h : Cursors cm c c') (hcall : cm.list.node.kind.isCall = true)
    {config : Config} (hkeeps : c.KeepsAround config (Tree.read (u ++ w)) cm.list
      (Tree.read (u ++ '#' :: '_' :: w)) c' (cm.list.mark cm.mark)) :
    (Tree.read (u ++ '#' :: '_' :: w)).slot config c' = (Tree.read (u ++ w)).slot config c := by
  have hparent : cm.parent ∈ cm.list.above.head? := by rw [cm.above_eq]; rfl
  have hparent' : cm.parent.mark cm.mark ∈ (cm.list.mark cm.mark).above.head? := by
    rw [Location.mark, cm.above_eq]
    rfl
  have hhead : KeepsHead cm c := hkeeps.head_eq _ hparent _ hparent'
  refine h.slot_marked hcall hhead (hkeeps.isSome_eq _ hparent _ hparent') fun n hn hordinal => ?_
  have hn' : n.mark cm.mark ∈
      (Tree.read (u ++ '#' :: '_' :: w)).namespaceAround? config c' := by
    rw [h.namespaceAround?_marked hhead, hn]
    rfl
  have hwindow := hkeeps.window n hn _ hn' hordinal
  rwa [cm.start_eq] at hwindow

end Cursors

/-! ### The cursor at an inserted word -/

/-- A word inserted after the start of the list stands after its opening delimiter. -/
theorem exists_text_before {p u₀ v : List Char} (cm : Commented u w)
    (hp : ∀ c ∈ p, isOrdinary c = true) (hne : p ≠ []) (htext : u ++ w = u₀ ++ (p ++ v))
    (hle : byteLength u ≤ byteLength u₀) :
    ∃ s, u₀ = u ++ (cm.opener.text ++ s) ∧ w = cm.opener.text ++ s ++ (p ++ v) := by
  obtain ⟨x, rfl, hw⟩ := exists_append_of_byteLength_le htext.symm hle
  have hopener : x ++ (p ++ v) = cm.opener.text ++ cm.after.flatMap (·.text) :=
    hw.symm.trans cm.cut.right_eq
  suffices hx : ∃ s, x = cm.opener.text ++ s by
    obtain ⟨s, rfl⟩ := hx
    exact ⟨s, rfl, hw⟩
  rcases List.append_eq_append_iff.1 hopener with ⟨z, hz, hrest⟩ | ⟨z, rfl, -⟩
  · cases z with
    | nil => exact ⟨[], by rw [hz, List.append_nil, List.append_nil]⟩
    | cons d z =>
      obtain ⟨e, q, rfl⟩ := List.exists_cons_of_ne_nil hne
      obtain rfl : e = d := (List.cons.inj hrest).1
      have hd := isOrdinary_of_isPunctuation (cm.cut.isPunctuation_of_mem e (by simp [hz]))
      rw [hp e List.mem_cons_self] at hd
      cases hd
  · exact ⟨z, rfl⟩

section Held

variable {config : Config} {l : Location} {s v : List Char}

/-- In the marked text the word is held by the same token. -/
theorem holds_marked (hp : config.Insertable)
    (htext : u ++ '#' :: '_' :: (cm.opener.text ++ s) ++ (config.placeholder.toList ++ v) =
      u ++ '#' :: '_' :: w)
    (hl : (Tree.read (u ++ w)).Holds (u ++ (cm.opener.text ++ s)) config.placeholder.toList v l)
    (hinside : cm.list.node ∈ l.above) :
    (Tree.read (u ++ '#' :: '_' :: w)).Holds (u ++ '#' :: '_' :: (cm.opener.text ++ s))
      config.placeholder.toList v (l.mark cm.mark) := by
  obtain ⟨k, hk⟩ := Tree.exists_holds_read hp.ordinary hp.ne_nil
    (u ++ '#' :: '_' :: (cm.opener.text ++ s)) v
  rw [htext] at hk
  have hnode := Tree.mem_nodes_of_mem_locations hl.mem
  have hid := cm.id_le_of_mem_above hl.mem hinside
  have hspan := cm.span_mark_of_id_le hnode hid
  obtain ⟨hstart, hstop⟩ := hl.covers
  rw [byteLength_append] at hstart hstop
  have hmark : l.mark cm.mark = k := by
    refine hk.unique _ (cm.mark_mem_locations hl.mem) ?_ ?_ ?_
    · rw [Location.mark, cm.children_mark hnode (cm.id_ne_of_id_le hid), hl.children_eq]
      rfl
    · rw [Location.mark, hspan, byteLength_append, byteLength_marker]
      dsimp only
      omega
    · rw [Location.mark, hspan, byteLength_append, byteLength_marker]
      dsimp only
      omega
  rw [hmark]
  exact hk

theorem inSource_marked (hp : config.Insertable)
    (hw : w = cm.opener.text ++ s ++ (config.placeholder.toList ++ v))
    (hl : (Tree.read (u ++ w)).Holds (u ++ (cm.opener.text ++ s)) config.placeholder.toList v l)
    (hinside : cm.list.node ∈ l.above) :
    Cursor.inSource config (u ++ '#' :: '_' :: (cm.opener.text ++ s) ++ v)
        (byteLength (u ++ '#' :: '_' :: (cm.opener.text ++ s))) =
      .ok (Tree.read (u ++ '#' :: '_' :: w),
        .ofLocation (Tree.read (u ++ '#' :: '_' :: w)) config (l.mark cm.mark)
          (byteLength (u ++ '#' :: '_' :: (cm.opener.text ++ s)))) := by
  have htext : u ++ '#' :: '_' :: (cm.opener.text ++ s) ++ (config.placeholder.toList ++ v) =
      u ++ '#' :: '_' :: w := by simp [hw]
  have hmarked := holds_marked hp htext hl hinside
  rw [← htext] at hmarked
  rw [Cursor.inSource_eq_ok hmarked, htext]

theorem cursors_of_holds
    (hw : w = cm.opener.text ++ s ++ (config.placeholder.toList ++ v))
    (hl : (Tree.read (u ++ w)).Holds (u ++ (cm.opener.text ++ s)) config.placeholder.toList v l)
    (hinside : cm.list ∈ l.ancestors) :
    Cursors cm
      (.ofLocation (Tree.read (u ++ w)) config l (byteLength (u ++ (cm.opener.text ++ s))))
      (.ofLocation (Tree.read (u ++ '#' :: '_' :: w)) config (l.mark cm.mark)
        (byteLength (u ++ '#' :: '_' :: (cm.opener.text ++ s)))) := by
  obtain ⟨as, happ⟩ := Location.exists_of_mem_chain hinside
  have hnode := Tree.mem_nodes_of_mem_locations hl.mem
  have hid := cm.id_le_of_mem_above hl.mem (by simp [happ])
  have hspan := cm.span_mark_of_id_le hnode hid
  have hoffset : byteLength (u ++ '#' :: '_' :: (cm.opener.text ++ s)) =
      byteLength (u ++ (cm.opener.text ++ s)) + 2 := by
    rw [byteLength_append, byteLength_marker, byteLength_append u, Nat.add_assoc]
  obtain ⟨hstart, hstop⟩ := hl.covers
  refine ⟨⟨cm.ne_nil, hl.mem, hstart, Nat.le_trans (Nat.le_add_right ..) hstop⟩, hinside, ?_,
    ⟨s, _, hw, rfl⟩, rfl, hoffset, ?_⟩
  · rcases hl.cases with hkind | ⟨hkind, -⟩ <;> revert hkind <;>
      dsimp only [Cursor.ofLocation] <;> cases l.node.kind <;> decide
  · have htyped : Cursor.typedOf (Tree.read (u ++ '#' :: '_' :: w)) config (l.node.mark cm.mark)
        (byteLength (u ++ '#' :: '_' :: (cm.opener.text ++ s))) =
        Cursor.typedOf (Tree.read (u ++ w)) config l.node
          (byteLength (u ++ (cm.opener.text ++ s))) := by
      rw [Cursor.typedOf, cm.chars_mark_of_id_le hnode hid, Node.kind_mark, hspan, hoffset,
        Nat.add_sub_add_right, Cursor.typedOf]
    exact congrArg String.ofList htyped

end Held

end Commented

namespace Cursor

/-- In a call around the cursor, right before which no word ends, the cursor is found
    as before if the call is commented out. It is in the same slot, unless the marker
    shows around the call. -/
theorem slot_commentedOut {config : Config}
    (hconfig : config.placeholder = ({} : Config).placeholder) {cs : List Char} {offset : Nat}
    {t : Tree} {c : Cursor} (hcursor : inSource config cs offset = .ok (t, c)) {l : Location}
    (hl : l ∈ c.location.ancestors) (hcall : l.node.kind.isCall = true)
    (hword : ∀ n ∈ t.nodes, n.kind.isWord = true → n.span.stop ≠ l.node.span.start) :
    ∃ u v t' c' l', cs = u ++ v ∧ byteLength u = l.node.span.start ∧
      inSource config (u ++ ("#_".toList ++ v)) (offset + 2) = .ok (t', c') ∧
      l' ∈ c'.location.ancestors ∧ l'.node.kind = l.node.kind ∧
      l'.node.span = ⟨l.node.span.start + 2, l.node.span.stop + 2⟩ ∧
      (KeepsAround config t c l t' c' l' → t'.slot config c' = t.slot config c) := by
  have hp := Config.insertable_of_placeholder_eq hconfig
  obtain ⟨u₀, v, k, rfl, rfl, rfl, hk, rfl⟩ := exists_ofLocation_of_inSource hp hcursor
  have hnested : l.node.kind.isNested = true := by
    revert hcall
    cases l.node.kind <;> decide
  have hmem := Tree.selfAndAncestors_subset_locations hk.mem (List.mem_cons_of_mem _ hl)
  obtain ⟨u, w, htext, cm, rfl⟩ := Tree.exists_commented hmem hnested hword
  have habove := Location.mem_above_of_mem_ancestors hl
  have hle : byteLength u ≤ byteLength u₀ := by
    rw [← cm.start_eq]
    rw [htext] at hk
    exact Nat.le_trans (Tree.start_le_of_mem_above cm.ne_nil hk.mem habove) hk.covers.1
  obtain ⟨s, rfl, hw⟩ := cm.exists_text_before hp.ordinary hp.ne_nil htext.symm hle
  rw [htext] at hk ⊢
  have hmarked := Commented.inSource_marked hp hw hk habove
  have hcursors := Commented.cursors_of_holds hw hk hl
  have htext' : u ++ '#' :: '_' :: (cm.opener.text ++ s) ++ v =
      u ++ ("#_".toList ++ (cm.opener.text ++ s ++ v)) := by simp
  have hoffset : byteLength (u ++ '#' :: '_' :: (cm.opener.text ++ s)) =
      byteLength (u ++ (cm.opener.text ++ s)) + 2 := hcursors.offset_eq
  rw [htext', hoffset] at hmarked
  refine ⟨u, cm.opener.text ++ s ++ v, _, _, cm.list.mark cm.mark, ?_, cm.start_eq.symm, hmarked,
    ?_, Node.kind_mark .., ?_, ?_⟩
  · rw [List.append_assoc]
  · dsimp only [ofLocation]
    rw [Location.ancestors_mark]
    exact List.mem_map_of_mem hl
  · exact cm.span_mark_of_id_le (Tree.mem_nodes_of_mem_locations cm.mem)
      (Nat.le_of_eq cm.id_eq.symm)
  · rw [hoffset] at hcursors
    exact hcursors.slot_of_keepsAround hcall

/-- A clause of a namespace declaration that does not fit in the window is commented out,
    and the cursor is in it. The marker moves two blanks out of the window. -/
theorem slot_commentedOut_clause :
    let u := "(ns a ".toList ++ List.replicate 183 ' '
    let v := "(:require c ))".toList
    ∃ t c l t' c', inSource {} (u ++ v) 201 = .ok (t, c) ∧ l ∈ c.location.ancestors ∧
      l.node.kind.isCall = true ∧ l.node.span.start = byteLength u ∧
      (∀ n ∈ t.nodes, n.kind.isWord = true → n.span.stop ≠ l.node.span.start) ∧
      inSource {} (u ++ ("#_".toList ++ v)) 203 = .ok (t', c') ∧
      t'.slot {} c' = .inNamespace .require ∧ t.slot {} c = .inNamespace .require := by
  intro u v
  have hplain : (inSource {} (u ++ v) 201).toOption.any (fun x =>
      x.1.slot {} x.2 == .inNamespace .require &&
      x.1.nodes.all (fun n => !n.kind.isWord || n.span.stop != 189) &&
      (x.1.functionAround? {} x.2).isNone &&
      (x.1.namespaceAround? {} x.2).all (fun n =>
        x.1.windowStart n x.2.offset ({} : Config).namespaceWindow == 101) &&
      x.2.location.ancestors.head?.any fun l => l.node.kind.isCall && l.node.span.start == 189 &&
        l.above.head?.all (x.2.ordinal · != 0)) = true := by
    decide +kernel
  have hmarked : (inSource {} (u ++ ("#_".toList ++ v)) 203).toOption.all (fun x =>
      (x.1.namespaceAround? {} x.2).all fun n =>
        let shifted := slice x.1.source 101 x.2.offset
        let moved := x.1.namespaceWindow n x.2.offset ({} : Config).namespaceWindow
        shifted == ' ' :: ' ' :: moved && ((openParens false false [] shifted).find? fun r =>
          (clauseName? r).isSome).all fun r => decide (r.length < moved.length)) = true := by
    decide +kernel
  obtain ⟨t, c, hcursor, hplain⟩ := exists_of_any_inSource hplain
  simp only [Bool.and_eq_true, Option.any_eq_true, beq_iff_eq, List.all_eq_true,
    Bool.or_eq_true, Bool.not_eq_true', bne_iff_ne, Option.isNone_iff_eq_none,
    Option.all_eq_true] at hplain
  obtain ⟨⟨⟨⟨hslot, hword⟩, hfunction⟩, hwindow⟩, l, hl, ⟨hcall, hstart⟩, hordinal⟩ := hplain
  have hmem := List.mem_of_mem_head? hl
  have hapart : ∀ n ∈ t.nodes, n.kind.isWord = true → n.span.stop ≠ l.node.span.start := by
    intro n hn hkind
    rw [hstart]
    exact (hword n hn).resolve_left (by simp [hkind])
  obtain ⟨u', v', t', c', l', hcs, hbytes, hcursor', -, -, -, hkeeps⟩ :=
    slot_commentedOut rfl hcursor hmem hcall hapart
  have hlength : byteLength u = byteLength u' := by
    rw [hbytes, hstart]
    decide +kernel
  obtain ⟨rfl, rfl⟩ := append_inj_of_byteLength hcs hlength
  rw [hcursor', Except.toOption, Option.all_some] at hmarked
  simp only [Option.all_eq_true, Bool.and_eq_true, beq_iff_eq, decide_eq_true_eq] at hmarked
  refine ⟨t, c, l, t', c', hcursor, hmem, hcall, hstart.trans (by decide +kernel), hapart,
    hcursor', ?_, hslot⟩
  rw [← hslot]
  refine hkeeps ⟨fun p hp _ _ _ hzero => absurd hzero (hordinal p hp), fun p _ _ _ k hk => ?_,
    fun n hn n' hn' _ => ?_⟩
  · rw [hfunction] at hk
    cases hk
  · obtain ⟨hshifted, hclause⟩ := hmarked n' hn'
    rw [KeepsWindow, hwindow n hn, hstart]
    exact .inr (.inl ⟨[' ', ' '], hshifted, rfl, hclause⟩)

/-- Places where the marker shows. Right after a word, it is a part of the word. If it hides
    the operator of a list, the next form is the operator, and if it hides what stands in the
    place of a parameter vector, nothing stands there. And it moves the window of a namespace
    declaration. The parenthesis of the clause drops out of the window, because a declaration
    of 200 bytes does not fit any more, or in one that did not fit before. So does a quote, and
    a clause around a declaration of 200 bytes gets into it. -/
theorem slot_commentedOut_ne :
    let slotAt := fun cs offset => (inSource {} cs offset).toOption.map fun x => x.1.slot {} x.2
    let blanks := fun n closers => List.replicate n ' ' ++ closers
    let clause := "(:require ".toList ++ blanks 163 "))".toList
    let call := "(b".toList ++ blanks 188 ")))".toList
    let afterString := "(b".toList ++ blanks 178 ")))".toList
    let inClause := "(b ".toList ++ blanks 170 ")))".toList
    (slotAt "(fn([a ]))".toList 7 = some (.parameterName true) ∧
      slotAt "(fn#_([a ]))".toList 9 = some .operator) ∧
    (slotAt "(([a ]) fn)".toList 5 = some .operator ∧
      slotAt "(#_([a ]) fn)".toList 7 = some (.parameterName true)) ∧
    (slotAt "(defn f (x ))".toList 11 = some (.argument "x" 0) ∧
      slotAt "(defn f #_(x ))".toList 13 = some .parameterVector) ∧
    (slotAt ("(ns a ".toList ++ clause) 179 = some (.inNamespace .require) ∧
      slotAt ("(ns a #_".toList ++ clause) 181 = some (.inNamespace .between)) ∧
    (slotAt ("(ns a (:require ".toList ++ call) 106 = some (.inNamespace .require) ∧
      slotAt ("(ns a (:require #_".toList ++ call) 108 = some (.inNamespace .between)) ∧
    (slotAt ("(ns a \"(:use x\" (:require ".toList ++ afterString) 106 =
        some (.inNamespace .require) ∧
      slotAt ("(ns a \"(:use x\" (:require #_".toList ++ afterString) 108 =
        some (.inNamespace .between)) ∧
    slotAt ("(:use (ns a ".toList ++ inClause) 15 = some (.inNamespace .between) ∧
      slotAt ("(:use (ns a #_".toList ++ inClause) 17 = some (.inNamespace .use) := by
  decide +kernel

end Cursor

end Typeahead
