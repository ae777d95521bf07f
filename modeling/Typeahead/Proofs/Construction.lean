import Typeahead.Proofs.Lexemes
import Typeahead.Tree.Location
import Typeahead.Tree.Reader

/-!
# What a construction step does

Reading places one lexeme after the other. This module says once what placing a
lexeme can do to a tree under construction (`Builder.Outcome`), and what closing
several open nodes in a row amounts to (`Builder.Closing`); every invariant of
reading is derived from these two.

* `outcome_place`: placing a sound lexeme has one of five outcomes;
* `placeAll_induction`: what every outcome keeps, a whole run keeps;
* `closing_settle`, `closing_unwindTo`, `exists_closing_toTree`: settling,
  unwinding and ending a construction are closings.
-/

namespace Typeahead

/-- Whether nodes of this kind leave the nesting of forms as it is: blanks,
    comments and markers. -/
def Kind.isFiller (k : Kind) : Bool := k.isTrivia || k == .formComment

theorem Kind.isForm_of_isFiller {k : Kind} (h : k.isFiller = true) : k.isForm = false := by
  revert h
  cases k <;> decide

theorem Kind.isCollection_of_isForm {k : Kind} (h : k.isForm = false) :
    k.isCollection = false := by
  revert h
  cases k <;> decide

theorem Kind.isCollection_of_isAtom {k : Kind} (h : k.isAtom = true) :
    k.isCollection = false := by
  revert h
  cases k <;> decide

theorem Kind.isCollection_of_closer? {k : Kind} {d : Char} (h : k.closer? = some d) :
    k.isCollection = true := by
  cases k <;> first | rfl | cases h

namespace Builder

variable {b b' : Builder} {start stop : Nat} {l : Lexeme}

/-- The open nodes, innermost first. -/
def frames (b : Builder) : List Frame := b.top :: b.below

theorem finish_nil (h : b.below = []) (stop : Nat) : b.finish stop = b := by rw [finish, h]

theorem finish_cons {f : Frame} {fs : List Frame} (h : b.below = f :: fs) (stop : Nat) :
    b.finish stop = { b with top := f.add (b.top.close stop), below := fs } := by rw [finish, h]

/-! ### Closing open nodes -/

/-- `b'` comes from `b` by closing, at the offset `stop`, some of the innermost
    open nodes, all of kinds with the property `p`. -/
inductive Closing (stop : Nat) (p : Kind → Prop) : Builder → Builder → Prop
  | refl (b : Builder) : Closing stop p b b
  | step {b b' : Builder} : p b.top.kind → b.below ≠ [] → Closing stop p (b.finish stop) b' →
    Closing stop p b b'

/-- What closing one node keeps, closing several keeps. -/
theorem Closing.keeps {p : Kind → Prop} {P : Builder → Prop} (h : Closing stop p b b')
    (hP : ∀ b, p b.top.kind → b.below ≠ [] → P b → P (b.finish stop)) (hb : P b) : P b' := by
  induction h with
  | refl b => exact hb
  | step hk hne _ ih => exact ih (hP _ hk hne hb)

theorem closing_settle_go (b : Builder) (top : Frame) (below : List Frame) :
    Closing stop (· = .quoted) { b with top, below } (settle.go stop b top below) := by
  induction below generalizing top with
  | nil => exact .refl _
  | cons f fs ih =>
    rw [settle.go]
    split
    · next hk => exact .step hk (List.cons_ne_nil f fs) (ih _)
    · exact .refl _

theorem closing_settle (b : Builder) (stop : Nat) :
    Closing stop (· = .quoted) b (b.settle stop) :=
  closing_settle_go b b.top b.below

theorem closing_unwindTo_go (b : Builder) (d : Char) (top : Frame) (below : List Frame) :
    Closing stop (fun k => k.closer? ≠ some d) { b with top, below }
      (unwindTo.go d stop b top below) := by
  induction below generalizing top with
  | nil => exact .refl _
  | cons f fs ih =>
    rw [unwindTo.go]
    split
    · exact .refl _
    · next hk => exact .step hk (List.cons_ne_nil f fs) (ih _)

theorem closing_unwindTo (b : Builder) (d : Char) (stop : Nat) :
    Closing stop (fun k => k.closer? ≠ some d) b (b.unwindTo d stop) :=
  closing_unwindTo_go b d b.top b.below

/-- Unwinding ends at a collection that the delimiter closes. -/
theorem closer?_top_unwindTo {d : Char} (h : b.closes d = true) (stop : Nat) :
    (b.unwindTo d stop).top.kind.closer? = some d := by
  suffices hgo : ∀ (below : List Frame) (top : Frame),
      (top :: below).any (·.kind.closer? == some d) = true →
        (unwindTo.go d stop b top below).top.kind.closer? = some d from hgo _ _ h
  intro below
  induction below with
  | nil =>
    intro top htop
    simpa [unwindTo.go] using htop
  | cons f fs ih =>
    intro top htop
    rw [unwindTo.go]
    split
    · next hk => exact hk
    · next hk =>
      refine ih _ ?_
      simpa [hk, Frame.add] using htop

/-- What is open after settling is no quoted form. -/
theorem kind_top_settle (b : Builder) (stop : Nat) :
    (b.settle stop).below = [] ∨ (b.settle stop).top.kind ≠ .quoted := by
  suffices hgo : ∀ (below : List Frame) (top : Frame),
      (settle.go stop b top below).below = [] ∨
        (settle.go stop b top below).top.kind ≠ .quoted from hgo _ _
  intro below
  induction below with
  | nil => exact fun _ => .inl rfl
  | cons f fs ih =>
    intro top
    rw [settle.go]
    split
    · exact ih _
    · next hk => exact .inr hk

/-- A tree is what its root becomes when all other nodes have been closed at the
    end of the source. -/
theorem exists_closing_toTree (b : Builder) :
    ∃ b', Closing (byteLength b.source) (fun _ => True) b b' ∧ b'.below = [] ∧
      b.toTree = ⟨b.source, b'.top.close (byteLength b.source)⟩ := by
  suffices hgo : ∀ (below : List Frame) (top : Frame),
      ∃ b', Closing (byteLength b.source) (fun _ => True) { b with top, below } b' ∧
        b'.below = [] ∧
        Frame.closeAll (byteLength b.source) top below = b'.top.close (byteLength b.source) by
    obtain ⟨b', hb', hnil, hroot⟩ := hgo b.below b.top
    exact ⟨b', hb', hnil, by rw [toTree, hroot]⟩
  intro below
  induction below with
  | nil => exact fun top => ⟨_, .refl _, rfl, rfl⟩
  | cons f fs ih =>
    intro top
    obtain ⟨b', hb', hnil, hroot⟩ := ih (f.add (top.close (byteLength b.source)))
    exact ⟨b', .step trivial (List.cons_ne_nil f fs) hb', hnil, hroot⟩

/-! ### Placing a lexeme -/

/-- What placing the lexeme `l` at the offset `start` can do to a tree under
    construction. -/
inductive Outcome (b : Builder) (start : Nat) (l : Lexeme) : Builder → Prop
  /-- A blank, a comment or a marker is added. -/
  | filler {kind : Kind} : kind.isFiller = true →
    Outcome b start l (b.token kind ⟨start, start + byteLength l.text⟩)
  /-- A delimiter that closes nothing is added. -/
  | stray {d : Char} : isCloser d = true → l.text = [d] → b.closes d = false →
    Outcome b start l (b.token .error ⟨start, start + byteLength l.text⟩)
  /-- A collection or a quoted form is opened by its first token. -/
  | opening {kind first : Kind} :
    kind.isCollection = true ∧ first = .openDelim ∨ kind = .quoted ∧ first = .sigil →
    Outcome b start l ((b.start kind start).token first ⟨start, start + byteLength l.text⟩)
  /-- An atom is added, and completes the quoted forms that wait for it. -/
  | atom {kind : Kind} : kind.isAtom = true →
    Outcome b start l
      ((b.token kind ⟨start, start + byteLength l.text⟩).settle (start + byteLength l.text))
  /-- A collection is closed by its delimiter, after all that is open inside,
      and completes the quoted forms that wait for it. -/
  | closing {d : Char} : l.text = [d] → b.closes d = true →
    Outcome b start l
      ((((b.unwindTo d start).token .closeDelim ⟨start, start + byteLength l.text⟩).finish
        (start + byteLength l.text)).settle (start + byteLength l.text))

theorem outcome_place (hl : l.Sound) (b : Builder) (start : Nat) :
    Outcome b start l (b.place start l) := by
  rw [place.eq_def]
  split
  · exact .filler rfl
  · exact .filler rfl
  · exact .filler rfl
  · next kind hk => exact .opening (.inl ⟨hl.opener kind hk, rfl⟩)
  · exact .opening (.inr ⟨rfl, rfl⟩)
  · next kind hk => exact .atom (hl.atom kind hk)
  · next d hk =>
    obtain ⟨hd, ht⟩ := hl.closer d hk
    split
    · next hb => exact .closing ht hb
    · next hb => exact .stray hd ht (Bool.eq_false_iff.2 hb)

/-- What opening a node, closing one and adding a token all keep, placing a
    lexeme keeps. -/
theorem Outcome.keeps {P : Builder → Prop} (h : Outcome b start l b')
    (hstart : ∀ b kind start, P b → P (b.start kind start))
    (htoken : ∀ b kind span, P b → P (b.token kind span))
    (hfinish : ∀ b stop, P b → P (b.finish stop)) (hb : P b) : P b' := by
  have hclosing : ∀ {stop : Nat} {p : Kind → Prop} {b b' : Builder},
      Closing stop p b b' → P b → P b' := fun hc => hc.keeps fun b _ _ => hfinish b _
  cases h with
  | filler _ => exact htoken _ _ _ hb
  | stray _ _ _ => exact htoken _ _ _ hb
  | opening _ => exact htoken _ _ _ (hstart _ _ _ hb)
  | atom _ => exact hclosing (closing_settle ..) (htoken _ _ _ hb)
  | closing _ _ =>
    exact hclosing (closing_settle ..)
      (hfinish _ _ (htoken _ _ _ (hclosing (closing_unwindTo ..) hb)))

theorem placeAll_append (ls ms : List Lexeme) :
    b.placeAll start (ls ++ ms) =
      (b.placeAll start ls).placeAll (start + byteLength (ls.flatMap (·.text))) ms := by
  induction ls generalizing b start with
  | nil => rfl
  | cons l ls ih =>
    rw [List.cons_append, placeAll, placeAll, ih, List.flatMap_cons, byteLength_append,
      Nat.add_assoc]

/-- A property of the offset reached and of the tree so far holds after a run
    over lexemes if every outcome of placing one of them keeps it. -/
theorem placeAll_induction {src : List Char} {P : Nat → Builder → Prop}
    (hP : ∀ b start l b', P start b → l.Sound → StandsAt src start l.text →
      Outcome b start l b' → P (start + byteLength l.text) b')
    {ls : List Lexeme} (hls : ∀ l ∈ ls, l.Sound) (hsrc : StandsAt src start (ls.flatMap (·.text)))
    (hb : P start b) :
    P (start + byteLength (ls.flatMap (·.text))) (b.placeAll start ls) := by
  induction ls generalizing b start with
  | nil => exact hb
  | cons l ls ih =>
    rw [List.flatMap_cons] at hsrc ⊢
    rw [placeAll, byteLength_append, ← Nat.add_assoc]
    have hl := hls l List.mem_cons_self
    obtain ⟨hhere, hrest⟩ := hsrc.append
    exact ih (fun l h => hls l (List.mem_cons_of_mem _ h)) hrest
      (hP b start l _ hb hl hhere (outcome_place hl b start))

/-- The tree of a text just before what is open at its end is closed. -/
def reading (cs : List Char) : Builder := (new cs).placeAll 0 (lex cs)

theorem reading_induction {cs : List Char} {P : Nat → Builder → Prop} (hnew : P 0 (new cs))
    (hP : ∀ b start l b', P start b → l.Sound → StandsAt cs start l.text →
      Outcome b start l b' → P (start + byteLength l.text) b') :
    P (byteLength cs) (reading cs) := by
  have hsrc : StandsAt cs 0 ((lex cs).flatMap (·.text)) := by
    rw [flatMap_text_lex]
    exact standsAt_self cs
  have h := placeAll_induction hP (fun _ => sound_of_mem_lex) hsrc hnew
  rwa [flatMap_text_lex, Nat.zero_add] at h

theorem source_reading (cs : List Char) : (reading cs).source = cs := by
  refine reading_induction (P := fun _ b => b.source = cs) rfl ?_
  intro b start l b' hb _ _ h
  refine h.keeps (P := fun c => c.source = cs) (fun _ _ _ hc => hc) (fun _ _ _ hc => hc) ?_ hb
  intro c stop hc
  rw [finish]
  split <;> exact hc

end Builder

theorem Tree.source_read (cs : List Char) : (Tree.read cs).source = cs := Builder.source_reading cs

/-! ### Finished nodes -/

theorem Node.preorder_eq (n : Node) : n.preorder = n :: Node.preorderAll n.children := by
  obtain ⟨id, kind, span, ns⟩ := n
  rw [preorder]

/-- A node without children holds only itself. -/
theorem Node.eq_of_mem_preorder {m n : Node} (hnil : n.children = []) (hm : m ∈ n.preorder) :
    m = n := by
  rw [preorder_eq, hnil, preorderAll] at hm
  exact List.mem_singleton.1 hm

theorem Node.preorderAll_append (ms ns : List Node) :
    Node.preorderAll (ms ++ ns) = Node.preorderAll ms ++ Node.preorderAll ns := by
  induction ms with
  | nil => rfl
  | cons m ms ih => rw [List.cons_append, Node.preorderAll, Node.preorderAll, ih, List.append_assoc]

theorem Node.mem_preorderAll {n : Node} {ns : List Node} :
    n ∈ Node.preorderAll ns ↔ ∃ m ∈ ns, n ∈ m.preorder := by
  induction ns with
  | nil => simp [Node.preorderAll]
  | cons m ms ih => simp [Node.preorderAll, ih]

theorem Frame.mem_preorder_close {f : Frame} {stop : Nat} {n : Node} :
    n ∈ (f.close stop).preorder ↔ n = f.close stop ∨ ∃ m ∈ f.children, n ∈ m.preorder := by
  rw [Frame.close, Node.preorder, List.mem_cons, Node.mem_preorderAll]
  simp only [List.mem_reverse]

namespace Builder

variable {b : Builder} {P : Node → Prop}

/-- All nodes that are finished so far have the property `P`. -/
def Finished (P : Node → Prop) (b : Builder) : Prop :=
  ∀ f ∈ b.frames, ∀ m ∈ f.children, ∀ n ∈ m.preorder, P n

namespace Finished

theorem start (h : Finished P b) (kind : Kind) (start : Nat) : Finished P (b.start kind start) := by
  intro f hf
  rcases List.mem_cons.1 hf with rfl | hf
  · exact fun m hm => absurd hm List.not_mem_nil
  · exact h f hf

theorem add {f : Frame} {fs : List Frame} {m : Node}
    (h : ∀ g ∈ f :: fs, ∀ m ∈ g.children, ∀ n ∈ m.preorder, P n) (hm : ∀ n ∈ m.preorder, P n) :
    ∀ g ∈ f.add m :: fs, ∀ m ∈ g.children, ∀ n ∈ m.preorder, P n := by
  intro g hg
  rcases List.mem_cons.1 hg with rfl | hg
  · intro k hk
    rcases List.mem_cons.1 hk with rfl | hk
    · exact hm
    · exact h f List.mem_cons_self k hk
  · exact h g (List.mem_cons_of_mem _ hg)

theorem token (h : Finished P b) {kind : Kind} {span : Span}
    (hP : P ⟨b.next, kind, span, []⟩) : Finished P (b.token kind span) := by
  refine add h ?_
  intro n hn
  exact Node.eq_of_mem_preorder rfl hn ▸ hP

theorem close (h : Finished P b) {stop : Nat} (hP : P (b.top.close stop)) :
    ∀ n ∈ (b.top.close stop).preorder, P n := by
  intro n hn
  rcases Frame.mem_preorder_close.1 hn with rfl | ⟨m, hm, hn⟩
  · exact hP
  · exact h b.top List.mem_cons_self m hm n hn

theorem finish (h : Finished P b) {stop : Nat} (hP : P (b.top.close stop)) :
    Finished P (b.finish stop) := by
  rw [Builder.finish]
  split
  · exact h
  · next f fs hbelow =>
    refine add (fun g hg => ?_) (h.close hP)
    exact h g (by rw [frames, hbelow]; exact List.mem_cons_of_mem _ hg)

end Finished

end Builder

end Typeahead
