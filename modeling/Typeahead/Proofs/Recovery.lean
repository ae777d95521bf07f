import Typeahead.Proofs.Leaves

/-!
# Broken nesting

A text whose delimiters do not match still has a tree, and the tree says exactly
what is wrong with the nesting (`Tree.Recovered`): which closing delimiters close
nothing, which collections have no closing delimiter, and which delimiter, of a
collection further out, cut them off.

The proof keeps two invariants of a tree under construction. An open node has no
closing delimiter yet, and an open quoted form has not got its form
(`Frame.Waiting`). A finished collection without a closing delimiter has been cut
off by a finished node around it (`Node.ResolvedUnless`). While nodes are being
closed, both hold only up to the innermost open node, which may have just
received its last child.

* `Outcome.waiting`, `Outcome.resolved`: placing a lexeme keeps the invariants;
* `recovered_read`: the tree of every text tells how its nesting is broken.
-/

namespace Typeahead

/-- The closing delimiter of the node `a` begins where the node `n` ends, and is
    not the one that `n` lacks. -/
def Node.Cuts (a n : Node) : Prop :=
  ∃ c ∈ a.children, c.kind = .closeDelim ∧ c.span.start = n.span.stop ∧
    a.kind.closer? ≠ n.kind.closer?

/-- The tree shows how the nesting of its source is broken. -/
structure Tree.Recovered (t : Tree) : Prop where
  /-- The root is no closing delimiter, and is closed by none. -/
  kind_root : t.root.kind = .root
  /-- A closing delimiter is the last child of its parent. -/
  closeDelim_last : ∀ n ∈ t.nodes, ∀ c ∈ n.children.dropLast, c.kind ≠ .closeDelim
  /-- The parent of a closing delimiter is a collection that it closes. -/
  closeDelim_own : ∀ n ∈ t.nodes, ∀ c ∈ n.children, c.kind = .closeDelim →
    n.kind.isCollection = true ∧ ∃ d, n.kind.closer? = some d ∧ t.chars c = [d]
  /-- An error is a closing delimiter, inside no collection that it closes. -/
  error_stray : ∀ l ∈ t.locations, l.node.kind = .error →
    l.node.children = [] ∧
      ∃ d, isCloser d = true ∧ t.chars l.node = [d] ∧ ∀ a ∈ l.above, a.kind.closer? ≠ some d
  /-- A collection without a closing delimiter ends with the source, or where
      that of a collection around it, which is a different one, begins. -/
  unclosed_cut : ∀ l ∈ t.locations, l.node.kind.isCollection = true → l.node.isClosed = false →
    l.node.span.stop = t.length ∨ ∃ a ∈ l.above, a.Cuts l.node
  /-- A quoted form begins with its sigil. -/
  quoted_sigil : ∀ n ∈ t.nodes, n.kind = .quoted → ∃ s rest, n.children = s :: rest ∧ s.kind = .sigil
  /-- A quoted form ends with the form that it quotes, so it quotes at most one. -/
  quoted_form : ∀ n ∈ t.nodes, n.kind = .quoted →
    ∀ c ∈ n.children.dropLast, c.kind.isForm = false

/-! ### Open nodes wait -/

/-- The laws of single finished nodes of a source `src`. -/
structure Node.Orderly (src : List Char) (n : Node) : Prop where
  nested : n.children ≠ [] → n.kind = .root ∨ n.kind.isNested = true
  closeDelim_last : ∀ c ∈ n.children.dropLast, c.kind ≠ .closeDelim
  closeDelim_own : ∀ c ∈ n.children, c.kind = .closeDelim →
    ∃ d, n.kind.closer? = some d ∧ slice src c.span.start c.span.stop = [d]
  quoted_sigil : n.kind = .quoted → ∃ s rest, n.children = s :: rest ∧ s.kind = .sigil
  quoted_form : n.kind = .quoted → ∀ c ∈ n.children.dropLast, c.kind.isForm = false

theorem Node.orderly_token {src : List Char} {id : Nat} {kind : Kind} {span : Span}
    (hk : kind ≠ .quoted) : (⟨id, kind, span, []⟩ : Node).Orderly src where
  nested h := absurd rfl h
  closeDelim_last _ hc := absurd hc List.not_mem_nil
  closeDelim_own _ hc := absurd hc List.not_mem_nil
  quoted_sigil h := absurd h hk
  quoted_form h := absurd h hk

namespace Frame

/-- The open node has its sigil, if it needs one, and no closing delimiter. -/
structure Begun (f : Frame) : Prop where
  nested : f.kind = .root ∨ f.kind.isNested = true
  no_closeDelim : ∀ c ∈ f.children, c.kind ≠ .closeDelim
  sigil : f.kind = .quoted → ∃ s rest, f.children.reverse = s :: rest ∧ s.kind = .sigil

/-- The open node may be closed: a quoted form has no form but its last child. -/
structure Closable (f : Frame) : Prop extends Begun f where
  form : f.kind = .quoted → ∀ c ∈ f.children.tail, c.kind.isForm = false

/-- The open node waits for more: a quoted form has no form at all. -/
structure Waiting (f : Frame) : Prop extends Begun f where
  no_form : f.kind = .quoted → ∀ c ∈ f.children, c.kind.isForm = false

variable {f : Frame} {n : Node}

theorem Begun.kind_ne_closeDelim (h : Begun f) : f.kind ≠ .closeDelim := by
  intro hk
  rcases h.nested with hroot | hnested
  · rw [hk] at hroot
    cases hroot
  · rw [hk] at hnested
    cases hnested

theorem Begun.add (h : Begun f) (hn : n.kind ≠ .closeDelim) : Begun (f.add n) where
  nested := h.nested
  no_closeDelim c hc := by
    rcases List.mem_cons.1 hc with rfl | hc
    · exact hn
    · exact h.no_closeDelim c hc
  sigil hk := by
    obtain ⟨s, rest, hs, hsigil⟩ := h.sigil hk
    exact ⟨s, rest ++ [n], by rw [Frame.add, List.reverse_cons, hs]; rfl, hsigil⟩

theorem Waiting.closable (h : Waiting f) : Closable f :=
  ⟨h.toBegun, fun hk c hc => h.no_form hk c (List.mem_of_mem_tail hc)⟩

theorem Closable.waiting (h : Closable f) (hk : f.kind ≠ .quoted) : Waiting f :=
  ⟨h.toBegun, fun hq => absurd hq hk⟩

/-- Any child may be the last one. -/
theorem Waiting.closable_add (h : Waiting f) (hn : n.kind ≠ .closeDelim) : Closable (f.add n) :=
  ⟨h.toBegun.add hn, h.no_form⟩

theorem Waiting.add (h : Waiting f) (hn : n.kind ≠ .closeDelim) (hform : n.kind.isForm = false) :
    Waiting (f.add n) := by
  refine ⟨h.toBegun.add hn, fun hk c hc => ?_⟩
  rcases List.mem_cons.1 hc with rfl | hc
  · exact hform
  · exact h.no_form hk c hc

theorem Closable.orderly (h : Closable f) (src : List Char) (stop : Nat) :
    (f.close stop).Orderly src where
  nested _ := h.nested
  closeDelim_last c hc := h.no_closeDelim c (List.mem_reverse.1 (List.dropLast_subset _ hc))
  closeDelim_own c hc hk := absurd hk (h.no_closeDelim c (List.mem_reverse.1 hc))
  quoted_sigil := h.sigil
  quoted_form hk c hc := by
    rw [Frame.close, List.dropLast_reverse, List.mem_reverse] at hc
    exact h.form hk c hc

/-- A collection is orderly once it is closed by its own delimiter. -/
theorem Waiting.orderly_close (h : Waiting f) {src : List Char} {d : Char}
    (hd : f.kind.closer? = some d) {id start stop : Nat} (htext : slice src start stop = [d]) :
    ((f.add ⟨id, .closeDelim, ⟨start, stop⟩, []⟩).close stop).Orderly src where
  nested _ := h.nested
  closeDelim_last c hc := by
    rw [Frame.close, List.dropLast_reverse, List.mem_reverse] at hc
    exact h.no_closeDelim c hc
  closeDelim_own c hc hk := by
    rcases List.mem_cons.1 (List.mem_reverse.1 hc) with rfl | hc
    · exact ⟨d, hd, htext⟩
    · exact absurd hk (h.no_closeDelim c hc)
  quoted_sigil hk := by
    have hk : f.kind = .quoted := hk
    rw [hk] at hd
    cases hd
  quoted_form hk := by
    have hk : f.kind = .quoted := hk
    rw [hk] at hd
    cases hd

end Frame

namespace Builder

variable {b b' : Builder} {start : Nat} {l : Lexeme} {src : List Char}

/-- The innermost open node may be closed, the others wait, and the finished
    nodes are orderly. -/
structure Closable (src : List Char) (b : Builder) : Prop where
  stacked : Stacked b.frames
  top : b.top.Closable
  below : ∀ f ∈ b.below, f.Waiting
  finished : Finished (Node.Orderly src) b

/-- All open nodes wait, and the finished ones are orderly. -/
structure Waiting (src : List Char) (b : Builder) : Prop where
  stacked : Stacked b.frames
  top : b.top.Waiting
  below : ∀ f ∈ b.below, f.Waiting
  finished : Finished (Node.Orderly src) b

theorem Waiting.closable (h : Waiting src b) : Closable src b :=
  ⟨h.stacked, h.top.closable, h.below, h.finished⟩

theorem Closable.waiting (h : Closable src b) (hk : b.top.kind ≠ .quoted) : Waiting src b :=
  ⟨h.stacked, h.top.waiting hk, h.below, h.finished⟩

theorem Closable.finish (h : Closable src b) (stop : Nat) : Closable src (b.finish stop) := by
  have hstacked := h.stacked.finish stop
  have hfinished := h.finished.finish (h.top.orderly src stop)
  cases hbelow : b.below with
  | nil => rwa [finish_nil hbelow]
  | cons f fs =>
    have hwaiting : ∀ g ∈ f :: fs, g.Waiting := hbelow ▸ h.below
    rw [finish_cons hbelow] at hstacked hfinished ⊢
    exact ⟨hstacked, (hwaiting f List.mem_cons_self).closable_add h.top.kind_ne_closeDelim,
      fun g hg => hwaiting g (List.mem_cons_of_mem _ hg), hfinished⟩

theorem Closable.closing {p : Kind → Prop} {stop : Nat} (h : Closable src b)
    (hc : Closing stop p b b') : Closable src b' :=
  hc.keeps (fun _ _ _ hb => hb.finish stop) h

/-- The innermost open node is the root or a node that has parts. -/
theorem Stacked.kind_of_below_eq_nil (h : Stacked b.frames) (hb : b.below = []) :
    b.top.kind = .root := by
  rw [frames, hb] at h
  exact h

theorem Closable.settle (h : Closable src b) (stop : Nat) : Waiting src (b.settle stop) := by
  have hclosable := h.closing (closing_settle b stop)
  refine hclosable.waiting ?_
  rcases kind_top_settle b stop with hnil | hk
  · rw [hclosable.stacked.kind_of_below_eq_nil hnil]
    decide
  · exact hk

theorem Waiting.token (h : Waiting src b) {kind : Kind} (hk : kind ≠ .closeDelim)
    (hform : kind.isForm = false) (span : Span) : Waiting src (b.token kind span) where
  stacked := h.stacked.token kind span
  top := h.top.add hk hform
  below := h.below
  finished := h.finished.token (Node.orderly_token (by rintro rfl; cases hform))

theorem Waiting.closable_token (h : Waiting src b) {kind : Kind} (hk : kind.isAtom = true)
    (span : Span) : Closable src (b.token kind span) where
  stacked := h.stacked.token kind span
  top := h.top.closable_add (by rintro rfl; cases hk)
  below := h.below
  finished := h.finished.token (Node.orderly_token (by rintro rfl; cases hk))

/-- A node that has just got its first token waits. -/
theorem Waiting.opening (h : Waiting src b) {kind first : Kind}
    (hk : kind.isCollection = true ∧ first = .openDelim ∨ kind = .quoted ∧ first = .sigil)
    (start : Nat) (span : Span) : Waiting src ((b.start kind start).token first span) := by
  have hnested : kind.isNested = true := by
    rcases hk with ⟨hk, -⟩ | ⟨rfl, -⟩
    · rw [Kind.isNested, hk, Bool.true_or]
    · rfl
  have hfirst : first ≠ .closeDelim ∧ first ≠ .quoted ∧ first.isForm = false := by
    rcases hk with ⟨-, rfl⟩ | ⟨-, rfl⟩ <;> decide
  refine ⟨h.stacked.start_token hnested start first span, ⟨⟨.inr hnested, ?_, ?_⟩, ?_⟩, ?_, ?_⟩
  · intro c hc
    rw [List.mem_singleton.1 hc]
    exact hfirst.1
  · rintro rfl
    rcases hk with ⟨hk, -⟩ | ⟨-, rfl⟩
    · cases hk
    · exact ⟨_, [], rfl, rfl⟩
  · intro _ c hc
    rw [List.mem_singleton.1 hc]
    exact hfirst.2.2
  · intro f hf
    rcases List.mem_cons.1 hf with rfl | hf
    · exact h.top
    · exact h.below f hf
  · exact (h.finished.start kind start).token (Node.orderly_token hfirst.2.1)

/-- A collection that waits may be closed by its own delimiter. -/
theorem Waiting.finish_closeDelim (h : Waiting src b) {d : Char}
    (hd : b.top.kind.closer? = some d) {start stop : Nat} (htext : slice src start stop = [d]) :
    Closable src ((b.token .closeDelim ⟨start, stop⟩).finish stop) := by
  have hstacked := (h.stacked.token .closeDelim ⟨start, stop⟩).finish stop
  have hfinished := (h.finished.token (Node.orderly_token (by decide))).finish
    (h.top.orderly_close hd htext)
  cases hbelow : b.below with
  | nil =>
    -- The root is no collection.
    rw [h.stacked.kind_of_below_eq_nil hbelow] at hd
    cases hd
  | cons f fs =>
    have hbelow' : (b.token .closeDelim ⟨start, stop⟩).below = f :: fs := hbelow
    have hwaiting : ∀ g ∈ f :: fs, g.Waiting := hbelow ▸ h.below
    rw [finish_cons hbelow'] at hstacked hfinished ⊢
    exact ⟨hstacked, (hwaiting f List.mem_cons_self).closable_add h.top.kind_ne_closeDelim,
      fun g hg => hwaiting g (List.mem_cons_of_mem _ hg), hfinished⟩

theorem Outcome.waiting (h : Outcome b start l b') (hb : Waiting src b)
    (hsrc : StandsAt src start l.text) : Waiting src b' := by
  cases h with
  | filler hk =>
    refine hb.token ?_ (Kind.isForm_of_isFiller hk) _
    rintro rfl
    cases hk
  | stray _ _ _ => exact hb.token (by decide) rfl _
  | opening hk => exact hb.opening hk _ _
  | atom hk => exact (hb.closable_token hk _).settle _
  | @closing d ht hopen =>
    have hd := closer?_top_unwindTo hopen start
    have hunwound : Waiting src (b.unwindTo d start) := by
      refine (hb.closable.closing (closing_unwindTo b d start)).waiting ?_
      intro hk
      rw [hk] at hd
      cases hd
    exact (hunwound.finish_closeDelim hd (hsrc.slice_eq.trans ht)).settle _

theorem Closable.toTree (hb : Closable src b) :
    b.toTree.root.kind = .root ∧ ∀ n ∈ b.toTree.nodes, n.Orderly src := by
  obtain ⟨b', hclosing, hnil, htree⟩ := exists_closing_toTree b
  have hb' := hb.closing hclosing
  rw [htree]
  exact ⟨hb'.stacked.kind_of_below_eq_nil hnil, hb'.finished.close (hb'.top.orderly src _)⟩

theorem waiting_reading (cs : List Char) : Waiting cs (reading cs) := by
  refine reading_induction (P := fun _ b => Waiting cs b) ?_ fun _ _ _ _ hb _ hsrc h =>
    h.waiting hb hsrc
  refine ⟨rfl, ⟨⟨.inl rfl, ?_, ?_⟩, ?_⟩, ?_, ?_⟩
  · exact fun c hc => absurd hc List.not_mem_nil
  · exact fun hk => nomatch hk
  · exact fun hk => nomatch hk
  · exact fun f hf => absurd hf List.not_mem_nil
  · intro f hf m hm
    rw [List.mem_singleton.1 hf] at hm
    exact absurd hm List.not_mem_nil

end Builder

/-! ### Unclosed collections are cut off -/

mutual

theorem Node.locations_append (xs above : List Node) : (n : Node) →
    n.locations (xs ++ above) = (n.locations xs).map fun l => ⟨l.node, l.above ++ above⟩
  | ⟨id, kind, span, ns⟩ => by
    have h := Node.locationsAll_append (⟨id, kind, span, ns⟩ :: xs) above ns
    rw [Node.locations, Node.locations, List.map_cons]
    exact congrArg _ h

theorem Node.locationsAll_append (xs above : List Node) : (ns : List Node) →
    Node.locationsAll (xs ++ above) ns =
      (Node.locationsAll xs ns).map fun l => ⟨l.node, l.above ++ above⟩
  | [] => rfl
  | n :: ns => by
    rw [Node.locationsAll, Node.locationsAll, List.map_append, Node.locations_append xs above n,
      Node.locationsAll_append xs above ns]

end

theorem Node.mem_locationsAll {l : Location} {above ns : List Node} :
    l ∈ Node.locationsAll above ns ↔ ∃ n ∈ ns, l ∈ n.locations above := by
  induction ns with
  | nil => simp [Node.locationsAll]
  | cons m ms ih => simp [Node.locationsAll, ih]

/-- If the location is that of a collection without a closing delimiter, then the
    collection is one of those that `pending` excepts, or cut off by a node
    around it. -/
def Location.ResolvedUnless (pending : Node → Prop) (l : Location) : Prop :=
  l.node.kind.isCollection = true → l.node.isClosed = false →
    pending l.node ∨ ∃ a ∈ l.above, a.Cuts l.node

/-- The collections without closing delimiters in the node are cut off inside the
    node, but for those that `pending` excepts. -/
def Node.ResolvedUnless (pending : Node → Prop) (n : Node) : Prop :=
  ∀ l ∈ n.locations [], l.ResolvedUnless pending

theorem Frame.isClosed_close_add {f : Frame} {n : Node} {stop : Nat} (hn : n.kind = .closeDelim) :
    ((f.add n).close stop).isClosed = true := by
  simp [Node.isClosed, Frame.close, Frame.add, hn]

/-- What is inside a node that gets closed is resolved if it was so before, or
    if the node cuts it off. -/
theorem Frame.resolved_close {f : Frame} {stop : Nat} {pending pending' : Node → Prop}
    (hself : Location.ResolvedUnless pending' ⟨f.close stop, []⟩)
    (hpending : ∀ n, pending n → pending' n ∨ (f.close stop).Cuts n)
    (h : ∀ m ∈ f.children, m.ResolvedUnless pending) :
    (f.close stop).ResolvedUnless pending' := by
  intro l hl
  rw [Frame.close, Node.locations] at hl
  rcases List.mem_cons.1 hl with rfl | hl
  · exact hself
  · obtain ⟨m, hm, hl⟩ := Node.mem_locationsAll.1 hl
    have happ := Node.locations_append [] [f.close stop] m
    rw [List.nil_append] at happ
    obtain ⟨k, hk, rfl⟩ := List.mem_map.1 (happ ▸ hl)
    intro hcollection hopen
    rcases h m (List.mem_reverse.1 hm) k hk hcollection hopen with hp | ⟨a, ha, hcut⟩
    · rcases hpending _ hp with hp | hcut
      · exact .inl hp
      · exact .inr ⟨_, List.mem_append_right _ (List.mem_singleton.2 rfl), hcut⟩
    · exact .inr ⟨a, List.mem_append_left _ ha, hcut⟩

namespace Builder

variable {b b' : Builder} {start stop : Nat} {l : Lexeme} {pending : Node → Prop}

/-- The finished nodes are resolved, those in the innermost open node but for
    what `pending` excepts. -/
structure ResolvedUnless (pending : Node → Prop) (b : Builder) : Prop where
  top : ∀ m ∈ b.top.children, m.ResolvedUnless pending
  below : ∀ f ∈ b.below, ∀ m ∈ f.children, m.ResolvedUnless fun _ => False

theorem ResolvedUnless.mono {pending' : Node → Prop} (h : ResolvedUnless pending b)
    (hpending : ∀ n, pending n → pending' n) : ResolvedUnless pending' b where
  top m hm l hl hcollection hopen :=
    (h.top m hm l hl hcollection hopen).imp_left (hpending _)
  below := h.below

theorem ResolvedUnless.finish (h : ResolvedUnless pending b) (hb : b.below ≠ [])
    {pending' : Node → Prop}
    (hself : Location.ResolvedUnless pending' ⟨b.top.close stop, []⟩)
    (hpending : ∀ n, pending n → pending' n ∨ (b.top.close stop).Cuts n) :
    ResolvedUnless pending' (b.finish stop) := by
  obtain ⟨f, fs, hbelow⟩ := List.exists_cons_of_ne_nil hb
  have hfs : ∀ g ∈ f :: fs, ∀ m ∈ g.children, m.ResolvedUnless fun _ => False :=
    hbelow ▸ h.below
  rw [finish_cons hbelow]
  refine ⟨fun m hm => ?_, fun g hg => hfs g (List.mem_cons_of_mem _ hg)⟩
  rcases List.mem_cons.1 hm with rfl | hm
  · exact Frame.resolved_close hself hpending h.top
  · intro k hk hcollection hopen
    exact (hfs f List.mem_cons_self m hm k hk hcollection hopen).imp_left False.elim

theorem ResolvedUnless.token (h : ResolvedUnless pending b) {kind : Kind}
    (hk : kind.isCollection = false) (span : Span) : ResolvedUnless pending (b.token kind span) := by
  refine ⟨fun m hm => ?_, h.below⟩
  rcases List.mem_cons.1 hm with rfl | hm
  · intro k hkm hcollection
    rw [Node.locations, Node.locationsAll, List.mem_singleton] at hkm
    rw [hkm, hk] at hcollection
    cases hcollection
  · exact h.top m hm

/-- A quoted form is no collection, so closing some changes nothing. -/
theorem ResolvedUnless.settle (h : ResolvedUnless pending b) (stop : Nat) :
    ResolvedUnless pending (b.settle stop) := by
  refine (closing_settle b stop).keeps (P := ResolvedUnless pending) ?_ h
  intro c hk hne hc
  refine hc.finish hne ?_ fun _ => .inl
  intro hcollection
  rw [Frame.close, hk] at hcollection
  cases hcollection

/-- The collections that unwinding to a delimiter leaves without one end where
    that delimiter begins, and are not closed by it. -/
theorem ResolvedUnless.unwindTo (h : ResolvedUnless (fun _ => False) b) (d : Char) (start : Nat) :
    ResolvedUnless (fun n => n.span.stop = start ∧ n.kind.closer? ≠ some d)
      (b.unwindTo d start) := by
  refine (closing_unwindTo b d start).keeps
    (P := ResolvedUnless fun n => n.span.stop = start ∧ n.kind.closer? ≠ some d) ?_
    (h.mono fun _ => False.elim)
  intro c hk hne hc
  exact hc.finish hne (fun _ _ => .inl ⟨rfl, hk⟩) fun _ => .inl

/-- A collection that is closed by its delimiter cuts off what ends there. -/
theorem ResolvedUnless.finish_closeDelim {d : Char}
    (h : ResolvedUnless (fun n => n.span.stop = start ∧ n.kind.closer? ≠ some d) b)
    (hb : b.below ≠ []) (hd : b.top.kind.closer? = some d) (stop : Nat) :
    ResolvedUnless (fun _ => False) ((b.token .closeDelim ⟨start, stop⟩).finish stop) := by
  refine (h.token rfl _).finish hb ?_ ?_
  · intro _ hopen
    rw [Builder.token, Frame.isClosed_close_add rfl] at hopen
    cases hopen
  · rintro n ⟨hstop, hne⟩
    refine .inr ⟨⟨b.next, .closeDelim, ⟨start, stop⟩, []⟩, ?_, rfl, hstop.symm, ?_⟩
    · exact List.mem_reverse.2 List.mem_cons_self
    · intro heq
      exact hne (heq.symm.trans hd)

theorem Outcome.resolved (h : Outcome b start l b') (hs : Stacked b.frames)
    (hb : ResolvedUnless (fun _ => False) b) : ResolvedUnless (fun _ => False) b' := by
  cases h with
  | filler hk => exact hb.token (Kind.isCollection_of_isForm (Kind.isForm_of_isFiller hk)) _
  | stray _ _ _ => exact hb.token rfl _
  | opening hk =>
    refine ResolvedUnless.token ⟨?_, ?_⟩ ?_ _
    · exact fun m hm => absurd hm List.not_mem_nil
    · intro f hf
      rcases List.mem_cons.1 hf with rfl | hf
      · exact hb.top
      · exact hb.below f hf
    · rcases hk with ⟨-, rfl⟩ | ⟨-, rfl⟩ <;> rfl
  | atom hk => exact (hb.token (Kind.isCollection_of_isAtom hk) _).settle _
  | @closing d ht hopen =>
    have hd := closer?_top_unwindTo hopen start
    have hne : (b.unwindTo d start).below ≠ [] := by
      intro hnil
      have hs' := ((closing_unwindTo b d start).leaves_eq hs).1
      rw [hs'.kind_of_below_eq_nil hnil] at hd
      cases hd
    exact ((hb.unwindTo d start).finish_closeDelim hne hd _).settle _

/-- At the end, what is still open ends with the source. -/
theorem ResolvedUnless.toTree (hb : ResolvedUnless (fun _ => False) b) :
    ∀ l ∈ b.toTree.locations, l.ResolvedUnless fun n => n.span.stop = byteLength b.source := by
  obtain ⟨b', hclosing, -, htree⟩ := exists_closing_toTree b
  have hb' : ResolvedUnless (fun n => n.span.stop = byteLength b.source) b' := by
    refine hclosing.keeps (P := ResolvedUnless fun n => n.span.stop = byteLength b.source) ?_
      (hb.mono fun _ => False.elim)
    intro c _ hne hc
    exact hc.finish hne (fun _ _ => .inl rfl) fun _ => .inl
  rw [htree]
  exact Frame.resolved_close (fun _ _ => .inl rfl) (fun _ => .inl) hb'.top

theorem resolved_reading (cs : List Char) :
    ResolvedUnless (fun _ => False) (reading cs) := by
  have h : Stacked (reading cs).frames ∧ ResolvedUnless (fun _ => False) (reading cs) := by
    refine reading_induction
      (P := fun _ b => Stacked b.frames ∧ ResolvedUnless (fun _ => False) b) ?_ ?_
    · exact ⟨rfl, fun m hm => absurd hm List.not_mem_nil, fun f hf => absurd hf List.not_mem_nil⟩
    · exact fun _ _ _ _ hb _ _ h => ⟨(h.leaves_eq hb.1).1, h.resolved hb.1 hb.2⟩
  exact h.2

/-! ### Delimiters that close nothing -/

/-- The errors among the leaves are closing delimiters of a source `src`, inside
    no collection that they close. -/
def Strays (src : List Char) (leaves : List Leaf) : Prop :=
  ∀ leaf ∈ leaves, leaf.node.kind = .error →
    ∃ d, isCloser d = true ∧ slice src leaf.node.span.start leaf.node.span.stop = [d] ∧
      ∀ g ∈ leaf.trail, g.kind.closer? ≠ some d

theorem Outcome.strays {src : List Char} (h : Outcome b start l b') (hs : Stacked b.frames)
    (hsrc : StandsAt src start l.text) (hb : Strays src b.leaves) : Strays src b'.leaves := by
  obtain ⟨-, leaf, hleaves, -, hspan, herror⟩ := h.leaves_eq hs
  rw [hleaves]
  intro k hk hkind
  rcases List.mem_append.1 hk with hk | hk
  · exact hb k hk hkind
  · rw [List.mem_singleton.1 hk] at hkind ⊢
    obtain ⟨d, hd, htext, htrail⟩ := herror hkind
    exact ⟨d, hd, by rw [hspan, hsrc.slice_eq, htext], htrail⟩

theorem strays_reading (cs : List Char) :
    Stacked (reading cs).frames ∧ Strays cs (reading cs).leaves := by
  refine reading_induction (P := fun _ b => Stacked b.frames ∧ Strays cs b.leaves) ?_ ?_
  · exact ⟨rfl, fun leaf hleaf => absurd hleaf List.not_mem_nil⟩
  · exact fun _ _ _ _ hb _ hsrc h => ⟨(h.leaves_eq hb.1).1, h.strays hb.1 hsrc hb.2⟩

end Builder

namespace Tree

/-- The root of the tree of a text is a root, and every node has its order. -/
theorem orderly_read (cs : List Char) :
    (Tree.read cs).root.kind = .root ∧ ∀ n ∈ (Tree.read cs).nodes, n.Orderly cs :=
  (Builder.waiting_reading cs).closable.toTree

variable {cs : List Char} {l : Location} {n c : Node}

theorem closeDelim_own_read (hn : n ∈ (Tree.read cs).nodes) (hc : c ∈ n.children)
    (hk : c.kind = .closeDelim) :
    n.kind.isCollection = true ∧ ∃ d, n.kind.closer? = some d ∧ (Tree.read cs).chars c = [d] := by
  obtain ⟨d, hd, htext⟩ := ((orderly_read cs).2 n hn).closeDelim_own c hc hk
  exact ⟨Kind.isCollection_of_closer? hd, d, hd, by rw [chars, source_read, htext]⟩

theorem error_stray_read (hl : l ∈ (Tree.read cs).locations) (hk : l.node.kind = .error) :
    l.node.children = [] ∧ ∃ d, isCloser d = true ∧ (Tree.read cs).chars l.node = [d] ∧
      ∀ a ∈ l.above, a.kind.closer? ≠ some d := by
  obtain ⟨hroot, horderly⟩ := orderly_read cs
  obtain ⟨hstacked, hstrays⟩ := Builder.strays_reading cs
  rw [← Builder.leaves_toTree hstacked] at hstrays
  have hn : l.node ∈ (Tree.read cs).nodes := by
    rw [nodes, ← Node.map_node_locations []]
    exact List.mem_map_of_mem hl
  have hnil : l.node.children = [] := by
    refine Decidable.byContradiction fun hne => ?_
    rcases (horderly l.node hn).nested hne with h | h <;> rw [hk] at h <;> cases h
  refine ⟨hnil, ?_⟩
  rcases mem_leaves_of_mem_locations hl hnil with rfl | hleaf
  · rw [hk] at hroot
    cases hroot
  · obtain ⟨d, hd, htext, htrail⟩ := hstrays _ hleaf hk
    refine ⟨d, hd, by rw [chars, source_read, htext], fun a ha => ?_⟩
    exact htrail a.heading (List.mem_map_of_mem ha)

theorem unclosed_cut_read (hl : l ∈ (Tree.read cs).locations)
    (hcollection : l.node.kind.isCollection = true) (hopen : l.node.isClosed = false) :
    l.node.span.stop = (Tree.read cs).length ∨ ∃ a ∈ l.above, a.Cuts l.node :=
  (Builder.resolved_reading cs).toTree l hl hcollection hopen

theorem below_of_kind_ne (hl : l ∈ (Tree.read cs).locations) (hroot : l.node.kind ≠ .root) :
    l ∈ (Tree.read cs).below := by
  rw [locations_eq] at hl
  rcases List.mem_cons.1 hl with rfl | hbelow
  · exact absurd (orderly_read cs).1 hroot
  · exact hbelow

end Tree

/-- The tree of every text shows how the nesting of the text is broken. -/
theorem Tree.recovered_read (cs : List Char) : (Tree.read cs).Recovered := by
  obtain ⟨hroot, horderly⟩ := orderly_read cs
  exact ⟨hroot, fun n hn => (horderly n hn).closeDelim_last, fun _ hn _ => closeDelim_own_read hn,
    fun _ => error_stray_read, fun _ => unclosed_cut_read,
    fun n hn => (horderly n hn).quoted_sigil, fun n hn => (horderly n hn).quoted_form⟩

end Typeahead
