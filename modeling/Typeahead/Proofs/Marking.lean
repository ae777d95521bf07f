import Typeahead.Proofs.Twins

/-!
# A marker more

Where a marker is put into a text between two lexemes, the tree gets one node more: it
becomes a child of the innermost open node, its host. The nodes that are finished there
stay as they are, those that are open end later, and all that come after it are shifted
and get the next higher numbers (`Node.mark`).

* `Builder.placeAll_mark`: placing lexemes commutes with marking;
* `Builder.token_eq_mark`: the marker itself, as it is added.
-/

namespace Typeahead

/-- A marker that stands at an offset, as a child of the node with the number `host`,
    and takes the number `id`. -/
structure Mark where
  host : Nat
  id : Nat
  offset : Nat

namespace Mark

variable (m : Mark)

/-- The node of the marker. -/
def node : Node := ⟨m.id, .formComment, ⟨m.offset, m.offset + 2⟩, []⟩

/-- Siblings with the marker in between, after those that end before it. -/
def splice (ns : List Node) : List Node :=
  ns.takeWhile (·.span.stop ≤ m.offset) ++ m.node :: ns.dropWhile (·.span.stop ≤ m.offset)

/-- The children of the node with the number `id`: the host has the marker, too. -/
def into (id : Nat) (ns : List Node) : List Node := if id = m.host then m.splice ns else ns

variable {m}

theorem splice_concat {n : Node} (h : m.offset < n.span.stop) (ns : List Node) :
    m.splice (ns ++ [n]) = m.splice ns ++ [n] := by
  induction ns with
  | nil => simp [splice, h]
  | cons k ns ih =>
    by_cases hk : k.span.stop ≤ m.offset
    · simpa [splice, hk] using ih
    · simp [splice, hk]

theorem into_concat {n : Node} (h : m.offset < n.span.stop) (id : Nat) (ns : List Node) :
    m.into id (ns ++ [n]) = m.into id ns ++ [n] := by
  rw [into, into]
  split
  · exact splice_concat h ns
  · rfl

theorem into_of_ne {id : Nat} (h : id ≠ m.host) (ns : List Node) : m.into id ns = ns := if_neg h

/-- The marker comes after everything that ends before it. -/
theorem splice_append {pre post : List Node} (hpre : ∀ n ∈ pre, n.span.stop ≤ m.offset)
    (hpost : ∀ n ∈ post, m.offset < n.span.stop) :
    m.splice (pre ++ post) = pre ++ m.node :: post := by
  have hall : ∀ n ∈ pre, decide (n.span.stop ≤ m.offset) = true := fun n hn =>
    decide_eq_true (hpre n hn)
  have hnone : post.takeWhile (·.span.stop ≤ m.offset) = [] ∧
      post.dropWhile (·.span.stop ≤ m.offset) = post := by
    cases post with
    | nil => exact ⟨rfl, rfl⟩
    | cons n post => simp [hpost n List.mem_cons_self]
  rw [splice, List.takeWhile_append_of_pos hall, List.dropWhile_append_of_pos hall, hnone.1,
    hnone.2, List.append_nil]

end Mark

/-! ### Marked nodes -/

/-- What the heading of a node becomes. -/
def Heading.mark (m : Mark) (h : Heading) : Heading :=
  if h.id < m.id then h else ⟨h.id + 1, h.kind, h.start + 2⟩

theorem Heading.kind_mark (m : Mark) (h : Heading) : (h.mark m).kind = h.kind := by
  rw [Heading.mark]
  split <;> rfl

mutual

/-- What a node becomes; one that ends before the marker stays as it is. -/
def Node.mark (m : Mark) : Node → Node
  | ⟨id, kind, span, children⟩ =>
    if span.stop ≤ m.offset then ⟨id, kind, span, children⟩
    else
      let h := Heading.mark m ⟨id, kind, span.start⟩
      ⟨h.id, h.kind, ⟨h.start, span.stop + 2⟩, m.into id (Node.markAll m children)⟩

/-- What nodes become. -/
def Node.markAll (m : Mark) : List Node → List Node
  | [] => []
  | n :: ns => n.mark m :: Node.markAll m ns

end

theorem Node.markAll_eq_map (m : Mark) (ns : List Node) :
    Node.markAll m ns = ns.map (·.mark m) := by
  induction ns with
  | nil => rfl
  | cons n ns ih => rw [Node.markAll, ih, List.map_cons]

namespace Node

variable {m : Mark} {n : Node}

theorem mark_of_stop_le (h : n.span.stop ≤ m.offset) : n.mark m = n := by
  obtain ⟨id, kind, span, children⟩ := n
  rw [mark, if_pos h]

theorem mark_of_lt_stop (h : m.offset < n.span.stop) :
    n.mark m = ⟨(n.heading.mark m).id, n.kind, ⟨(n.heading.mark m).start, n.span.stop + 2⟩,
      m.into n.id (n.children.map (·.mark m))⟩ := by
  obtain ⟨id, kind, span, children⟩ := n
  rw [mark, if_neg (Nat.not_le.2 h), markAll_eq_map]
  dsimp only
  rw [Heading.kind_mark]
  rfl

@[simp] theorem kind_mark (m : Mark) (n : Node) : (n.mark m).kind = n.kind := by
  by_cases h : n.span.stop ≤ m.offset
  · rw [mark_of_stop_le h]
  · rw [mark_of_lt_stop (Nat.lt_of_not_le h)]

theorem stop_mark_le_iff : (n.mark m).span.stop ≤ m.offset ↔ n.span.stop ≤ m.offset := by
  by_cases h : n.span.stop ≤ m.offset
  · rw [mark_of_stop_le h]
  · rw [mark_of_lt_stop (Nat.lt_of_not_le h)]
    simp only
    omega

end Node

namespace Frame

/-- What an open node becomes. -/
def mark (m : Mark) (f : Frame) : Frame :=
  let h := f.heading.mark m
  ⟨h.id, h.kind, h.start, (m.into f.id (Node.markAll m f.children).reverse).reverse⟩

variable {m : Mark} {stop : Nat}

theorem kind_mark (f : Frame) : (f.mark m).kind = f.kind := f.heading.kind_mark m

theorem add_mark {n : Node} (h : m.offset < n.span.stop) (f : Frame) :
    (f.add n).mark m = (f.mark m).add (n.mark m) := by
  have hstop : m.offset < (n.mark m).span.stop :=
    Nat.lt_of_not_le fun hle => absurd (Node.stop_mark_le_iff.1 hle) (Nat.not_le.2 h)
  rw [mark, add, Node.markAll, List.reverse_cons, Mark.into_concat hstop, List.reverse_append]
  rfl

theorem close_mark (hstop : m.offset < stop) (f : Frame) :
    (f.close stop).mark m = (f.mark m).close (stop + 2) := by
  rw [close, Node.mark, if_neg (Nat.not_le.2 hstop), Node.markAll_eq_map, List.map_reverse,
    ← Node.markAll_eq_map, close, mark, List.reverse_reverse]
  rfl

theorem add_close_mark (hstop : m.offset < stop) (f top : Frame) :
    (f.add (top.close stop)).mark m = (f.mark m).add ((top.mark m).close (stop + 2)) := by
  rw [add_mark hstop, close_mark hstop]

theorem closeAll_mark (hstop : m.offset < stop) (below : List Frame) (top : Frame) :
    (closeAll stop top below).mark m =
      closeAll (stop + 2) (top.mark m) (below.map (·.mark m)) := by
  induction below generalizing top with
  | nil => exact close_mark hstop top
  | cons f fs ih => rw [closeAll, ih, List.map_cons, closeAll, add_close_mark hstop]

end Frame

/-! ### Marked constructions -/

namespace Builder

variable {m : Mark} {b : Builder} {src : List Char}

/-- What a tree under construction becomes, over another source. -/
def mark (m : Mark) (src : List Char) (b : Builder) : Builder :=
  { source := src
    top := b.top.mark m
    below := b.below.map (·.mark m)
    next := b.next + 1 }

/-- The marker and its host were numbered already. -/
structure Passed (m : Mark) (b : Builder) : Prop where
  host_lt : m.host < m.id
  id_le : m.id ≤ b.next

namespace Passed

theorem start (h : Passed m b) (kind : Kind) (start : Nat) : Passed m (b.start kind start) :=
  ⟨h.host_lt, Nat.le_succ_of_le h.id_le⟩

theorem token (h : Passed m b) (kind : Kind) (span : Span) : Passed m (b.token kind span) :=
  ⟨h.host_lt, Nat.le_succ_of_le h.id_le⟩

theorem finish (h : Passed m b) (stop : Nat) : Passed m (b.finish stop) :=
  ⟨h.host_lt, (next_finish b stop).symm ▸ h.id_le⟩

theorem closing {b' : Builder} {stop : Nat} {p : Kind → Prop} (h : Passed m b)
    (hc : Closing stop p b b') : Passed m b' :=
  hc.keeps (fun _ _ _ hb => hb.finish stop) h

theorem place (h : Passed m b) (start : Nat) (l : Lexeme) : Passed m (b.place start l) :=
  ⟨h.host_lt, Nat.le_trans h.id_le (next_place b start l ▸ Nat.le_add_right ..)⟩

theorem heading_mark (h : Passed m b) (kind : Kind) (start : Nat) :
    Heading.mark m ⟨b.next, kind, start⟩ = ⟨b.next + 1, kind, start + 2⟩ :=
  if_neg (Nat.not_lt.2 h.id_le)

theorem next_ne (h : Passed m b) : b.next ≠ m.host :=
  Nat.ne_of_gt (Nat.lt_of_lt_of_le h.host_lt h.id_le)

end Passed

variable {start stop : Nat}

theorem start_mark (h : Passed m b) (kind : Kind) :
    (b.mark m src).start kind (start + 2) = (b.start kind start).mark m src := by
  have hframe : Frame.mark m ⟨b.next, kind, start, []⟩ = ⟨b.next + 1, kind, start + 2, []⟩ := by
    rw [Frame.mark, Frame.heading, h.heading_mark, Mark.into_of_ne h.next_ne]
    rfl
  rw [Builder.start, Builder.start, mark, mark, hframe]
  rfl

theorem token_mark (h : Passed m b) (hstop : m.offset < stop) (kind : Kind) :
    (b.mark m src).token kind ⟨start + 2, stop + 2⟩ = (b.token kind ⟨start, stop⟩).mark m src := by
  have hnode : Node.mark m ⟨b.next, kind, ⟨start, stop⟩, []⟩ =
      ⟨b.next + 1, kind, ⟨start + 2, stop + 2⟩, []⟩ := by
    rw [Node.mark, if_neg (Nat.not_le.2 hstop), h.heading_mark, Mark.into_of_ne h.next_ne]
    rfl
  have hadd := Frame.add_mark (m := m) (n := ⟨b.next, kind, ⟨start, stop⟩, []⟩) hstop b.top
  rw [token, token, mark, mark, hadd, hnode]

theorem finish_mark (hstop : m.offset < stop) :
    (b.mark m src).finish (stop + 2) = (b.finish stop).mark m src := by
  cases hbelow : b.below with
  | nil =>
    have hmark : (b.mark m src).below = [] := by rw [mark, hbelow]; rfl
    rw [finish_nil hbelow, finish_nil hmark]
  | cons f fs =>
    have hmark : (b.mark m src).below = f.mark m :: fs.map (·.mark m) := by rw [mark, hbelow]; rfl
    rw [finish_cons hbelow, finish_cons hmark, mark, mark, Frame.add_close_mark hstop]

theorem settle_mark (hstop : m.offset < stop) :
    (b.mark m src).settle (stop + 2) = (b.settle stop).mark m src := by
  suffices hgo : ∀ (below : List Frame) (top : Frame),
      settle.go (stop + 2) (b.mark m src) (top.mark m) (below.map (·.mark m)) =
        (settle.go stop b top below).mark m src from hgo _ _
  intro below
  induction below with
  | nil => exact fun _ => rfl
  | cons f fs ih =>
    intro top
    rw [List.map_cons, settle.go, settle.go, Frame.kind_mark]
    split
    · rw [← Frame.add_close_mark hstop]
      exact ih _
    · rfl

theorem unwindTo_mark (hstop : m.offset < stop) (d : Char) :
    (b.mark m src).unwindTo d (stop + 2) = (b.unwindTo d stop).mark m src := by
  suffices hgo : ∀ (below : List Frame) (top : Frame),
      unwindTo.go d (stop + 2) (b.mark m src) (top.mark m) (below.map (·.mark m)) =
        (unwindTo.go d stop b top below).mark m src from hgo _ _
  intro below
  induction below with
  | nil => exact fun _ => rfl
  | cons f fs ih =>
    intro top
    rw [List.map_cons, unwindTo.go, unwindTo.go, Frame.kind_mark]
    split
    · rfl
    · rw [← Frame.add_close_mark hstop]
      exact ih _

theorem closes_mark (d : Char) : (b.mark m src).closes d = b.closes d := by
  have hframes : (b.mark m src).closes d = (b.frames.map (·.mark m)).any
      (·.kind.closer? == some d) := rfl
  rw [hframes, List.any_map]
  simp only [Function.comp_def, Frame.kind_mark]
  rfl

/-- Placing a lexeme after the marker commutes with marking. A closing delimiter ends
    nodes where it starts, and so must not stand right at the marker. -/
theorem place_mark (h : Passed m b) {l : Lexeme} (hstop : m.offset < start + byteLength l.text)
    (hcloser : ∀ d, l.shape = .closer d → m.offset < start) :
    (b.mark m src).place (start + 2) l = (b.place start l).mark m src := by
  rw [place.eq_def, place.eq_def]
  simp only [Nat.add_right_comm start 2]
  split
  · rw [token_mark h hstop]
  · rw [token_mark h hstop]
  · rw [token_mark h hstop]
  · rw [start_mark h, token_mark (h.start _ _) hstop]
  · rw [start_mark h, token_mark (h.start _ _) hstop]
  · rw [token_mark h hstop, settle_mark hstop]
  · next d hd =>
    rw [closes_mark]
    split
    · rw [unwindTo_mark (hcloser d hd), token_mark (h.closing (closing_unwindTo b d start)) hstop,
        finish_mark hstop, settle_mark hstop]
    · rw [token_mark h hstop]

/-- Placing lexemes after the marker commutes with marking. -/
theorem placeAll_mark (h : Passed m b) (hstart : m.offset < start) {ls : List Lexeme} :
    (b.mark m src).placeAll (start + 2) ls = (b.placeAll start ls).mark m src := by
  induction ls generalizing b start with
  | nil => rfl
  | cons l ls ih =>
    have hstop := Nat.lt_of_lt_of_le hstart (Nat.le_add_right start (byteLength l.text))
    rw [placeAll, placeAll, place_mark h hstop fun _ _ => hstart, Nat.add_right_comm]
    exact ih (h.place start l) hstop

theorem root_toTree_mark (hoffset : m.offset < byteLength b.source)
    (hsrc : byteLength src = byteLength b.source + 2) :
    (b.mark m src).toTree.root = b.toTree.root.mark m := by
  have hroot : ∀ c : Builder,
      c.toTree.root = Frame.closeAll (byteLength c.source) c.top c.below := fun _ => rfl
  rw [hroot, hroot, Frame.closeAll_mark hoffset, ← hsrc]
  rfl

/-- The mark of a marker that is added at the offset `pos`. -/
def nextMark (b : Builder) (pos : Nat) : Mark := ⟨b.top.id, b.next, pos⟩

theorem Orderly.passed {pos : Nat} (h : Orderly pos b) : Passed (b.nextMark pos) b :=
  ⟨id_lt_of_mem_frames h.ids_eq List.mem_cons_self, Nat.le_refl _⟩

/-- Adding the marker marks what there is. -/
theorem token_eq_mark {pos : Nat} (h : Orderly pos b) :
    b.token .formComment ⟨pos, pos + 2⟩ = b.mark (b.nextMark pos) b.source := by
  have hspans := h.laid.tiled.1.stop_le fun k hk n hn => h.laid.le k hk n hn n n.mem_preorder_self
  have hheading : ∀ f ∈ b.frames, Heading.mark (b.nextMark pos) f.heading = f.heading :=
    fun f hf => if_pos (id_lt_of_mem_frames h.ids_eq hf)
  have hchildren : ∀ f ∈ b.frames, Node.markAll (b.nextMark pos) f.children = f.children := by
    intro f hf
    rw [Node.markAll_eq_map, List.map_congr_left (g := id), List.map_id]
    exact fun n hn => Node.mark_of_stop_le ((hspans f hf).2 n hn)
  have htop : b.top.mark (b.nextMark pos) =
      b.top.add ⟨b.next, .formComment, ⟨pos, pos + 2⟩, []⟩ := by
    have hsplice : (b.nextMark pos).splice (b.top.children.reverse ++ []) =
        b.top.children.reverse ++ [(b.nextMark pos).node] :=
      Mark.splice_append (fun n hn => (hspans _ List.mem_cons_self).2 n (List.mem_reverse.1 hn))
        fun n hn => absurd hn List.not_mem_nil
    have hhost : b.top.id = (b.nextMark pos).host := rfl
    rw [List.append_nil] at hsplice
    rw [Frame.mark, hheading _ List.mem_cons_self, hchildren _ List.mem_cons_self, Mark.into,
      if_pos hhost, hsplice, List.reverse_append, List.reverse_reverse]
    rfl
  have hbelow : b.below.map (·.mark (b.nextMark pos)) = b.below := by
    have hnodup := nodup_idsIn_frames h.ids_eq
    rw [frames, idsIn, List.nodup_append] at hnodup
    rw [List.map_congr_left (g := id), List.map_id]
    intro f hf
    have hmem : f ∈ b.frames := List.mem_cons_of_mem _ hf
    have hne : f.id ≠ (b.nextMark pos).host :=
      hnodup.2.2 _ (mem_idsIn.2 ⟨f, hf, .inl rfl⟩) _ List.mem_cons_self
    rw [Frame.mark, hheading f hmem, hchildren f hmem, Mark.into_of_ne hne, List.reverse_reverse]
    rfl
  rw [token, mark, htop, hbelow]

end Builder

end Typeahead
