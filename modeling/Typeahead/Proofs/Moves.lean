import Typeahead.Proofs.WordInBlank

/-!
# Moving a tree

Where a word is put into a text, the nodes around it end later, those after it are
shifted and get higher numbers, and the innermost collection around it may change
in itself (`Node.move`). What comes after that collection is built in the same
steps as without the word.

* `Builder.placeAll_move`: placing lexemes commutes with moving nodes;
* `Builder.exists_move`: a tree with some tokens more in a node is the other tree,
  moved.
-/

namespace Typeahead

/-! ### Moving what comes later -/

/-- A change of a tree: the node with the number of `node` becomes `node`, what
    starts after the offset moves on by so many bytes and has numbers higher by
    `ids`, and what is around the offset ends so much later. -/
structure Gap where
  node : Node
  offset : Nat
  ids : Nat
  bytes : Nat

/-- What the heading of a node becomes. -/
def Heading.move (g : Gap) (h : Heading) : Heading :=
  if h.start ≤ g.offset then h else ⟨h.id + g.ids, h.kind, h.start + g.bytes⟩

mutual

/-- What a node becomes; one that ends before the offset stays as it is. -/
def Node.move (g : Gap) : Node → Node
  | ⟨id, kind, span, children⟩ =>
    if span.stop ≤ g.offset then ⟨id, kind, span, children⟩
    else if id = g.node.id then g.node
    else
      let h := Heading.move g ⟨id, kind, span.start⟩
      ⟨h.id, h.kind, ⟨h.start, span.stop + g.bytes⟩, Node.moveAll g children⟩

/-- What nodes become. -/
def Node.moveAll (g : Gap) : List Node → List Node
  | [] => []
  | n :: ns => n.move g :: Node.moveAll g ns

end

theorem Node.moveAll_eq_map (g : Gap) (ns : List Node) : Node.moveAll g ns = ns.map (·.move g) := by
  induction ns with
  | nil => rfl
  | cons n ns ih => rw [Node.moveAll, ih, List.map_cons]

theorem Heading.kind_move (g : Gap) (h : Heading) : (h.move g).kind = h.kind := by
  rw [Heading.move]
  split <;> rfl

namespace Node

variable {g : Gap} {n : Node}

theorem move_of_stop_le (h : n.span.stop ≤ g.offset) : n.move g = n := by
  obtain ⟨id, kind, span, children⟩ := n
  rw [move, if_pos h]

theorem move_of_id_eq (h : g.offset < n.span.stop) (hid : n.id = g.node.id) :
    n.move g = g.node := by
  obtain ⟨id, kind, span, children⟩ := n
  rw [move, if_neg (Nat.not_le.2 h), if_pos hid]

theorem move_of_id_ne (h : g.offset < n.span.stop) (hid : n.id ≠ g.node.id) :
    n.move g = ⟨(n.heading.move g).id, n.kind, ⟨(n.heading.move g).start, n.span.stop + g.bytes⟩,
      n.children.map (·.move g)⟩ := by
  obtain ⟨id, kind, span, children⟩ := n
  rw [move, if_neg (Nat.not_le.2 h), if_neg hid, moveAll_eq_map]
  dsimp only
  rw [Heading.kind_move]
  rfl

end Node

/-- What a location becomes. -/
def Location.move (g : Gap) (l : Location) : Location := ⟨l.node.move g, l.above.map (·.move g)⟩

theorem Location.chain_map_move (g : Gap) (ns : List Node) :
    chain (ns.map (·.move g)) = (chain ns).map (·.move g) := by
  induction ns with
  | nil => rfl
  | cons n ns ih =>
    rw [List.map_cons, chain, ih]
    rfl

namespace Frame

theorem id_ne_add {id : Nat} {top f : Frame} {fs : List Frame}
    (h : ∀ k ∈ top :: f :: fs, k.id ≠ id) (n : Node) : ∀ k ∈ f.add n :: fs, k.id ≠ id := by
  intro k hk
  rcases List.mem_cons.1 hk with rfl | hk
  · exact h f (by simp)
  · exact h k (by simp [hk])

/-- What an open node becomes. -/
def move (g : Gap) (f : Frame) : Frame :=
  let h := f.heading.move g
  ⟨h.id, h.kind, h.start, Node.moveAll g f.children⟩

variable {g : Gap} {stop : Nat}

theorem kind_move (f : Frame) : (f.move g).kind = f.kind := f.heading.kind_move g

theorem add_move (f : Frame) (n : Node) : (f.add n).move g = (f.move g).add (n.move g) := rfl

theorem close_move {f : Frame} (hf : f.id ≠ g.node.id) (hstop : g.offset < stop) :
    (f.close stop).move g = (f.move g).close (stop + g.bytes) := by
  rw [close, Node.move, if_neg (Nat.not_le.2 hstop), if_neg hf, Node.moveAll_eq_map,
    List.map_reverse, ← Node.moveAll_eq_map]
  rfl

theorem closeAll_move (hstop : g.offset < stop) (below : List Frame) (top : Frame)
    (hids : ∀ f ∈ top :: below, f.id ≠ g.node.id) :
    (closeAll stop top below).move g =
      closeAll (stop + g.bytes) (top.move g) (below.map (·.move g)) := by
  induction below generalizing top with
  | nil => exact close_move (hids top List.mem_cons_self) hstop
  | cons f fs ih =>
    rw [closeAll, ih _ (id_ne_add hids _), List.map_cons, closeAll, add_move,
      close_move (hids top List.mem_cons_self) hstop]

end Frame

namespace Builder

variable {g : Gap} {b : Builder} {src : List Char}

/-- What a tree under construction becomes, over another source. -/
def move (g : Gap) (src : List Char) (b : Builder) : Builder :=
  { source := src
    top := b.top.move g
    below := b.below.map (·.move g)
    next := b.next + g.ids }

/-- The node that changes was numbered already, and is no longer open. -/
structure Misses (g : Gap) (b : Builder) : Prop where
  id_lt : g.node.id < b.next
  id_ne : ∀ f ∈ b.frames, f.id ≠ g.node.id

theorem Misses.start (h : Misses g b) (kind : Kind) (start : Nat) :
    Misses g (b.start kind start) := by
  refine ⟨Nat.lt_succ_of_lt h.id_lt, fun f hf => ?_⟩
  rcases List.mem_cons.1 hf with rfl | hf
  · exact Nat.ne_of_gt h.id_lt
  · exact h.id_ne f hf

theorem Misses.token (h : Misses g b) (kind : Kind) (span : Span) :
    Misses g (b.token kind span) := by
  refine ⟨Nat.lt_succ_of_lt h.id_lt, fun f hf => ?_⟩
  rcases List.mem_cons.1 hf with rfl | hf
  · exact h.id_ne b.top List.mem_cons_self
  · exact h.id_ne f (List.mem_cons_of_mem _ hf)

theorem Misses.finish (h : Misses g b) (stop : Nat) : Misses g (b.finish stop) := by
  rw [Builder.finish]
  split
  · exact h
  · next f fs hbelow =>
    have hids := h.id_ne
    rw [frames, hbelow] at hids
    exact ⟨h.id_lt, Frame.id_ne_add hids _⟩

theorem Misses.closing {b' : Builder} {stop : Nat} {p : Kind → Prop} (h : Misses g b)
    (hc : Closing stop p b b') : Misses g b' :=
  hc.keeps (fun _ _ _ hb => hb.finish stop) h

variable {start stop : Nat}

theorem start_move (hstart : g.offset < start) (kind : Kind) :
    (b.move g src).start kind (start + g.bytes) = (b.start kind start).move g src := by
  have hframe : Frame.move g ⟨b.next, kind, start, []⟩ =
      ⟨b.next + g.ids, kind, start + g.bytes, []⟩ := by
    rw [Frame.move, Frame.heading, Heading.move, if_neg (Nat.not_le.2 hstart)]
    rfl
  rw [Builder.start, Builder.start, move, move, hframe, Nat.add_right_comm]
  rfl

theorem token_move (h : Misses g b) (hstart : g.offset < start) (hle : start ≤ stop) (kind : Kind) :
    (b.move g src).token kind ⟨start + g.bytes, stop + g.bytes⟩ =
      (b.token kind ⟨start, stop⟩).move g src := by
  have hnode : Node.move g ⟨b.next, kind, ⟨start, stop⟩, []⟩ =
      ⟨b.next + g.ids, kind, ⟨start + g.bytes, stop + g.bytes⟩, []⟩ := by
    rw [Node.move, if_neg (Nat.not_le.2 (Nat.lt_of_lt_of_le hstart hle)),
      if_neg (Nat.ne_of_gt h.id_lt), Heading.move, if_neg (Nat.not_le.2 hstart)]
    rfl
  rw [token, token, move, move, Frame.add_move, hnode, Nat.add_right_comm]

theorem finish_move (h : Misses g b) (hstop : g.offset < stop) :
    (b.move g src).finish (stop + g.bytes) = (b.finish stop).move g src := by
  cases hbelow : b.below with
  | nil =>
    have hmove : (b.move g src).below = [] := by rw [move, hbelow]; rfl
    rw [finish_nil hbelow, finish_nil hmove]
  | cons f fs =>
    have hmove : (b.move g src).below = f.move g :: fs.map (·.move g) := by rw [move, hbelow]; rfl
    have hclose := Frame.close_move (h.id_ne b.top List.mem_cons_self) hstop
    rw [finish_cons hbelow, finish_cons hmove, move, move, Frame.add_move, hclose]

theorem settle_move (h : Misses g b) (hstop : g.offset < stop) :
    (b.move g src).settle (stop + g.bytes) = (b.settle stop).move g src := by
  suffices hgo : ∀ (below : List Frame) (top : Frame), (∀ f ∈ top :: below, f.id ≠ g.node.id) →
      settle.go (stop + g.bytes) (b.move g src) (top.move g) (below.map (·.move g)) =
        (settle.go stop b top below).move g src from hgo _ _ h.id_ne
  intro below
  induction below with
  | nil => exact fun _ _ => rfl
  | cons f fs ih =>
    intro top hids
    rw [List.map_cons, settle.go, settle.go, Frame.kind_move]
    split
    · rw [← Frame.close_move (hids top List.mem_cons_self) hstop, ← Frame.add_move]
      exact ih _ (Frame.id_ne_add hids _)
    · rfl

theorem unwindTo_move (h : Misses g b) (hstop : g.offset < stop) (d : Char) :
    (b.move g src).unwindTo d (stop + g.bytes) = (b.unwindTo d stop).move g src := by
  suffices hgo : ∀ (below : List Frame) (top : Frame), (∀ f ∈ top :: below, f.id ≠ g.node.id) →
      unwindTo.go d (stop + g.bytes) (b.move g src) (top.move g) (below.map (·.move g)) =
        (unwindTo.go d stop b top below).move g src from hgo _ _ h.id_ne
  intro below
  induction below with
  | nil => exact fun _ _ => rfl
  | cons f fs ih =>
    intro top hids
    rw [List.map_cons, unwindTo.go, unwindTo.go, Frame.kind_move]
    split
    · rfl
    · rw [← Frame.close_move (hids top List.mem_cons_self) hstop, ← Frame.add_move]
      exact ih _ (Frame.id_ne_add hids _)

theorem closes_move (d : Char) : (b.move g src).closes d = b.closes d := by
  have hframes : (b.move g src).closes d = (b.frames.map (·.move g)).any
      (·.kind.closer? == some d) := rfl
  rw [hframes, List.any_map]
  simp only [Function.comp_def, Frame.kind_move]
  rfl

theorem place_move (h : Misses g b) (hstart : g.offset < start) (l : Lexeme) :
    (b.move g src).place (start + g.bytes) l = (b.place start l).move g src := by
  have hle : start ≤ start + byteLength l.text := Nat.le_add_right ..
  have hstop : g.offset < start + byteLength l.text := Nat.lt_of_lt_of_le hstart hle
  rw [place.eq_def, place.eq_def]
  simp only [Nat.add_right_comm start g.bytes]
  split
  · rw [token_move h hstart hle]
  · rw [token_move h hstart hle]
  · rw [token_move h hstart hle]
  · rw [start_move hstart, token_move (h.start _ _) hstart hle]
  · rw [start_move hstart, token_move (h.start _ _) hstart hle]
  · rw [token_move h hstart hle, settle_move (h.token _ _) hstop]
  · next d _ =>
    have hunwound := h.closing (closing_unwindTo b d start)
    have htoken := hunwound.token .closeDelim ⟨start, start + byteLength l.text⟩
    rw [closes_move]
    split
    · rw [unwindTo_move h hstart, token_move hunwound hstart hle, finish_move htoken hstop,
        settle_move (htoken.finish _) hstop]
    · rw [token_move h hstart hle]

theorem Misses.place (h : Misses g b) {l : Lexeme} (hl : l.Sound) (start : Nat) :
    Misses g (b.place start l) :=
  (outcome_place hl b start).keeps (fun _ _ _ hb => hb.start _ _) (fun _ _ _ hb => hb.token _ _)
    (fun _ _ hb => hb.finish _) h

/-- Placing lexemes commutes with moving nodes. -/
theorem placeAll_move (src : List Char) (h : Misses g b) (hstart : g.offset < start)
    {ls : List Lexeme} (hls : ∀ l ∈ ls, l.Sound) :
    (b.move g src).placeAll (start + g.bytes) ls = (b.placeAll start ls).move g src ∧
      Misses g (b.placeAll start ls) := by
  induction ls generalizing b start with
  | nil => exact ⟨rfl, h⟩
  | cons l ls ih =>
    rw [placeAll, placeAll, place_move h hstart, Nat.add_right_comm]
    exact ih (h.place (hls l List.mem_cons_self) start)
      (Nat.lt_of_lt_of_le hstart (Nat.le_add_right ..))
      fun l hl => hls l (List.mem_cons_of_mem _ hl)

theorem root_toTree_move (h : Misses g b) (hoffset : g.offset < byteLength b.source)
    (hsrc : byteLength src = byteLength b.source + g.bytes) :
    (b.move g src).toTree.root = b.toTree.root.move g := by
  have hroot : ∀ c : Builder,
      c.toTree.root = Frame.closeAll (byteLength c.source) c.top c.below := fun _ => rfl
  rw [hroot, hroot, Frame.closeAll_move hoffset _ _ h.id_ne, ← hsrc]
  rfl

/-! ### Two constructions side by side -/

/-- The open nodes `rest` around a node with the heading `base`, which is no quoted
    form, have nothing in them yet that ends after the offset. -/
structure Surrounds (base : Heading) (rest : List Frame) (offset : Nat) : Prop where
  kind_ne : base.kind ≠ .quoted
  kind_eq_root : rest = [] → base.kind = .root
  id_ne : ∀ f ∈ rest, f.id ≠ base.id
  start_le : ∀ f ∈ rest, f.start ≤ offset
  stop_le : ∀ f ∈ rest, ∀ n ∈ f.children, n.span.stop ≤ offset

namespace Surrounds

variable {base : Heading} {rest : List Frame} {offset : Nat}

theorem map_move {g : Gap} (h : Surrounds base rest g.offset) :
    ∀ f ∈ rest, f.move g = f := by
  intro f hf
  have hchildren : Node.moveAll g f.children = f.children := by
    rw [Node.moveAll_eq_map, List.map_congr_left (g := id), List.map_id]
    exact fun n hn => Node.move_of_stop_le (h.stop_le f hf n hn)
  have hstart : f.heading.start ≤ g.offset := h.start_le f hf
  rw [Frame.move, Heading.move, if_pos hstart, hchildren]
  rfl

theorem map_move_eq {g : Gap} (h : Surrounds base rest g.offset) :
    rest.map (·.move g) = rest := by
  rw [List.map_congr_left (g := id) h.map_move, List.map_id]

variable {g : Gap} {f : Frame} {fs : List Frame} {n : Node}

/-- With the node closed in both, one construction is the other one, moved. -/
theorem move_add (h : Surrounds base (f :: fs) g.offset) (hnode : g.node.id = base.id)
    (hid : n.id = base.id) (hstop : g.offset < n.span.stop) (cs src : List Char) (next : Nat) :
    move g src ⟨cs, f.add n, fs, next⟩ = ⟨src, f.add g.node, fs, next + g.ids⟩ := by
  have hfs : fs.map (·.move g) = fs := (List.cons.inj h.map_move_eq).2
  rw [move, Frame.add_move, Node.move_of_id_eq hstop (hid.trans hnode.symm),
    h.map_move f List.mem_cons_self, hfs]

theorem misses (h : Surrounds base (f :: fs) g.offset) (hnode : g.node.id = base.id)
    (cs : List Char) {next : Nat} (hlt : base.id < next) : Misses g ⟨cs, f.add n, fs, next⟩ := by
  refine ⟨hnode ▸ hlt, fun k hk => ?_⟩
  rw [hnode]
  rcases List.mem_cons.1 hk with rfl | hk
  · exact h.id_ne f List.mem_cons_self
  · exact h.id_ne k (List.mem_cons_of_mem _ hk)

end Surrounds

section Lockstep

variable {b b' : Builder} {base : Heading} {rest : List Frame} {kinds : List Kind} {l : Lexeme}
  {offset ids bytes start : Nat}

theorem source_placeAll (b : Builder) (start : Nat) (ls : List Lexeme) :
    (b.placeAll start ls).source = b.source := by
  have h := congrArg Builder.source (placeAll_withSource b b.source start ls)
  exact h

/-- The number of nodes that a lexeme of this shape adds. -/
def width : Shape → Nat
  | .opener _ | .sigil => 2
  | _ => 1

theorem next_place (b : Builder) (start : Nat) (l : Lexeme) :
    (b.place start l).next = b.next + width l.shape := by
  have hclosing : ∀ {stop : Nat} {p : Kind → Prop} {b b' : Builder}, Closing stop p b b' →
      b'.next = b.next := fun {stop p b b'} hc =>
    hc.keeps (P := fun c => c.next = b.next) (fun c _ _ h => (next_finish c stop).trans h) rfl
  rw [place.eq_def]
  split
  case h_1 hk | h_2 hk | h_3 hk | h_4 hk | h_5 hk =>
    rw [hk]
    rfl
  case h_6 hk =>
    rw [hclosing (closing_settle ..), hk]
    rfl
  case h_7 d hk =>
    rw [hk]
    split
    · rw [hclosing (closing_settle ..), next_finish]
      exact congrArg (· + 1) (hclosing (closing_unwindTo ..))
    · rfl

/-- At the end of the text, the node and all around it are closed. -/
theorem exists_move_toTree (hsurrounds : Surrounds base rest offset)
    (h : Within base rest kinds b.frames) (h' : Within base rest kinds b'.frames)
    (hsrc : byteLength b'.source = byteLength b.source + bytes)
    (hoffset : offset < byteLength b.source) :
    ∃ node : Node, node.heading = base ∧
      b'.toTree.root = b.toTree.root.move ⟨node, offset, ids, bytes⟩ := by
  obtain ⟨f, hf, hclosing⟩ := h.exists_closing (byteLength b.source)
  obtain ⟨f', hf', hclosing'⟩ := h'.exists_closing (byteLength b'.source)
  have hid : f.id = base.id := congrArg Heading.id hf
  have hid' : f'.id = base.id := congrArg Heading.id hf'
  refine ⟨f'.close (byteLength b'.source), hf', ?_⟩
  rw [hclosing.toTree_eq rfl, hclosing'.toTree_eq rfl]
  cases rest with
  | nil =>
    have hmove := Node.move_of_id_eq (g := ⟨f'.close (byteLength b'.source), offset, ids, bytes⟩)
      (n := f.close (byteLength b.source)) hoffset (hid.trans hid'.symm)
    exact hmove.symm
  | cons k ks =>
    -- once the node is closed, what is around it differs by the move only
    let g : Gap := ⟨f'.close (byteLength b'.source), offset, ids, bytes⟩
    have hmisses : Misses g ⟨b.source, k.add (f.close (byteLength b.source)), ks, base.id + 1⟩ :=
      hsurrounds.misses hid' b.source (Nat.lt_succ_self _)
    have hmove := hsurrounds.move_add (g := g) hid' (n := f.close (byteLength b.source)) hid hoffset
      b.source b'.source (base.id + 1)
    have hroot := root_toTree_move hmisses hoffset hsrc
    rw [hmove] at hroot
    exact hroot

/-- The delimiter of the innermost open node closes it. -/
theorem place_eq_of_closer {k : Frame} {ks : List Frame} {d : Char} (hbelow : b.below = k :: ks)
    (hshape : l.shape = .closer d) (hd : b.top.kind.closer? = some d) (start : Nat) :
    b.place start l = Builder.settle (start + byteLength l.text)
      ⟨b.source,
        k.add ((b.top.add ⟨b.next, .closeDelim, ⟨start, start + byteLength l.text⟩, []⟩).close
          (start + byteLength l.text)), ks, b.next + 1⟩ := by
  have hcloses : b.closes d = true := by simp [closes, hd]
  have hunwind : b.unwindTo d start = b := by
    rw [unwindTo, hbelow, unwindTo.go, if_pos hd, ← hbelow]
  have htoken : (b.token .closeDelim ⟨start, start + byteLength l.text⟩).below = k :: ks := hbelow
  rw [place.eq_def]
  simp only [hshape]
  rw [if_pos hcloses, hunwind, finish_cons htoken]
  rfl

/-- A delimiter of a node further out closes the innermost one first. -/
theorem place_eq_of_ne_closer {k : Frame} {ks : List Frame} {d : Char} (hbelow : b.below = k :: ks)
    (hshape : l.shape = .closer d) (hcloses : b.closes d = true)
    (hd : b.top.kind.closer? ≠ some d) (start : Nat) :
    b.place start l = Builder.place ⟨b.source, k.add (b.top.close start), ks, b.next⟩ start l := by
  have hclosing : Closing start (fun k => k.closer? ≠ some d) b (b.finish start) :=
    .step hd (by simp [hbelow]) (.refl _)
  have hfinish : (b.finish start).closes d = true := by
    rw [← hcloses, finish_cons hbelow, closes, closes, hbelow]
    simp [hd, Frame.add]
  rw [← finish_cons hbelow, place.eq_def, place.eq_def]
  simp only [hshape]
  rw [if_pos hcloses, if_pos hfinish, hclosing.unwindTo_eq fun _ hk => hk]

/-- A delimiter that closes the node, or one around it, makes the two constructions
    one again, but for the move. -/
theorem exists_move_place (hsurrounds : Surrounds base rest offset)
    (h : Within base rest kinds b.frames) (h' : Within base rest kinds b'.frames)
    (hnesting : nesting (closesFrom base rest) kinds l.shape = none)
    (hnext : b'.next = b.next + ids) (hid : base.id < b.next) (hstart : offset < start)
    (hl : l.Sound) :
    ∃ node : Node, node.heading = base ∧
      b'.place (start + bytes) l =
        (b.place start l).move ⟨node, offset, ids, bytes⟩ b'.source ∧
      Misses ⟨node, offset, ids, bytes⟩ (b.place start l) := by
  obtain ⟨d, hshape, hcloses, f, hf, hplace⟩ := h.place_eq hnesting start
  obtain ⟨-, -, -, f', hf', hplace'⟩ := h'.place_eq hnesting (start + bytes)
  rw [hplace, hplace']
  have hfid : f.id = base.id := congrArg Heading.id hf
  have hfid' : f'.id = base.id := congrArg Heading.id hf'
  have hkind : f.kind = base.kind := congrArg Heading.kind hf
  have hkind' : f'.kind = base.kind := congrArg Heading.kind hf'
  have hstop : offset < start + byteLength l.text := Nat.lt_add_right _ hstart
  cases rest with
  | nil =>
    -- the root has no delimiter
    rw [closesFrom, hsurrounds.kind_eq_root rfl] at hcloses
    cases hcloses
  | cons k ks =>
    by_cases hd : base.kind.closer? = some d
    · -- the delimiter is the node's own and becomes its last child
      let n (c : Builder) (e : Frame) (start : Nat) : Node :=
        (e.add ⟨c.next, .closeDelim, ⟨start, start + byteLength l.text⟩, []⟩).close
          (start + byteLength l.text)
      let g : Gap := ⟨n b' f' (start + bytes), offset, ids, bytes⟩
      have hmisses : Misses g ⟨b.source, k.add (n b f start), ks, b.next + 1⟩ :=
        hsurrounds.misses hfid' b.source (Nat.lt_succ_of_lt hid)
      have hmove := hsurrounds.move_add (g := g) (n := n b f start) hfid' hfid hstop b.source
        b'.source (b.next + 1)
      have hplaced : ∀ (c : Builder) (e : Frame) (start : Nat), e.kind = base.kind →
          Builder.place { c with top := e, below := k :: ks } start l =
            Builder.settle (start + byteLength l.text)
              ⟨c.source, k.add (n c e start), ks, c.next + 1⟩ :=
        fun c e start he => place_eq_of_closer rfl hshape (he ▸ hd) start
      have hids : b.next + 1 + g.ids = b'.next + 1 := by rw [hnext, Nat.add_right_comm]
      refine ⟨g.node, hf', ?_, ?_⟩
      · rw [hplaced b f start hkind, hplaced b' f' _ hkind', ← settle_move hmisses hstop, hmove,
          hids, Nat.add_right_comm start]
      · rw [hplaced b f start hkind]
        exact hmisses.closing (closing_settle ..)
    · -- the node lacks its delimiter and ends where this one starts
      let n := f.close start
      let n' := f'.close (start + bytes)
      let g : Gap := ⟨n', offset, ids, bytes⟩
      have hmisses : Misses g ⟨b.source, k.add n, ks, b.next⟩ :=
        hsurrounds.misses hfid' b.source hid
      have hmove :=
        hsurrounds.move_add (g := g) (n := n) hfid' hfid hstart b.source b'.source b.next
      have hplaced : ∀ (c : Builder) (e : Frame) (start : Nat), e.kind = base.kind →
          Builder.place { c with top := e, below := k :: ks } start l =
            Builder.place ⟨c.source, k.add (e.close start), ks, c.next⟩ start l := by
        intro c e start he
        refine place_eq_of_ne_closer rfl hshape ?_ (he ▸ hd) start
        rw [← hcloses, closesFrom, closes, ← he]
        rfl
      refine ⟨n', hf', ?_, ?_⟩
      · rw [hplaced b f start hkind, hplaced b' f' _ hkind', ← place_move hmisses hstart, hmove,
          ← hnext]
      · rw [hplaced b f start hkind]
        exact hmisses.place hl start

/-- Two constructions that differ in a node only, over sources of which one is
    longer, stay alike: when all is built, one tree is the other one, moved. -/
theorem exists_move (ids bytes start : Nat) (ls : List Lexeme)
    (hsurrounds : Surrounds base rest offset)
    (h : Within base rest kinds b.frames) (h' : Within base rest kinds b'.frames)
    (hnext : b'.next = b.next + ids) (hid : base.id < b.next) (hstart : offset < start)
    (hsrc : byteLength b'.source = byteLength b.source + bytes)
    (hoffset : offset < byteLength b.source) (hls : ∀ l ∈ ls, l.Sound) :
    ∃ node : Node, node.heading = base ∧ (b'.placeAll (start + bytes) ls).toTree.root =
      (b.placeAll start ls).toTree.root.move ⟨node, offset, ids, bytes⟩ := by
  induction ls generalizing b b' kinds start with
  | nil => exact exists_move_toTree hsurrounds h h' hsrc hoffset
  | cons l ls ih =>
    have hrest : ∀ l ∈ ls, l.Sound := fun l hl => hls l (List.mem_cons_of_mem _ hl)
    have hstop : offset < start + byteLength l.text := Nat.lt_add_right _ hstart
    have hsource : ∀ (c : Builder) (start : Nat), (c.place start l).source = c.source :=
      fun c start => source_placeAll c start [l]
    rw [placeAll, placeAll, Nat.add_right_comm]
    cases hnesting : nesting (closesFrom base rest) kinds l.shape with
    | some kinds' =>
      -- still inside the node
      refine ih _ (h.place hsurrounds.kind_ne hnesting start)
        (h'.place hsurrounds.kind_ne hnesting (start + bytes)) ?_ ?_ hstop ?_ ?_ hrest
      · rw [next_place, next_place, hnext, Nat.add_right_comm]
      · rw [next_place]
        exact Nat.lt_add_right _ hid
      · rw [hsource, hsource, hsrc]
      · rwa [hsource]
    | none =>
      -- from here on both constructions take the same steps
      obtain ⟨node, hnode, hplace, hmisses⟩ :=
        exists_move_place hsurrounds h h' hnesting hnext hid hstart (hls l List.mem_cons_self)
      refine ⟨node, hnode, ?_⟩
      obtain ⟨hmove, hmisses⟩ := placeAll_move b'.source hmisses hstop hrest
      rw [hplace, hmove]
      refine root_toTree_move hmisses ?_ ?_
      · rwa [source_placeAll, hsource]
      · rwa [source_placeAll, hsource]

end Lockstep

end Builder

end Typeahead
