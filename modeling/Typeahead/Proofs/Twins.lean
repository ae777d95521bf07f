import Typeahead.Proofs.Bodies
import Typeahead.Proofs.Moves

/-!
# Two readings of a place

A place inside a blank can be read in two ways: as it is, and with a word put in
there. The nodes around the place are the same in both trees up to their numbers
and spans, but for the innermost one that is no quoted form: it begins with the
same children, and goes on in its own way from the place on.

* `Builder.Begins`: the children that an open node has so far stay its first ones;
* `Tree.exists_node_around`: the nodes around a token come from the nodes that were
  open when it was added;
* `exists_twins`: the two readings of a place inside a blank.
-/

namespace Typeahead

namespace Builder

/-! ### Children that stay -/

/-- Every node with the number `id`, open or finished, begins with the children
    `pre`. -/
structure Begins (id : Nat) (pre : List Node) (b : Builder) : Prop where
  id_lt : id < b.next
  frames : ∀ f ∈ b.frames, f.id = id → pre <+: f.children.reverse
  finished : Finished (fun n => n.id = id → pre <+: n.children) b

namespace Begins

variable {b : Builder} {id : Nat} {pre : List Node}

theorem start (h : Begins id pre b) (kind : Kind) (start : Nat) :
    Begins id pre (b.start kind start) := by
  refine ⟨Nat.lt_succ_of_lt h.id_lt, fun f hf hid => ?_, h.finished.start kind start⟩
  rcases List.mem_cons.1 hf with rfl | hf
  · exact absurd hid (Nat.ne_of_gt h.id_lt)
  · exact h.frames f hf hid

theorem add {f : Frame} {fs : List Frame}
    (h : ∀ k ∈ f :: fs, k.id = id → pre <+: k.children.reverse) (n : Node) :
    ∀ k ∈ f.add n :: fs, k.id = id → pre <+: k.children.reverse := by
  intro k hk hid
  rcases List.mem_cons.1 hk with rfl | hk
  · rw [Frame.add, List.reverse_cons]
    exact (h f List.mem_cons_self hid).trans (List.prefix_append _ _)
  · exact h k (List.mem_cons_of_mem _ hk) hid

theorem token (h : Begins id pre b) (kind : Kind) (span : Span) :
    Begins id pre (b.token kind span) :=
  ⟨Nat.lt_succ_of_lt h.id_lt, add h.frames _,
    h.finished.token fun hid => absurd hid (Nat.ne_of_gt h.id_lt)⟩

theorem close (h : Begins id pre b) (stop : Nat) :
    (b.top.close stop).id = id → pre <+: (b.top.close stop).children :=
  h.frames b.top List.mem_cons_self

theorem finish (h : Begins id pre b) (stop : Nat) : Begins id pre (b.finish stop) := by
  have hfinished := h.finished.finish (h.close stop)
  refine ⟨(next_finish b stop).symm ▸ h.id_lt, ?_, hfinished⟩
  have hframes := h.frames
  rw [Builder.finish]
  split
  · exact hframes
  · next f fs hbelow =>
    rw [Builder.frames, hbelow] at hframes
    exact add (fun k hk => hframes k (List.mem_cons_of_mem _ hk)) _

theorem placeAll (h : Begins id pre b) {ls : List Lexeme} (hls : ∀ l ∈ ls, l.Sound) (start : Nat) :
    Begins id pre (b.placeAll start ls) := by
  induction ls generalizing b start with
  | nil => exact h
  | cons l ls ih =>
    have houtcome := outcome_place (hls l List.mem_cons_self) b start
    exact ih (houtcome.keeps (fun _ _ _ hb => hb.start _ _) (fun _ _ _ hb => hb.token _ _)
      (fun _ _ hb => hb.finish _) h) (fun l hl => hls l (List.mem_cons_of_mem _ hl)) _

theorem toTree (h : Begins id pre b) : ∀ n ∈ b.toTree.nodes, n.id = id → pre <+: n.children := by
  obtain ⟨b', hclosing, -, htree⟩ := exists_closing_toTree b
  have hb' := hclosing.keeps (P := Begins id pre) (fun _ _ _ hb => hb.finish _) h
  rw [htree]
  exact hb'.finished.close (hb'.close _)

end Begins

theorem mem_idsIn {id : Nat} {fs : List Frame} : id ∈ idsIn fs ↔
    ∃ f ∈ fs, id = f.id ∨ ∃ m ∈ f.children, ∃ n ∈ m.preorder, id = n.id := by
  induction fs with
  | nil => simp [idsIn]
  | cons f fs ih =>
    simp only [idsIn, List.mem_append, ih, List.mem_cons, List.mem_map, Node.mem_preorderAll,
      List.mem_reverse]
    grind

/-- With all numbers different, only an open node itself has its number. -/
theorem eq_of_nodup_idsIn {fs : List Frame} (h : (idsIn fs).Nodup) {f : Frame} (hf : f ∈ fs) :
    (∀ k ∈ fs, k.id = f.id → k = f) ∧
      ∀ k ∈ fs, ∀ m ∈ k.children, ∀ n ∈ m.preorder, n.id ≠ f.id := by
  induction fs with
  | nil => exact absurd hf List.not_mem_nil
  | cons e fs ih =>
    rw [idsIn, List.nodup_append] at h
    obtain ⟨hfs, he, hdisjoint⟩ := h
    obtain ⟨hself, -⟩ := List.nodup_cons.1 he
    have hinside : ∀ m ∈ e.children, ∀ n ∈ m.preorder,
        n.id ∈ (Node.preorderAll e.children.reverse).map (·.id) := fun m hm n hn =>
      List.mem_map_of_mem (Node.mem_preorderAll.2 ⟨m, List.mem_reverse.2 hm, hn⟩)
    have hframe : ∀ k ∈ fs, k.id ∈ idsIn fs := fun k hk => mem_idsIn.2 ⟨k, hk, .inl rfl⟩
    rcases List.mem_cons.1 hf with rfl | hin
    · -- the number of the innermost open node is used neither inside it nor further out
      constructor
      · intro k hk hid
        rcases List.mem_cons.1 hk with rfl | hk
        · rfl
        · exact absurd hid (hdisjoint _ (hframe k hk) _ List.mem_cons_self)
      · intro k hk m hm n hn hid
        rcases List.mem_cons.1 hk with rfl | hk
        · exact hself (hid ▸ hinside m hm n hn)
        · exact hdisjoint _ (mem_idsIn.2 ⟨k, hk, .inr ⟨m, hm, n, hn, rfl⟩⟩) _ List.mem_cons_self hid
    · -- the number of a node further out is not used in the innermost one
      obtain ⟨hframes, hnodes⟩ := ih hfs hin
      constructor
      · intro k hk hid
        rcases List.mem_cons.1 hk with rfl | hk
        · exact absurd hid.symm (hdisjoint _ (hframe f hin) _ List.mem_cons_self)
        · exact hframes k hk hid
      · intro k hk m hm n hn hid
        rcases List.mem_cons.1 hk with rfl | hk
        · exact hdisjoint _ (hframe f hin) _ (List.mem_cons_of_mem _ (hinside m hm n hn)) hid.symm
        · exact hnodes k hk m hm n hn hid

theorem nodup_idsIn_of_append {fs es : List Frame} (h : (idsIn (fs ++ es)).Nodup) :
    (idsIn es).Nodup := by
  induction fs with
  | nil => exact h
  | cons f fs ih =>
    rw [List.cons_append, idsIn, List.nodup_append] at h
    exact ih h.1

theorem nodup_idsIn_frames {b : Builder} (hids : b.ids = List.range b.next) :
    (idsIn b.frames).Nodup := by
  have hrange : idsIn b.frames = List.range b.next := hids
  rw [hrange]
  exact List.nodup_range

section Numbered

variable {b : Builder} (hids : b.ids = List.range b.next) {f : Frame} (hf : f ∈ b.frames)

include hids hf

theorem id_lt_of_mem_frames : f.id < b.next := by
  have hmem : f.id ∈ b.ids := mem_idsIn.2 ⟨f, hf, .inl rfl⟩
  rwa [hids, List.mem_range] at hmem

theorem begins_of_mem_frames : Begins f.id f.children.reverse b := by
  obtain ⟨hframes, hnodes⟩ := eq_of_nodup_idsIn (nodup_idsIn_frames hids) hf
  refine ⟨id_lt_of_mem_frames hids hf, fun k hk hid => ?_, fun k hk m hm n hn hid => ?_⟩
  · exact hframes k hk hid ▸ List.prefix_rfl
  · exact absurd hid (hnodes k hk m hm n hn)

end Numbered

/-! ### Spans of what is open -/

/-- The open nodes are filled up to the offset `pos`, and no finished node ends
    before it starts. -/
structure Laid (pos : Nat) (b : Builder) : Prop where
  tiled : Tiled pos b
  le : Finished (fun n => n.span.start ≤ n.span.stop) b

namespace Laid

variable {b b' : Builder} {pos : Nat}

theorem start_le (h : Laid pos b) : b.top.start ≤ pos := by
  refine h.tiled.1.1.le fun n hn => ?_
  exact h.le b.top List.mem_cons_self n (List.mem_reverse.1 hn) n n.mem_preorder_self

theorem token (h : Laid pos b) (kind : Kind) {stop : Nat} (hle : pos ≤ stop) :
    Laid stop (b.token kind ⟨pos, stop⟩) :=
  ⟨h.tiled.token kind stop, h.le.token hle⟩

theorem start (h : Laid pos b) (kind : Kind) : Laid pos (b.start kind pos) :=
  ⟨h.tiled.start kind, h.le.start kind pos⟩

theorem finish (h : Laid pos b) : Laid pos (b.finish pos) :=
  ⟨h.tiled.finish, h.le.finish h.start_le⟩

theorem closing {p : Kind → Prop} (h : Laid pos b) (hc : Closing pos p b b') : Laid pos b' :=
  hc.keeps (fun _ _ _ hb => hb.finish) h

end Laid

theorem Outcome.laid {b b' : Builder} {pos : Nat} {l : Lexeme} (h : Outcome b pos l b')
    (hb : Laid pos b) : Laid (pos + byteLength l.text) b' := by
  have hle : pos ≤ pos + byteLength l.text := Nat.le_add_right ..
  cases h with
  | filler _ => exact hb.token _ hle
  | stray _ _ _ => exact hb.token _ hle
  | opening _ => exact (hb.start _).token _ hle
  | atom _ => exact (hb.token _ hle).closing (closing_settle ..)
  | closing _ _ =>
    exact (((hb.closing (closing_unwindTo ..)).token _ hle).finish).closing (closing_settle ..)

/-- Everything that is there ends before the offset that is reached. -/
theorem TiledTo.stop_le {pos : Nat} {fs : List Frame} (h : TiledTo pos fs)
    (hle : ∀ f ∈ fs, ∀ n ∈ f.children, n.span.start ≤ n.span.stop) :
    ∀ f ∈ fs, f.start ≤ pos ∧ ∀ n ∈ f.children, n.span.stop ≤ pos := by
  induction fs generalizing pos with
  | nil => exact fun f hf => absurd hf List.not_mem_nil
  | cons e fs ih =>
    obtain ⟨htiles, hrest⟩ := h
    have hchildren : ∀ n ∈ e.children.reverse, n.span.start ≤ n.span.stop := fun n hn =>
      hle e List.mem_cons_self n (List.mem_reverse.1 hn)
    have hstart := htiles.le hchildren
    intro f hf
    rcases List.mem_cons.1 hf with rfl | hf
    · refine ⟨hstart, fun n hn => ?_⟩
      obtain ⟨as, bs, happ⟩ := List.append_of_mem (List.mem_reverse.2 hn)
      rw [happ] at htiles hchildren
      exact (htiles.around hchildren).2.1
    · obtain ⟨hf, hn⟩ := ih hrest (fun k hk => hle k (List.mem_cons_of_mem _ hk)) f hf
      exact ⟨Nat.le_trans hf hstart, fun n hmem => Nat.le_trans (hn n hmem) hstart⟩

/-- Inside the nodes `fs`, the open ones end where the outermost of them starts. -/
theorem TiledTo.append {pos : Nat} {fs gs : List Frame} (h : TiledTo pos (fs ++ gs)) :
    TiledTo ((fs.map (·.start)).getLastD pos) gs := by
  induction fs generalizing pos with
  | nil => exact h
  | cons f fs ih =>
    rw [List.map_cons, List.getLastD_cons]
    exact ih h.2

end Builder

/-! ### The nodes around a token -/

theorem Tiles.stop_unique {start stop stop' : Nat} {ns : List Node} (h : Tiles start stop ns)
    (h' : Tiles start stop' ns) : stop = stop' := by
  induction ns generalizing start with
  | nil => exact h.symm.trans h'
  | cons n ns ih => exact ih h.2 h'.2

/-- Of nodes that follow each other and begin with `pre`, the one that starts where
    `pre` ends comes next. -/
theorem Tiles.exists_eq_append {start mid stop : Nat} {pre ns : List Node} {c : Node}
    (h : Tiles start stop ns) (hlt : ∀ n ∈ ns, n.span.start < n.span.stop) (hpre : pre <+: ns)
    (hmid : Tiles start mid pre) (hc : c ∈ ns) (hstart : c.span.start = mid) :
    ∃ post, ns = pre ++ c :: post := by
  obtain ⟨rest, rfl⟩ := hpre
  obtain ⟨mid', hmid', hrest⟩ := tiles_append.1 h
  obtain rfl := hmid'.stop_unique hmid
  have hle : ∀ n ∈ pre ++ rest, n.span.start ≤ n.span.stop := fun n hn => Nat.le_of_lt (hlt n hn)
  rcases List.mem_append.1 hc with hin | hin
  · -- a node of `pre` starts before `pre` ends
    obtain ⟨as, bs, rfl⟩ := List.append_of_mem hin
    have haround := (hmid.around fun n hn => hle n (List.mem_append_left _ hn)).2.1
    have hpos := hlt c hc
    omega
  · obtain ⟨as, bs, rfl⟩ := List.append_of_mem hin
    cases as with
    | nil => exact ⟨bs, rfl⟩
    | cons a as =>
      -- a node in between would be empty
      have haround := (hrest.around fun n hn => hle n (List.mem_append_right _ hn)).2.2.1 a
        List.mem_cons_self
      have hpos := hlt a (by simp)
      have hfirst := hrest.1
      omega

theorem Location.exists_of_mem_chain {l : Location} {ns : List Node} (h : l ∈ Location.chain ns) :
    ∃ as, ns = as ++ l.node :: l.above := by
  induction ns with
  | nil => exact absurd h List.not_mem_nil
  | cons n ns ih =>
    rcases List.mem_cons.1 h with rfl | h
    · exact ⟨[], rfl⟩
    · obtain ⟨as, happ⟩ := ih h
      exact ⟨n :: as, congrArg (n :: ·) happ⟩

theorem Location.mem_above_of_mem_ancestors {l k : Location} (hk : k ∈ l.ancestors) :
    k.node ∈ l.above := by
  obtain ⟨as, happ⟩ := exists_of_mem_chain hk
  simp [happ]

theorem Location.mem_chain_append (n : Node) (as bs : List Node) :
    ⟨n, bs⟩ ∈ Location.chain (as ++ n :: bs) := by
  induction as with
  | nil => exact List.mem_cons_self
  | cons a as ih => exact List.mem_cons_of_mem _ ih

namespace Tree

/-- Going up from a location through the nodes `path` leads to a child of the next
    node around. -/
theorem exists_child_on_path {cs : List Char} (hcs : cs ≠ []) {l : Location} {n : Node}
    {path outer : List Node} (hl : l ∈ (Tree.read cs).locations)
    (habove : l.above = path ++ n :: outer) :
    ∃ c ∈ n.children, ⟨c, n :: outer⟩ ∈ l.selfAndAncestors ∧ (c = l.node ∨ c ∈ path) ∧
      c.span.start = (path.map (·.span.start)).getLastD l.node.span.start ∧
      c.span.start ≤ l.node.span.start ∧ l.node.span.stop ≤ c.span.stop := by
  obtain ⟨m, above⟩ := l
  induction path generalizing m above with
  | nil =>
    obtain rfl : above = n :: outer := habove
    exact ⟨m, (parent_mem_locations hl rfl).2, List.mem_cons_self, .inl rfl, rfl, Nat.le_refl _,
      Nat.le_refl _⟩
  | cons q path ih =>
    obtain rfl : above = q :: (path ++ n :: outer) := habove
    obtain ⟨hparent, hm⟩ := parent_mem_locations hl rfl
    obtain ⟨c, hc, hpath, hcases, hstart, hle, hstop⟩ := ih q _ hparent rfl
    have hwithin := span_within hcs (mem_nodes_of_mem_locations hparent)
      (Node.child_mem_preorder hm)
    refine ⟨c, hc, List.mem_cons_of_mem _ hpath, ?_, ?_, Nat.le_trans hle hwithin.1,
      Nat.le_trans hwithin.2 hstop⟩
    · rcases hcases with rfl | hin
      · exact .inr List.mem_cons_self
      · exact .inr (List.mem_cons_of_mem _ hin)
    · rw [hstart, List.map_cons, List.getLastD_cons]

/-- Where a token was added, the nodes around it are those that were open then. One
    of them begins with the children that it had, and the next child leads to the
    token. -/
theorem exists_node_around {cs : List Char} (hcs : cs ≠ []) {b : Builder} {pos : Nat}
    {ls : List Lexeme} (hread : Tree.read cs = (b.placeAll pos ls).toTree)
    (hls : ∀ l ∈ ls, l.Sound) (hlaid : b.Laid pos) (hids : b.ids = List.range b.next)
    {qs rest : List Frame} {f : Frame} (hframes : b.frames = qs ++ f :: rest) {l : Location}
    (hl : l ∈ (Tree.read cs).locations) (htrail : l.trail = b.trail)
    (hstart : l.node.span.start = pos) :
    ∃ path n outer c post, l.above = path ++ n :: outer ∧
      path.map Node.heading = qs.map Frame.heading ∧ n.heading = f.heading ∧
      outer.map Node.heading = rest.map Frame.heading ∧
      n.children = f.children.reverse ++ c :: post ∧ ⟨c, n :: outer⟩ ∈ l.selfAndAncestors ∧
      (c = l.node ∨ c ∈ path) ∧ c.span.start ≤ pos ∧ l.node.span.stop ≤ c.span.stop := by
  rw [Location.trail, Builder.trail, hframes, List.map_append, List.map_cons,
    List.map_eq_append_iff] at htrail
  obtain ⟨path, tail, habove, hpath, htail⟩ := htrail
  obtain ⟨n, outer, rfl, hn, houter⟩ := List.map_eq_cons_iff.1 htail
  obtain ⟨c, hc, hmem, hcases, hcstart, hle, hcstop⟩ := exists_child_on_path hcs hl habove
  have hnode : n ∈ (Tree.read cs).nodes :=
    mem_nodes_of_mem_above hl (by simp [habove])
  have hf : f ∈ b.frames := by simp [hframes]
  have hbegins : f.children.reverse <+: n.children :=
    ((Builder.begins_of_mem_frames hids hf).placeAll hls pos).toTree n (hread ▸ hnode)
      (congrArg Heading.id hn)
  -- the open node was filled up to where the next one inside it, or the token, starts
  have hmid : Tiles n.span.start c.span.start f.children.reverse := by
    have hopen := Builder.TiledTo.append (hframes ▸ hlaid.tiled.1)
    have hstarts : path.map (·.span.start) = qs.map (·.start) := by
      have h := congrArg (List.map Heading.start) hpath
      rwa [List.map_map, List.map_map] at h
    have hnstart : n.span.start = f.start := congrArg Heading.start hn
    rw [hcstart, hstarts, hstart, hnstart]
    exact hopen.1
  have hlt : ∀ m ∈ n.children, m.span.start < m.span.stop := fun m hm =>
    lt_stop_read hcs m (mem_nodes_of_mem_children hnode hm)
  obtain ⟨post, hpost⟩ := (filled_read cs n hnode (List.ne_nil_of_mem hc)).exists_eq_append hlt
    hbegins hmid hc rfl
  exact ⟨path, n, outer, c, post, habove, hpath, hn, houter, hpost, hmem, hcases, hstart ▸ hle,
    hcstop⟩

/-- A location is told by the number of its node. -/
theorem location_eq_of_id_eq {cs : List Char} {l k : Location} (hl : l ∈ (Tree.read cs).locations)
    (hk : k ∈ (Tree.read cs).locations) (hid : l.node.id = k.node.id) : l = k := by
  have hfind := locationOf_read hl
  rw [hid, locationOf_read hk] at hfind
  exact (Except.ok.inj hfind).symm

theorem eq_root_of_mem_locations {t : Tree} {n : Node} (h : ⟨n, []⟩ ∈ t.locations) :
    n = t.root := by
  rcases Node.exists_parent_of_mem_locations [] t.root h with heq | ⟨p, -, hchild⟩
  · exact congrArg Location.node heq
  · obtain ⟨c, -, heq⟩ := List.mem_map.1 hchild
    cases heq

/-- If the children of the nodes around a location move with these, then so does the
    location. -/
theorem move_mem_locations {t t' : Tree} {g : Gap} (hroot : t'.root = t.root.move g) {l : Location}
    (hl : l ∈ t.locations)
    (h : ∀ m ∈ l.above, (m.move g).children = m.children.map (·.move g)) :
    l.move g ∈ t'.locations := by
  obtain ⟨n, above⟩ := l
  induction above generalizing n with
  | nil =>
    obtain rfl := eq_root_of_mem_locations hl
    rw [Location.move, List.map_nil, ← hroot, locations_eq]
    exact List.mem_cons_self
  | cons v above ih =>
    obtain ⟨hv, hn⟩ := parent_mem_locations hl rfl
    have hparent := ih v hv fun m hm => h m (List.mem_cons_of_mem _ hm)
    refine children_subset_locations hparent (List.mem_map.2 ⟨n.move g, ?_, rfl⟩)
    rw [Location.move, h v List.mem_cons_self]
    exact List.mem_map_of_mem hn

end Tree

namespace Builder

/-! ### The construction up to the place -/

/-- A construction that has reached the offset `pos` in good order. -/
structure Orderly (pos : Nat) (b : Builder) : Prop where
  stacked : Stacked b.frames
  ids_eq : b.ids = List.range b.next
  laid : b.Laid pos

theorem Orderly.token {b : Builder} {pos stop : Nat} (h : Orderly pos b) (kind : Kind)
    (hle : pos ≤ stop) : Orderly stop (b.token kind ⟨pos, stop⟩) := by
  refine ⟨h.stacked.token kind _, ?_, h.laid.token kind hle⟩
  rw [ids_token, h.ids_eq]
  exact List.range_succ.symm

theorem orderly_placeAll {cs : List Char} {ls : List Lexeme} (hls : ∀ l ∈ ls, l.Sound)
    (hsrc : StandsAt cs 0 (ls.flatMap (·.text))) :
    Orderly (byteLength (ls.flatMap (·.text))) ((new cs).placeAll 0 ls) := by
  have hnew : Orderly 0 (new cs) := by
    have hnone : ∀ P, Finished P (new cs) := fun P f hf m hm => by
      rw [List.mem_singleton.1 hf] at hm
      exact absurd hm List.not_mem_nil
    exact ⟨rfl, rfl, ⟨⟨rfl, rfl⟩, hnone _⟩, hnone _⟩
  have h := placeAll_induction (P := Orderly) (fun b start l b' hb _ _ h =>
    ⟨(h.leaves_eq hb.stacked).1, h.ids_eq hb.ids_eq, h.laid hb.laid⟩) hls hsrc hnew
  rwa [Nat.zero_add] at h

theorem mem_leaves_toTree {b : Builder} (hb : Stacked b.frames) {leaf : Leaf}
    (hleaf : leaf ∈ b.leaves) {ls : List Lexeme} (hls : ∀ l ∈ ls, l.Sound) (start : Nat) :
    leaf ∈ (b.placeAll start ls).toTree.leaves := by
  obtain ⟨hs, leaves, hleaves, -⟩ := leaves_placeAll hls hb start
  rw [leaves_toTree hs, hleaves]
  exact List.mem_append_left _ hleaf

/-- The innermost open node that is no quoted form. -/
theorem Stacked.exists_append {fs : List Frame} (h : Stacked fs) : ∃ qs f rest,
    fs = qs ++ f :: rest ∧ (∀ q ∈ qs, q.kind = .quoted) ∧ f.kind ≠ .quoted ∧
      (rest = [] → f.kind = .root) := by
  induction fs with
  | nil => exact h.elim
  | cons f fs ih =>
    cases fs with
    | nil =>
      have hroot : f.kind = .root := h
      exact ⟨[], f, [], rfl, fun q hq => absurd hq List.not_mem_nil, by simp [hroot],
        fun _ => hroot⟩
    | cons e fs =>
      by_cases hquoted : f.kind = .quoted
      · obtain ⟨qs, k, rest, hfs, hqs, hk, hrest⟩ := ih h.2.2
        refine ⟨f :: qs, k, rest, by rw [hfs]; rfl, fun q hq => ?_, hk, hrest⟩
        rcases List.mem_cons.1 hq with rfl | hq
        · exact hquoted
        · exact hqs q hq
      · exact ⟨[], f, e :: fs, rfl, fun q hq => absurd hq List.not_mem_nil, hquoted,
          fun hnil => absurd hnil (List.cons_ne_nil e fs)⟩

/-- A token becomes the last child of the node, unless a quoted form inside it is
    open. -/
theorem exists_frames_token {b : Builder} {qs rest : List Frame} {f : Frame}
    (hframes : b.frames = qs ++ f :: rest) (hqs : ∀ q ∈ qs, q.kind = .quoted) (kind : Kind)
    (span : Span) : ∃ qs' f', (b.token kind span).frames = qs' ++ f' :: rest ∧
      (∀ q ∈ qs', q.kind = .quoted) ∧ qs'.length = qs.length ∧ f'.heading = f.heading ∧
      ∃ ts, f'.children.reverse = f.children.reverse ++ ts ∧ ∀ t ∈ ts, t.kind = kind := by
  have htoken : (b.token kind span).frames = b.top.add ⟨b.next, kind, span, []⟩ :: b.below := rfl
  cases qs with
  | nil =>
    obtain ⟨htop, hbelow⟩ := List.cons.inj hframes
    refine ⟨[], f.add ⟨b.next, kind, span, []⟩, by rw [htoken, htop, hbelow]; rfl, hqs, rfl, rfl,
      [⟨b.next, kind, span, []⟩], List.reverse_cons, fun t ht => ?_⟩
    rw [List.mem_singleton.1 ht]
  | cons q qs =>
    obtain ⟨htop, hbelow⟩ := List.cons.inj hframes
    refine ⟨q.add ⟨b.next, kind, span, []⟩ :: qs, f, by rw [htoken, htop, hbelow]; rfl,
      fun k hk => ?_, rfl, rfl, [], (List.append_nil _).symm, fun t ht => absurd ht List.not_mem_nil⟩
    rcases List.mem_cons.1 hk with rfl | hk
    · exact hqs q List.mem_cons_self
    · exact hqs k (List.mem_cons_of_mem _ hk)

theorem Orderly.surrounds {b : Builder} {pos offset : Nat} (h : Orderly pos b)
    {qs rest : List Frame} {f : Frame} (hframes : b.frames = qs ++ f :: rest)
    (hkind : f.kind ≠ .quoted) (hroot : rest = [] → f.kind = .root) (hle : pos ≤ offset) :
    Surrounds f.heading rest offset := by
  have hrest : ∀ k ∈ rest, k ∈ b.frames := fun k hk => by simp [hframes, hk]
  have hspans := h.laid.tiled.1.stop_le fun k hk n hn => h.laid.le k hk n hn n n.mem_preorder_self
  refine ⟨hkind, hroot, ?_, fun k hk => Nat.le_trans (hspans k (hrest k hk)).1 hle,
    fun k hk n hn => Nat.le_trans ((hspans k (hrest k hk)).2 n hn) hle⟩
  intro k hk
  have hnodup := nodup_idsIn_of_append (hframes ▸ nodup_idsIn_frames h.ids_eq)
  rw [idsIn, List.nodup_append] at hnodup
  exact hnodup.2.2 _ (mem_idsIn.2 ⟨k, hk, .inl rfl⟩) _ List.mem_cons_self

end Builder

/-! ### The two readings -/

/-- A place in the tree of a text: a token over the offset, and the innermost node
    around it that is no quoted form. -/
structure Place (cs : List Char) (offset : Nat) where
  token : Location
  node : Node
  /-- The quoted forms in between, innermost first. -/
  path : List Node
  /-- The nodes around the node, innermost first. -/
  outer : List Node
  /-- The children of the node before the one that leads to the token. -/
  pre : List Node
  ne_nil : cs ≠ []
  mem : token ∈ (Tree.read cs).locations
  children_eq : token.node.children = []
  above_eq : token.above = path ++ node :: outer
  kind_path : ∀ q ∈ path, q.kind = .quoted
  kind_ne : node.kind ≠ .quoted
  start_le : token.node.span.start ≤ offset
  lt_stop : offset < token.node.span.stop
  stop_pre : ∀ m ∈ pre, m.span.stop ≤ offset
  exists_child : ∃ c post, node.children = pre ++ c :: post ∧ (c = token.node ∨ c ∈ path) ∧
    ⟨c, node :: outer⟩ ∈ token.selfAndAncestors ∧ c.span.start ≤ offset ∧ offset < c.span.stop

/-- Where a token was added, there is a place. -/
theorem Builder.Orderly.exists_place {cs : List Char} (hcs : cs ≠ []) {b : Builder} {pos : Nat}
    (hb : Orderly pos b) {ls : List Lexeme} (hread : Tree.read cs = (b.placeAll pos ls).toTree)
    (hls : ∀ l ∈ ls, l.Sound) {qs rest : List Frame} {f : Frame}
    (hframes : b.frames = qs ++ f :: rest) (hqs : ∀ q ∈ qs, q.kind = .quoted)
    (hkind : f.kind ≠ .quoted) {l : Location} (hl : l ∈ (Tree.read cs).locations)
    (hnil : l.node.children = []) (htrail : l.trail = b.trail)
    (hstart : l.node.span.start = pos) {offset : Nat} (hle : pos ≤ offset) (hlt : offset < l.node.span.stop) :
    ∃ w : Place cs offset, w.token = l ∧ w.node.heading = f.heading ∧
      w.outer.map Node.heading = rest.map Frame.heading ∧ w.pre = f.children.reverse ∧
      w.path.length = qs.length := by
  obtain ⟨path, n, outer, c, post, habove, hpath, hn, houter, hchildren, hmem, hcases, hcstart,
    hcstop⟩ := Tree.exists_node_around hcs hread hls hb.laid hb.ids_eq hframes hl htrail hstart
  -- kinds and numbers are told by the headings
  have hquoted : ∀ q ∈ path, q.kind = .quoted := by
    intro q hq
    obtain ⟨k, hk, hheading⟩ := List.mem_map.1 (hpath ▸ List.mem_map_of_mem hq :
      q.heading ∈ qs.map Frame.heading)
    exact (congrArg Heading.kind hheading).symm.trans (hqs k hk)
  have hnkind : n.kind = f.kind := congrArg Heading.kind hn
  have hf : f ∈ b.frames := by simp [hframes]
  have hstops := hb.laid.tiled.1.stop_le
    (fun k hk m hm => hb.laid.le k hk m hm m m.mem_preorder_self) f hf
  have hlength : path.length = qs.length := by
    have h := congrArg List.length hpath
    rwa [List.length_map, List.length_map] at h
  exact ⟨{
    token := l, node := n, path, outer, pre := f.children.reverse
    ne_nil := hcs
    mem := hl
    children_eq := hnil
    above_eq := habove
    kind_path := hquoted
    kind_ne := hnkind ▸ hkind
    start_le := hstart ▸ hle
    lt_stop := hlt
    stop_pre := fun m hm => Nat.le_trans (hstops.2 m (List.mem_reverse.1 hm)) hle
    exists_child := ⟨c, post, hchildren, hcases, hmem, Nat.le_trans hcstart hle,
      Nat.lt_of_lt_of_le hlt hcstop⟩ }, rfl, hn, houter, rfl, hlength⟩

namespace Place

variable {cs : List Char} {offset : Nat} (w : Place cs offset)

theorem node_mem : ⟨w.node, w.outer⟩ ∈ (Tree.read cs).locations := by
  refine Tree.selfAndAncestors_subset_locations w.mem (List.mem_cons_of_mem _ ?_)
  rw [Location.ancestors, w.above_eq]
  exact Location.mem_chain_append w.node w.path w.outer

/-- All nodes around the token end after the offset. -/
theorem lt_stop_of_mem {m : Node} (hm : m ∈ w.token.node :: w.token.above) :
    offset < m.span.stop := by
  rcases List.mem_cons.1 hm with rfl | hm
  · exact w.lt_stop
  · exact Nat.lt_of_lt_of_le w.lt_stop (Tree.stop_le_of_mem_above w.ne_nil w.mem hm)

theorem lt_stop_node : offset < w.node.span.stop :=
  w.lt_stop_of_mem (by simp [w.above_eq])

theorem lt_stop_outer {m : Node} (hm : m ∈ w.outer) : offset < m.span.stop :=
  w.lt_stop_of_mem (by simp [w.above_eq, hm])

end Place

/-- A place inside a blank of the text `u ++ v`, after `u`, and the same place in the
    text with the word `p` there. -/
structure Twins (u p v : List Char) where
  bare : Place (u ++ v) (byteLength u)
  full : Place (u ++ (p ++ v)) (byteLength u)
  /-- How the nodes move. -/
  gap : Gap
  offset_eq : gap.offset = byteLength u
  bytes_eq : gap.bytes = byteLength p
  root_eq : (Tree.read (u ++ (p ++ v))).root = (Tree.read (u ++ v)).root.move gap
  kind_bare : bare.token.node.kind = .whitespace
  kind_full : full.token.node.kind = atomKind p
  span_full : full.token.node.span = ⟨byteLength u, byteLength u + byteLength p⟩
  node_eq : full.node = gap.node
  heading_eq : full.node.heading = bare.node.heading
  outer_eq : full.outer = bare.outer.map (·.move gap)
  id_ne : ∀ m ∈ bare.outer, m.id ≠ bare.node.id
  length_path : full.path.length = bare.path.length
  /-- With the word, a blank may stand before the place. -/
  exists_blanks : ∃ blanks, full.pre = bare.pre ++ blanks ∧ ∀ b ∈ blanks, b.kind = .whitespace

namespace CutsBlank

open Builder

variable {u v : List Char} {before : List Lexeme} {x y : List Char} {after : List Lexeme}
  (h : CutsBlank u v before x y after) {p : List Char}

include h

theorem sound_before : ∀ l ∈ before, l.Sound := by
  intro l hl
  have hmem : l ∈ lex (u ++ v) := by simp [h.lex_eq, hl]
  exact sound_of_mem_lex hmem

theorem sound_after : ∀ l ∈ ⟨.blank, x ++ y⟩ :: after, l.Sound := by
  intro l hl
  have hmem : l ∈ lex (u ++ v) := by
    rw [h.lex_eq]
    exact List.mem_append_right _ hl
  exact sound_of_mem_lex hmem

/-- The construction up to the blank is in good order, over any text that begins
    with `u`. -/
theorem orderly (w : List Char) :
    Orderly (byteLength (before.flatMap (·.text))) ((new (u ++ w)).placeAll 0 before) := by
  refine orderly_placeAll h.sound_before ⟨[], x ++ w, ?_, rfl⟩
  rw [h.left_eq, List.nil_append, List.append_assoc]

theorem read_eq : Tree.read (u ++ v) =
    (((new (u ++ v)).placeAll 0 before).placeAll (byteLength (before.flatMap (·.text)))
      (⟨.blank, x ++ y⟩ :: after)).toTree := by
  rw [Tree.read, h.lex_eq, placeAll_append, Nat.zero_add]

theorem byteLength_left : byteLength u = byteLength (before.flatMap (·.text)) + byteLength x := by
  rw [← byteLength_append, ← h.left_eq]

theorem read_insert_eq (hp : ∀ c ∈ p, isOrdinary c = true) (hne : p ≠ []) :
    Tree.read (u ++ (p ++ v)) =
      ((((new (u ++ (p ++ v))).placeAll 0 before).token .whitespace
        ⟨byteLength (before.flatMap (·.text)), byteLength u⟩).placeAll (byteLength u)
          (⟨.atom (atomKind p), p⟩ :: ⟨.blank, y⟩ :: after)).toTree := by
  rw [Tree.read, h.lex_insert hp hne, placeAll_append, Nat.zero_add, placeAll, h.byteLength_left]
  rfl

section Frames

variable {qs rest : List Frame} {f : Frame} (hqs : ∀ q ∈ qs, q.kind = .quoted)
  (hkind : f.kind ≠ .quoted)

include hqs hkind

/-- The place in the text as it is. -/
theorem exists_bare (hframes : ((new (u ++ v)).placeAll 0 before).frames = qs ++ f :: rest) :
    ∃ w : Place (u ++ v) (byteLength u), w.token.node.kind = .whitespace ∧
      w.node.heading = f.heading ∧ w.outer.map Node.heading = rest.map Frame.heading ∧
      w.pre = f.children.reverse ∧ w.path.length = qs.length := by
  have hb := h.orderly v
  have hy := byteLength_pos h.right_ne_nil
  have hu := h.byteLength_left
  have hcs : u ++ v ≠ [] := by simp [h.right_eq, h.right_ne_nil]
  -- the leaf of the blank, as it was added
  have hleaf := leaves_token ((new (u ++ v)).placeAll 0 before) .whitespace
    ⟨byteLength (before.flatMap (·.text)),
      byteLength (before.flatMap (·.text)) + byteLength (x ++ y)⟩
  have hmem := mem_leaves_toTree (hb.stacked.token .whitespace
    ⟨byteLength (before.flatMap (·.text)),
      byteLength (before.flatMap (·.text)) + byteLength (x ++ y)⟩)
    (by rw [hleaf]; exact List.mem_append_right _ (List.mem_singleton_self _))
    (fun l hl => h.sound_after l (List.mem_cons_of_mem _ hl))
    (byteLength (before.flatMap (·.text)) + byteLength (x ++ y))
  have hread : Tree.read (u ++ v) = _ := h.read_eq
  obtain ⟨l, hl, hnode, htrail⟩ := Tree.exists_location_of_mem_leaves hmem
  have hl : l ∈ (Tree.read (u ++ v)).locations := hread ▸ hl
  have hspan : l.node.span = ⟨byteLength (before.flatMap (·.text)),
      byteLength (before.flatMap (·.text)) + byteLength (x ++ y)⟩ := by rw [hnode]
  have hlt : byteLength u < l.node.span.stop := by
    rw [hspan, hu, byteLength_append]
    simp only
    omega
  obtain ⟨w, rfl, hw⟩ := hb.exists_place hcs hread h.sound_after hframes hqs hkind hl
    (by rw [hnode]) htrail (by rw [hspan]) (Nat.le.intro hu.symm) hlt
  exact ⟨w, by rw [hnode], hw⟩

/-- The place in the text with the word. -/
theorem exists_full (hp : ∀ c ∈ p, isOrdinary c = true) (hne : p ≠ [])
    (hframes : ((new (u ++ (p ++ v))).placeAll 0 before).frames = qs ++ f :: rest) :
    ∃ w : Place (u ++ (p ++ v)) (byteLength u), w.token.node.kind = atomKind p ∧
      w.token.node.span = ⟨byteLength u, byteLength u + byteLength p⟩ ∧
      w.node.heading = f.heading ∧ w.path.length = qs.length ∧
      ∃ blanks, w.pre = f.children.reverse ++ blanks ∧ ∀ b ∈ blanks, b.kind = .whitespace := by
  have hu := h.byteLength_left
  have hcs : u ++ (p ++ v) ≠ [] := by simp [hne]
  have hsound : ∀ l ∈ ⟨.atom (atomKind p), p⟩ :: ⟨.blank, y⟩ :: after, l.Sound := by
    intro l hl
    have hmem : l ∈ lex (u ++ (p ++ v)) := by
      rw [h.lex_insert hp hne]
      exact List.mem_append_right _ (List.mem_cons_of_mem _ hl)
    exact sound_of_mem_lex hmem
  have hb := (h.orderly (p ++ v)).token .whitespace (Nat.le.intro hu.symm)
  obtain ⟨qs', f', hframes', hqs', hlength, hheading, blanks, hblanks, hkinds⟩ :=
    exists_frames_token hframes hqs .whitespace
      ⟨byteLength (before.flatMap (·.text)), byteLength u⟩
  -- the leaf of the word, as it was added
  have hsettle := (closing_settle _ (byteLength u + byteLength p)).leaves_eq
    (hb.stacked.token (atomKind p) ⟨byteLength u, byteLength u + byteLength p⟩)
  have hmem := mem_leaves_toTree hsettle.1
    (by rw [hsettle.2, leaves_token]; exact List.mem_append_right _ (List.mem_singleton_self _))
    (fun l hl => hsound l (List.mem_cons_of_mem _ hl)) (byteLength u + byteLength p)
  have hread : Tree.read (u ++ (p ++ v)) = _ := h.read_insert_eq hp hne
  obtain ⟨l, hl, hnode, htrail⟩ := Tree.exists_location_of_mem_leaves hmem
  have hl : l ∈ (Tree.read (u ++ (p ++ v))).locations := hread ▸ hl
  have hspan : l.node.span = ⟨byteLength u, byteLength u + byteLength p⟩ := by rw [hnode]
  have hlt : byteLength u < l.node.span.stop := by
    rw [hspan]
    exact Nat.lt_add_of_pos_right (byteLength_pos hne)
  have hkind' : f'.kind ≠ .quoted := by
    have heq : f'.kind = f.kind := congrArg Heading.kind hheading
    rwa [heq]
  obtain ⟨w, rfl, hwnode, -, hpre, hpath⟩ := hb.exists_place hcs hread hsound hframes' hqs' hkind'
    hl (by rw [hnode]) htrail (by rw [hspan]) (Nat.le_refl _) hlt
  exact ⟨w, by rw [hnode], hspan, hwnode.trans hheading, hpath.trans hlength, blanks,
    hpre.trans hblanks, hkinds⟩

/-- The tree with the word is the tree without it, moved. -/
theorem exists_root_eq (hp : ∀ c ∈ p, isOrdinary c = true) (hne : p ≠ [])
    (hframes : ((new (u ++ v)).placeAll 0 before).frames = qs ++ f :: rest)
    (hroot : rest = [] → f.kind = .root) :
    ∃ n : Node, n.heading = f.heading ∧ (Tree.read (u ++ (p ++ v))).root =
      (Tree.read (u ++ v)).root.move ⟨n, byteLength u, 2, byteLength p⟩ := by
  have hb := h.orderly v
  have hu := h.byteLength_left
  have hy := byteLength_pos h.right_ne_nil
  have hwithin : Within f.heading rest [] ((new (u ++ v)).placeAll 0 before).frames :=
    ⟨[], qs, f, hframes, rfl, hqs, rfl⟩
  have hbase : f.heading.kind ≠ .quoted := hkind
  have hsame : (new (u ++ (p ++ v))).placeAll 0 before =
      ((new (u ++ v)).placeAll 0 before).withSource (u ++ (p ++ v)) :=
    placeAll_withSource (new (u ++ v)) (u ++ (p ++ v)) 0 before
  have hwithin' : Within f.heading rest [] ((new (u ++ (p ++ v))).placeAll 0 before).frames := by
    rw [hsame]
    exact hwithin
  have hnext' : ((new (u ++ (p ++ v))).placeAll 0 before).next =
      ((new (u ++ v)).placeAll 0 before).next := by
    rw [hsame]
    rfl
  have hsource : ∀ (c : Builder) (start : Nat) (l : Lexeme), (c.place start l).source = c.source :=
    fun c start l => source_placeAll c start [l]
  have hstop : byteLength (before.flatMap (·.text)) + byteLength (x ++ y) + byteLength p =
      byteLength (before.flatMap (·.text)) + byteLength x + byteLength p + byteLength y := by
    rw [byteLength_append]
    omega
  -- the blank of the one text against the two blanks and the word of the other
  have hblank := hwithin.place hbase (l := ⟨.blank, x ++ y⟩) rfl
    (byteLength (before.flatMap (·.text)))
  have hword := ((hwithin'.place hbase (l := ⟨.blank, x⟩) rfl
    (byteLength (before.flatMap (·.text)))).place hbase (l := ⟨.atom (atomKind p), p⟩) rfl
    (byteLength (before.flatMap (·.text)) + byteLength x)).place hbase (l := ⟨.blank, y⟩) rfl
    (byteLength (before.flatMap (·.text)) + byteLength x + byteLength p)
  obtain ⟨n, hn, hmove⟩ := exists_move 2 (byteLength p)
    (byteLength (before.flatMap (·.text)) + byteLength (x ++ y)) after
    (hb.surrounds hframes hkind hroot (Nat.le.intro hu.symm)) hblank hword
    (by rw [next_place, next_place, next_place, next_place, hnext']; rfl)
    (by
      rw [next_place]
      exact Nat.lt_add_right _ (id_lt_of_mem_frames hb.ids_eq (by simp [hframes])))
    (by rw [byteLength_append]; omega)
    (by
      rw [hsource, hsource, hsource, hsource, source_placeAll, source_placeAll]
      simp only [Builder.new, byteLength_append]
      omega)
    (by
      rw [hsource, source_placeAll]
      simp only [Builder.new, h.right_eq, byteLength_append]
      omega)
    (fun l hl => h.sound_after l (List.mem_cons_of_mem _ hl))
  refine ⟨n, hn, ?_⟩
  rw [hstop] at hmove
  rw [h.read_eq, Tree.read, h.lex_insert hp hne, placeAll_append, Nat.zero_add]
  exact hmove

end Frames

/-- A word can be put anywhere into a blank. -/
theorem exists_twins (hp : ∀ c ∈ p, isOrdinary c = true) (hne : p ≠ []) :
    Nonempty (Twins u p v) := by
  obtain ⟨qs, f, rest, hframes, hqs, hkind, hroot⟩ := (h.orderly v).stacked.exists_append
  have hframes' : ((new (u ++ (p ++ v))).placeAll 0 before).frames = qs ++ f :: rest := by
    have hsame := congrArg frames (placeAll_withSource (new (u ++ v)) (u ++ (p ++ v)) 0 before)
    exact hsame.trans hframes
  obtain ⟨w, hwkind, hwnode, hwouter, hwpre, hwpath⟩ := h.exists_bare hqs hkind hframes
  obtain ⟨w', hkind', hspan', hnode', hpath', blanks, hblanks, hkinds⟩ :=
    h.exists_full hqs hkind hp hne hframes'
  obtain ⟨n, hn, hmove⟩ := h.exists_root_eq hqs hkind hp hne hframes hroot
  let g : Gap := ⟨n, byteLength u, 2, byteLength p⟩
  have hsurrounds := (h.orderly v).surrounds hframes hkind hroot
    (Nat.le.intro h.byteLength_left.symm)
  have hid : w.node.id = n.id := congrArg Heading.id (hwnode.trans hn.symm)
  have hids : ∀ m ∈ w.outer, m.id ≠ w.node.id := by
    intro m hm
    obtain ⟨k, hk, hheading⟩ := List.mem_map.1 (hwouter ▸ List.mem_map_of_mem hm :
      m.heading ∈ rest.map Frame.heading)
    have hmid : k.id = m.id := congrArg Heading.id hheading
    have hfid : w.node.id = f.id := congrArg Heading.id hwnode
    rw [← hmid, hfid]
    exact hsurrounds.id_ne k hk
  -- the node around the word is found by its number
  have hlocation : (⟨w'.node, w'.outer⟩ : Location) = ⟨n, w.outer.map (·.move g)⟩ := by
    have hmem := Tree.move_mem_locations (g := g) hmove w.node_mem fun m hm => by
      rw [Node.move_of_id_ne (g := g) (w.lt_stop_outer hm) (hid ▸ hids m hm)]
    rw [Location.move, Node.move_of_id_eq (g := g) w.lt_stop_node hid] at hmem
    have hsame : w'.node.id = n.id := congrArg Heading.id (hnode'.trans hn.symm)
    exact Tree.location_eq_of_id_eq w'.node_mem hmem hsame
  exact ⟨{
    bare := w, full := w', gap := g
    offset_eq := rfl
    bytes_eq := rfl
    root_eq := hmove
    kind_bare := hwkind
    kind_full := hkind'
    span_full := hspan'
    node_eq := congrArg Location.node hlocation
    heading_eq := hnode'.trans hwnode.symm
    outer_eq := congrArg Location.above hlocation
    id_ne := hids
    length_path := hpath'.trans hwpath.symm
    exists_blanks := ⟨blanks, by rw [hblanks, hwpre], hkinds⟩ }⟩

end CutsBlank

end Typeahead
