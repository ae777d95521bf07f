import Typeahead.Proofs.Decoding
import Typeahead.Proofs.Surroundings
import Typeahead.Proofs.Tokens
import Typeahead.Tree.MarkerText

/-!
# The visible text of a node

A scan for markers does not look into strings and comments: their bytes are
replaced by blanks before the text is scanned. What is left to see of a child of
the scanned node is its text, or as many blanks as it has bytes (`visible`).

In the tree of a text the children of a node follow each other without gaps, so
the scanned text is what is visible of the children, one after the other.

* `chars_eq_flatMap`: the text of a node is made of those of its children;
* `maskedChars_read`: the scanned text of a node is made of what is visible of
  its children.
-/

namespace Typeahead

/-! ### Blanks in place of bytes -/

theorem length_toBytes (cs : List Char) : (toBytes cs).length = byteLength cs := by
  induction cs with
  | nil => rfl
  | cons c cs ih =>
    rw [toBytes, List.flatMap_cons, List.length_append, String.length_utf8EncodeChar,
      byteLength_cons]
    exact congrArg _ ih

theorem toBytes_append (s t : List Char) : toBytes (s ++ t) = toBytes s ++ toBytes t :=
  List.flatMap_append

theorem toBytes_replicate_blank (n : Nat) :
    toBytes (List.replicate n ' ') = List.replicate n 32 := by
  induction n with
  | zero => rfl
  | succ n ih =>
    rw [List.replicate_succ, List.replicate_succ, ← ih]
    rfl

theorem byteLength_replicate_blank (n : Nat) : byteLength (List.replicate n ' ') = n := by
  rw [← length_toBytes, toBytes_replicate_blank, List.length_replicate]

theorem blankOut_append (xs ys zs : List UInt8) :
    blankOut (xs ++ (ys ++ zs)) xs.length (xs.length + ys.length) =
      xs ++ (List.replicate ys.length 32 ++ zs) := by
  have hbefore : (xs.mapIdx fun i b =>
      if xs.length ≤ i ∧ i < xs.length + ys.length then 32 else b) = xs := by
    refine List.ext_getElem List.length_mapIdx fun i hi _ => ?_
    rw [List.length_mapIdx] at hi
    rw [List.getElem_mapIdx, if_neg (by omega)]
  have hinside : (ys.mapIdx fun i b => if xs.length ≤ i + xs.length ∧
      i + xs.length < xs.length + ys.length then 32 else b) = List.replicate ys.length 32 := by
    refine List.ext_getElem (by simp) fun i hi _ => ?_
    rw [List.length_mapIdx] at hi
    rw [List.getElem_mapIdx, if_pos (by omega), List.getElem_replicate]
  have hafter : (zs.mapIdx fun i b => if xs.length ≤ i + ys.length + xs.length ∧
      i + ys.length + xs.length < xs.length + ys.length then 32 else b) = zs := by
    refine List.ext_getElem List.length_mapIdx fun i _ _ => ?_
    rw [List.getElem_mapIdx, if_neg (by omega)]
  rw [blankOut, List.mapIdx_append, List.mapIdx_append, hbefore, hinside, hafter]

/-! ### What is visible of a node -/

namespace Tree

/-- What a scan of the node around `n` sees of `n`. -/
def visible (t : Tree) (n : Node) : List Char :=
  if n.kind = .string ∨ n.kind = .lineComment then List.replicate (byteLength (t.chars n)) ' '
  else t.chars n

theorem byteLength_visible (t : Tree) (n : Node) :
    byteLength (t.visible n) = byteLength (t.chars n) := by
  rw [visible]
  split
  · exact byteLength_replicate_blank _
  · rfl

/-- Strings and comments are blanked out one after the other. -/
theorem foldl_blankOut (t : Tree) {base : Nat} {ns : List Node} {stop : Nat} (a : List Char)
    (htiles : Tiles (base + byteLength a) stop ns)
    (hspan : ∀ n ∈ ns, n.span.stop = n.span.start + byteLength (t.chars n)) :
    ns.foldl (fun bs c => if c.kind = .string ∨ c.kind = .lineComment then
        blankOut bs (c.span.start - base) (c.span.stop - base) else bs)
      (toBytes (a ++ ns.flatMap t.chars)) = toBytes (a ++ ns.flatMap t.visible) := by
  -- `a` is what the nodes before `ns` are masked to, so its bytes stay as they are
  induction ns generalizing a with
  | nil => rfl
  | cons n ns ih =>
    obtain ⟨hstart, hrest⟩ := htiles
    have hstop := hspan n List.mem_cons_self
    have htail := ih (a ++ t.visible n)
      (by rwa [byteLength_append, byteLength_visible, ← Nat.add_assoc, ← hstart, ← hstop])
      (fun m hm => hspan m (List.mem_cons_of_mem _ hm))
    rw [List.foldl_cons]
    have hbytes : (if n.kind = .string ∨ n.kind = .lineComment then
        blankOut (toBytes (a ++ (n :: ns).flatMap t.chars)) (n.span.start - base)
          (n.span.stop - base) else toBytes (a ++ (n :: ns).flatMap t.chars)) =
        toBytes (a ++ t.visible n ++ ns.flatMap t.chars) := by
      have hlo : n.span.start - base = (toBytes a).length := by
        rw [length_toBytes]
        omega
      have hhi : n.span.stop - base = (toBytes a).length + (toBytes (t.chars n)).length := by
        rw [length_toBytes, length_toBytes]
        omega
      rw [List.flatMap_cons, toBytes_append, toBytes_append, hlo, hhi, blankOut_append, visible,
        List.append_assoc, toBytes_append, toBytes_append]
      split
      · rw [toBytes_replicate_blank, length_toBytes]
      · rfl
    rw [hbytes, htail, List.flatMap_cons, List.append_assoc]

theorem maskedChars_eq {t : Tree} {v : Node} (hchars : t.chars v = v.children.flatMap t.chars)
    (htiles : Tiles v.span.start v.span.stop v.children)
    (hspan : ∀ n ∈ v.children, n.span.stop = n.span.start + byteLength (t.chars n)) :
    t.maskedChars v = v.children.flatMap t.visible := by
  have hfold := foldl_blankOut t [] (by rw [byteLength_nil, Nat.add_zero]; exact htiles) hspan
  rw [List.nil_append, List.nil_append] at hfold
  rw [maskedChars, hchars]
  exact (congrArg decodeLossy hfold).trans (decodeLossy_toBytes _)

/-! ### The tree of a text -/

variable {cs : List Char} {l : Location}

/-- The text of a node stands in the text where the node does. -/
theorem standsAt_of_mem_below (hl : l ∈ (Tree.read cs).below) :
    StandsAt cs l.node.span.start ((Tree.read cs).chars l.node) ∧
      l.node.span.stop = l.node.span.start + byteLength ((Tree.read cs).chars l.node) := by
  obtain ⟨before, run, after, hlex, hrun⟩ := exists_run_of_mem_below hl
  rw [hrun.chars_eq, hrun.span_eq]
  refine ⟨⟨before.flatMap (·.text), after.flatMap (·.text), ?_, rfl⟩, rfl⟩
  rw [← List.flatMap_append, ← List.flatMap_append, ← hlex, flatMap_text_lex]

theorem standsAt_chars (hl : l ∈ (Tree.read cs).locations) {n : Node} (hn : n ∈ l.node.children) :
    StandsAt cs n.span.start ((Tree.read cs).chars n) ∧
      n.span.stop = n.span.start + byteLength ((Tree.read cs).chars n) :=
  standsAt_of_mem_below (below_of_mem_children hl hn)

/-- Nodes that follow each other reach as far as their texts are long. -/
theorem stop_of_tiles {f : Node → List Char} {ns : List Node} {start stop : Nat}
    (htiles : Tiles start stop ns)
    (hns : ∀ n ∈ ns, n.span.stop = n.span.start + byteLength (f n)) :
    stop = start + byteLength (ns.flatMap f) := by
  induction ns generalizing start with
  | nil => exact htiles.symm
  | cons n ns ih =>
    obtain ⟨rfl, hrest⟩ := htiles
    have hstop := ih hrest fun m hm => hns m (List.mem_cons_of_mem _ hm)
    rw [hns n List.mem_cons_self] at hstop
    rw [List.flatMap_cons, byteLength_append]
    omega

/-- Nodes that follow each other cover a text made of theirs. -/
theorem standsAt_flatMap {f : Node → List Char} {ns : List Node} {start stop : Nat}
    (htiles : Tiles start stop ns) (hstart : StandsAt cs start [])
    (hns : ∀ n ∈ ns, StandsAt cs n.span.start (f n) ∧
      n.span.stop = n.span.start + byteLength (f n)) : StandsAt cs start (ns.flatMap f) := by
  induction ns generalizing start with
  | nil => exact hstart
  | cons n ns ih =>
    obtain ⟨rfl, hrest⟩ := htiles
    obtain ⟨hn, hstop⟩ := hns n List.mem_cons_self
    rw [hstop] at hrest
    have hend : StandsAt cs (n.span.start + byteLength (f n)) [] :=
      (StandsAt.append (by rwa [List.append_nil])).2
    rw [List.flatMap_cons]
    exact hn.trans (ih hrest hend fun m hm => hns m (List.mem_cons_of_mem _ hm))

/-- The text of a node is made of those of its children. -/
theorem chars_eq_flatMap (hl : l ∈ (Tree.read cs).locations) (hne : l.node.children ≠ []) :
    (Tree.read cs).chars l.node = l.node.children.flatMap (Tree.read cs).chars := by
  have htiles := filled_read cs _ (mem_nodes_of_mem_locations hl) hne
  -- the empty text stands at the start of the node, since the first child does
  have hstart : StandsAt cs l.node.span.start [] := by
    obtain ⟨n, ns, hns⟩ := List.exists_cons_of_ne_nil hne
    have hn := (standsAt_chars hl (hns ▸ List.mem_cons_self)).1
    rw [hns] at htiles
    rw [← htiles.1]
    exact (StandsAt.append (s := []) hn).1
  have hstands := standsAt_flatMap htiles hstart fun n hn => standsAt_chars hl hn
  have hstop := stop_of_tiles htiles fun n hn => (standsAt_chars hl hn).2
  have hsource : (Tree.read cs).source = cs := Builder.source_reading cs
  rw [chars, hsource, hstop, hstands.slice_eq]

/-- What a scan of a node sees is what is visible of its children. -/
theorem maskedChars_read (hl : l ∈ (Tree.read cs).locations) (hne : l.node.children ≠ []) :
    (Tree.read cs).maskedChars l.node = l.node.children.flatMap (Tree.read cs).visible :=
  maskedChars_eq (chars_eq_flatMap hl hne) (filled_read cs _ (mem_nodes_of_mem_locations hl) hne)
    fun _ hn => (standsAt_chars hl hn).2

end Tree

end Typeahead
