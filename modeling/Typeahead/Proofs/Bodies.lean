import Typeahead.Proofs.Binders
import Typeahead.Proofs.Placeholder

/-!
# The bodies of binding forms

At a cursor in the body of a binding form, the local names are the symbols of its
patterns. The placeholder may stand anywhere in the body, as long as the lists
around it there do not bind names of their own (`Form.Holds`).

* `Tree.exists_foundIn`: the placeholder is a token inside lists without names;
* `Tree.bindingsAt_eq_of_hasClauses`: all patterns in front of the cursor bind;
* `Binder.scope_eq_names`: the local scope in the body of a binding form.
-/

namespace Typeahead

/-! ### The cursor in the body -/

namespace Form

/-- The forms between the delimiters of a collection. -/
def items : Form → List Form
  | list items | vector items | set items | shortFn items => items
  | map entries => entryForms entries
  | _ => []

/-- Whether the first item of a form is called. -/
def isCall : Form → Bool
  | list _ | shortFn _ => true
  | _ => false

/-- Whether a form does not begin like a binding form, if it is a list. -/
def isQuiet (f : Form) : Bool :=
  !f.isCall || (f.items.all (!·.isMarked) && f.items.head?.all (!·.opensScope))

/-- The symbol `name` stands in the form, `depth` levels down, and the lists around
    it there introduce no names. -/
inductive Holds (name : String) : Form → Nat → Prop
  | here : Holds name (.symbol name) 0
  | inside {f g : Form} {depth : Nat} : f.isQuiet = true → g ∈ f.items → Holds name g depth →
    Holds name f (depth + 1)
  | quoted {f : Form} {depth : Nat} : Holds name f depth → Holds name (.quoted f) (depth + 1)

/-- A form with items is read into a collection of them. -/
theorem exists_collection {f g : Form} (h : g ∈ f.items) : ∃ kind opener closer,
    kind.isCall = f.isCall ∧
      f.outline = [.collection kind opener closer (f.items.flatMap outline)] := by
  cases f with
  | list items | vector items | set items | shortFn items =>
    have houtline := outlineAll_eq_flatMap items
    exact ⟨_, _, _, rfl, congrArg (fun os => [Outline.collection _ _ _ os]) houtline⟩
  | map entries =>
    have houtline := outlineEntries_eq_flatMap entries
    exact ⟨_, _, _, rfl, congrArg (fun os => [Outline.collection _ _ _ os]) houtline⟩
  | _ => exact absurd h List.not_mem_nil

theorem Holds.isMarked {name : String} {f : Form} {depth : Nat} (h : f.Holds name depth) :
    f.isMarked = false := by
  cases h with
  | here => rfl
  | quoted h => rfl
  | inside hquiet hg h =>
    cases f with
    | discard f => exact absurd hg List.not_mem_nil
    | _ => rfl

end Form

/-- Each form of a collection is read into a child. -/
theorem Node.exists_child_of_mem {src : List Char} {n : Node} {kind : Kind} {opener : List Char}
    {closer : Char} {fs : List Form} {f : Form}
    (h : n.outline src = .collection kind opener closer (fs.flatMap Form.outline)) (hf : f ∈ fs)
    (hmarked : f.isMarked = false) :
    n.kind = kind ∧ ∃ c ∈ n.children, f.outline = [c.outline src] := by
  obtain ⟨hkind, hchildren⟩ := of_outline_eq_node h
  obtain ⟨o, ho, -⟩ := Form.exists_outline_eq hmarked
  have hmem : o ∈ outlineAll src n.children := by
    rw [hchildren]
    refine List.mem_append_left _ (List.mem_cons_of_mem _ (List.mem_flatMap.2 ⟨f, hf, ?_⟩))
    rw [ho]
    exact List.mem_singleton_self o
  obtain ⟨c, hc, rfl⟩ := exists_child hmem
  exact ⟨hkind, c, hc, ho⟩

namespace Tree

variable {t : Tree} {src : List Char} {n : Node} {above : List Node}

/-- The symbol that a form holds is a token of the tree, inside quiet nodes. -/
structure FoundIn (t : Tree) (name : String) (depth : Nat) (n : Node) (above : List Node)
    (l : Location) : Prop where
  mem : l ∈ t.locations
  inside : l.node ∈ n.preorder
  children_eq : l.node.children = []
  text_eq : t.text l.node = name
  exists_quiet : ∃ ls, l.ancestors = ls ++ Location.chain above ∧ ls.length = depth ∧
    ∀ m ∈ ls, t.Quiet m

/-- What is found in a child is found in the node. -/
theorem FoundIn.of_child {name : String} {depth : Nat} {c : Node} {l : Location}
    (h : t.FoundIn name depth c (n :: above) l) (hc : c ∈ n.children) (hn : t.Quiet ⟨n, above⟩) :
    t.FoundIn name (depth + 1) n above l := by
  obtain ⟨ls, hls, hlength, hquiet⟩ := h.exists_quiet
  refine ⟨h.mem, ?_, h.children_eq, h.text_eq, ls ++ [⟨n, above⟩], ?_, by simp [hlength], ?_⟩
  · exact Node.mem_preorder_of_mem_children hc h.inside
  · rw [hls, List.append_assoc]
    rfl
  · intro m hm
    rcases List.mem_append.1 hm with hm | hm
    · exact hquiet m hm
    · rw [List.mem_singleton.1 hm]
      exact hn

/-- What a form holds is found in the node that reads the form. -/
theorem exists_foundIn (hsrc : t.source = src) {name : String} {f : Form} {depth : Nat}
    (h : f.Holds name depth) (hn : ⟨n, above⟩ ∈ t.locations) (hread : f.outline = [n.outline src]) :
    ∃ l, t.FoundIn name depth n above l := by
  induction h generalizing n above with
  | here =>
    have hleaf : n.outline src = .leaf .symbol name.toList := (List.singleton_inj.1 hread).symm
    refine ⟨⟨n, above⟩, hn, n.mem_preorder_self, (Node.of_outline_eq_leaf hleaf).2.1, ?_, [], rfl,
      rfl, fun m hm => absurd hm List.not_mem_nil⟩
    rw [text_of_outline_eq hsrc hleaf, String.ofList_toList]
  | @inside f g depth hquiet hg hholds ih =>
    obtain ⟨kind, opener, closer, hcall, houtline⟩ := Form.exists_collection hg
    have hnode : n.outline src = .collection kind opener closer (f.items.flatMap Form.outline) :=
      (List.singleton_inj.1 (houtline.symm.trans hread)).symm
    obtain ⟨hkind, c, hc, hcread⟩ := Node.exists_child_of_mem hnode hg hholds.isMarked
    obtain ⟨l, hl⟩ := ih (children_subset_locations hn (List.mem_map.2 ⟨c, hc, rfl⟩)) hcread
    refine ⟨l, hl.of_child hc fun hncall => ?_⟩
    -- a list that the symbol stands in does not begin like a binding form
    have hfcall : f.isCall = true := by rw [← hcall, ← hkind]; exact hncall
    rw [Form.isQuiet, hfcall, Bool.not_true, Bool.false_or, Bool.and_eq_true,
      List.all_eq_true] at hquiet
    have hunmarked : ∀ i ∈ f.items, i.isMarked = false := fun i hi => by
      simpa using hquiet.1 i hi
    exact quiet_of_readAs hsrc (Node.of_outline_eq_collection hunmarked hnode).2.2 hquiet.2 above
      hncall
  | @quoted f depth hholds ih =>
    obtain ⟨o, ho, -⟩ := Form.exists_outline_eq hholds.isMarked
    have hnode : n.outline src = .node .quoted (.leaf .sigil ['\''] :: f.outline) :=
      (List.singleton_inj.1 hread).symm
    obtain ⟨hkind, hchildren⟩ := Node.of_outline_eq_node hnode
    obtain ⟨c, hc, rfl⟩ := Node.exists_child (o := o) (by rw [hchildren, ho]; simp)
    obtain ⟨l, hl⟩ := ih (children_subset_locations hn (List.mem_map.2 ⟨c, hc, rfl⟩)) ho
    refine ⟨l, hl.of_child hc fun hcall => ?_⟩
    rw [show n.kind = _ from hkind] at hcall
    cases hcall

end Tree

/-- A text without borders stands in one place only, if it does not stand before
    that place nor after it. -/
theorem Unbordered.eq_of_append {p u v a b : List Char} (hp : Unbordered p) (hu : ¬ p <:+: u)
    (hv : ¬ p <:+: v) (h : u ++ (p ++ v) = a ++ (p ++ b)) : u = a := by
  rcases List.append_eq_append_iff.1 h with ⟨x, rfl, hx⟩ | ⟨x, rfl, hx⟩
  · by_cases hnil : x = []
    · rw [hnil, List.append_nil]
    · refine absurd ⟨v, hx⟩ (not_prefix_append hp hnil ?_ b)
      rintro ⟨y, rfl⟩
      rw [List.append_assoc, List.append_cancel_left_eq] at hx
      exact hv ⟨y, b, by rw [hx, List.append_assoc]⟩
  · by_cases hnil : x = []
    · rw [hnil, List.append_nil]
    · refine absurd ⟨b, hx⟩ (not_prefix_append hp hnil ?_ v)
      exact fun hstart => hu (hstart.isInfix.trans (List.suffix_append a x).isInfix)

theorem Tiles.pairwise {start stop : Nat} {ns : List Node} (h : Tiles start stop ns)
    (hle : ∀ n ∈ ns, n.span.start ≤ n.span.stop) :
    ns.Pairwise fun a b => a.span.stop ≤ b.span.start := by
  induction ns generalizing start with
  | nil => exact .nil
  | cons n ns ih =>
    have htiles : Tiles start stop ([] ++ n :: ns) := h
    have hafter := (htiles.around hle).2.2.2
    exact .cons hafter (ih h.2 fun m hm => hle m (List.mem_cons_of_mem _ hm))

namespace Tree

theorem mem_preorder_of_mem_above {t : Tree} {l : Location} {n : Node} (hl : l ∈ t.locations)
    (hn : n ∈ l.above) : l.node ∈ n.preorder := by
  obtain ⟨m, above⟩ := l
  induction above generalizing m with
  | nil => exact absurd hn List.not_mem_nil
  | cons v above ih =>
    obtain ⟨hv, hm⟩ := parent_mem_locations hl rfl
    rcases List.mem_cons.1 hn with rfl | hn
    · exact Node.child_mem_preorder hm
    · exact Node.preorder_subset_of_mem n (ih v hv hn) (Node.child_mem_preorder hm)

section Spans

variable {cs : List Char} (hcs : cs ≠ [])

include hcs

/-- What is inside a node of the tree of a text lies within its span. -/
theorem span_within {m n : Node} (hn : n ∈ (Tree.read cs).nodes) (hm : m ∈ n.preorder) :
    n.span.start ≤ m.span.start ∧ m.span.stop ≤ n.span.stop := by
  have hsub := Node.preorder_subset_of_mem _ hn
  exact Node.span_of_mem_preorder n (fun k hk => filled_read cs k (hsub hk))
    (fun k hk => Nat.le_of_lt (lt_stop_read hcs k (hsub hk))) hm

/-- The children of a node are different nodes. -/
theorem nodup_children {n : Node} (hn : n ∈ (Tree.read cs).nodes) : n.children.Nodup := by
  by_cases hnil : n.children = []
  · rw [hnil]
    exact List.nodup_nil
  have hlt : ∀ c ∈ n.children, c.span.start < c.span.stop := fun c hc =>
    lt_stop_read hcs c (mem_nodes_of_mem_children hn hc)
  have hpairwise := (filled_read cs n hn hnil).pairwise fun c hc => Nat.le_of_lt (hlt c hc)
  refine hpairwise.imp_of_mem fun {a b} ha _ hab heq => ?_
  exact absurd (heq ▸ hab) (Nat.not_le_of_lt (hlt a ha))

/-- The active forms of a node follow each other. -/
theorem pairwise_activeForms {l : Location} (hl : l ∈ (Tree.read cs).locations) :
    l.node.activeForms.Pairwise fun a b => a.span.stop ≤ b.span.start := by
  refine List.Pairwise.sublist l.node.activeForms_sublist_children ?_
  by_cases hne : l.node.children = []
  · rw [hne]
    exact .nil
  · have htiles := filled_read cs l.node (mem_nodes_of_mem_locations hl) hne
    refine Tiles.pairwise htiles fun n hn => ?_
    have hchild := children_subset_locations hl (List.mem_map.2 ⟨n, hn, rfl⟩)
    exact Nat.le_of_lt (lt_stop_read hcs n (mem_nodes_of_mem_locations hchild))

/-- The siblings of a location are those before it, which end before it starts, and
    those after it. -/
theorem siblings_of_children_eq {l : Location} {v : Node} {above pre post : List Node}
    (hl : l ∈ (Tree.read cs).locations) (habove : l.above = v :: above)
    (hchildren : v.children = pre ++ l.node :: post) :
    l.before = pre.reverse ∧ (∀ m ∈ pre, m.span.stop ≤ l.node.span.start) ∧
      ∀ m ∈ post, l.node.span.stop ≤ m.span.start := by
  have hv := mem_nodes_of_mem_locations (parent_mem_locations hl habove).1
  have hmem : ∀ m ∈ pre ++ l.node :: post, m ∈ (Tree.read cs).nodes := fun m hm =>
    mem_nodes_of_mem_children hv (hchildren ▸ hm)
  have htiles := filled_read cs v hv (by simp [hchildren])
  rw [hchildren] at htiles
  obtain ⟨-, -, hpre, hpost⟩ := htiles.around fun m hm =>
    Nat.le_of_lt (lt_stop_read hcs m (hmem m hm))
  refine ⟨Location.before_eq habove hchildren fun m hm hid => ?_, hpre, hpost⟩
  have heq : m = l.node := eq_of_id_eq (hmem m (List.mem_append_left _ hm)) (hmem _ (by simp)) hid
  have hlt := lt_stop_read hcs m (hmem m (List.mem_append_left _ hm))
  exact absurd (heq ▸ hpre m hm) (Nat.not_le_of_lt hlt)

/-- The nodes around a location reach at least as far as it does. -/
theorem stop_le_of_mem_above {l : Location} {n : Node} (hl : l ∈ (Tree.read cs).locations)
    (hn : n ∈ l.above) : l.node.span.stop ≤ n.span.stop :=
  (span_within hcs (mem_nodes_of_mem_above hl (List.mem_cons_of_mem _ hn))
    (mem_preorder_of_mem_above hl hn)).2

/-- What ends before a cursor does not hold it. -/
theorem isWithin_eq_false_of_stop_le {cursor : Location} {n : Node} {offset : Nat}
    (hcursor : cursor ∈ (Tree.read cs).locations) (hbefore : offset < cursor.node.span.stop)
    (hn : n ∈ (Tree.read cs).nodes) (hstop : n.span.stop ≤ offset) : cursor.isWithin n = false := by
  rw [Bool.eq_false_iff, ne_eq, isWithin_iff_mem hcursor hn]
  intro hmem
  -- what holds the cursor reaches past it
  rcases List.mem_cons.1 hmem with rfl | hmem
  · omega
  · have hle := stop_le_of_mem_above hcs hcursor hmem
    omega

/-- What is inside nodes that end before an offset ends before it, too. -/
theorem stop_le_of_mem_preorderAll {os : List Node} {n : Node} {offset : Nat}
    (hos : ∀ o ∈ os, o ∈ (Tree.read cs).nodes ∧ o.span.stop ≤ offset)
    (hn : n ∈ Node.preorderAll os) : n ∈ (Tree.read cs).nodes ∧ n.span.stop ≤ offset := by
  obtain ⟨o, ho, hn⟩ := Node.mem_preorderAll.1 hn
  obtain ⟨hnode, hstop⟩ := hos o ho
  exact ⟨Node.preorder_subset_of_mem _ hnode hn, Nat.le_trans (span_within hcs hnode hn).2 hstop⟩

/-- Clauses among nodes that end before the cursor are visible: the list binds all
    symbols of their patterns. -/
theorem bindingsAt_eq_of_hasClauses {cursor l : Location} {offset : Nat} {kind : BindingKind}
    {os : List Node} {patterns : List Pattern} (hcursor : cursor ∈ (Tree.read cs).locations)
    (hbefore : offset < cursor.node.span.stop)
    (hos : ∀ o ∈ os, o ∈ (Tree.read cs).nodes ∧ o.span.stop ≤ offset)
    (h : (Tree.read cs).HasClauses cs l kind os patterns) (depth : Nat) :
    (Tree.read cs).bindingsAt cursor offset depth l =
      (patterns.flatMap (·.form.patternNames)).map fun name =>
        { name, kind, depth := .within depth } := by
  obtain ⟨clauses, hclauses, hamong, hread⟩ := h
  have hended : ∀ n ∈ Node.preorderAll os, n ∈ (Tree.read cs).nodes ∧ n.span.stop ≤ offset :=
    fun n => stop_le_of_mem_preorderAll hcs hos
  have hvisible : ∀ c ∈ clauses, (decide (offset < c.visibleFrom) ||
      cursor.isWithin c.pattern) = false := by
    intro c hc
    obtain ⟨n, hn, hstop⟩ := (hamong c hc).exists_stop
    obtain ⟨hnode, hpattern⟩ := hended _ (hamong c hc).pattern_mem
    rw [isWithin_eq_false_of_stop_le hcs hcursor hbefore hnode hpattern, Bool.or_false,
      decide_eq_false_iff_not, Nat.not_lt, hstop]
    exact (hended n hn).2
  have hnames : ∀ c ∈ clauses, (if (decide (offset < c.visibleFrom) ||
      cursor.isWithin c.pattern) = true then [] else
        (((Tree.read cs).boundNames c.pattern).filter (·.span.stop ≤ offset)).map fun s =>
          ({ name := (Tree.read cs).text s, kind, depth := .within depth } : Binding)) =
      ((Tree.read cs).boundNames c.pattern).map fun s =>
        { name := (Tree.read cs).text s, kind, depth := .within depth } := by
    intro c hc
    rw [hvisible c hc, if_neg Bool.false_ne_true, List.filter_eq_self.2]
    intro s hs
    have hinside := (mem_boundNames_iff.1 hs).mem_preorder
    obtain ⟨o, ho, hpattern⟩ := Node.mem_preorderAll.1 (hamong c hc).pattern_mem
    exact decide_eq_true (hended s (Node.mem_preorderAll.2
      ⟨o, ho, Node.preorder_subset_of_mem o hpattern hinside⟩)).2
  have hpatterns : Form.isPatternAll (patterns.map (·.form)) = true := by
    rw [Form.isPatternAll_iff]
    intro f hf
    obtain ⟨p, -, rfl⟩ := List.mem_map.1 hf
    exact p.isPattern
  have htexts := map_text_boundNamesAll (source_read cs) _ hpatterns hread
  rw [Form.patternNamesAll_eq_flatMap] at htexts
  have hflat : patterns.flatMap (·.form.patternNames) =
      (patterns.map (·.form)).flatMap Form.patternNames := by
    rw [List.flatMap_map]
  rw [bindingsAt, hclauses, List.flatMap_map, List.flatMap_def, List.map_congr_left hnames,
    ← List.flatMap_def, hflat, ← htexts, List.flatMap_map, List.map_flatMap, List.map_flatMap]
  simp only [List.map_map]
  rfl

end Spans

end Tree

/-! ### Binding forms at the top level -/

/-- A location is active if no markers stand next to the nodes around it. -/
theorem Location.isActive_of_unmarked {l : Location}
    (h : ∀ v ∈ l.above, ∀ c ∈ v.children, c.kind ≠ .formComment) : l.IsActive := by
  obtain ⟨n, above⟩ := l
  induction above generalizing n with
  | nil =>
    intro a ha _
    rw [List.mem_singleton.1 ha]
    exact deactivates_eq_false (fun k hk => absurd hk List.not_mem_nil) _
  | cons v above ih =>
    intro a ha hform
    rcases List.mem_cons.1 ha with rfl | ha
    · refine deactivates_eq_false (fun k hk => ?_) _
      obtain ⟨c, hc, rfl⟩ := List.mem_map.1 hk
      exact h v List.mem_cons_self c (List.takeWhile_subset _ (List.mem_reverse.1 hc))
    · exact ih v (fun w hw => h w (List.mem_cons_of_mem _ hw)) a ha hform

namespace Tree

/-- The list at `l` introduces names by the given patterns, which it has among the
    forms `os` in front of its body `bs`, and what is around it introduces none. -/
structure Hosts (t : Tree) (src : List Char) (l : Location) (kind : BindingKind)
    (patterns : List Pattern) (os bs : List Node) : Prop where
  mem : l ∈ t.locations
  isLive : t.isLive l = true
  activeForms_eq : ∃ hd, l.node.activeForms = hd ++ (os ++ bs)
  hasClauses : t.HasClauses src l kind os patterns
  silent : ∀ m ∈ l.ancestors, t.isLive m = true → t.clausesAt m = []

theorem bindingsAlong_silent {t : Tree} {cursor : Location} {offset depth : Nat}
    {ls : List Location} (h : ∀ m ∈ ls, t.isLive m = true → t.clausesAt m = []) :
    t.bindingsAlong cursor offset depth ls = [] := by
  induction ls generalizing depth with
  | nil => rfl
  | cons l ls ih =>
    rw [bindingsAlong_cons, ih fun m hm => h m (List.mem_cons_of_mem _ hm), List.append_nil]
    split
    · next hlive =>
      rw [bindingsAt, h l List.mem_cons_self hlive]
      rfl
    · rfl

/-- Without markers at the top level, the forms there are active. -/
theorem isActive_of_mem_root {cs : List Char}
    (hroot : ∀ c ∈ (Tree.read cs).root.children, c.kind ≠ .formComment) {n : Node}
    (hn : n ∈ (Tree.read cs).root.activeForms) :
    ⟨n, [(Tree.read cs).root]⟩ ∈ (Tree.read cs).locations ∧
      Location.IsActive ⟨n, [(Tree.read cs).root]⟩ := by
  have hself : ⟨(Tree.read cs).root, []⟩ ∈ (Tree.read cs).locations := by
    rw [locations_eq]
    exact List.mem_cons_self
  refine ⟨children_subset_locations hself
    (List.mem_map.2 ⟨n, Node.activeForms_subset_children _ hn, rfl⟩), ?_⟩
  refine Location.isActive_of_unmarked fun v hv => ?_
  rw [List.mem_singleton.1 hv]
  exact hroot

theorem isLive_root_read (cs : List Char) (above : List Node) :
    (Tree.read cs).isLive ⟨(Tree.read cs).root, above⟩ = false := by
  have hkind : (Tree.read cs).root.kind = .root := (Builder.waiting_reading cs).closable.toTree.1
  rw [isLive, hkind]
  rfl

theorem clausesAt_around_top (cs : List Char) : ∀ m ∈ Location.chain [(Tree.read cs).root],
    (Tree.read cs).isLive m = true → (Tree.read cs).clausesAt m = [] := by
  intro m hm hlive
  rw [List.mem_singleton.1 hm, isLive_root_read] at hlive
  cases hlive

end Tree

namespace Binder

open Typeahead.Tree

variable {cs : List Char} {body : List Value} {n : Node}

section TopLevel

variable (hroot : ∀ c ∈ (Tree.read cs).root.children, c.kind ≠ .formComment)
  (hn : n ∈ (Tree.read cs).root.activeForms)

include hroot hn

theorem exists_hosts_of_not_isArity (b : Binder) (hb : b.isArity = false)
    (hread : (b.form body).form.outline = [n.outline cs]) :
    ∃ l os bs, (Tree.read cs).Hosts cs l b.kind b.patterns os bs ∧
      Node.ReadAs cs bs (body.map Value.form) := by
  obtain ⟨hmem, hactive⟩ := isActive_of_mem_root hroot hn
  have hform : b.form body = .list (.ofHead b.head :: (b.opening ++ body)) := by
    cases b with
    | arity => cases hb
    | _ => rfl
  rw [hform] at hread
  obtain ⟨hkind, -, hitems⟩ := Node.of_list hread
  obtain ⟨hd, rest, hforms, hhead, hrest⟩ := hitems.exists_cons
  rw [List.map_append] at hrest
  obtain ⟨os, bs, rfl, hos, hbs⟩ := hrest.exists_append
  refine ⟨⟨n, [(Tree.read cs).root]⟩, os, bs, ⟨hmem, ?_, ⟨[hd], hforms⟩,
    b.exists_clauses (source_read cs) hb hforms hhead hos _, clausesAt_around_top cs⟩, hbs⟩
  exact (isLive_iff hmem).2 ⟨by rw [hkind]; rfl, hactive⟩

theorem exists_hosts_arity {head : {h : Head // h.isScopeRoot = true}} {preface : List Preface}
    {before after : List (List Value)} {params : List Pattern}
    (hread : ((arity head preface before after params).form body).form.outline =
      [n.outline cs]) :
    ∃ l os bs, (Tree.read cs).Hosts cs l .parameter [.vector params] os bs ∧
      Node.ReadAs cs bs (body.map Value.form) := by
  obtain ⟨hmem, -⟩ := isActive_of_mem_root hroot hn
  obtain ⟨h, hscope⟩ := head
  obtain ⟨hkind, hunmarked, hitems⟩ := Node.of_list hread
  obtain ⟨hd, rest, hforms, hhead, hrest⟩ := hitems.exists_cons
  obtain ⟨hname, houter⟩ :=
    clausesAt_eq_headClauses (source_read cs) hforms hhead [(Tree.read cs).root]
  rw [List.append_assoc, List.map_append, List.map_append, List.map_cons] at hrest
  obtain ⟨ps, rest, rfl, hps, hrest⟩ := hrest.exists_append
  -- whichever arity comes first, it is a list, so the function has no parameters of its own
  have hnone : n.parameterVector? = none := by
    obtain ⟨a, rest', hfirst, ha⟩ : ∃ a rest', rest = a :: rest' ∧ a.kind = .list := by
      cases before with
      | nil | cons x before =>
        obtain ⟨a, rest', hfirst, ha, -⟩ := hrest.exists_cons
        exact ⟨a, rest', hfirst, (Node.of_list ha).1⟩
    rw [hfirst] at hforms
    exact Node.parameterVector?_eq_none hforms (by rw [ha]; rfl) fun p => hps.kind_of_preface
  obtain ⟨xs, rest, rfl, -, hrest⟩ := hrest.exists_append
  obtain ⟨a, ys, rfl, ha, -⟩ := hrest.exists_cons
  obtain ⟨hakind, -, haitems⟩ := Node.of_list ha
  rw [List.map_append] at haitems
  obtain ⟨os, bs, hsplit, hos, hbs⟩ := haitems.exists_append
  have hchild : a ∈ n.children := n.activeForms_subset_children (by rw [hforms]; simp)
  have hamem := children_subset_locations hmem (List.mem_map.2 ⟨a, hchild, rfl⟩)
  refine ⟨⟨a, [n, (Tree.read cs).root]⟩, os, bs, ⟨hamem, ?_, ⟨[], hsplit⟩,
    exists_clauses_arity hscope hsplit hos hname _, ?_⟩, hbs⟩
  · refine (isLive_iff hamem).2 ⟨by rw [hakind]; rfl, Location.isActive_of_unmarked ?_⟩
    intro v hv
    rcases List.mem_cons.1 hv with rfl | hv
    · exact hunmarked
    · rw [List.mem_singleton.1 hv]
      exact hroot
  · intro m hm hlive
    rcases List.mem_cons.1 hm with rfl | hm
    · rw [houter, headClauses_function _ _ hscope, hnone]
      rfl
    · exact clausesAt_around_top cs m hm hlive

/-- A binding form at the top level introduces its names. -/
theorem exists_hosts (b : Binder) (hread : (b.form body).form.outline = [n.outline cs]) :
    ∃ l os bs, (Tree.read cs).Hosts cs l b.kind b.patterns os bs ∧
      Node.ReadAs cs bs (body.map Value.form) := by
  cases b with
  | arity head preface before after params =>
    rw [kind_of_isScopeRoot (b := arity head preface before after params) head.2]
    exact exists_hosts_arity hroot hn hread
  | _ => exact exists_hosts_of_not_isArity hroot hn _ rfl hread

end TopLevel

end Binder

/-! ### The local scope in a body -/

namespace Tree

/-- A token with the text of an inserted word is the token that holds it. -/
theorem Holds.eq_of_chars_eq {u p v : List Char} {l c : Location} (hp : Unbordered p)
    (h : (Tree.read (u ++ (p ++ v))).Holds u p v l) (hnot : ¬ p <:+: u ++ v)
    (hc : c ∈ (Tree.read (u ++ (p ++ v))).locations) (hleaf : c.node.children = [])
    (habove : c.above ≠ []) (hchars : (Tree.read (u ++ (p ++ v))).chars c.node = p) :
    c = l ∧ c.node.span.start = byteLength u := by
  obtain ⟨w, above, hw⟩ := List.exists_cons_of_ne_nil habove
  obtain ⟨hparent, hchild⟩ := parent_mem_locations hc hw
  obtain ⟨⟨before, after, hsplit, hstart⟩, hstop⟩ := standsAt_chars hparent hchild
  rw [hchars] at hsplit hstop
  obtain rfl : u = before :=
    hp.eq_of_append (fun hu => hnot (hu.trans (List.prefix_append u v).isInfix))
      (fun hv => hnot (hv.trans (List.suffix_append u v).isInfix)) hsplit
  exact ⟨h.unique c hc hleaf (Nat.le_of_eq hstart.symm) (by omega), hstart.symm⟩

/-- In the body of a list that introduces names, where nothing else does, the local
    names are those of the list. -/
theorem lexicalBindings_of_foundIn {cs : List Char} (hcs : cs ≠ []) {l cursor : Location}
    {kind : BindingKind} {patterns : List Pattern} {os bs : List Node} {m : Node} {name : String}
    {depth maxDepth : Nat} (hl : (Tree.read cs).Hosts cs l kind patterns os bs) (hm : m ∈ bs)
    (hcursor : (Tree.read cs).FoundIn name depth m (l.node :: l.above) cursor)
    (hdepth : depth < maxDepth) :
    (Tree.read cs).lexicalBindings maxDepth cursor cursor.node.span.start =
      (patterns.flatMap (·.form.patternNames)).map fun name =>
        { name, kind, depth := .within 0 } := by
  obtain ⟨hd, hforms⟩ := hl.activeForms_eq
  have hmem : ∀ o ∈ os ++ bs, o ∈ (Tree.read cs).nodes := by
    intro o ho
    refine mem_nodes_of_mem_children (mem_nodes_of_mem_locations hl.mem)
      (l.node.activeForms_subset_children ?_)
    rw [hforms]
    exact List.mem_append_right _ ho
  have hos : ∀ o ∈ os, o ∈ (Tree.read cs).nodes ∧ o.span.stop ≤ cursor.node.span.start := by
    intro o ho
    have hpairwise := pairwise_activeForms hcs hl.mem
    rw [hforms, List.pairwise_append, List.pairwise_append] at hpairwise
    have hbefore := hpairwise.2.1.2.2 o ho m hm
    have hinside := (span_within hcs (hmem m (List.mem_append_right _ hm)) hcursor.inside).1
    exact ⟨hmem o (List.mem_append_left _ ho), Nat.le_trans hbefore hinside⟩
  have hbindings := bindingsAt_eq_of_hasClauses hcs hcursor.mem
    (lt_stop_read hcs _ (mem_nodes_of_mem_locations hcursor.mem)) hos hl.hasClauses 0
  obtain ⟨ls, hls, rfl, hquiet⟩ := hcursor.exists_quiet
  obtain ⟨rest, rfl⟩ := Nat.exists_eq_add_of_lt hdepth
  -- quiet lists, the binding form, and what is around it, as far as the limit goes
  have htake : cursor.ancestors.take (ls.length + rest + 1) = ls ++ l :: l.ancestors.take rest := by
    rw [hls, Nat.add_assoc, List.take_length_add_append]
    rfl
  rw [lexicalBindings, htake, bindingsAlong_quiet hquiet, bindingsAlong_cons, if_pos hl.isLive,
    hbindings, bindingsAlong_silent fun m hm => hl.silent m (List.take_subset _ _ hm),
    List.append_nil]

end Tree

/-- Forms one below the other. -/
def renderLines (forms : List Value) : List Char := forms.flatMap fun v => v.form.render ++ ['\n']

/-- Forms one below the other are read into nodes at the top level. -/
theorem readAs_renderLines (forms : List Value) :
    (∀ c ∈ (Tree.read (renderLines forms)).root.children, c.kind ≠ .formComment) ∧
      Node.ReadAs (renderLines forms) (Tree.read (renderLines forms)).root.activeForms
        (forms.map Value.form) := by
  have hspelled := spelledAll_lines (forms.map Value.form) fun f hf => by
    obtain ⟨v, -, rfl⟩ := List.mem_map.1 hf
    exact v.isReadable
  rw [List.flatMap_map] at hspelled
  refine Node.readAs_activeForms [] [] Value.isMarked_of_mem
    (fun o ho => absurd ho List.not_mem_nil) ?_
  rw [List.append_nil, List.nil_append]
  exact hspelled.outlined_read.2.2

/-- At the placeholder in the body of a binding form at the top level, where no
    other form binds names, the local scope has the symbols of the patterns of the
    form and nothing else: in their order, every name once, of the kind of the form
    and not behind any function. -/
theorem Binder.scope_eq_names (config : Config)
    (hconfig : config.placeholder = ({} : Config).placeholder) (b : Binder)
    (before after body : List Value) {value : Value} (hvalue : value ∈ body) {depth maxDepth : Nat}
    (hplaceholder : value.form.Holds config.placeholder depth) (hdepth : depth < maxDepth)
    {u v : List Char} (htext : renderLines (before ++ b.form body :: after) =
      u ++ (config.placeholder.toList ++ v))
    (hclean : config.containsPlaceholder (u ++ v) = false) :
    ∃ t c, Cursor.inSource config (u ++ v) (byteLength u) = .ok (t, c) ∧
      (Scope.ofList none (t.lexicalBindings maxDepth c.location c.offset)).bindings =
        b.names.eraseDups.map fun name => { name, kind := b.kind, depth := .within 0 } := by
  have hinsertable := Config.insertable_of_placeholder_eq hconfig
  obtain ⟨hroot, hforms⟩ := readAs_renderLines (before ++ b.form body :: after)
  rw [htext] at hroot hforms
  generalize hcs : u ++ (config.placeholder.toList ++ v) = cs at hroot hforms
  have hne : cs ≠ [] := by
    rw [← hcs]
    simp [hinsertable.ne_nil]
  -- the binding form, and the form of its body with the placeholder in it
  obtain ⟨n, hn, hread⟩ := hforms.exists_of_mem (f := (b.form body).form) (by simp)
  obtain ⟨l, os, bs, hhosts, hbs⟩ := b.exists_hosts hroot hn hread
  obtain ⟨m, hm, hmread⟩ := hbs.exists_of_mem (List.mem_map_of_mem hvalue)
  obtain ⟨hd, hactive⟩ := hhosts.activeForms_eq
  have hchild : m ∈ l.node.children :=
    l.node.activeForms_subset_children (by rw [hactive]; simp [hm])
  obtain ⟨cursor, hcursor⟩ := Tree.exists_foundIn (Tree.source_read cs) hplaceholder
    (Tree.children_subset_locations hhosts.mem (List.mem_map.2 ⟨m, hchild, rfl⟩)) hmread
  have hbindings := Tree.lexicalBindings_of_foundIn hne hhosts hm hcursor hdepth
  -- the cursor of the host is that symbol
  have hchars : (Tree.read cs).chars cursor.node = config.placeholder.toList := by
    rw [← hcursor.text_eq, Tree.text, String.toList_ofList]
  have habove : cursor.above ≠ [] := by
    intro hnil
    obtain ⟨ls, hls, -⟩ := hcursor.exists_quiet
    rw [Location.ancestors, hnil] at hls
    exact List.append_ne_nil_of_right_ne_nil _ (by simp [Location.chain]) hls.symm
  subst hcs
  obtain ⟨holder, hholder⟩ := Tree.exists_holds_read hinsertable.ordinary hinsertable.ne_nil u v
  have hnot : ¬ config.placeholder.toList <:+: u ++ v := by
    rw [← containsText_iff, Bool.not_eq_true]
    exact hclean
  obtain ⟨rfl, hstart⟩ := hholder.eq_of_chars_eq hinsertable.unbordered hnot hcursor.mem
    hcursor.children_eq habove hchars
  refine ⟨_, _, Cursor.inSource_eq_ok hholder, ?_⟩
  rw [hstart] at hbindings
  exact (congrArg (fun bs => (Scope.ofList none bs).bindings) hbindings).trans
    (Scope.bindings_ofList_map (fun _ => rfl) _)

/-- A comprehension over pairs of a name and the rest, with a key looked up, a
    condition, and an accumulator that has the name of an element. -/
def rowsBinder : Binder :=
  .comprehension ⟨.forIn, by decide⟩ [
    .each { form := .vector [.symbol "x", .symbol "&", .symbol "more"] } { form := .keyword "in" }
      { form := .list [.symbol "rows", .symbol "y"] },
    .letIn [({ form := .map [(.keyword "k", .symbol "z")] },
      { form := .list [.symbol "get", .symbol "more"] })],
    .whenTrue { form := .symbol "ok" },
    .reduce { form := .symbol "x" } { form := .nil }]

theorem Binder.scope_eq_names_rows :
    let body : List Value :=
      [{ form := .list [.symbol "str", .vector [.symbol "IntellijIdeaRulezzz"]] }]
    let u := ("(for [[x & more] :in (rows y) :let [\x7b:k z\x7d (get more)] :when ok " ++
      ":reduce [x nil]] (str [").toList
    let v := "]))\n".toList
    renderLines [rowsBinder.form body] = u ++ (({} : Config).placeholder.toList ++ v) ∧
      ∃ t c, Cursor.inSource {} (u ++ v) (byteLength u) = .ok (t, c) ∧
        (Scope.ofList none (t.lexicalBindings 3 c.location c.offset)).bindings =
          ["x", "more", "z"].map fun name =>
            { name, kind := .forBinding, depth := .within 0 } := by
  intro body u v
  have htext : renderLines ([] ++ rowsBinder.form body :: []) =
      u ++ (({} : Config).placeholder.toList ++ v) := by
    decide +kernel
  have hholds : Form.Holds ({} : Config).placeholder
      (.list [.symbol "str", .vector [.symbol "IntellijIdeaRulezzz"]]) 2 :=
    .inside (by decide) (List.mem_cons_of_mem _ List.mem_cons_self)
      (.inside (by decide) List.mem_cons_self .here)
  exact ⟨htext, rowsBinder.scope_eq_names {} rfl [] [] body List.mem_cons_self hholds (by decide)
    htext (by decide +kernel)⟩

end Typeahead
