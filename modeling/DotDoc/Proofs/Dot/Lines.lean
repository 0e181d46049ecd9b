import DotDoc.Proofs.Dot.Legible
import DotDoc.Proofs.Dot.Tree

set_option autoImplicit false

/-!
# Reading documents by lines

All that stands between the braces of a block are lines (`Dot.Block.lines`): default attributes
behind a keyword, and lines that begin like an end of an edge. A line is told from what follows it,
and so are a block and a document, by induction on the size of the block.

What a text shows of a document is the document without the numbers it remembers, and with one name
for all anonymous blocks (`Dot.Document.bare`). Two legible documents have the same text if and only
if that is the same for both (`Dot.Document.text_eq_iff`).
-/

namespace DotDoc.Dot

/-! ## What shows of a block -/

/-- The name of a block as far as it shows. -/
def shownName (name : Label) : Label := if name.anonymous then .blank else name

mutual

/-- The block without the numbers that it remembers. -/
def Block.bare : Block → Block
  | ⟨_, name, graphAttrs, nodeAttrs, edgeAttrs, attrs, nodes, alone, edges⟩ =>
    { origin := 0
      name := shownName name
      graphAttrs, nodeAttrs, edgeAttrs, attrs, nodes
      alone := bareBlocks alone
      edges := bareEdges edges }

/-- The blocks without numbers, in turn. -/
def bareBlocks : List Block → List Block
  | [] => []
  | b :: rest => b.bare :: bareBlocks rest

/-- The edges without numbers, in turn. -/
def bareEdges : List Edge → List Edge
  | [] => []
  | e :: rest => e.bare :: bareEdges rest

/-- The edge without the numbers that it and its ends remember. -/
def Edge.bare : Edge → Edge
  | ⟨_, source, target, attrs⟩ =>
    { origin := 0, source := source.bare, target := target.bare, attrs }

/-- The end of an edge without numbers. -/
def Endpoint.bare : Endpoint → Endpoint
  | .point name record compass => .point name record compass
  | .block b => .block b.bare

end

@[simp] theorem bareBlocks_eq (bs : List Block) : bareBlocks bs = bs.map Block.bare := by
  induction bs with
  | nil => rfl
  | cons b rest ih => rw [bareBlocks, ih, List.map_cons]

@[simp] theorem bareEdges_eq (es : List Edge) : bareEdges es = es.map Edge.bare := by
  induction es with
  | nil => rfl
  | cons e rest ih => rw [bareEdges, ih, List.map_cons]

theorem anonymous_shownName (name : Label) : (shownName name).anonymous = name.anonymous := by
  unfold shownName
  split
  · rename_i h
    rw [h]
    rfl
  · rfl

theorem heading_shownName (d : Dialect) (name : Label) :
    heading d (shownName name) = heading d name := by
  unfold shownName
  split
  · rename_i h
    rw [heading, heading, h]
    rfl
  · rfl

theorem subheading_shownName (d : Dialect) (name : Label) :
    subheading d (shownName name) = subheading d name := by
  rw [subheading, subheading, anonymous_shownName, heading_shownName]

theorem Edge.bare_eq (e : Edge) : e.bare = ⟨0, e.source.bare, e.target.bare, e.attrs⟩ := by
  cases e
  rfl

theorem Block.name_bare (b : Block) : b.bare.name = shownName b.name := by
  cases b
  rfl

section Text

variable (d : Dialect) (op : String)

mutual

/-- The numbers do not show in the text. -/
theorem Block.body_bare : ∀ b : Block, b.bare.body d op = b.body d op
  | ⟨_, _, _, _, _, _, _, alone, edges⟩ => by
    rw [Block.body_parts, Block.body_parts, Block.bare, aloneLines_bare alone,
      edgeLines_bare edges]

theorem aloneLines_bare : ∀ bs : List Block, aloneLines d op (bareBlocks bs) = aloneLines d op bs
  | [] => rfl
  | b :: rest => by
    rw [bareBlocks, aloneLines, aloneLines, b.name_bare, subheading_shownName, Block.body_bare b,
      aloneLines_bare rest]

theorem edgeLines_bare : ∀ es : List Edge, edgeLines d op (bareEdges es) = edgeLines d op es
  | [] => rfl
  | e :: rest => by
    rw [bareEdges, edgeLines, edgeLines, Edge.line_bare e, edgeLines_bare rest]

theorem Edge.line_bare : ∀ e : Edge, e.bare.line d op = e.line d op
  | ⟨_, source, target, _⟩ => by
    rw [Edge.bare, Edge.line, Edge.line, Endpoint.chars_bare source, Endpoint.chars_bare target]

theorem Endpoint.chars_bare : ∀ p : Endpoint, p.bare.chars d op = p.chars d op
  | .point _ _ _ => rfl
  | .block b => by
    rw [Endpoint.bare, Endpoint.chars, Endpoint.chars, b.name_bare, subheading_shownName,
      Block.body_bare b]

end

end Text

/-! ## Lines -/

/-- What default attributes are for. -/
inductive DefaultsFor where
  | graph | node | edge
deriving DecidableEq

/-- The keyword of a line with default attributes. -/
def DefaultsFor.keyword : DefaultsFor → String
  | graph => "graph"
  | node => "node"
  | edge => "edge"

/-- What a line says of that with which it begins. -/
inductive Clause where
  | value (value : Label)
  | stated (attrs : AttrList)
  | edge (target : Endpoint) (attrs : AttrList)

/-- A line of a block. All lines but those with default attributes begin like the end of an edge. -/
inductive Line where
  | defaults (what : DefaultsFor) (attrs : AttrList)
  | about (p : Endpoint) (clause : Clause)

def Clause.chars (op : String) : Clause → List Char
  | value v => '=' :: ident .standard v ++ ['\n']
  | stated attrs => attrSuffix .standard attrs ++ ['\n']
  | edge target attrs =>
    ' ' :: op.toList ++ ' ' :: target.chars .standard op ++ attrSuffix .standard attrs ++ ['\n']

def Line.chars (op : String) : Line → List Char
  | defaults what attrs => what.keyword.toList ++ ' ' :: attrList .standard attrs ++ ['\n']
  | about p clause => p.chars .standard op ++ clause.chars op

/-- The line with default attributes, if there are any. -/
def defaultsLines (what : DefaultsFor) (attrs : AttrList) : List Line :=
  if attrs.isEmpty then [] else [.defaults what attrs]

/-- The lines of a block, from its default attributes to its edges. -/
def Block.lines (b : Block) : List Line :=
  defaultsLines .graph b.graphAttrs ++ (defaultsLines .node b.nodeAttrs ++
    (defaultsLines .edge b.edgeAttrs ++
    (b.attrs.map (fun e => .about (.point ⟨e.1, false⟩ none none) (.value e.2)) ++
    (b.nodes.map (fun n => .about (.point n.name none none) (.stated n.attrs)) ++
    (b.alone.map (fun c => .about (.block c) (.stated [])) ++
    b.edges.map (fun e => .about e.source (.edge e.target e.attrs)))))))

variable {op : String}

theorem aloneLines_eq (bs : List Block) : aloneLines .standard op bs =
    bs.flatMap fun c => (Line.about (.block c) (.stated [])).chars op := by
  rw [aloneLines_eq_flatten, List.flatMap_def]
  rfl

theorem edgeLines_eq (es : List Edge) : edgeLines .standard op es =
    es.flatMap fun e => (Line.about e.source (.edge e.target e.attrs)).chars op := by
  rw [edgeLines_eq_flatten, List.flatMap_def]
  refine congrArg List.flatten (List.map_congr_left fun e _ => ?_)
  simp [Edge.line_parts, Line.chars, Clause.chars]

theorem defaultsLine_eq (op : String) (what : DefaultsFor) (attrs : AttrList) :
    defaultsLine .standard what.keyword attrs =
      (defaultsLines what attrs).flatMap (Line.chars op) := by
  unfold defaultsLine defaultsLines
  split
  · rfl
  · simp [Line.chars]

/-- The lines of a block stand between its braces. -/
theorem Block.body_eq (b : Block) :
    b.body .standard op =
      '\x7b' :: '\n' :: (b.lines.flatMap (Line.chars op) ++ ['\x7d']) := by
  obtain ⟨origin, name, graphAttrs, nodeAttrs, edgeAttrs, attrs, nodes, alone, edges⟩ := b
  have hattrs : attrLines .standard attrs = attrs.flatMap fun e =>
      (Line.about (.point ⟨e.1, false⟩ none none) (.value e.2)).chars op := by
    simp [attrLines, Line.chars, Clause.chars, Endpoint.chars, point]
  have hnode : NodeStatement.line .standard = fun n =>
      (Line.about (.point n.name none none) (.stated n.attrs)).chars op := by
    funext n
    simp [NodeStatement.line, Line.chars, Clause.chars, Endpoint.chars, point]
  rw [Block.body_parts, aloneLines_eq, edgeLines_eq, hattrs, hnode,
    show "graph" = DefaultsFor.graph.keyword from rfl,
    show "node" = DefaultsFor.node.keyword from rfl,
    show "edge" = DefaultsFor.edge.keyword from rfl,
    defaultsLine_eq op, defaultsLine_eq op, defaultsLine_eq op]
  simp [Block.lines, List.flatMap_append, List.flatMap_map]

/-! ## From lines to blocks -/

/-- The clause without the numbers that it remembers. -/
def Clause.bare : Clause → Clause
  | value v => value v
  | stated attrs => stated attrs
  | edge target attrs => edge target.bare attrs

/-- The line without the numbers that it remembers. -/
def Line.bare : Line → Line
  | defaults what attrs => defaults what attrs
  | about p clause => about p.bare clause.bare

/-- The default attributes in a line for that. -/
def Line.defaults? (what : DefaultsFor) : Line → Option AttrList
  | defaults what' attrs => if what' = what then some attrs else none
  | about .. => none

/-- The attribute of the block in a line. -/
def Line.attr? : Line → Option (String × Label)
  | about (.point name _ _) (.value v) => some (name.text, v)
  | _ => none

/-- The node that a line states. -/
def Line.node? : Line → Option NodeStatement
  | about (.point name _ _) (.stated attrs) => some ⟨name, attrs⟩
  | _ => none

/-- The block that stands alone in a line. -/
def Line.alone? : Line → Option Block
  | about (.block b) (.stated _) => some b
  | _ => none

/-- The edge in a line. -/
def Line.edge? : Line → Option Edge
  | about p (.edge target attrs) => some ⟨0, p, target, attrs⟩
  | _ => none

/-- The block that consists of these lines. -/
def Block.ofLines (name : Label) (lines : List Line) : Block where
  origin := 0
  name := name
  graphAttrs := (lines.filterMap (Line.defaults? .graph)).flatten
  nodeAttrs := (lines.filterMap (Line.defaults? .node)).flatten
  edgeAttrs := (lines.filterMap (Line.defaults? .edge)).flatten
  attrs := lines.filterMap Line.attr?
  nodes := lines.filterMap Line.node?
  alone := lines.filterMap Line.alone?
  edges := lines.filterMap Line.edge?

@[simp] theorem map_bare_defaultsLines (what : DefaultsFor) (attrs : AttrList) :
    (defaultsLines what attrs).map Line.bare = defaultsLines what attrs := by
  unfold defaultsLines
  split <;> rfl

@[simp] theorem flatten_defaultsLines (what : DefaultsFor) (attrs : AttrList) :
    ((defaultsLines what attrs).filterMap (Line.defaults? what)).flatten = attrs := by
  unfold defaultsLines
  split
  · rename_i h
    exact (List.isEmpty_iff.1 h).symm
  · simp [Line.defaults?]

theorem filterMap_defaultsLines {α : Type} {f : Line → Option α} {what : DefaultsFor}
    (hf : ∀ attrs, f (.defaults what attrs) = none) (attrs : AttrList) :
    (defaultsLines what attrs).filterMap f = [] := by
  unfold defaultsLines
  split
  · rfl
  · rw [List.filterMap_cons, hf]
    rfl

/-- **What shows of a block is made up of its name and its lines.** -/
theorem Block.bare_eq_ofLines (b : Block) :
    b.bare = Block.ofLines (shownName b.name) (b.lines.map Line.bare) := by
  obtain ⟨origin, name, graphAttrs, nodeAttrs, edgeAttrs, attrs, nodes, alone, edges⟩ := b
  simp only [Block.lines, List.map_append, map_bare_defaultsLines, List.map_map,
    Function.comp_def, Line.bare, Clause.bare, Endpoint.bare, Block.ofLines,
    List.filterMap_append, List.filterMap_map, Line.attr?, Line.node?, Line.alone?, Line.edge?]
  simp [filterMap_defaultsLines (f := Line.attr?) fun _ => rfl,
    filterMap_defaultsLines (f := Line.node?) fun _ => rfl,
    filterMap_defaultsLines (f := Line.alone?) fun _ => rfl,
    filterMap_defaultsLines (f := Line.edge?) fun _ => rfl,
    filterMap_defaultsLines, Line.defaults?, Block.bare, ← Edge.bare_eq]

/-! ## Labels of a block -/

/-- The labels that the end of an edge shows itself. -/
def Endpoint.labels : Endpoint → List Label
  | .point name record _ => name :: record.toList
  | .block _ => []

def Clause.labels : Clause → List Label
  | value v => [v]
  | stated attrs => attrs.labels
  | edge target attrs => target.labels ++ attrs.labels

def Line.labels : Line → List Label
  | defaults _ attrs => attrs.labels
  | about p clause => p.labels ++ clause.labels

/-- The labels that a block shows outside of the blocks in it. -/
def Block.labels (b : Block) : List Label := b.name :: b.lines.flatMap Line.labels

theorem Block.mem_labels {b : Block} {l : Label} : l ∈ b.labels ↔
    l = b.name ∨
      (∃ attrs ∈ [b.graphAttrs, b.nodeAttrs, b.edgeAttrs, b.attrs], l ∈ AttrList.labels attrs) ∨
      (∃ n ∈ b.nodes, l = n.name ∨ l ∈ AttrList.labels n.attrs) ∨
      ∃ e ∈ b.edges, l ∈ e.source.labels ∨ l ∈ e.target.labels ∨ l ∈ AttrList.labels e.attrs := by
  have hdefaults : ∀ what attrs, (defaultsLines what attrs).flatMap Line.labels =
      AttrList.labels attrs := by
    intro what attrs
    unfold defaultsLines
    split
    · rename_i h
      rw [List.isEmpty_iff.1 h]
      rfl
    · exact List.flatMap_singleton ..
  have hattrs : b.attrs.flatMap (fun e =>
      (Line.about (.point ⟨e.1, false⟩ none none) (.value e.2)).labels) =
      AttrList.labels b.attrs := rfl
  simp only [Block.labels, Block.lines, List.flatMap_append, List.flatMap_map, hdefaults, hattrs,
    List.mem_cons, List.mem_append, List.mem_flatMap]
  simp [Line.labels, Clause.labels, Endpoint.labels, AttrList.labels, or_assoc]

/-- All labels of the block are legible, at any depth. -/
def Block.Legible (b : Block) : Prop := ∀ c ∈ b.blocks, ∀ l ∈ c.labels, l.Legible

def Clause.inner : Clause → List Block
  | edge target _ => target.block?.toList
  | _ => []

/-- The blocks in a line. -/
def Line.inner : Line → List Block
  | defaults _ _ => []
  | about p clause => p.block?.toList ++ clause.inner

theorem Block.inner_eq_lines (b : Block) : b.inner = b.lines.flatMap Line.inner := by
  have hdefaults : ∀ what attrs, (defaultsLines what attrs).flatMap Line.inner = [] := by
    intro what attrs
    unfold defaultsLines
    split <;> rfl
  have hpoint : ∀ name record compass, (Endpoint.point name record compass).block? = none :=
    fun _ _ _ => rfl
  have hblock : ∀ c, (Endpoint.block c).block? = some c := fun _ => rfl
  have hnone : ∀ {α : Type} (xs : List α), xs.flatMap (fun _ => ([] : List Block)) = [] := by
    simp
  have hedge : Edge.inner = fun e => e.source.block?.toList ++ e.target.block?.toList := rfl
  simp [Block.lines, hdefaults, List.flatMap_append, List.flatMap_map, Line.inner, Clause.inner,
    hpoint, hblock, hnone, Block.inner, hedge]

theorem Block.Legible.of_inner {b c : Block} (h : b.Legible) (hc : c ∈ b.inner) : c.Legible := by
  intro d hd
  apply h d
  rw [Block.blocks_eq]
  exact List.mem_cons_of_mem b (List.mem_flatMap.2 ⟨c, hc, hd⟩)

theorem Block.Legible.label {b : Block} (h : b.Legible) : ∀ l ∈ b.labels, l.Legible := by
  apply h b
  rw [Block.blocks_eq]
  exact List.mem_cons_self

theorem Block.Legible.line {b : Block} (h : b.Legible) {x : Line} (hx : x ∈ b.lines) :
    ∀ l ∈ x.labels, l.Legible := fun l hl =>
  h.label l (List.mem_cons_of_mem b.name (List.mem_flatMap.2 ⟨x, hx, hl⟩))

/-! ## Ends of edges and lines -/

/-- The block is told from what follows it, where it is written inside another one. -/
def Block.Told (op : String) (b : Block) : Prop :=
  ∀ c : Block, c.Legible → ∀ r s, b.nested .standard op ++ r = c.nested .standard op ++ s →
    b.bare = c.bare ∧ r = s

variable {r s : List Char}

theorem head_nested (b : Block) :
    ∃ x ∈ ['\x7b', 's'], (b.nested .standard op ++ r).head? = some x := by
  rw [Block.nested, Block.body_eq]
  cases h : b.name.anonymous
  · exact ⟨'s', by simp, by simp [subheading, h]⟩
  · exact ⟨'\x7b', by simp, by simp [subheading, h]⟩

theorem head_point (name : Label) (record : Option Label) (compass : Option Compass) :
    ∃ x ∈ ['<', '"'], (point .standard name record compass ++ r).head? = some x := by
  refine ⟨if name.markup then '<' else '"', ?_, ?_⟩
  · split <;> simp
  · rw [point, List.append_assoc, List.append_assoc, head_ident]

theorem Endpoint.head_chars (p : Endpoint) :
    ∃ x ∈ ['<', '"', '\x7b', 's'], (p.chars .standard op ++ r).head? = some x := by
  cases p with
  | point name record compass =>
      exact (head_point name record compass).imp fun x hx =>
        ⟨List.mem_append_left ['\x7b', 's'] hx.1, hx.2⟩
  | block b =>
      exact (head_nested b).imp fun x hx => ⟨List.mem_append_right ['<', '"'] hx.1, hx.2⟩

/-- Texts that begin with different signs differ. -/
theorem ne_of_heads {a b : List Char} {xs ys : List Char} (ha : ∃ x ∈ xs, a.head? = some x)
    (hb : ∃ y ∈ ys, b.head? = some y) (hne : ∀ x ∈ xs, x ∉ ys) : a ≠ b := by
  rintro rfl
  obtain ⟨x, hx, hax⟩ := ha
  obtain ⟨y, hy, hay⟩ := hb
  rw [hax, Option.some.injEq] at hay
  exact hne x hx (hay ▸ hy)

/-- The end of an edge is told from what follows it. -/
theorem Endpoint.chars_append_inj {p q : Endpoint} (hp : ∀ l ∈ p.labels, l.Legible)
    (hq : ∀ l ∈ q.labels, l.Legible) (htold : ∀ b ∈ p.block?, b.Told op)
    (hlegible : ∀ c ∈ q.block?, c.Legible) (hr : EndsPlace r) (hs : EndsPlace s)
    (h : p.chars .standard op ++ r = q.chars .standard op ++ s) : p.bare = q.bare ∧ r = s := by
  -- a place begins like an identifier, and a block with a brace or its keyword
  cases p with
  | point name record compass =>
      cases q with
      | point name' record' compass' =>
          obtain ⟨⟨rfl, rfl, rfl⟩, hrest⟩ := point_append_inj (hp _ List.mem_cons_self)
            (hq _ List.mem_cons_self) (fun l hl => hp l (.tail _ (Option.mem_toList.2 hl)))
            (fun l hl => hq l (.tail _ (Option.mem_toList.2 hl))) hr hs h
          exact ⟨rfl, hrest⟩
      | block c =>
          exact absurd h (ne_of_heads (head_point name record compass) (head_nested c)
            (by simp))
  | block b =>
      cases q with
      | point name' record' compass' =>
          exact absurd h.symm (ne_of_heads (head_point name' record' compass') (head_nested b)
            (by simp))
      | block c =>
          obtain ⟨hbare, hrest⟩ := htold b rfl c (hlegible c rfl) r s h
          exact ⟨congrArg Endpoint.block hbare, hrest⟩

theorem endsPlace_attrSuffix (attrs : AttrList) :
    EndsPlace (attrSuffix .standard attrs ++ '\n' :: r) := by
  rintro c hc
  cases attrs with
  | nil =>
      obtain rfl := Option.some.inj hc
      decide
  | cons e attrs =>
      obtain rfl := Option.some.inj hc
      decide

theorem Clause.endsPlace_chars (clause : Clause) : EndsPlace (clause.chars op ++ r) := by
  cases clause with
  | value v =>
      intro c hc
      obtain rfl := Option.some.inj hc
      decide
  | stated attrs =>
      rw [Clause.chars, List.append_assoc]
      exact endsPlace_attrSuffix attrs
  | edge target attrs =>
      intro c hc
      obtain rfl := Option.some.inj hc
      decide

/-- The statement of something is no edge. -/
theorem Clause.stated_ne_edge {attrs attrs' : AttrList} {target : Endpoint}
    (hop : op.toList.head? = some '-') :
    (stated attrs).chars op ++ r ≠ (edge target attrs').chars op ++ s := by
  intro h
  obtain ⟨o, ho⟩ := List.head?_eq_some_iff.1 hop
  cases attrs with
  | nil => simp [Clause.chars, attrSuffix] at h
  | cons e attrs => simp [Clause.chars, attrSuffix, attrList, ho] at h

theorem Clause.value_ne_stated {v : Label} {attrs : AttrList} :
    (value v).chars op ++ r ≠ (stated attrs).chars op ++ s := by
  intro h
  cases attrs <;> simp [Clause.chars, attrSuffix] at h

theorem Clause.value_ne_edge {v : Label} {attrs : AttrList} {target : Endpoint} :
    (value v).chars op ++ r ≠ (edge target attrs).chars op ++ s := by
  simp [Clause.chars]

theorem Clause.chars_append_inj (hop : op.toList.head? = some '-') {x y : Clause}
    (hx : ∀ l ∈ x.labels, l.Legible) (hy : ∀ l ∈ y.labels, l.Legible)
    (htold : ∀ b ∈ x.inner, b.Told op) (hlegible : ∀ c ∈ y.inner, c.Legible)
    (h : x.chars op ++ r = y.chars op ++ s) : x.bare = y.bare ∧ r = s := by
  cases x with
  | value v =>
      cases y with
      | value v' =>
          simp only [Clause.chars, List.cons_append, List.append_assoc, List.nil_append] at h
          obtain ⟨rfl, hrest⟩ := ident_append_inj (hx v List.mem_cons_self)
            (hy v' List.mem_cons_self) (List.cons.inj h).2
          exact ⟨rfl, (List.cons.inj hrest).2⟩
      | stated attrs => exact absurd h value_ne_stated
      | edge target attrs => exact absurd h value_ne_edge
  | stated attrs =>
      cases y with
      | value v => exact absurd h.symm value_ne_stated
      | stated attrs' =>
          simp only [Clause.chars, List.append_assoc, List.cons_append, List.nil_append] at h
          obtain ⟨rfl, hrest⟩ := attrSuffix_append_inj hx hy h
          exact ⟨rfl, hrest⟩
      | edge target attrs' => exact absurd h (stated_ne_edge hop)
  | edge target attrs =>
      cases y with
      | value v => exact absurd h.symm value_ne_edge
      | stated attrs' => exact absurd h.symm (stated_ne_edge hop)
      | edge target' attrs' =>
          -- behind the operator the target is told first, for attributes follow it
          simp only [Clause.chars, List.append_assoc, List.cons_append, List.nil_append,
            List.cons.injEq, true_and, List.append_cancel_left_eq] at h
          simp only [Clause.labels, List.mem_append] at hx hy
          obtain ⟨hbare, hattrs⟩ := Endpoint.chars_append_inj (fun l hl => hx l (.inl hl))
            (fun l hl => hy l (.inl hl)) (fun b hb => htold b (Option.mem_toList.2 hb))
            (fun c hc => hlegible c (Option.mem_toList.2 hc)) (endsPlace_attrSuffix attrs)
            (endsPlace_attrSuffix attrs') h
          obtain ⟨rfl, hrest⟩ := attrSuffix_append_inj (fun l hl => hx l (.inr hl))
            (fun l hl => hy l (.inr hl)) hattrs
          exact ⟨by rw [Clause.bare, Clause.bare, hbare], hrest⟩

theorem DefaultsFor.head_keyword (what : DefaultsFor) :
    ∃ x ∈ ['g', 'n', 'e'], (what.keyword.toList ++ r).head? = some x := by
  cases what <;> exact ⟨_, by decide, rfl⟩

theorem DefaultsFor.keyword_append_inj {what what' : DefaultsFor}
    (h : what.keyword.toList ++ r = what'.keyword.toList ++ s) : what = what' ∧ r = s := by
  have heq : what = what' := by
    cases what <;> cases what' <;> simp [keyword] at h ⊢
  exact ⟨heq, List.append_cancel_left (heq ▸ h)⟩

/-- **A line is told from what follows it.** -/
theorem Line.chars_append_inj (hop : op.toList.head? = some '-') {x y : Line}
    (hx : ∀ l ∈ x.labels, l.Legible) (hy : ∀ l ∈ y.labels, l.Legible)
    (htold : ∀ b ∈ x.inner, b.Told op) (hlegible : ∀ c ∈ y.inner, c.Legible)
    (h : x.chars op ++ r = y.chars op ++ s) : x.bare = y.bare ∧ r = s := by
  cases x with
  | defaults what attrs =>
      rw [Line.chars, List.append_assoc, List.append_assoc] at h
      cases y with
      | defaults what' attrs' =>
          rw [Line.chars, List.append_assoc, List.append_assoc] at h
          obtain ⟨rfl, hattrs⟩ := DefaultsFor.keyword_append_inj h
          obtain ⟨rfl, hrest⟩ := attrList_append_inj hx hy (List.cons.inj hattrs).2
          exact ⟨rfl, (List.cons.inj hrest).2⟩
      | about q clause =>
          rw [Line.chars, List.append_assoc] at h
          exact absurd h (ne_of_heads what.head_keyword q.head_chars (by simp))
  | about p clause =>
      rw [Line.chars, List.append_assoc] at h
      cases y with
      | defaults what' attrs' =>
          rw [Line.chars, List.append_assoc, List.append_assoc] at h
          exact absurd h.symm (ne_of_heads what'.head_keyword p.head_chars (by simp))
      | about q clause' =>
          rw [Line.chars, List.append_assoc] at h
          simp only [Line.labels, Line.inner, List.mem_append, Option.mem_toList]
            at hx hy htold hlegible
          obtain ⟨hbare, hclause⟩ := Endpoint.chars_append_inj (fun l hl => hx l (.inl hl))
            (fun l hl => hy l (.inl hl)) (fun b hb => htold b (.inl hb))
            (fun c hc => hlegible c (.inl hc)) clause.endsPlace_chars clause'.endsPlace_chars h
          obtain ⟨hbare', hrest⟩ := Clause.chars_append_inj hop (fun l hl => hx l (.inr hl))
            (fun l hl => hy l (.inr hl)) (fun b hb => htold b (.inr hb))
            (fun c hc => hlegible c (.inr hc)) hclause
          exact ⟨by rw [Line.bare, Line.bare, hbare, hbare'], hrest⟩

theorem Line.head_chars (x : Line) :
    ∃ c ∈ ['g', 'n', 'e', '<', '"', '\x7b', 's'], (x.chars op ++ r).head? = some c := by
  cases x with
  | defaults what attrs =>
      rw [Line.chars, List.append_assoc, List.append_assoc]
      obtain ⟨c, hc, hhead⟩ := what.head_keyword
      exact ⟨c, List.mem_append_left ['<', '"', '\x7b', 's'] hc, hhead⟩
  | about p clause =>
      rw [Line.chars, List.append_assoc]
      obtain ⟨c, hc, hhead⟩ := p.head_chars
      exact ⟨c, List.mem_append_right ['g', 'n', 'e'] hc, hhead⟩

/-! ## Blocks -/

theorem heading_append_inj {name name' : Label} (hn : name.Legible) (hn' : name'.Legible)
    (h : heading .standard name ++ '\x7b' :: r = heading .standard name' ++ '\x7b' :: s) :
    shownName name = shownName name' ∧ r = s := by
  -- no identifier begins with the brace that follows an absent name
  have hbrace : ∀ {l : Label} {t u : List Char},
      '\x7b' :: t ≠ ident .standard l ++ u := by
    intro l t u heq
    have hhead := congrArg List.head? heq
    rw [head_ident] at hhead
    split at hhead <;> simp at hhead
  unfold heading at h
  unfold shownName
  split at h
  · rename_i ha
    split at h
    · rename_i ha'
      exact ⟨by rw [if_pos ha, if_pos ha'], (List.cons.inj h).2⟩
    · rw [List.append_assoc] at h
      exact absurd h hbrace
  · split at h
    · rw [List.append_assoc] at h
      exact absurd h.symm hbrace
    · rw [List.append_assoc, List.append_assoc] at h
      obtain ⟨rfl, hrest⟩ := ident_append_inj hn hn' h
      exact ⟨rfl, (List.cons.inj (List.cons.inj hrest).2).2⟩

theorem subheading_append_inj {name name' : Label} (hn : name.Legible) (hn' : name'.Legible)
    (h : subheading .standard name ++ '\x7b' :: r = subheading .standard name' ++ '\x7b' :: s) :
    shownName name = shownName name' ∧ r = s := by
  have hblank : ∀ {l : Label}, l.anonymous = true → heading .standard l = [] := by
    intro l hl
    rw [heading, hl]
    rfl
  unfold subheading at h
  split at h
  · split at h
    · rename_i ha ha'
      refine heading_append_inj hn hn' ?_
      rw [hblank ha, hblank ha']
      exact h
    · exact absurd (List.cons.inj h).1 (by decide)
  · split at h
    · exact absurd (List.cons.inj h).1 (by decide)
    · rw [List.append_assoc, List.append_assoc] at h
      exact heading_append_inj hn hn' (List.append_cancel_left h)

/-- Between the braces of two blocks stand the same lines, up to numbers, if all blocks in the first
one are told from what follows them. -/
theorem Block.body_append_inj (hop : op.toList.head? = some '-') {b c : Block} (hb : b.Legible)
    (hc : c.Legible) (htold : ∀ d ∈ b.inner, d.Told op)
    (h : b.lines.flatMap (Line.chars op) ++ '\x7d' :: r =
      c.lines.flatMap (Line.chars op) ++ '\x7d' :: s) :
    b.lines.map Line.bare = c.lines.map Line.bare ∧ r = s := by
  rw [Block.inner_eq_lines] at htold
  -- no line begins with the brace that closes the block
  have hstart : ∀ (x : Line) (t : List Char), (x.chars op ++ t).head? ≠ some '\x7d' := by
    intro x t hhead
    obtain ⟨y, hy, hxy⟩ : ∃ y ∈ _, (x.chars op ++ t).head? = some y := x.head_chars
    rw [hxy, Option.some.injEq] at hhead
    exact absurd hy (hhead ▸ by decide)
  refine flatMap_append_inj ?_ (fun x _ => hstart x) (fun y _ => hstart y) h
  intro x hx y hy t u htu
  refine Line.chars_append_inj hop (hb.line hx) (hc.line hy) ?_ ?_ htu
  · exact fun d hd => htold d (List.mem_flatMap.2 ⟨x, hx, hd⟩)
  · intro d hd
    apply hc.of_inner
    rw [Block.inner_eq_lines]
    exact List.mem_flatMap.2 ⟨y, hy, hd⟩

/-- **A legible block is told from what follows it.** -/
theorem Block.Legible.told (hop : op.toList.head? = some '-') {b : Block} (hb : b.Legible) :
    b.Told op := by
  intro c hc r s h
  have htold : ∀ d ∈ b.inner, d.Told op := fun d hd => (hb.of_inner hd).told hop
  simp only [Block.nested, Block.body_eq, List.append_assoc, List.cons_append,
    List.nil_append] at h
  obtain ⟨hname, hbody⟩ := subheading_append_inj (hb.label _ List.mem_cons_self)
    (hc.label _ List.mem_cons_self) h
  obtain ⟨hlines, hrest⟩ := Block.body_append_inj hop hb hc htold (List.cons.inj hbody).2
  exact ⟨by rw [b.bare_eq_ofLines, c.bare_eq_ofLines, hname, hlines], hrest⟩
termination_by sizeOf b
decreasing_by exact Block.sizeOf_inner hd

/-! ## Documents -/

namespace Document

/-- What shows of a document. -/
def bare (doc : Document) : Document := { doc with block := doc.block.bare }

/-- All labels of the document are legible. -/
def Legible (doc : Document) : Prop := doc.block.Legible

variable {doc doc' : Document}

theorem keywords_append_inj (h : doc.keywords ++ r = doc'.keywords ++ s) :
    doc.strict = doc'.strict ∧ doc.directed = doc'.directed ∧ r = s := by
  obtain ⟨strict, directed, block⟩ := doc
  obtain ⟨strict', directed', block'⟩ := doc'
  cases strict <;> cases strict' <;> cases directed <;> cases directed' <;>
    simp [keywords] at h ⊢
  all_goals exact h

/-- The text shows neither numbers nor the names of anonymous blocks. -/
theorem text_bare (d : Dialect) (doc : Document) : doc.bare.text d = doc.text d := by
  show String.ofList (doc.keywords ++ heading d doc.block.bare.name ++
    doc.block.bare.body d (d.edgeOp doc.directed)) = _
  rw [Block.name_bare, heading_shownName, Block.body_bare]
  rfl

/-- **Legible documents have the same text only if the same shows of them.** -/
theorem text_eq_iff (hd : doc.Legible) (hd' : doc'.Legible) :
    doc.text .standard = doc'.text .standard ↔ doc.bare = doc'.bare := by
  constructor
  · intro h
    rw [text, text, String.ofList_inj, List.append_assoc, List.append_assoc] at h
    obtain ⟨hstrict, hdirected, hblock⟩ := keywords_append_inj h
    -- both operators begin with a dash, so an edge is no statement with attributes
    have hop : (Dialect.standard.edgeOp doc.directed).toList.head? = some '-' := by
      cases doc.directed <;> rfl
    rw [← hdirected, Block.body_eq, Block.body_eq] at hblock
    obtain ⟨hname, hbody⟩ := heading_append_inj (hd.label _ List.mem_cons_self)
      (hd'.label _ List.mem_cons_self) hblock
    obtain ⟨hlines, -⟩ := Block.body_append_inj hop hd hd'
      (fun c hc => (Block.Legible.of_inner hd hc).told hop) (List.cons.inj hbody).2
    rw [bare, bare, hstrict, hdirected, doc.block.bare_eq_ofLines, doc'.block.bare_eq_ofLines,
      hname, hlines]
  · intro h
    rw [← text_bare, h, text_bare]

end Document

end DotDoc.Dot
