import DotDoc.Proofs.Graph.Index
import DotDoc.Proofs.Graph.Laying

set_option autoImplicit false

/-!
# The content of nodes and graphs

The content of a node is the node without its number (`Node.content`). The content of a graph is the
graph without its number and index, with the contents of its nodes and of its named subgraphs in
their place. Anonymous subgraphs stay as they are, but one that stands there several times is listed
only once (`Graph.content`). So contents are equal if and only if names, flags, tables, links and
members are, where links and anonymous subgraphs have to be the very same ones.

What merging does to contents is `Graph.union`: tables are laid over each other, links are added
that are not there, and members are joined by their names. For contents in which no member comes
twice (`Graph.Tidy`) this is associative, and nothing is added twice (`Graph.union_assoc`,
`Graph.union_self`).
-/

namespace DotDoc

open Keyed (place lay)

variable {ρ : Type}

/-- The node without its number. -/
def Node.content (n : Node ρ) : Node ρ := { n with ident := 0 }

@[simp] theorem Node.name_absorb (a b : Node ρ) : (a.absorb b).name = a.name := rfl

namespace Graph

/-! ## Contents -/

/-- List a further subgraph, unless it is an anonymous one that is listed already. -/
def addDistinct (known : List (Graph ρ)) (s : Graph ρ) : List (Graph ρ) :=
  if s.name.anonymous && known.any (fun k => k.name.anonymous && k.ident == s.ident) then known
  else known ++ [s]

/-- The subgraphs in their order, where an anonymous one is listed where it comes first. -/
def distinct (ss : List (Graph ρ)) : List (Graph ρ) := ss.foldl addDistinct []

mutual

/-- What counts of a graph where its number and the numbers of its members do not matter. -/
def content : Graph ρ → Graph ρ
  | .mk _ name directed strict attrs graphAttrs nodeAttrs linkAttrs nodes _ subgraphs _ links =>
    .mk 0 name directed strict attrs graphAttrs nodeAttrs linkAttrs (nodes.map Node.content) ∅
      (distinct (contents subgraphs)) ∅ links

/-- The contents of the named graphs of the list, and the anonymous ones. -/
def contents : List (Graph ρ) → List (Graph ρ)
  | [] => []
  | s :: rest => (if s.name.anonymous then s else s.content) :: contents rest

end

/-- What counts of a graph as a subgraph. -/
def asMember (s : Graph ρ) : Graph ρ := if s.name.anonymous then s else s.content

theorem contents_eq_map (ss : List (Graph ρ)) : contents ss = ss.map asMember := by
  induction ss with
  | nil => rfl
  | cons s rest ih => rw [contents, ih, List.map_cons, asMember]

@[simp] theorem name_content (g : Graph ρ) : g.content.name = g.name := by
  cases g
  rfl

@[simp] theorem nodes_content (g : Graph ρ) : g.content.nodes = g.nodes.map Node.content := by
  cases g
  rfl

@[simp] theorem subgraphs_content (g : Graph ρ) :
    g.content.subgraphs = distinct (g.subgraphs.map asMember) := by
  obtain ⟨⟩ := g
  rw [← contents_eq_map]
  rfl

theorem name_asMember (s : Graph ρ) : s.asMember.name = s.name := by
  unfold asMember
  split
  · rfl
  · exact name_content s

/-! ## Members by their tags -/

/-- By what a subgraph is told apart from the others: its name, or its number if it is anonymous. -/
def tag (s : Graph ρ) : Label ⊕ Nat := if s.name.anonymous then .inr s.ident else .inl s.name

theorem tag_of_named {s : Graph ρ} (h : s.name.anonymous = false) : s.tag = .inl s.name := by
  rw [tag, h]
  rfl

theorem tag_of_anonymous {s : Graph ρ} (h : s.name.anonymous = true) : s.tag = .inr s.ident := by
  rw [tag, h]
  rfl

theorem named_of_tag_eq {s t : Graph ρ} (h : s.tag = t.tag) (hs : s.name.anonymous = false) :
    t.name.anonymous = false := by
  cases ht : t.name.anonymous with
  | false => rfl
  | true =>
      rw [tag_of_named hs, tag_of_anonymous ht] at h
      cases h

theorem anonymous_of_tag_eq {s t : Graph ρ} (h : s.tag = t.tag) (hs : s.name.anonymous = true) :
    t.name.anonymous = true := by
  cases ht : t.name.anonymous with
  | true => rfl
  | false => exact (named_of_tag_eq h.symm ht).symm.trans hs

theorem mem_tags_of_anonymous {s : Graph ρ} (hs : s.name.anonymous = true) (ts : List (Graph ρ)) :
    s.tag ∈ ts.map tag ↔ ts.any (fun k => k.name.anonymous && k.ident == s.ident) = true := by
  rw [List.any_eq_true, List.mem_map, tag_of_anonymous hs]
  refine exists_congr fun k => and_congr_right fun _ => ?_
  cases hk : k.name.anonymous with
  | false =>
      rw [tag_of_named hk]
      exact ⟨nofun, nofun⟩
  | true =>
      rw [tag_of_anonymous hk, Bool.true_and, beq_iff_eq, Sum.inr.injEq]

mutual

/-- The first content with the tables of the second one laid over its own, with the further links,
and with the members joined. -/
def union (a : Graph ρ) : Graph ρ → Graph ρ
  | b@(.mk _ _ _ _ _ _ _ _ nodes _ subgraphs _ _) =>
    { a.overlaid b with
      nodes := lay Node.name Node.absorb a.nodes nodes
      subgraphs := unionAll a.subgraphs subgraphs }

/-- Subgraphs are joined by their names. An anonymous one that is there is left alone. -/
def unionAll (xs : List (Graph ρ)) : List (Graph ρ) → List (Graph ρ)
  | [] => xs
  | s :: rest =>
    unionAll (place tag (fun x => if x.name.anonymous then x else x.union s) s xs) rest

end

/-- A subgraph joined with another one of its tag. -/
def join (x s : Graph ρ) : Graph ρ := if x.name.anonymous then x else x.union s

theorem unionAll_eq_lay (xs ss : List (Graph ρ)) : unionAll xs ss = lay tag join xs ss := by
  induction ss generalizing xs with
  | nil => rw [unionAll]; rfl
  | cons s rest ih =>
      rw [unionAll, ih, Keyed.lay_cons]
      rfl

theorem union_eq (a b : Graph ρ) : a.union b =
    { a.overlaid b with
      nodes := lay Node.name Node.absorb a.nodes b.nodes
      subgraphs := lay tag join a.subgraphs b.subgraphs } := by
  obtain ⟨⟩ := b
  rw [union, unionAll_eq_lay]

theorem name_union (a b : Graph ρ) : (a.union b).name = a.name := by
  rw [union_eq]
  rfl

theorem join_of_anonymous {x : Graph ρ} (h : x.name.anonymous = true) (s : Graph ρ) :
    x.join s = x := if_pos h

theorem join_of_named {x : Graph ρ} (h : x.name.anonymous = false) (s : Graph ρ) :
    x.join s = x.union s := by
  rw [join, h]
  rfl

theorem tag_join (x s : Graph ρ) : (x.join s).tag = x.tag := by
  cases hx : x.name.anonymous with
  | true => rw [join_of_anonymous hx]
  | false =>
      have hu : (x.union s).name.anonymous = false := (name_union x s).symm ▸ hx
      rw [join_of_named hx, tag_of_named hu, tag_of_named hx, name_union]

/-! ## The laws -/

/-- No member comes twice, also in the named subgraphs at any depth. -/
inductive Tidy : Graph ρ → Prop
  | intro {g : Graph ρ} : (g.nodes.map Node.name).Nodup → (g.subgraphs.map tag).Nodup →
    (∀ s ∈ g.subgraphs, s.name.anonymous = false → Tidy s) → Tidy g

theorem Tidy.nodes {g : Graph ρ} (h : g.Tidy) : (g.nodes.map Node.name).Nodup := by
  cases h
  assumption

theorem Tidy.tags {g : Graph ρ} (h : g.Tidy) : (g.subgraphs.map tag).Nodup := by
  cases h
  assumption

theorem Tidy.subgraphs {g : Graph ρ} (h : g.Tidy) :
    ∀ s ∈ g.subgraphs, s.name.anonymous = false → s.Tidy := by
  cases h
  assumption

theorem tidy_join {x y : Graph ρ} (hxy : x.tag = y.tag)
    (hx : x.name.anonymous = false → x.Tidy) (hy : y.name.anonymous = false → y.Tidy)
    (hunion : x.Tidy → y.Tidy → (x.union y).Tidy) :
    (x.join y).name.anonymous = false → (x.join y).Tidy := by
  cases hanon : x.name.anonymous with
  | true =>
      rw [join_of_anonymous hanon, hanon]
      exact nofun
  | false =>
      rw [join_of_named hanon]
      exact fun _ => hunion (hx hanon) (hy (named_of_tag_eq hxy hanon))

theorem Tidy.union (a b : Graph ρ) (ha : a.Tidy) (hb : b.Tidy) : (a.union b).Tidy := by
  rw [union_eq]
  apply Tidy.intro
  · exact Keyed.nodup_lay Node.name_absorb ha.nodes b.nodes
  · exact Keyed.nodup_lay tag_join ha.tags b.subgraphs
  · refine Keyed.forall_lay ?_ ha.subgraphs hb.subgraphs
    intro x y hy hkey hx htidy
    -- graphs in the list are smaller
    have hlt := sizeOf_subgraph hy
    exact tidy_join hkey hx htidy (Tidy.union x y)
termination_by sizeOf b

/-- The laws for graphs in the lists hold for joining them, if they are of one tag. -/
theorem join_assoc {x y z : Graph ρ} (hxy : x.tag = y.tag)
    (hunion : x.name.anonymous = false → y.name.anonymous = false →
      (x.union y).union z = x.union (y.union z)) : (x.join y).join z = x.join (y.join z) := by
  cases hx : x.name.anonymous with
  | true => rw [join_of_anonymous hx, join_of_anonymous hx, join_of_anonymous hx]
  | false =>
      have hy := named_of_tag_eq hxy hx
      have hu : (x.union y).name.anonymous = false := (name_union x y).symm ▸ hx
      rw [join_of_named hx, join_of_named hu, join_of_named hy, join_of_named hx, hunion hx hy]

/-- **Contents are added up associatively.** -/
theorem union_assoc (a b c : Graph ρ) (hb : b.Tidy) (hc : c.Tidy) :
    (a.union b).union c = a.union (b.union c) := by
  have hnodes : lay Node.name Node.absorb a.nodes (lay Node.name Node.absorb b.nodes c.nodes) =
      lay Node.name Node.absorb (lay Node.name Node.absorb a.nodes b.nodes) c.nodes := by
    refine Keyed.lay_lay (p := fun _ => True) Node.name_absorb ?_ hb.nodes ?_ ?_ ?_ a.nodes
    · exact fun _ _ _ _ _ _ => trivial
    · exact fun _ _ => trivial
    · exact fun _ _ => trivial
    · exact fun x y _ z _ _ _ => Node.absorb_assoc x y z
  have hsubgraphs : lay tag join a.subgraphs (lay tag join b.subgraphs c.subgraphs) =
      lay tag join (lay tag join a.subgraphs b.subgraphs) c.subgraphs := by
    refine Keyed.lay_lay tag_join ?_ hb.tags hb.subgraphs hc.subgraphs ?_ a.subgraphs
    · exact fun y z _ hkey hy hz => tidy_join hkey hy hz (Tidy.union y z)
    · intro x y hy z hz hxy hyz
      have hlt := sizeOf_subgraph hz
      exact join_assoc hxy fun hnx hny => union_assoc x y z (hy hny)
        (hc.subgraphs z hz (named_of_tag_eq hyz hny))
  simp only [union_eq, overlaid, hnodes, hsubgraphs, Table.overlay_assoc,
    Link.append_beyond_assoc]
termination_by sizeOf c

/-- **A content is not changed by adding it once more.** -/
theorem union_self {a : Graph ρ} (ha : a.Tidy) : a.union a = a := by
  induction ha with
  | @intro g hnodes htags hsubgraphs ih =>
      have hjoin : ∀ s ∈ g.subgraphs, s.join s = s := by
        intro s hs
        cases hanon : s.name.anonymous with
        | true => exact join_of_anonymous hanon s
        | false => exact (join_of_named hanon s).trans (ih s hs hanon)
      rw [union_eq, Keyed.lay_self hnodes fun n _ => Node.absorb_self n,
        Keyed.lay_self htags hjoin]
      obtain ⟨⟩ := g
      simp only [overlaid, Table.overlay_self, Link.append_beyond_self]

/-- What has been added is not added again. -/
theorem union_union_self {a b : Graph ρ} (ha : a.Tidy) (hb : b.Tidy) :
    a.union (a.union b) = a.union b := by
  rw [← union_assoc a a b ha hb, union_self ha]

end Graph

end DotDoc
