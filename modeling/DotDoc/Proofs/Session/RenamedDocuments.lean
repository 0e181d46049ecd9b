import DotDoc.Proofs.Dot.Twins
import DotDoc.Proofs.Session.Renaming
import DotDoc.Session.World

set_option autoImplicit false

/-!
# Documents under other numbers

A graph with other numbers is a twin of the graph (`Graph.twin_rename`). So it is written with the
same text, or fails for a cause that corresponds (`Graph.serialize_rename`) and that is told in the
same way (`Act.unwritable_of_twin`).
-/

namespace DotDoc

/-- Under other numbers each number, foreign value and foreign target corresponds to its
counterpart. -/
def Renaming.pairing (ν : Renaming) : Pairing Value Value where
  ident i j := j = ν.ident i
  biUnique := ⟨fun _ _ _ h h' => ν.ident_injective (h.symm.trans h'),
    fun _ _ _ h h' => h.trans h'.symm⟩
  foreign v w := w = v.rename ν
  target t u := u = t.rename ν

variable (ν : Renaming)

theorem RecordName.twin_rename (r : RecordName Value) :
    RecordName.Twin ν.pairing r (r.rename ν) := by
  cases r with
  | absent => exact .absent
  | text s => exact .text s
  | label l => exact .label l
  | foreign v => exact .foreign rfl

theorem Port.twin_rename (p : Port Value) : Port.Twin ν.pairing p (p.rename ν) where
  record := Port.record_rename ν p ▸ RecordName.twin_rename ν p.record
  compass := Port.compass_rename ν p

theorem Place.twin_rename (p : Place Value) : Place.Twin ν.pairing p (p.rename ν) := by
  cases p with
  | port q => exact .port (Port.twin_rename ν q)
  | foreign v => exact .foreign rfl

mutual

theorem Node.twin_rename : ∀ n : Node Value, Node.Twin ν.pairing n (n.rename ν)
  | ⟨_, _, _, links⟩ => .intro rfl rfl rfl (twin_renameLinks links)

theorem Link.twin_rename : ∀ l : Link Value, Link.Twin ν.pairing l (l.rename ν)
  | ⟨_, target, sourcePort, _⟩ =>
    .intro rfl (Target.twin_rename target) (Port.twin_rename ν sourcePort) rfl

theorem twin_renameLinks :
    ∀ ls : List (Link Value), List.Forall₂ (Link.Twin ν.pairing) ls (renameLinks ν ls)
  | [] => .nil
  | l :: rest => .cons (Link.twin_rename l) (twin_renameLinks rest)

theorem Target.twin_rename : ∀ t : Target Value, Target.Twin ν.pairing t (t.rename ν)
  | .point ⟨_, anchor, place⟩ => .point (Anchor.twin_rename anchor) (Place.twin_rename ν place)
  | .graph g => .graph (Graph.twin_rename g)
  | .foreign _ => .foreign rfl

theorem Anchor.twin_rename : ∀ a : Anchor Value, Anchor.Twin ν.pairing a (a.rename ν)
  | .source (.node n) => .source (.node (Node.twin_rename n))
  | .source (.graph g) => .source (.graph (Graph.twin_rename g))
  | .foreign _ => .foreign rfl

/-- **A graph with other numbers is a twin.** -/
theorem Graph.twin_rename : ∀ g : Graph Value, Graph.Twin ν.pairing g (g.rename ν)
  | .mk _ _ _ _ _ _ _ _ nodes _ subgraphs _ links =>
    .intro rfl rfl (fun slot => by cases slot <;> rfl) (twin_renameNodes nodes)
      (twin_renameGraphs subgraphs) (twin_renameLinks links)

theorem twin_renameNodes :
    ∀ ns : List (Node Value), List.Forall₂ (Node.Twin ν.pairing) ns (renameNodes ν ns)
  | [] => .nil
  | n :: rest => .cons (Node.twin_rename n) (twin_renameNodes rest)

theorem twin_renameGraphs :
    ∀ gs : List (Graph Value), List.Forall₂ (Graph.Twin ν.pairing) gs (renameGraphs ν gs)
  | [] => .nil
  | g :: rest => .cons (Graph.twin_rename g) (twin_renameGraphs rest)

end

/-- **A graph with other numbers is written with the same text, or fails for the same cause.** -/
theorem Graph.serialize_rename (g : Graph Value) (d : Dot.Dialect) :
    Alike (Unwritable.Twin ν.pairing) Eq (g.serialize d) ((g.rename ν).serialize d) :=
  (Graph.twin_rename ν g).serialize (Graph.directed_rename ν g) (Graph.strict_rename ν g) d

/-- The failure of a graph that cannot be written does not show the numbers. -/
theorem Act.unwritable_of_twin {e e' : Unwritable Value} (h : Unwritable.Twin ν.pairing e e') :
    unwritable e' = unwritable e := by
  cases h with
  | target h =>
      cases h
      rfl
  | @anchor v v' h =>
      cases h
      cases v <;> rfl
  | place h => rfl
  | record h => rfl

/-! ## Absorbing under other numbers -/

theorem Link.beyond_rename (known added : List (Link Value)) :
    Link.beyond (known.map (Link.rename ν)) (added.map (Link.rename ν)) =
      (Link.beyond known added).map (Link.rename ν) := by
  have hknown : ∀ l : Link Value,
      (known.map (Link.rename ν)).any (fun k => k.ident == (l.rename ν).ident) =
        known.any fun k => k.ident == l.ident := by
    intro l
    rw [List.any_map]
    exact congrArg known.any (funext fun k => by
      rw [Function.comp_apply, Link.ident_rename, Link.ident_rename, ν.beq_ident])
  rw [Link.beyond, List.filter_map, Link.beyond]
  exact congrArg (List.map (Link.rename ν) <| List.filter · added) (funext fun l => by
    rw [Function.comp_apply, hknown])

theorem Node.absorb_rename (a b : Node Value) :
    (a.rename ν).absorb (b.rename ν) = (a.absorb b).rename ν := by
  cases a
  cases b
  show Node.mk _ _ _ (renameLinks ν _ ++ Link.beyond (renameLinks ν _) (renameLinks ν _)) =
    Node.mk _ _ _ (renameLinks ν (_ ++ _))
  rw [renameLinks_eq_map, renameLinks_eq_map, renameLinks_eq_map, Link.beyond_rename,
    List.map_append]
  rfl

end DotDoc
