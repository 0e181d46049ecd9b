import DotDoc.Dot.Outline
import Mathlib.Data.List.Forall2

set_option autoImplicit false

/-!
# Twins

Two graphs are twins if they look alike: names, tables and sequences are the same, and where one of
them has the same node, link or graph twice, so has the other (`Graph.Twin`). The identity numbers
themselves may be any as long as they correspond one to one (`Pairing`). Endpoints and ports have
numbers as well, but nothing is ever asked about these, so they are left free, and so are the
indexes of members by their names. Whether a graph is directed or strict is left free, too.

The same sources are collected for twins (`Graph.Twin.sources`), and their edge lines come in the
same order (`Source.Twin.edges`).
-/

namespace DotDoc

variable {ρ ρ' : Type}

/-- What corresponds in two graphs: their identity numbers, one to one, and what is foreign to the
model. -/
structure Pairing (ρ ρ' : Type) where
  ident : Nat → Nat → Prop
  biUnique : Relator.BiUnique ident
  foreign : ρ → ρ' → Prop
  target : ForeignTarget → ForeignTarget → Prop

/-! ## Twins -/

section Definitions

variable (π : Pairing ρ ρ')

inductive RecordName.Twin : RecordName ρ → RecordName ρ' → Prop
  | absent : Twin .absent .absent
  | text (s : String) : Twin (.text s) (.text s)
  | label (l : Label) : Twin (.label l) (.label l)
  | foreign {v : ρ} {v' : ρ'} (h : π.foreign v v') : Twin (.foreign v) (.foreign v')

/-- Ports that name the same place. -/
structure Port.Twin (p : Port ρ) (p' : Port ρ') : Prop where
  record : RecordName.Twin π p.record p'.record
  compass : p'.compass = p.compass

inductive Place.Twin : Place ρ → Place ρ' → Prop
  | port {p : Port ρ} {p' : Port ρ'} (h : Port.Twin π p p') : Twin (.port p) (.port p')
  | foreign {v : ρ} {v' : ρ'} (h : π.foreign v v') : Twin (.foreign v) (.foreign v')

mutual

inductive Node.Twin : Node ρ → Node ρ' → Prop
  | intro {n : Node ρ} {n' : Node ρ'} (ident : π.ident n.ident n'.ident) (name : n'.name = n.name)
    (attrs : n'.attrs = n.attrs) (links : List.Forall₂ Link.Twin n.links n'.links) : Node.Twin n n'

inductive Link.Twin : Link ρ → Link ρ' → Prop
  | intro {l : Link ρ} {l' : Link ρ'} (ident : π.ident l.ident l'.ident)
    (target : Target.Twin l.target l'.target) (sourcePort : Port.Twin π l.sourcePort l'.sourcePort)
    (attrs : l'.attrs = l.attrs) : Link.Twin l l'

inductive Target.Twin : Target ρ → Target ρ' → Prop
  | point {p : NodePoint ρ} {p' : NodePoint ρ'} (anchor : Anchor.Twin p.anchor p'.anchor)
    (place : Place.Twin π p.place p'.place) : Target.Twin (.point p) (.point p')
  | graph {g : Graph ρ} {g' : Graph ρ'} (h : Graph.Twin g g') : Target.Twin (.graph g) (.graph g')
  | foreign {t t' : ForeignTarget} (h : π.target t t') : Target.Twin (.foreign t) (.foreign t')

inductive Anchor.Twin : Anchor ρ → Anchor ρ' → Prop
  | source {s : Source ρ} {s' : Source ρ'} (h : Source.Twin s s') :
    Anchor.Twin (.source s) (.source s')
  | foreign {v : ρ} {v' : ρ'} (h : π.foreign v v') : Anchor.Twin (.foreign v) (.foreign v')

inductive Source.Twin : Source ρ → Source ρ' → Prop
  | node {n : Node ρ} {n' : Node ρ'} (h : Node.Twin n n') : Source.Twin (.node n) (.node n')
  | graph {g : Graph ρ} {g' : Graph ρ'} (h : Graph.Twin g g') : Source.Twin (.graph g) (.graph g')

/-- Graphs that look alike, up to whether they are directed or strict. -/
inductive Graph.Twin : Graph ρ → Graph ρ' → Prop
  | intro {g : Graph ρ} {g' : Graph ρ'} (ident : π.ident g.ident g'.ident)
    (name : g'.name = g.name) (tables : ∀ slot, g'.table slot = g.table slot)
    (nodes : List.Forall₂ Node.Twin g.nodes g'.nodes)
    (subgraphs : List.Forall₂ Graph.Twin g.subgraphs g'.subgraphs)
    (links : List.Forall₂ Link.Twin g.links g'.links) : Graph.Twin g g'

end

end Definitions

/-- Each number, foreign value and foreign target corresponds to itself. -/
def Pairing.same : Pairing ρ ρ where
  ident := Eq
  biUnique := ⟨fun _ _ _ h h' => h.trans h'.symm, fun _ _ _ h h' => h.symm.trans h'⟩
  foreign := Eq
  target := Eq

theorem RecordName.twin_self (r : RecordName ρ) : RecordName.Twin .same r r := by
  cases r with
  | absent => exact .absent
  | text s => exact .text s
  | label l => exact .label l
  | foreign v => exact .foreign rfl

theorem Place.twin_self (p : Place ρ) : Place.Twin .same p p := by
  cases p with
  | port q => exact .port ⟨q.record.twin_self, rfl⟩
  | foreign v => exact .foreign rfl

mutual

theorem Node.twin_self : ∀ n : Node ρ, Node.Twin .same n n
  | ⟨_, _, _, links⟩ => .intro rfl rfl rfl (twin_selfLinks links)

theorem Link.twin_self : ∀ l : Link ρ, Link.Twin .same l l
  | ⟨_, target, sourcePort, _⟩ =>
    .intro rfl (Target.twin_self target) ⟨sourcePort.record.twin_self, rfl⟩ rfl

theorem twin_selfLinks : ∀ ls : List (Link ρ), List.Forall₂ (Link.Twin .same) ls ls
  | [] => .nil
  | l :: rest => .cons (Link.twin_self l) (twin_selfLinks rest)

theorem Target.twin_self : ∀ t : Target ρ, Target.Twin .same t t
  | .point ⟨_, anchor, place⟩ => .point (Anchor.twin_self anchor) (Place.twin_self place)
  | .graph g => .graph (Graph.twin_self g)
  | .foreign _ => .foreign rfl

theorem Anchor.twin_self : ∀ a : Anchor ρ, Anchor.Twin .same a a
  | .source (.node n) => .source (.node (Node.twin_self n))
  | .source (.graph g) => .source (.graph (Graph.twin_self g))
  | .foreign _ => .foreign rfl

/-- A graph is a twin of itself. -/
theorem Graph.twin_self : ∀ g : Graph ρ, Graph.Twin .same g g
  | .mk _ _ _ _ _ _ _ _ nodes _ subgraphs _ links =>
    .intro rfl rfl (fun _ => rfl) (twin_selfNodes nodes) (twin_selfGraphs subgraphs)
      (twin_selfLinks links)

theorem twin_selfNodes : ∀ ns : List (Node ρ), List.Forall₂ (Node.Twin .same) ns ns
  | [] => .nil
  | n :: rest => .cons (Node.twin_self n) (twin_selfNodes rest)

theorem twin_selfGraphs : ∀ gs : List (Graph ρ), List.Forall₂ (Graph.Twin .same) gs gs
  | [] => .nil
  | g :: rest => .cons (Graph.twin_self g) (twin_selfGraphs rest)

end

/-! ## Two lists side by side -/

section Lists

variable {α β γ δ : Type} {R : α → β → Prop} {S : γ → δ → Prop} {xs : List α} {ys : List β}

theorem any_of_forall₂ {p : α → Bool} {q : β → Bool} (hpq : ∀ x y, R x y → p x = q y)
    (h : List.Forall₂ R xs ys) : xs.any p = ys.any q := by
  induction h with
  | nil => rfl
  | cons hxy _ ih => rw [List.any_cons, List.any_cons, hpq _ _ hxy, ih]

theorem findIdx?_of_forall₂ {p : α → Bool} {q : β → Bool} (hpq : ∀ x y, R x y → p x = q y)
    (h : List.Forall₂ R xs ys) : xs.findIdx? p = ys.findIdx? q := by
  induction h with
  | nil => rfl
  | cons hxy _ ih => rw [List.findIdx?_cons, List.findIdx?_cons, hpq _ _ hxy, ih]

theorem findSome?_of_forall₂ {f : α → Option γ} {g : β → Option δ}
    (hfg : ∀ x y, R x y → Option.Rel S (f x) (g y)) (h : List.Forall₂ R xs ys) :
    Option.Rel S (xs.findSome? f) (ys.findSome? g) := by
  induction h with
  | nil => exact .none
  | @cons x y xs ys hxy _ ih =>
      have hrel := hfg x y hxy
      rw [List.findSome?_cons, List.findSome?_cons]
      generalize f x = a at hrel ⊢
      generalize g y = b at hrel ⊢
      cases hrel with
      | some h => exact .some h
      | none => exact ih

theorem isEmpty_of_forall₂ (h : List.Forall₂ R xs ys) : xs.isEmpty = ys.isEmpty := by
  cases h <;> rfl

theorem forall₂_filter {p : α → Bool} {q : β → Bool} (hpq : ∀ x y, R x y → p x = q y)
    (h : List.Forall₂ R xs ys) : List.Forall₂ R (xs.filter p) (ys.filter q) :=
  List.rel_filter (fun _ _ hxy => Bool.eq_iff_iff.1 (hpq _ _ hxy)) h

theorem map_of_forall₂ {f : α → γ} {g : β → γ} (hfg : ∀ x y, R x y → f x = g y)
    (h : List.Forall₂ R xs ys) : xs.map f = ys.map g := by
  induction h with
  | nil => rfl
  | cons hxy _ ih => rw [List.map_cons, List.map_cons, hfg _ _ hxy, ih]

end Lists

/-! ## Two outcomes side by side -/

section Outcomes

variable {ε ε' α β γ δ : Type}

/-- Both outcomes are results that are related, or both are failures that are. -/
inductive Alike (E : ε → ε' → Prop) (R : α → β → Prop) : Except ε α → Except ε' β → Prop
  | ok {a : α} {b : β} (h : R a b) : Alike E R (.ok a) (.ok b)
  | error {e : ε} {e' : ε'} (h : E e e') : Alike E R (.error e) (.error e')

namespace Alike

variable {E : ε → ε' → Prop} {R : α → β → Prop} {S : γ → δ → Prop} {x : Except ε α}
  {y : Except ε' β}

theorem bind {f : α → Except ε γ} {g : β → Except ε' δ} (h : Alike E R x y)
    (hfg : ∀ a b, x = .ok a → R a b → Alike E S (f a) (g b)) : Alike E S (x >>= f) (y >>= g) := by
  cases h with
  | ok h => exact hfg _ _ rfl h
  | error h => exact .error h

theorem map {f : α → γ} {g : β → δ} (h : Alike E R x y) (hfg : ∀ a b, R a b → S (f a) (g b)) :
    Alike E S (x.map f) (y.map g) := by
  cases h with
  | ok h => exact .ok (hfg _ _ h)
  | error h => exact .error h

theorem mapM {P : γ → δ → Prop} {xs : List γ} {ys : List δ} {f : γ → Except ε α}
    {g : δ → Except ε' β} (h : List.Forall₂ P xs ys)
    (hfg : ∀ x ∈ xs, ∀ y, P x y → Alike E R (f x) (g y)) :
    Alike E (List.Forall₂ R) (xs.mapM f) (ys.mapM g) := by
  induction h with
  | nil => exact .ok .nil
  | cons hxy _ ih =>
      rw [List.mapM_cons, List.mapM_cons]
      refine (hfg _ List.mem_cons_self _ hxy).bind fun a b _ hab => ?_
      refine (ih fun x hx => hfg x (List.mem_cons_of_mem _ hx)).bind fun as bs _ hrest => ?_
      exact .ok (.cons hab hrest)

end Alike

end Outcomes

variable {π : Pairing ρ ρ'}

/-- Failures for causes that correspond. -/
inductive Unwritable.Twin (π : Pairing ρ ρ') : Unwritable ρ → Unwritable ρ' → Prop
  | target {t t' : ForeignTarget} (h : π.target t t') : Twin π (.target t) (.target t')
  | anchor {v : ρ} {v' : ρ'} (h : π.foreign v v') : Twin π (.anchor v) (.anchor v')
  | place {v : ρ} {v' : ρ'} (h : π.foreign v v') : Twin π (.place v) (.place v')
  | record {v : ρ} {v' : ρ'} (h : π.foreign v v') : Twin π (.record v) (.record v')

theorem Pairing.eq_iff {i j : Nat} {i' j' : Nat} (hi : π.ident i i') (hj : π.ident j j') :
    i = j ↔ i' = j' := by
  constructor
  · rintro rfl
    exact π.biUnique.2 hi hj
  · rintro rfl
    exact π.biUnique.1 hi hj

/-! ## Parts of twins -/

/-- Keys of twins: the same names, and numbers that correspond. -/
inductive SourceKey.Twin (π : Pairing ρ ρ') : SourceKey → SourceKey → Prop
  | node (name : Label) : Twin π (.node name) (.node name)
  | graph {i i' : Nat} (h : π.ident i i') : Twin π (.graph i) (.graph i')

theorem SourceKey.Twin.eq_iff {k l k' l' : SourceKey} (hk : SourceKey.Twin π k k')
    (hl : SourceKey.Twin π l l') : k = l ↔ k' = l' := by
  cases hk with
  | node name =>
      cases hl with
      | node name' => exact Iff.rfl
      | graph h => exact ⟨nofun, nofun⟩
  | graph h =>
      cases hl with
      | node name' => exact ⟨nofun, nofun⟩
      | graph h' => rw [SourceKey.graph.injEq, SourceKey.graph.injEq, π.eq_iff h h']

theorem SourceKey.Twin.beq_eq {k l k' l' : SourceKey} (hk : SourceKey.Twin π k k')
    (hl : SourceKey.Twin π l l') : (k == l) = (k' == l') := by
  rw [Bool.eq_iff_iff, beq_iff_eq, beq_iff_eq, hk.eq_iff hl]

theorem Link.Twin.ident {l : Link ρ} {l' : Link ρ'} (h : Link.Twin π l l') :
    π.ident l.ident l'.ident := by
  cases h
  assumption

theorem Link.Twin.target {l : Link ρ} {l' : Link ρ'} (h : Link.Twin π l l') :
    Target.Twin π l.target l'.target := by
  cases h
  assumption

namespace Source.Twin

variable {s t : Source ρ} {s' t' : Source ρ'}

theorem ident (h : Source.Twin π s s') : π.ident s.ident s'.ident := by
  cases h with
  | node h => cases h; assumption
  | graph h => cases h; assumption

theorem name (h : Source.Twin π s s') : s'.name = s.name := by
  cases h with
  | node h => cases h; assumption
  | graph h => cases h; assumption

theorem links (h : Source.Twin π s s') : List.Forall₂ (Link.Twin π) s.links s'.links := by
  cases h with
  | node h => cases h; assumption
  | graph h => cases h; assumption

theorem isGraph (h : Source.Twin π s s') : s.isGraph = s'.isGraph := by
  cases h <;> rfl

theorem key (h : Source.Twin π s s') : SourceKey.Twin π s.key s'.key := by
  cases h with
  | node h =>
      have hname := (Source.Twin.node h).name
      simp only [Source.name] at hname
      rw [Source.key, Source.key, hname]
      exact .node _
  | graph h => exact .graph (Source.Twin.graph h).ident

end Source.Twin

theorem Target.Twin.anchor? {t : Target ρ} {t' : Target ρ'} (h : Target.Twin π t t') :
    Option.Rel (Anchor.Twin π) t.anchor? t'.anchor? := by
  cases h with
  | point anchor _ => exact .some anchor
  | graph h => exact .some (.source (.graph h))
  | foreign _ => exact .none

theorem Target.Twin.foreign? {t : Target ρ} {t' : Target ρ'} (h : Target.Twin π t t') :
    Option.Rel π.target t.foreign? t'.foreign? := by
  cases h with
  | point _ _ => exact .none
  | graph _ => exact .none
  | foreign h => exact .some h

theorem Target.Twin.key? {t : Target ρ} {t' : Target ρ'} (h : Target.Twin π t t') :
    Option.Rel (SourceKey.Twin π) t.key? t'.key? := by
  cases h with
  | graph h => exact .some (Source.Twin.graph h).key
  | foreign _ => exact .none
  | @point p p' anchor _ =>
      show Option.Rel _ p.anchor.key? p'.anchor.key?
      generalize p.anchor = a at anchor ⊢
      generalize p'.anchor = a' at anchor ⊢
      cases anchor with
      | source h => exact .some h.key
      | foreign _ => exact .none

theorem Source.Twin.successors {s : Source ρ} {s' : Source ρ'} (h : Source.Twin π s s') :
    List.Forall₂ (Anchor.Twin π) s.successors s'.successors :=
  List.rel_filterMap (fun _ _ hl => hl.target.anchor?) h.links

theorem Source.Twin.foreign? {s : Source ρ} {s' : Source ρ'} (h : Source.Twin π s s') :
    Option.Rel π.target s.foreign? s'.foreign? :=
  findSome?_of_forall₂ (fun _ _ hl => hl.target.foreign?) (List.rel_reverse h.links)

/-! ## Absorbing -/

theorem Link.Twin.beyond {known added : List (Link ρ)} {known' added' : List (Link ρ')}
    (hk : List.Forall₂ (Link.Twin π) known known')
    (ha : List.Forall₂ (Link.Twin π) added added') :
    List.Forall₂ (Link.Twin π) (Link.beyond known added) (Link.beyond known' added') := by
  refine forall₂_filter (fun l l' hl => congrArg (! ·) ?_) ha
  refine any_of_forall₂ (fun m m' hm => ?_) hk
  rw [Bool.eq_iff_iff, beq_iff_eq, beq_iff_eq, π.eq_iff hm.ident hl.ident]

theorem Source.Twin.absorb {s t : Source ρ} {s' t' : Source ρ'} (hs : Source.Twin π s s')
    (ht : Source.Twin π t t') : Source.Twin π (s.absorb t) (s'.absorb t') := by
  cases hs with
  | graph hs => cases ht <;> exact .graph hs
  | node ha =>
      cases ht with
      | graph ht => exact .node ha
      | node hb =>
          cases ha with
          | intro ident name attrs links =>
              cases hb with
              | intro _ _ attrs' links' =>
                  refine .node (.intro ident name ?_ ?_)
                  · exact congrArg₂ Table.overlay attrs attrs'
                  · exact List.rel_append links (Link.Twin.beyond links links')

/-! ## Collecting -/

/-- Collected entries of twins. -/
def Collected (π : Pairing ρ ρ') (entries : Table SourceKey (Source ρ))
    (entries' : Table SourceKey (Source ρ')) : Prop :=
  List.Forall₂ (fun e e' => SourceKey.Twin π e.1 e'.1 ∧ Source.Twin π e.2 e'.2) entries.entries
    entries'.entries

namespace Collected

variable {entries : Table SourceKey (Source ρ)} {entries' : Table SourceKey (Source ρ')}

theorem get? (h : Collected π entries entries') {k k' : SourceKey} (hk : SourceKey.Twin π k k') :
    Option.Rel (Source.Twin π) (entries.get? k) (entries'.get? k') := by
  obtain ⟨es, hes⟩ := entries
  obtain ⟨es', hes'⟩ := entries'
  change List.Forall₂ _ es es' at h
  show Option.Rel _ (es.lookup k) (es'.lookup k')
  clear hes hes'
  induction h with
  | nil => exact .none
  | cons he _ ih =>
      rw [List.lookup_cons, List.lookup_cons, hk.beq_eq he.1]
      split
      · exact .some he.2
      · exact ih

theorem set (h : Collected π entries entries') {k k' : SourceKey} (hk : SourceKey.Twin π k k')
    {s : Source ρ} {s' : Source ρ'} (hs : Source.Twin π s s') :
    Collected π (entries.set k s) (entries'.set k' s') := by
  obtain ⟨es, hes⟩ := entries
  obtain ⟨es', hes'⟩ := entries'
  change List.Forall₂ _ es es' at h
  show List.Forall₂ _ (Entries.set k s es) (Entries.set k' s' es')
  clear hes hes'
  induction h with
  | nil => exact .cons ⟨hk, hs⟩ .nil
  | @cons e e' _ _ he hrest ih =>
      rw [Entries.set, Entries.set]
      by_cases heq : e.1 = k
      · rw [if_pos heq, if_pos ((he.1.eq_iff hk).1 heq)]
        exact .cons ⟨hk, hs⟩ hrest
      · rw [if_neg heq, if_neg fun heq' => heq ((he.1.eq_iff hk).2 heq')]
        exact .cons he ih

theorem recordSource (h : Collected π entries entries') {s : Source ρ} {s' : Source ρ'}
    (hs : Source.Twin π s s') :
    Collected π (DotDoc.recordSource entries s) (DotDoc.recordSource entries' s') := by
  refine h.set hs.key ?_
  have hknown := h.get? hs.key
  generalize entries.get? s.key = x at hknown ⊢
  generalize entries'.get? s'.key = y at hknown ⊢
  cases hknown with
  | some hknown => exact hknown.absorb hs
  | none => exact hs

theorem values (h : Collected π entries entries') :
    List.Forall₂ (Source.Twin π) entries.values entries'.values :=
  List.rel_map (fun _ _ he => he.2) h

end Collected

/-- **The same is collected for twins.** -/
theorem collectSources_twin (pending : List (Anchor ρ)) (visited : List Nat)
    (entries : Table SourceKey (Source ρ)) {pending' : List (Anchor ρ')} {visited' : List Nat}
    {entries' : Table SourceKey (Source ρ')} (hp : List.Forall₂ (Anchor.Twin π) pending pending')
    (hv : List.Forall₂ π.ident visited visited') (he : Collected π entries entries') :
    Alike (Unwritable.Twin π) (Collected π) (collectSources pending visited entries)
      (collectSources pending' visited' entries') := by
  fun_induction collectSources pending visited entries generalizing pending' visited' entries' with
  | case1 visited entries =>
      cases hp
      rw [collectSources]
      exact .ok he
  | case2 visited entries v rest =>
      cases hp with
      | cons hfirst _ =>
          cases hfirst with
          | foreign h =>
              rw [collectSources]
              exact .error (.anchor h)
  | case3 visited entries s rest hmem ih =>
      cases hp with
      | cons hfirst hrest =>
          cases hfirst with
          | source hs =>
              -- numbers correspond one to one, so the twin was visited as well
              have hmem' := (List.rel_mem π.biUnique hs.ident hv).1 hmem
              rw [collectSources, if_pos hmem']
              exact ih hrest hv he
  | case4 visited entries s rest hmem t ht =>
      cases hp with
      | cons hfirst hrest =>
          cases hfirst with
          | @source _ s' hs =>
              have hmem' := fun hm => hmem ((List.rel_mem π.biUnique hs.ident hv).2 hm)
              have hforeign := hs.foreign?
              rw [ht] at hforeign
              rw [collectSources, if_neg hmem']
              generalize s'.foreign? = x at hforeign
              -- both collections stop at the last link with a foreign target
              cases hforeign with
              | some h => exact .error (.target h)
  | case5 visited entries s rest hmem ht ih =>
      cases hp with
      | cons hfirst hrest =>
          cases hfirst with
          | @source _ s' hs =>
              have hmem' := fun hm => hmem ((List.rel_mem π.biUnique hs.ident hv).2 hm)
              have hforeign := hs.foreign?
              rw [ht] at hforeign
              rw [collectSources, if_neg hmem']
              generalize s'.foreign? = x at hforeign
              cases hforeign with
              | none =>
                  exact ih (List.rel_append hs.successors hrest) (.cons hs.ident hv)
                    (he.recordSource hs)

/-- **The same sources make up the blocks of twins.** -/
theorem Graph.Twin.sources {g : Graph ρ} {g' : Graph ρ'} (h : Graph.Twin π g g') :
    Alike (Unwritable.Twin π) (List.Forall₂ (Source.Twin π)) g.sources g'.sources := by
  cases h with
  | intro _ _ _ nodes subgraphs _ =>
      have hdeclared : List.Forall₂ (Source.Twin π) g.declared g'.declared :=
        List.rel_append (List.rel_map (fun _ _ h => .node h) nodes)
          (List.rel_map (fun _ _ h => .graph h) subgraphs)
      have hpending := List.rel_map (fun _ _ h => Anchor.Twin.source h) hdeclared
      have hempty : Collected π ∅ ∅ := .nil
      exact (collectSources_twin _ _ _ hpending .nil hempty).map fun _ _ h => h.values

/-! ## The order of the edge lines -/

/-- Positions are put in the same order if their successors correspond. -/
theorem orderedPositions_cast {m n : Nat} (h : m = n) {successors : Fin m → List (Fin m)}
    {successors' : Fin n → List (Fin n)}
    (hs : ∀ i, successors' (i.cast h) = (successors i).map (Fin.cast h)) :
    orderedPositions successors' = (orderedPositions successors).map (Fin.cast h) := by
  subst h
  have hcast : (Fin.cast rfl : Fin m → Fin m) = id := rfl
  have heq : successors' = successors := by
    funext i
    have hi := hs i
    rwa [hcast, List.map_id] at hi
  rw [heq, hcast, List.map_id]

/-- Positions are the same if their numbers are. -/
theorem eq_map_cast_of_val {m n : Nat} {x : Option (Fin m)} {y : Option (Fin n)} (h : m = n)
    (hval : x.map Fin.val = y.map Fin.val) : y = x.map (Fin.cast h) := by
  subst h
  rw [show (Fin.cast rfl : Fin m → Fin m) = id from rfl, Option.map_id]
  exact (Option.map_injective (fun _ _ => Fin.ext) hval).symm

namespace Source

variable {ss : List (Source ρ)} {ss' : List (Source ρ')}

theorem Twin.position? (h : List.Forall₂ (Source.Twin π) ss ss') {k k' : SourceKey}
    (hk : SourceKey.Twin π k k') :
    position? ss' k' = (Source.position? ss k).map (Fin.cast h.length_eq) := by
  apply eq_map_cast_of_val h.length_eq
  rw [Source.position?, Source.position?, ← List.findIdx?_eq_map_findFinIdx?_val,
    ← List.findIdx?_eq_map_findFinIdx?_val]
  exact findIdx?_of_forall₂ (fun _ _ hs => hs.key.beq_eq hk) h

theorem Twin.get (h : List.Forall₂ (Source.Twin π) ss ss') (i : Fin ss.length) :
    Source.Twin π (ss.get i) (ss'.get (i.cast h.length_eq)) :=
  h.get i.isLt (h.length_eq ▸ i.isLt)

theorem Twin.targetPositions (h : List.Forall₂ (Source.Twin π) ss ss') (i : Fin ss.length) :
    targetPositions ss' (i.cast h.length_eq) =
      (Source.targetPositions ss i).map (Fin.cast h.length_eq) := by
  rw [Source.targetPositions, Source.targetPositions, List.map_filterMap]
  -- link by link, the target is found at the same place or is not found
  have hlinks : List.Forall₂ (Link.Twin π) ss[i].links ss'[i.cast h.length_eq].links :=
    (Twin.get h i).links
  generalize ss[i].links = ls at hlinks ⊢
  generalize ss'[i.cast h.length_eq].links = ls' at hlinks ⊢
  induction hlinks with
  | nil => rfl
  | @cons l l' _ _ hl _ ih =>
      have hhead : (l'.target.key?.bind (Source.position? ss')) =
          (l.target.key?.bind (Source.position? ss)).map (Fin.cast h.length_eq) := by
        have hkey := hl.target.key?
        generalize l.target.key? = x at hkey ⊢
        generalize l'.target.key? = y at hkey ⊢
        cases hkey with
        | none => rfl
        | some hk => exact Twin.position? h hk
      rw [List.filterMap_cons, List.filterMap_cons, hhead, ih]

/-- **The edge lines of twins come in the same order.** -/
theorem Twin.linearize (h : List.Forall₂ (Source.Twin π) ss ss') :
    List.Forall₂ (Source.Twin π) (linearize ss) (Source.linearize ss') := by
  rw [Source.linearize, Source.linearize,
    orderedPositions_cast h.length_eq (Twin.targetPositions h), List.map_map]
  rw [List.forall₂_map_left_iff, List.forall₂_map_right_iff, List.forall₂_same]
  exact fun i _ => Twin.get h i

theorem Twin.edgeSources (h : List.Forall₂ (Source.Twin π) ss ss') :
    List.Forall₂ (Source.Twin π) (edgeSources ss) (Source.edgeSources ss') := by
  refine List.rel_append (forall₂_filter (fun _ _ hs => ?_) (Twin.linearize h))
    (forall₂_filter (fun _ _ hs => hs.isGraph) (Twin.linearize h))
  rw [hs.isGraph]

theorem Twin.edges (h : List.Forall₂ (Source.Twin π) ss ss') :
    List.Forall₂ (fun x x' => Source.Twin π x.1 x'.1 ∧ Link.Twin π x.2 x'.2) (edges ss)
      (Source.edges ss') :=
  List.rel_flatMap (Twin.edgeSources h) fun _ _ hs => List.rel_map (fun _ _ hl => ⟨hs, hl⟩) hs.links

/-! ## What stands in a block -/

theorem Twin.nodes (h : List.Forall₂ (Source.Twin π) ss ss') :
    List.Forall₂ (Node.Twin π) (nodes ss) (Source.nodes ss') := by
  refine List.rel_filterMap (fun _ _ hs => ?_) h
  cases hs with
  | node h => exact .some h
  | graph _ => exact .none

theorem Twin.graphs (h : List.Forall₂ (Source.Twin π) ss ss') :
    List.Forall₂ (Graph.Twin π) (graphs ss) (Source.graphs ss') := by
  refine List.rel_filterMap (fun _ _ hs => ?_) h
  cases hs with
  | node _ => exact .none
  | graph h => exact .some h

theorem Twin.contains_targetKeys (h : List.Forall₂ (Source.Twin π) ss ss') {k k' : SourceKey}
    (hk : SourceKey.Twin π k k') :
    (targetKeys ss).contains k = (Source.targetKeys ss').contains k' := by
  have hkeys : List.Forall₂ (SourceKey.Twin π) (Source.targetKeys ss) (Source.targetKeys ss') :=
    List.rel_flatMap h fun _ _ hs => List.rel_filterMap (fun _ _ hl => hl.target.key?) hs.links
  have hbi : Relator.BiUnique (SourceKey.Twin π) :=
    ⟨fun _ _ _ h₁ h₂ => (h₁.eq_iff h₂).2 rfl, fun _ _ _ h₁ h₂ => (h₁.eq_iff h₂).1 rfl⟩
  rw [Bool.eq_iff_iff, List.contains_iff_mem, List.contains_iff_mem]
  exact List.rel_mem hbi hk hkeys

theorem Twin.aloneGraphs (h : List.Forall₂ (Source.Twin π) ss ss') :
    List.Forall₂ (Graph.Twin π) (aloneGraphs ss) (Source.aloneGraphs ss') := by
  refine forall₂_filter (fun k k' hk => ?_) (Twin.graphs h)
  have hsource := Source.Twin.graph hk
  have hlinks : k.links.isEmpty = k'.links.isEmpty := isEmpty_of_forall₂ hsource.links
  have hkeys := Twin.contains_targetKeys h hsource.key
  rw [Source.key, Source.key] at hkeys
  rw [hlinks, hkeys]

end Source

end DotDoc
