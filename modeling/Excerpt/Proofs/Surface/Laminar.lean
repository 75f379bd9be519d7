import Excerpt.Proofs.Surface.Placement
import Mathlib.Data.List.Pairwise

/-!
The stretches of text that constructs take up, in a tree whose nodes are nested.
-/

namespace Excerpt

namespace Extent

/-- One of the extents lies in the other, or one ends before the other starts. -/
def Laminar (first second : Extent) : Prop :=
  (second.start ≤ first.start ∧ first.stop ≤ second.stop) ∨ (first.start ≤ second.start ∧ second.stop ≤ first.stop) ∨
    first.stop ≤ second.start ∨ second.stop ≤ first.start

theorem Laminar.refl (extent : Extent) : extent.Laminar extent :=
  .inl ⟨Nat.le_refl _, Nat.le_refl _⟩

instance : Std.Symm Laminar where
  symm first second laminar := by
    unfold Laminar at *
    omega

structure Between (start stop : Nat) (extent : Extent) : Prop where
  start : start ≤ extent.start
  proper : extent.start ≤ extent.stop
  stop : extent.stop ≤ stop

end Extent

namespace Node

mutual

/-- Children lie inside their parent, and siblings follow one another. -/
def isWellNested : Node → Bool
  | .node _ extent children => extent.start ≤ extent.stop && areWellNested extent.start extent.stop children

def areWellNested (start stop : Nat) : List Node → Bool
  | [] => true
  | first :: rest =>
    start ≤ first.extent.start && first.extent.stop ≤ stop && first.isWellNested && areWellNested first.extent.stop
      stop rest

end

theorem isWellNested_iff {node : Node} : node.isWellNested = true ↔
    node.extent.start ≤ node.extent.stop ∧ areWellNested node.extent.start node.extent.stop node.children = true := by
  obtain ⟨label, extent, children⟩ := node
  simp [isWellNested, Node.extent, Node.children]

theorem areWellNested_cons {start stop : Nat} {first : Node} {rest : List Node} :
    areWellNested start stop (first :: rest) = true ↔
      start ≤ first.extent.start ∧ first.extent.stop ≤ stop ∧ first.isWellNested = true ∧
        areWellNested first.extent.stop stop rest = true := by
  simp [areWellNested, and_assoc]

def joined (first : Node) (next : Option Node) : List Extent :=
  match next with
  | some next =>
    if Surface.Reading.isTagSpecifier first.kind = true ∧ next.kind = ";" then [⟨first.extent.start, next.extent.stop⟩]
    else []
  | none => []

theorem joined_cases (first : Node) (rest : List Node) : first.joined rest.head? = [] ∨
    ∃ next others, rest = next :: others ∧ Surface.Reading.isTagSpecifier first.kind = true ∧ next.kind = ";" ∧
      first.joined rest.head? = [⟨first.extent.start, next.extent.stop⟩] := by
  cases rest with
  | nil => exact .inl rfl
  | cons next others =>
    by_cases both : Surface.Reading.isTagSpecifier first.kind = true ∧ next.kind = ";"
    · exact .inr ⟨next, others, rfl, both.1, both.2, if_pos both⟩
    · exact .inl (if_neg both)

theorem joined_of_semicolon {node : Node} (semicolon : node.kind = ";") (next : Option Node) :
    node.joined next = [] := by
  cases next with
  | none => rfl
  | some next =>
    refine if_neg fun both => ?_
    rw [semicolon] at both
    exact absurd both.1 (by decide)

mutual

def stretches : Node → List Extent
  | .node _ extent children => extent :: stretchesAll children

def stretchesAll : List Node → List Extent
  | [] => []
  | first :: rest => first.joined rest.head? ++ (first.stretches ++ stretchesAll rest)

end

theorem extent_mem_stretches (node : Node) : node.extent ∈ node.stretches := by
  cases node
  exact List.mem_cons_self

mutual

theorem between_of_mem_stretches : ∀ {node : Node}, node.isWellNested = true → ∀ extent ∈ node.stretches,
    extent.Between node.extent.start node.extent.stop
  | .node label own children, nested, extent, member => by
    obtain ⟨proper, inner⟩ := isWellNested_iff.mp nested
    rcases List.mem_cons.mp member with rfl | member
    · exact ⟨Nat.le_refl _, proper, Nat.le_refl _⟩
    · exact between_of_mem_stretchesAll inner extent member

theorem between_of_mem_stretchesAll {start stop : Nat} : ∀ {nodes : List Node}, areWellNested start stop nodes = true →
    ∀ extent ∈ stretchesAll nodes, extent.Between start stop
  | first :: rest, nested, extent, member => by
    obtain ⟨after, within, here, others⟩ := areWellNested_cons.mp nested
    have proper := (isWellNested_iff.mp here).1
    rcases List.mem_append.mp member with joint | member
    · rcases joined_cases first rest with none | ⟨next, behind, rfl, -, -, one⟩
      · rw [none] at joint
        cases joint
      · rw [one, List.mem_singleton] at joint
        subst joint
        obtain ⟨follows, ends, hereNext, -⟩ := areWellNested_cons.mp others
        have properNext := (isWellNested_iff.mp hereNext).1
        exact ⟨after, by dsimp only; omega, ends⟩
    · rcases List.mem_append.mp member with own | later
      · obtain ⟨starts, ordered, stops⟩ := between_of_mem_stretches here extent own
        exact ⟨by omega, ordered, by omega⟩
      · obtain ⟨starts, ordered, stops⟩ := between_of_mem_stretchesAll others extent later
        exact ⟨by omega, ordered, stops⟩

end

/-- A tag may take the semicolon behind it along: nothing of the tree stands between the two. -/
theorem laminar_joined {start stop : Nat} {first next : Node} {rest : List Node} (semicolon : next.kind = ";")
    (nested : areWellNested start stop (first :: next :: rest) = true) :
    ∀ extent ∈ first.stretches ++ stretchesAll (next :: rest),
      Extent.Laminar ⟨first.extent.start, next.extent.stop⟩ extent := by
  obtain ⟨-, -, here, others⟩ := areWellNested_cons.mp nested
  obtain ⟨follows, -, hereNext, behind⟩ := areWellNested_cons.mp others
  have proper := (isWellNested_iff.mp here).1
  have properNext := (isWellNested_iff.mp hereNext).1
  intro extent member
  rw [stretchesAll, joined_of_semicolon semicolon, List.nil_append, List.mem_append, List.mem_append] at member
  rcases member with inFirst | inNext | later
  · obtain ⟨starts, -, stops⟩ := between_of_mem_stretches here extent inFirst
    exact .inr (.inl ⟨starts, by dsimp only; omega⟩)
  · obtain ⟨starts, -, stops⟩ := between_of_mem_stretches hereNext extent inNext
    exact .inr (.inl ⟨by dsimp only; omega, stops⟩)
  · exact .inr (.inr (.inl (between_of_mem_stretchesAll behind extent later).start))

mutual

theorem stretches_pairwise : ∀ {node : Node}, node.isWellNested = true → node.stretches.Pairwise Extent.Laminar
  | .node label own children, nested => by
    have inner := (isWellNested_iff.mp nested).2
    refine List.pairwise_cons.mpr ⟨fun extent member => ?_, stretchesAll_pairwise inner⟩
    have between := between_of_mem_stretchesAll inner extent member
    exact .inr (.inl ⟨between.start, between.stop⟩)

/-- Stretches of siblings have nothing in common, and those of one node lie in each other or apart. -/
theorem stretchesAll_pairwise {start stop : Nat} : ∀ {nodes : List Node}, areWellNested start stop nodes = true →
    (stretchesAll nodes).Pairwise Extent.Laminar
  | [], _ => .nil
  | first :: rest, nested => by
    obtain ⟨-, -, here, others⟩ := areWellNested_cons.mp nested
    have apart : (first.stretches ++ stretchesAll rest).Pairwise Extent.Laminar := by
      refine List.pairwise_append.mpr ⟨stretches_pairwise here, stretchesAll_pairwise others, ?_⟩
      intro early front late back
      have before := (between_of_mem_stretches here early front).stop
      have after := (between_of_mem_stretchesAll others late back).start
      exact .inr (.inr (.inl (Nat.le_trans before after)))
    rw [stretchesAll]
    rcases joined_cases first rest with none | ⟨next, behind, rfl, -, semicolon, one⟩
    · rwa [none, List.nil_append]
    · rw [one, List.singleton_append]
      exact List.pairwise_cons.mpr ⟨laminar_joined semicolon nested, apart⟩

end

theorem laminar_of_isWellNested {node : Node} (nested : node.isWellNested = true) {first second : Extent}
    (member : first ∈ node.stretches) (other : second ∈ node.stretches) : first.Laminar second :=
  List.Pairwise.forall_of_forall (fun extent _ => .refl extent) (stretches_pairwise nested) member other

section Nests

variable {takes : Extent → Prop}

theorem lined_of_stretches {outer : Extent} {nodes : List Node} (all : ∀ extent ∈ stretchesAll nodes, takes extent) :
    Extent.Lined (fun inner _ => takes inner) outer (nodes.map place) := by
  induction nodes with
  | nil => trivial
  | cons first rest ih =>
    have own : takes first.extent := all _ (by simp [stretchesAll, extent_mem_stretches])
    refine ⟨own, ?_, ih fun extent member => all extent (by simp [stretchesAll, member])⟩
    intro tag next found semicolon
    cases rest with
    | nil => cases found
    | cons second others =>
      cases found
      have one : first.joined (some second) = [⟨first.extent.start, second.extent.stop⟩] := if_pos ⟨tag, semicolon⟩
      exact ⟨own, all ⟨first.extent.start, second.extent.stop⟩ (by simp [stretchesAll, one])⟩

mutual

theorem nests_of_stretches : ∀ {node : Node}, (∀ extent ∈ node.stretches, takes extent) →
    node.Nests fun inner _ => takes inner
  | .node _ _ _, all =>
    have inner := fun extent member => all extent (List.mem_cons_of_mem _ member)
    ⟨lined_of_stretches inner, allNest_of_stretchesAll inner⟩

theorem allNest_of_stretchesAll : ∀ {nodes : List Node}, (∀ extent ∈ stretchesAll nodes, takes extent) →
    AllNest (fun inner _ => takes inner) nodes
  | [], _ => trivial
  | first :: rest, all =>
    ⟨nests_of_stretches fun extent member => all extent (by simp [stretchesAll, member]),
      allNest_of_stretchesAll fun extent member => all extent (by simp [stretchesAll, member])⟩

end

end Nests

end Node

end Excerpt
