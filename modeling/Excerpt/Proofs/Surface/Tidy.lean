import Excerpt.Proofs.Surface.Placement
import Excerpt.Proofs.Text.Slices
import Mathlib.Data.List.Sort

/-!
Tidy trees: every node cuts the text at characters, children lie inside their parent, and siblings follow one another.
-/

namespace Excerpt

structure Extent.Inside (source : List Char) (inner outer : Extent) : Prop where
  start : outer.start ≤ inner.start
  stop : inner.stop ≤ outer.stop
  proper : inner.start ≤ inner.stop
  opens : Text.IsBoundary source inner.start
  closes : Text.IsBoundary source inner.stop

theorem Extent.inside_isNesting (source : List Char) : Extent.IsNesting (Extent.Inside source) where
  self inside := ⟨Nat.le_refl _, Nat.le_refl _, inside.proper, inside.opens, inside.closes⟩
  trans inner outer :=
    ⟨outer.start.trans inner.start, inner.stop.trans outer.stop, inner.proper, inner.opens, inner.closes⟩

namespace Node

mutual

/-- Nodes cut the text at characters, children lie inside their parent, and siblings follow one another. A semicolon has
no name. -/
def isTidy (source : List Char) : Node → Bool
  | .node label extent children =>
    (Text.slice? source extent.start extent.stop).isSome && !(label.named && label.kind == ";") &&
      areTidy source extent.start extent.stop children

def areTidy (source : List Char) (start stop : Nat) : List Node → Bool
  | [] => true
  | first :: rest =>
    start ≤ first.extent.start && first.extent.stop ≤ stop && first.isTidy source &&
      areTidy source first.extent.stop stop rest

end

theorem isTidy_iff {source : List Char} {node : Node} :
    node.isTidy source = true ↔
      (Text.slice? source node.extent.start node.extent.stop).isSome = true ∧ (node.named = true → node.kind ≠ ";") ∧
        areTidy source node.extent.start node.extent.stop node.children = true := by
  obtain ⟨label, extent, children⟩ := node
  simp [isTidy, Node.named, Node.kind, Node.label, Node.extent, Node.children, and_assoc, imp_iff_not_or]

theorem areTidy_cons {source : List Char} {start stop : Nat} {first : Node} {rest : List Node} :
    areTidy source start stop (first :: rest) = true ↔
      start ≤ first.extent.start ∧ first.extent.stop ≤ stop ∧ first.isTidy source = true ∧
        areTidy source first.extent.stop stop rest = true := by
  simp [areTidy, and_assoc]

theorem inside_of_isTidy {source : List Char} {node : Node} (tidy : node.isTidy source = true) {outer : Extent}
    (start : outer.start ≤ node.extent.start) (stop : node.extent.stop ≤ outer.stop) :
    Extent.Inside source node.extent outer := by
  obtain ⟨proper, opens, closes⟩ := Text.slice_isSome_iff.mp (isTidy_iff.mp tidy).1
  exact ⟨start, stop, proper, opens, closes⟩

theorem lined_of_areTidy {source : List Char} {outer : Extent} {start : Nat} {nodes : List Node}
    (below : outer.start ≤ start) (tidy : areTidy source start outer.stop nodes = true) :
    Extent.Lined (Extent.Inside source) outer (nodes.map Node.place) := by
  induction nodes generalizing start with
  | nil => trivial
  | cons first rest ih =>
    obtain ⟨after, within, here, others⟩ := areTidy_cons.mp tidy
    have inside := inside_of_isTidy here (below.trans after) within
    have proper := inside.proper
    refine ⟨inside, ?_, ih (by omega) others⟩
    intro tag next found semicolon
    cases rest with
    | nil => cases found
    | cons second rest =>
      cases found
      obtain ⟨follows, ends, tidySecond, -⟩ := areTidy_cons.mp others
      have insideSecond := inside_of_isTidy tidySecond (inside.start.trans (proper.trans follows)) ends
      have properSecond := insideSecond.proper
      have joined : first.extent.stop ≤ second.extent.stop := by omega
      exact ⟨⟨Nat.le_refl _, joined, proper, inside.opens, inside.closes⟩,
        ⟨inside.start, ends, proper.trans joined, inside.opens, insideSecond.closes⟩⟩

mutual

theorem nests_of_isTidy {source : List Char} : ∀ {node : Node}, node.isTidy source = true →
    node.Nests (Extent.Inside source)
  | .node label extent children, tidy => by
    have inner := (isTidy_iff.mp tidy).2.2
    exact ⟨lined_of_areTidy (Nat.le_refl _) inner, allNest_of_areTidy inner⟩

theorem allNest_of_areTidy {source : List Char} {start stop : Nat} : ∀ {nodes : List Node},
    areTidy source start stop nodes = true → AllNest (Extent.Inside source) nodes
  | [], _ => trivial
  | first :: rest, tidy => by
    obtain ⟨-, -, here, others⟩ := areTidy_cons.mp tidy
    exact ⟨nests_of_isTidy here, allNest_of_areTidy others⟩

end

end Node

namespace Surface

def Item.Before (first second : Item) : Prop :=
  first.extent.stop ≤ second.extent.start

namespace Reading

variable {source : List Char}

structure Ordered (reading : Reading) : Prop where
  proper : reading.extent.start ≤ reading.extent.stop
  semicolon : reading.label.named = true → reading.label.kind ≠ ";"
  inside : ∀ item ∈ reading.items, reading.extent.start ≤ item.extent.start ∧ item.extent.stop ≤ reading.extent.stop
  items : reading.items.Pairwise Item.Before

def InOrder (start stop : Nat) : List Reading → Prop
  | [] => True
  | first :: rest =>
    start ≤ first.extent.start ∧ first.extent.stop ≤ stop ∧ first.Ordered ∧ InOrder first.extent.stop stop rest

theorem InOrder.start_le {start stop : Nat} {readings : List Reading} (ordered : InOrder start stop readings)
    {reading : Reading} (member : reading ∈ readings) : start ≤ reading.extent.start := by
  induction readings generalizing start with
  | nil => cases member
  | cons first rest ih =>
    obtain ⟨after, -, here, others⟩ := ordered
    rcases List.mem_cons.mp member with rfl | member
    · exact after
    · have := here.proper
      have := ih others member
      omega

/-- An item starts no earlier than the reading that it comes from, so items keep the order of the readings. -/
theorem start_of_mem_itemsAmong {start stop : Nat} {entries : List (Reading × Bool)}
    (ordered : InOrder start stop (entries.map (·.1))) {item : Item} (member : item ∈ itemsAmong entries) :
    ∃ reading ∈ entries.map (·.1), reading.label.named = true ∧ reading.extent.start ≤ item.extent.start := by
  induction entries generalizing start with
  | nil => cases member
  | cons entry rest ih =>
    obtain ⟨-, -, here, others⟩ := ordered
    obtain ⟨own, split, kinds⟩ := itemsAmong_cons entry rest
    rw [split] at member
    rcases List.mem_append.mp member with member | member
    · rcases kinds with rfl | ⟨named, rfl | rfl⟩
      · cases member
      · exact ⟨entry.1, List.mem_cons_self, named, (here.inside item member).1⟩
      · refine ⟨entry.1, List.mem_cons_self, named, ?_⟩
        rw [List.mem_singleton.mp member]
        rcases itemExtent_cases entry.1 (rest.head?.map (·.1)) with same | ⟨-, after, -, -, same⟩ <;>
          exact Nat.le_of_eq (congrArg Extent.start same).symm
    · obtain ⟨reading, known, found⟩ := ih others member
      exact ⟨reading, List.mem_cons_of_mem _ known, found⟩

theorem le_start_of_semicolon {start stop : Nat} {next : Reading × Bool} {rest : List (Reading × Bool)}
    (ordered : InOrder start stop ((next :: rest).map (·.1))) (semicolon : next.1.label.kind = ";") {item : Item}
    (member : item ∈ itemsAmong (next :: rest)) : next.1.extent.stop ≤ item.extent.start := by
  obtain ⟨reading, known, named, starts⟩ := start_of_mem_itemsAmong ordered member
  obtain ⟨-, -, here, others⟩ := ordered
  rcases List.mem_cons.mp known with rfl | known
  · exact absurd semicolon (here.semicolon named)
  · exact (others.start_le known).trans starts

/-- The constructs follow one another too, also when a tag takes the semicolon behind it along and when they stand in
conditional groups. -/
theorem itemsAmong_ordered {start stop : Nat} {entries : List (Reading × Bool)}
    (ordered : InOrder start stop (entries.map (·.1))) :
    (∀ item ∈ itemsAmong entries, start ≤ item.extent.start ∧ item.extent.stop ≤ stop) ∧
      (itemsAmong entries).Pairwise Item.Before := by
  induction entries generalizing start with
  | nil => simp [itemsAmong]
  | cons entry rest ih =>
    obtain ⟨after, within, here, others⟩ := ordered
    obtain ⟨insideRest, orderedRest⟩ := ih others
    have proper := here.proper
    obtain ⟨own, split, kinds⟩ := itemsAmong_cons entry rest
    rw [split]
    have ownOrdered : (∀ item ∈ own, start ≤ item.extent.start ∧ item.extent.stop ≤ stop ∧
        ∀ later ∈ itemsAmong rest, item.Before later) ∧ own.Pairwise Item.Before := by
      rcases kinds with rfl | ⟨-, rfl | rfl⟩
      · simp
      · refine ⟨fun item member => ?_, here.items⟩
        have bounds := here.inside item member
        refine ⟨by omega, by omega, fun later known => ?_⟩
        exact bounds.2.trans (insideRest later known).1
      · refine ⟨fun item member => ?_, List.pairwise_singleton _ _⟩
        rw [List.mem_singleton.mp member]
        unfold Item.Before
        rcases itemExtent_cases entry.1 (rest.head?.map (·.1)) with same | ⟨-, next, found, semicolon, same⟩
        · rw [same]
          exact ⟨after, within, fun later known => (insideRest later known).1⟩
        · rw [same]
          cases rest with
          | nil => cases found
          | cons second rest =>
            cases found
            exact ⟨after, others.2.1, fun later known => le_start_of_semicolon others semicolon known⟩
    refine ⟨fun item member => ?_,
      List.pairwise_append.mpr ⟨ownOrdered.2, orderedRest, fun item member later known => ?_⟩⟩
    · rcases List.mem_append.mp member with member | member
      · exact ⟨(ownOrdered.1 item member).1, (ownOrdered.1 item member).2.1⟩
      · have bounds := insideRest item member
        exact ⟨by omega, bounds.2⟩
    · exact (ownOrdered.1 item member).2.2 later known

mutual

theorem ofNode_ordered : ∀ {node : Node}, node.isTidy source = true → (ofNode source node).Ordered
  | .node label extent children, tidy => by
    obtain ⟨cut, semicolon, inner⟩ := Node.isTidy_iff.mp tidy
    have inOrder : InOrder extent.start extent.stop (ofNodes source children) := ofNodes_inOrder inner
    rw [ofNode]
    obtain ⟨entries, same, items⟩ := items_ofChildren source (.node label extent children) (ofNodes source children)
    rw [← same] at inOrder
    have ordered := itemsAmong_ordered inOrder
    rw [← items] at ordered
    exact ⟨(Text.slice_isSome_iff.mp cut).1, semicolon, ordered.1, ordered.2⟩

theorem ofNodes_inOrder {start stop : Nat} : ∀ {nodes : List Node}, Node.areTidy source start stop nodes = true →
    InOrder start stop (ofNodes source nodes)
  | [], _ => trivial
  | .node label extent children :: rest, tidy => by
    obtain ⟨after, within, here, others⟩ := Node.areTidy_cons.mp tidy
    exact ⟨after, within, ofNode_ordered here, ofNodes_inOrder others⟩

end

end Reading

theorem itemsOf_pairwise {source : List Char} {tree : Node} (tidy : tree.isTidy source = true) :
    (itemsOf source tree).Pairwise Item.Before :=
  (Reading.ofNode_ordered tidy).items

end Surface

end Excerpt
