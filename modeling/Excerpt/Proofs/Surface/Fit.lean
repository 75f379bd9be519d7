import Excerpt.Proofs.Surface.Placement

/-!
Declarators lie inside their declarations, in what is read off a tree whose nodes lie inside their parents.
-/

namespace Excerpt

namespace Node

mutual

def isNested : Node → Bool
  | .node _ extent children => areNested extent children

def areNested (outer : Extent) : List Node → Bool
  | [] => true
  | first :: rest =>
    outer.start ≤ first.extent.start && first.extent.stop ≤ outer.stop && first.isNested && areNested outer rest

end

end Node

/-- The first extent ends no later than the second. -/
def Extent.EndsIn (inner outer : Extent) : Prop :=
  inner.stop ≤ outer.stop

theorem Extent.endsIn_isNesting : Extent.IsNesting Extent.EndsIn where
  self _ := Nat.le_refl _
  trans := Nat.le_trans

namespace Surface

/-- The declarators of a construct end inside it, and those of inner declarations inside these. A tag has no
declarators of its own. -/
def Item.Fits (item : Item) : Prop :=
  ∃ host, item.form.Placed Extent.EndsIn AnyName host ∧
    (host.EndsIn item.extent ∨ ∃ spec, item.form = .declaration (.tag spec))

namespace Reading

variable {source : List Char} {children : List Reading}

theorem formOf_tag {node : Node} (tag : isTagSpecifier node.kind = true) :
    ∃ spec, formOf source node children = .declaration (.tag spec) := by
  have kinds : node.kind = "struct_specifier" ∨ node.kind = "union_specifier" ∨ node.kind = "enum_specifier" := by
    simpa [isTagSpecifier] using tag
  refine ⟨typeOf source node.label node.extent children, ?_⟩
  unfold formOf declarationOf
  rcases kinds with kind | kind | kind <;> simp [kind, show node.label.kind = _ from kind]

/-- A node ends in everything that it ends in, in each of its roles, and its top-level constructs fit. -/
structure Fits (reading : Reading) : Prop where
  places : ∀ host, reading.extent.EndsIn host → reading.Places Extent.EndsIn AnyName host
  tag : isTagSpecifier reading.label.kind = true → ∃ spec, reading.form = .declaration (.tag spec)
  items : ∀ item ∈ reading.items, item.Fits

theorem itemsAmong_fits {entries : List (Reading × Bool)} (fit : ∀ entry ∈ entries, entry.1.Fits) :
    ∀ item ∈ itemsAmong entries, item.Fits := by
  intro item member
  obtain ⟨entry, listed, inner | ⟨next, rfl⟩⟩ := mem_itemsAmong member
  · exact (fit entry listed).items item inner
  · refine ⟨entry.1.extent, ((fit entry listed).places _ (Nat.le_refl _)).form, ?_⟩
    rcases itemExtent_cases entry.1 next with same | ⟨tag, -⟩
    · exact .inl (Nat.le_of_eq (congrArg Extent.stop same.symm))
    · exact .inr ((fit entry listed).tag tag)

mutual

theorem ofNode_fits : ∀ {node : Node}, node.isNested = true → (ofNode source node).Fits
  | .node label extent children => by
    intro nested
    have fits := ofNodes_fits nested
    rw [ofNode]
    refine ⟨fun host =>
      ofChildren_places Extent.endsIn_isNesting (fun _ => trivial) (fun child member => (fits child member).1.places)
      (fun child member => (fits child member).2) rfl, formOf_tag, ?_⟩
    obtain ⟨entries, same, items⟩ := items_ofChildren source (.node label extent children) (ofNodes source children)
    rw [items]
    exact itemsAmong_fits fun entry member => (fits entry.1 (same ▸ List.mem_map_of_mem member)).1

theorem ofNodes_fits {outer : Extent} : ∀ {nodes : List Node}, Node.areNested outer nodes = true →
    ∀ child ∈ ofNodes source nodes, child.Fits ∧ child.extent.EndsIn outer
  | [] => by simp [ofNodes]
  | node :: rest => by
    intro nested child member
    simp only [Node.areNested, Bool.and_eq_true, decide_eq_true_eq] at nested
    obtain ⟨⟨⟨_, inside⟩, here⟩, others⟩ := nested
    rw [ofNodes] at member
    rcases List.mem_cons.mp member with rfl | member
    · refine ⟨ofNode_fits here, ?_⟩
      cases node
      exact inside
    · exact ofNodes_fits others child member

end

end Reading

theorem itemsOf_fit {source : List Char} {tree : Node} (nested : tree.isNested = true) :
    ∀ item ∈ itemsOf source tree, item.Fits :=
  (Reading.ofNode_fits nested).items

end Surface

end Excerpt
