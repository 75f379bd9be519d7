import Excerpt.Proofs.Draft.Sizes
import Excerpt.Proofs.Draft.Written

/-!
Declarators and the types that they derive. A declarator is written around its name: the layer next to the name is what
the name is, and the outermost layer is next to the base type.
-/

namespace Excerpt

namespace Surface

inductive Layer where
  | pointer
  | array (size : Option (List Char))
  | function (params : List Param) (variadic : Bool)

def Layer.wrap : Layer → Declarator → Declarator
  | pointer, inner => .pointer inner
  | array size, inner => .array size inner
  | function params variadic, inner => .function params variadic inner

/-- The declarator of a name, or of none, under layers of which the first is next to the name. -/
def Declarator.ofLayers (name : Option (String × Extent)) (layers : List Layer) : Declarator :=
  layers.foldl (fun inner layer => layer.wrap inner) (name.elim .anonymous fun name => .name name.1 name.2)

/-- The tree of a declarator, abstract when nothing is named in it. Parentheses may stand around any part. -/
inductive ReadsAs (source : List Char) : Option Node → List Layer → Option (String × Extent) → Prop
  | absent : ReadsAs source none [] none
  | name {node : Node} (kind : node.kind ∈ ["identifier", "field_identifier", "type_identifier"]) :
      ReadsAs source (some node) [] (some (Reading.string source node.extent, node.extent))
  | pointer {node : Node} {layers : List Layer} {name : Option (String × Extent)}
      (kind : node.kind ∈ ["pointer_declarator", "abstract_pointer_declarator"])
      (inner : ReadsAs source (node.child? "declarator") layers name) :
      ReadsAs source (some node) (layers ++ [.pointer]) name
  | array {node : Node} {layers : List Layer} {name : Option (String × Extent)}
      (kind : node.kind ∈ ["array_declarator", "abstract_array_declarator"])
      (inner : ReadsAs source (node.child? "declarator") layers name) :
      ReadsAs source (some node)
        (layers ++ [.array ((node.child? "size").map fun size => Reading.chars source size.extent)]) name
  | function {node list : Node} {layers : List Layer} {name : Option (String × Extent)}
      (kind : node.kind ∈ ["function_declarator", "abstract_function_declarator"])
      (params : node.child? "parameters" = some list) (inner : ReadsAs source (node.child? "declarator") layers name) :
      ReadsAs source (some node)
        (layers ++ [.function (Reading.ofNode source list).params.1 (Reading.ofNode source list).params.2]) name
  | parenthesized {node : Node} {layers : List Layer} {name : Option (String × Extent)}
      (kind : node.kind ∈ ["parenthesized_declarator", "abstract_parenthesized_declarator"])
      (inner : ReadsAs source
        (node.children.find? fun child => child.named && !"attribute".toList.isPrefixOf child.kind.toList)
        layers name) :
      ReadsAs source (some node) layers name

def declaratorAt (source : List Char) (node : Option Node) : Declarator :=
  (node.map fun node => (Reading.ofNode source node).declarator).getD .anonymous

namespace Reading

variable {source : List Char}

theorem child_ofNodes (node : Node) (field : String) :
    child? (ofNodes source node.children) field = (node.child? field).map (ofNode source) := by
  simp only [ofNodes_eq_map, child?, Node.child?, List.find?_map, Function.comp_def, ofNode_label]

theorem named_ofNodes (node : Node) :
    ((named (ofNodes source node.children)).find? fun child => !"attribute".toList.isPrefixOf child.label.kind.toList) =
      (node.children.find? fun child => child.named && !"attribute".toList.isPrefixOf child.kind.toList).map
        (ofNode source) := by
  simp only [ofNodes_eq_map, named, List.find?_filter, List.find?_map, Function.comp_def, ofNode_label, Node.named,
    Node.kind, Bool.decide_and, Bool.decide_eq_true]

end Reading

theorem Declarator.ofLayers_append (name : Option (String × Extent)) (layers : List Layer) (outer : Layer) :
    ofLayers name (layers ++ [outer]) = outer.wrap (ofLayers name layers) := by
  rw [ofLayers, List.foldl_append]
  rfl

/-- Trees are read from the outside in, one layer for each node on the way to the name. -/
theorem ReadsAs.declaratorAt {source : List Char} {node : Option Node} {layers : List Layer}
    {name : Option (String × Extent)} (reads : ReadsAs source node layers name) :
    declaratorAt source node = .ofLayers name layers := by
  have read : ∀ node : Node, Surface.declaratorAt source (some node) =
      Reading.declaratorOf source node.label node.extent (Reading.ofNodes source node.children) := by
    intro node
    cases node
    rfl
  have inner : ∀ node : Node,
      ((Reading.child? (Reading.ofNodes source node.children) "declarator").map (·.declarator)).getD .anonymous =
        Surface.declaratorAt source (node.child? "declarator") := by
    intro node
    rw [Reading.child_ofNodes, Option.map_map]
    rfl
  induction reads with
  | absent => rfl
  | name kind =>
    simp only [List.mem_cons, List.not_mem_nil, or_false, Node.kind] at kind
    rw [read]
    rcases kind with kind | kind | kind <;> simp only [Reading.declaratorOf, kind] <;> rfl
  | @pointer node _ _ kind _ ih =>
    simp only [List.mem_cons, List.not_mem_nil, or_false, Node.kind] at kind
    rw [read, Declarator.ofLayers_append, ← ih, ← inner]
    rcases kind with kind | kind <;> simp only [Reading.declaratorOf, kind] <;> rfl
  | @array node _ _ kind _ ih =>
    simp only [List.mem_cons, List.not_mem_nil, or_false, Node.kind] at kind
    rw [read, Declarator.ofLayers_append, ← ih, ← inner]
    rcases kind with kind | kind <;>
      simp only [Reading.declaratorOf, kind, Reading.child_ofNodes, Option.map_map, Function.comp_def,
        Reading.ofNode_extent] <;>
      rfl
  | @function node list _ _ kind params _ ih =>
    simp only [List.mem_cons, List.not_mem_nil, or_false, Node.kind] at kind
    rw [read, Declarator.ofLayers_append, ← ih, ← inner]
    rcases kind with kind | kind <;> simp only [Reading.declaratorOf, kind, Reading.child_ofNodes, params] <;> rfl
  | @parenthesized node _ _ kind _ ih =>
    simp only [List.mem_cons, List.not_mem_nil, or_false, Node.kind] at kind
    rw [read, ← ih]
    rcases kind with kind | kind <;>
      simp only [Reading.declaratorOf, kind, Reading.named_ofNodes, Option.map_map] <;> rfl

end Surface

namespace Drafting

open Surface

/-- Reading layers on `base` leads from one draft to another, where `id` is the first layer. Each layer has in the table
`final` the layer behind it under it, with its size folded or its parameters read where it is reached. The parameters in
force are those of the function next to the name, else those `held` before. -/
inductive Lowers (final : Program) (base : TypeId) (held : List TypedParam) (before : Draft) :
    Draft → List Layer → TypeId → List TypedParam → Prop
  | base : Lowers final base held before before [] base held
  | pointer {middle after : Draft} {layers : List Layer} {inner id : TypeId} {params : List TypedParam}
      (under : Lowers final base held before middle layers inner params)
      (added : (addType (.pointer inner)).run middle = (id, after)) (type : final.type id = .pointer inner) :
      Lowers final base held before after (.pointer :: layers) id params
  | array {middle after : Draft} {size : Option (List Char)} {layers : List Layer} {inner id : TypeId}
      {params : List TypedParam} (under : Lowers final base held before middle layers inner params)
      (added : (addType (.array inner (size.bind middle.fold))).run middle = (id, after))
      (type : final.type id = .array inner (size.bind middle.fold)) :
      Lowers final base held before after (.array size :: layers) id params
  | function {middle entered after : Draft} {list : List Param} {variadic : Bool} {layers : List Layer}
      {inner id : TypeId}
      {others params : List TypedParam} (under : Lowers final base held before middle layers inner others)
      (read : (enterParams list).run middle = (params, entered))
      (added : (addType (.function inner ((entered.withoutVoid params).map (·.type)) variadic)).run
        entered = (id, after))
      (type : final.type id = .function inner ((entered.withoutVoid params).map (·.type)) variadic) :
      Lowers final base held before after (.function list variadic :: layers) id (entered.withoutVoid params)

variable {final : Program} {base type id : TypeId} {held params others : List TypedParam} {before middle after : Draft}
  {layers unnamed : List Layer} {outer other : Layer}

theorem Lowers.under (first : Lowers final base held before middle [outer] type params)
    (rest : Lowers final type params middle after layers id others) :
    Lowers final base held before after (layers ++ [outer]) id others := by
  induction rest with
  | base => exact first
  | pointer _ added type ih => exact .pointer ih added type
  | array _ added type ih => exact .array ih added type
  | function _ read added type ih => exact .function ih read added type

def enterLayer (base : TypeId) (params : List TypedParam) : Layer → Drafting (TypeId × List TypedParam)
  | .pointer => do return (← addType (.pointer base), params)
  | .array size => do
    let draft ← get
    return (← addType (.array base (size.bind draft.fold)), params)
  | .function list variadic => do
    let list ← enterParams list
    let params := (← get).withoutVoid list
    return (← addType (.function base (params.map (·.type)) variadic), params)

theorem enterDeclarator_wrap (base : TypeId) (params : List TypedParam) (outer : Layer) (inner : Declarator) :
    enterDeclarator base params (outer.wrap inner) =
      enterLayer base params outer >>= fun made => enterDeclarator made.1 made.2 inner := by
  cases outer <;> simp only [Layer.wrap, enterDeclarator, enterLayer, bind_assoc, pure_bind]

theorem enterDeclarator_nil (name : Option (String × Extent)) (base : TypeId) (held : List TypedParam) :
    enterDeclarator base held (.ofLayers name []) = pure ⟨name, base, held⟩ := by
  cases name <;> simp only [Declarator.ofLayers, List.foldl_nil, Option.elim, enterDeclarator]

theorem type_of_addType {type : CType} (composed : type ≠ .builtin "") (draft : Draft) {final : Program}
    (stay : ((addType type).run draft).2.program.TypesStay final) : final.type ((addType type).run draft).1 = type := by
  have added := draft.program.type_addType type
  refine (stay _ ?_).2.trans added
  by_contra outside
  exact composed (added.symm.trans (Program.type_of_size_le _ (Nat.not_lt.mp outside)))

/-- One layer makes one type, of the type that the layers around it have made. -/
theorem enterLayer_lowers (base : TypeId) (held : List TypedParam) (outer : Layer) (draft : Draft) :
    Gives (enterLayer base held outer) draft fun made after => draft.program.TypesStay after.program ∧
      ∀ final, after.program.TypesStay final → Lowers final base held draft after [outer] made.1 made.2 := by
  have grows : ∀ {type : CType} (draft : Draft), type.named? = none →
      draft.program.TypesStay ((addType type).run draft).2.program := by
    intro type draft unnamed
    exact Draft.Steps.typesStay (addType_steps draft fun id found => by simp [unnamed] at found)
  cases outer with
  | pointer => exact ⟨grows _ rfl, fun final stay => .pointer .base rfl (type_of_addType (by simp) draft stay)⟩
  | array size => exact ⟨grows _ rfl, fun final stay => .array .base rfl (type_of_addType (by simp) draft stay)⟩
  | function list variadic =>
    have read : Gives (enterParams list) draft fun _ after => draft.Steps after :=
      (stepping.enterParams list draft trivial (Param.allPlaced_anywhere ⟨0, 0⟩ list fun _ _ => trivial)).mono
        fun _ _ read => read.1
    have stays : draft.program.TypesStay ((enterParams list).run draft).2.program := Draft.Steps.typesStay read
    exact ⟨stays.trans (grows _ rfl), fun final stay => .function .base rfl rfl (type_of_addType (by simp) _ stay)⟩

/-- Whatever the mixture of layers, each of them is made of the one behind it, and the last of the base type. -/
theorem enterDeclarator_lowers (name : Option (String × Extent)) (layers : List Layer) (base : TypeId)
    (held : List TypedParam) (draft : Draft) :
    Gives (enterDeclarator base held (.ofLayers name layers)) draft fun typed after =>
      draft.program.TypesStay after.program ∧ typed.name = name ∧
        Lowers after.program base held draft after layers typed.type typed.params := by
  -- The outermost layer is read first, and the layers in front of it stand on what it gives.
  induction layers using List.reverseRecOn generalizing base held draft with
  | nil =>
    rw [enterDeclarator_nil, gives_pure]
    exact ⟨.of_eq rfl, rfl, .base⟩
  | append_singleton layers outer ih =>
    simp only [Declarator.ofLayers_append, enterDeclarator_wrap, gives_bind]
    obtain ⟨stays, first⟩ := enterLayer_lowers base held outer draft
    obtain ⟨later, named, rest⟩ := ih _ _ _
    exact ⟨stays.trans later, named, (first _ later).under rest⟩

def shapes (params : List TypedParam) : List (Option String × TypeId) :=
  params.map fun param => (param.name.map (·.1), param.type)

/-- Layers that differ at most in where their parameters stand. -/
inductive Matches : Layer → Layer → Prop
  | pointer : Matches .pointer .pointer
  | array (size : Option (List Char)) : Matches (.array size) (.array size)
  | function {params others : List Param} (variadic : Bool)
      (read : ∀ draft, Gives (enterParams params) draft fun params after =>
        Gives (enterParams others) draft fun others later => later = after ∧ shapes others = shapes params) :
      Matches (.function params variadic) (.function others variadic)

theorem map_type_of_shapes {params others : List TypedParam} (same : shapes others = shapes params) :
    others.map (·.type) = params.map (·.type) := by
  simpa [shapes, Function.comp_def] using congrArg (List.map (·.2)) same

theorem shapes_withoutVoid {params others : List TypedParam} (same : shapes others = shapes params) (draft : Draft) :
    shapes (draft.withoutVoid others) = shapes (draft.withoutVoid params) := by
  rcases params with _ | ⟨param, _ | ⟨second, rest⟩⟩ <;> rcases others with _ | ⟨other, _ | ⟨third, tail⟩⟩ <;>
    simp only [shapes, List.map_cons, List.map_nil, List.cons.injEq, Prod.mk.injEq, reduceCtorEq, and_false,
      and_true] at same
  case nil.nil => rfl
  case cons.nil.cons.nil =>
    have unnamed : other.name.isNone = param.name.isNone := by simpa using congrArg Option.isNone same.1
    simp only [Draft.withoutVoid, unnamed, same.2]
    split <;> simp [shapes, same]
  case cons.cons.cons.cons => simpa [Draft.withoutVoid, shapes] using same

theorem enterLayer_matches (matched : Matches outer other) (same : shapes others = shapes held) (base : TypeId)
    (draft : Draft) : Gives (enterLayer base held outer) draft fun made after =>
      Gives (enterLayer base others other) draft fun again later =>
        later = after ∧ again.1 = made.1 ∧ shapes again.2 = shapes made.2 := by
  cases matched with
  | pointer => exact ⟨rfl, rfl, same⟩
  | array size => exact ⟨rfl, rfl, same⟩
  | @function list others variadic read =>
    obtain ⟨reached, shaped⟩ := read draft
    simp only [enterLayer, gives_bind, gives_get, gives_pure]
    rcases first : (enterParams list).run draft with ⟨params, middle⟩
    rcases second : (enterParams others).run draft with ⟨again, later⟩
    simp only [Gives, first, second] at reached shaped ⊢
    subst reached
    have kept := shapes_withoutVoid shaped later
    rw [map_type_of_shapes kept]
    exact ⟨rfl, rfl, kept⟩

/-- The name of a declarator has no part in its type. -/
theorem enterDeclarator_matches (matched : List.Forall₂ Matches layers unnamed) (same : shapes others = shapes held)
    (name : Option (String × Extent)) (base : TypeId) (draft : Draft) :
    Gives (enterDeclarator base held (.ofLayers name layers)) draft fun typed after =>
      Gives (enterDeclarator base others (.ofLayers none unnamed)) draft fun again later =>
        later = after ∧ again.name = none ∧ again.type = typed.type ∧ shapes again.params = shapes typed.params := by
  rw [← layers.reverse_reverse, ← unnamed.reverse_reverse]
  have matched := List.rel_reverse matched
  generalize layers.reverse = read at matched ⊢
  generalize unnamed.reverse = again at matched ⊢
  induction matched generalizing held others base draft with
  | nil =>
    simp only [List.reverse_nil, enterDeclarator_nil, gives_pure]
    exact ⟨trivial, trivial, trivial, same⟩
  | @cons outer other _ _ first _ ih =>
    obtain ⟨reached, type, shaped⟩ := enterLayer_matches first same base draft
    simp only [List.reverse_cons, Declarator.ofLayers_append, enterDeclarator_wrap, gives_bind]
    rcases made : (enterLayer base held outer).run draft with ⟨⟨id, params⟩, middle⟩
    rcases again : (enterLayer base others other).run draft with ⟨⟨second, copies⟩, later⟩
    simp only [made, again] at reached type shaped
    subst reached type
    have rest := ih shaped second later
    simpa only [Gives, made, again] using rest

/-- A declarator is read as the layers that its tree spells, each made of the one behind it and the last of `base`.
The name is that of the tree, the parameters are those of the function next to the name, and an abstract declarator of
the same layers gives the same type without a name. -/
theorem enterDeclarator_inverts {source : List Char} {node : Node} {layers : List Layer}
    {name : Option (String × Extent)}
    (reads : ReadsAs source (some node) layers name) (base : TypeId) (draft : Draft) :
    Gives (enterDeclarator base [] (Reading.ofNode source node).declarator) draft fun typed after =>
      typed.name = name ∧ Lowers after.program base [] draft after layers typed.type typed.params ∧
        ∀ (text : List Char) (abstract : Option Node) (unnamed : List Layer), ReadsAs text abstract unnamed none →
          List.Forall₂ Matches layers unnamed →
          Gives (enterDeclarator base [] (declaratorAt text abstract)) draft fun again later =>
            later = after ∧ again.name = none ∧ again.type = typed.type ∧
              shapes again.params = shapes typed.params := by
  have read : (Reading.ofNode source node).declarator = .ofLayers name layers := reads.declaratorAt
  obtain ⟨_, named, lowers⟩ := enterDeclarator_lowers name layers base [] draft
  rw [read]
  refine ⟨named, lowers, fun text abstract unnamed spelled matched => ?_⟩
  rw [spelled.declaratorAt]
  exact enterDeclarator_matches matched rfl name base draft

/-- `(*inner)` as the declarator of what stands around it; `form` is the prefix of the kinds. -/
def pointed (form : String) (inner : List (String × Written)) : Written :=
  .group ("declarator." ++ form ++ "parenthesized_declarator")
    [("", .token "'(" "("), ("", .group (form ++ "pointer_declarator") (("", .token "'*" "*") :: inner) ""),
      ("", .token "')" ")")] ""

def called (form : String) (inner : List (String × Written)) : Written :=
  .group ("declarator." ++ form ++ "function_declarator")
    [("", pointed form inner),
      ("", .group "parameters.parameter_list"
        [("", .token "'(" "("), ("", .group "parameter_declaration" [("", .token "type.primitive_type" "void")] ""),
          ("", .token "')" ")")] "")] ""

/-- `(*(*inner)(void))[3]`: a pointer to a function without parameters that returns a pointer to an array. -/
def nested (form : String) (inner : List (String × Written)) : Written :=
  .group (form ++ "array_declarator")
    [("", pointed form [("", called form inner)]), ("", .token "'[" "["), ("", .token "size.number_literal" "3"),
      ("", .token "']" "]")] ""

def namedX : List (String × Written) :=
  [("", .token "declarator.identifier" "x")]

def nestedLayers (start : Nat) : List Layer :=
  [.pointer, .function [.mk ⟨start, start + 4⟩ (.builtin "void") .anonymous] false, .pointer, .array (some ['3'])]

theorem readsAs_nested :
    ReadsAs (nested "" namedX).text (some ((nested "" namedX).node 0)) (nestedLayers 7) (some ("x", ⟨4, 5⟩)) := by
  have inner :
      ReadsAs (nested "" namedX).text (some ((pointed "" namedX).node 2)) ([] ++ [.pointer]) (some ("x", ⟨4, 5⟩)) :=
    .parenthesized (by decide +kernel) (.pointer (by decide +kernel) (.name (by decide +kernel)))
  have function :
      ReadsAs (nested "" namedX).text (some ((called "" namedX).node 2)) ([.pointer] ++ [(nestedLayers 7)[1]])
      (some ("x", ⟨4, 5⟩)) :=
    ReadsAs.function (by decide +kernel : ((called "" namedX).node 2).kind ∈ _) rfl inner
  have outer : ReadsAs (nested "" namedX).text (some ((pointed "" [("", called "" namedX)]).node 0))
      ((nestedLayers 7).take 2 ++ [.pointer]) (some ("x", ⟨4, 5⟩)) :=
    .parenthesized (by decide +kernel) (.pointer (by decide +kernel) function)
  exact ReadsAs.array (by decide +kernel : ((nested "" namedX).node 0).kind ∈ _) outer

theorem readsAs_nested_abstract :
    ReadsAs (nested "abstract_" []).text (some ((nested "abstract_" []).node 0)) (nestedLayers 6) none := by
  have inner : ReadsAs (nested "abstract_" []).text (some ((pointed "abstract_" []).node 2)) ([] ++ [.pointer]) none :=
    .parenthesized (by decide +kernel) (.pointer (by decide +kernel) .absent)
  have function : ReadsAs (nested "abstract_" []).text (some ((called "abstract_" []).node 2))
      ([.pointer] ++ [(nestedLayers 6)[1]]) none :=
    ReadsAs.function (by decide +kernel : ((called "abstract_" []).node 2).kind ∈ _) rfl inner
  have outer : ReadsAs (nested "abstract_" []).text (some ((pointed "abstract_" [("", called "abstract_" [])]).node 0))
      ((nestedLayers 6).take 2 ++ [.pointer]) none :=
    .parenthesized (by decide +kernel) (.pointer (by decide +kernel) function)
  exact ReadsAs.array (by decide +kernel : ((nested "abstract_" []).node 0).kind ∈ _) outer

theorem matches_nested : List.Forall₂ Matches (nestedLayers 7) (nestedLayers 6) :=
  .cons .pointer (.cons (.function false fun _ => ⟨rfl, rfl⟩) (.cons .pointer (.cons (.array _) .nil)))

def oneType : Draft :=
  { program := { types := #[.builtin "int"] } }

theorem enterDeclarator_nested :
    Gives (enterDeclarator 0 [] (Reading.ofNode (nested "" namedX).text ((nested "" namedX).node 0)).declarator) oneType
      fun typed after =>
        after.program.types =
            #[.builtin "int", .array 0 (some 3), .pointer 1, .builtin "void", .function 2 [] false, .pointer 4] ∧
          typed.name = some ("x", ⟨4, 5⟩) ∧
            Lowers after.program 0 [] oneType after (nestedLayers 7) typed.type typed.params ∧
          Gives (enterDeclarator 0 []
            (declaratorAt (nested "abstract_" []).text (some ((nested "abstract_" []).node 0))))
            oneType fun again later =>
              later = after ∧ again.name = none ∧ again.type = typed.type ∧
                shapes again.params = shapes typed.params := by
  obtain ⟨named, lowers, abstract⟩ := enterDeclarator_inverts readsAs_nested 0 oneType
  exact ⟨by decide +kernel, named, lowers, abstract _ _ _ readsAs_nested_abstract matches_nested⟩

end Drafting

end Excerpt
