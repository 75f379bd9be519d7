import Excerpt.Surface.Reading

/-!
Where the parts of a construct lie. What is read off a tree keeps the nesting of the tree. The relation of one extent
inside another is left open, so that the same reading serves for any property of extents that nodes hand down to their
children.
-/

namespace Excerpt

variable {inside : Extent → Extent → Prop}

/-- A relation of extents that lie in others: an extent inside a second one lies in all that the second lies in. -/
structure Extent.IsNesting (inside : Extent → Extent → Prop) : Prop where
  self : ∀ {inner outer}, inside inner outer → inside inner inner
  trans : ∀ {inner middle outer}, inside inner middle → inside middle outer → inside inner outer

def Extent.Anywhere (_ _ : Extent) : Prop :=
  True

def Surface.AnyName (_ : String) (_ : Extent) : Prop :=
  True

/-- Siblings that lie inside `outer`. A tag with a semicolon behind it lies also in the stretch of the two. -/
def Extent.Lined (inside : Extent → Extent → Prop) (outer : Extent) : List (Label × Extent) → Prop
  | [] => True
  | (label, first) :: rest =>
    inside first outer ∧
      (Surface.Reading.isTagSpecifier label.kind = true → ∀ next ∈ rest.head?, next.1.kind = ";" →
        inside first ⟨first.start, next.2.stop⟩ ∧ inside ⟨first.start, next.2.stop⟩ outer) ∧
      Lined inside outer rest

theorem Extent.Lined.mem {outer : Extent} {siblings : List (Label × Extent)}
    (lined : Lined inside outer siblings) {sibling : Label × Extent} (member : sibling ∈ siblings) :
    inside sibling.2 outer := by
  induction siblings with
  | nil => cases member
  | cons first rest ih =>
    rcases List.mem_cons.mp member with rfl | member
    · exact lined.1
    · exact ih lined.2.2 member

def Node.place (node : Node) : Label × Extent :=
  (node.label, node.extent)

mutual

/-- The children of every node are siblings that lie inside it. -/
def Node.Nests (inside : Extent → Extent → Prop) : Node → Prop
  | .node _ extent children => Extent.Lined inside extent (children.map Node.place) ∧ Node.AllNest inside children

def Node.AllNest (inside : Extent → Extent → Prop) : List Node → Prop
  | [] => True
  | first :: rest => first.Nests inside ∧ Node.AllNest inside rest

end

mutual

theorem Node.nests_of_forall (all : ∀ inner outer, inside inner outer) :
    ∀ node : Node, node.Nests inside
  | .node label extent children => by
    refine ⟨?_, Node.allNest_of_forall all children⟩
    induction children.map Node.place with
    | nil => trivial
    | cons first rest ih => exact ⟨all _ _, fun _ _ _ _ => ⟨all _ _, all _ _⟩, ih⟩

theorem Node.allNest_of_forall (all : ∀ inner outer, inside inner outer) :
    ∀ nodes : List Node, Node.AllNest inside nodes
  | [] => trivial
  | first :: rest => ⟨Node.nests_of_forall all first, Node.allNest_of_forall all rest⟩

end

namespace Surface

/-- The offset is where some extent inside `host` starts. -/
def StartsIn (inside : Extent → Extent → Prop) (host : Extent) (start : Nat) : Prop :=
  ∃ extent, inside extent host ∧ extent.start = start

section Placed

variable (inside : Extent → Extent → Prop) (spells : String → Extent → Prop)

mutual

def TypeSpec.Placed (host : Extent) : TypeSpec → Prop
  | .tag _ _ start => StartsIn inside host start
  | .record _ _ start fields => StartsIn inside host start ∧ FieldDecl.AllPlaced host fields
  | .enumeration _ start constants => StartsIn inside host start ∧ Enumerator.AllPlaced host constants
  | _ => True

def FieldDecl.AllPlaced (host : Extent) : List FieldDecl → Prop
  | [] => True
  | field :: rest => field.Placed host ∧ FieldDecl.AllPlaced host rest

def FieldDecl.Placed (host : Extent) : FieldDecl → Prop
  | .mk _ base declarators => base.Placed host ∧ Declarator.AllPlaced host declarators

def Enumerator.AllPlaced (host : Extent) : List Enumerator → Prop
  | [] => True
  | constant :: rest => constant.Placed host ∧ Enumerator.AllPlaced host rest

def Enumerator.Placed (host : Extent) : Enumerator → Prop
  | .mk _ start _ init => StartsIn inside host start ∧ init.Placed host host

def Declarator.AllPlaced (host : Extent) : List Declarator → Prop
  | [] => True
  | declarator :: rest => declarator.Placed host host ∧ Declarator.AllPlaced host rest

/-- The declared name lies in `outer`, and the parameters lie in `host`. -/
def Declarator.Placed (host outer : Extent) : Declarator → Prop
  | .anonymous => True
  | .name _ extent => inside extent outer
  | .pointer inner => inner.Placed host outer
  | .array _ inner => inner.Placed host outer
  | .function params _ inner => Param.AllPlaced host params ∧ inner.Placed host outer

def Param.AllPlaced (host : Extent) : List Param → Prop
  | [] => True
  | param :: rest => param.Placed host ∧ Param.AllPlaced host rest

def Param.Placed (host : Extent) : Param → Prop
  | .mk extent base declarator =>
    inside extent host ∧ base.Placed host ∧ declarator.Placed host extent

def Expr.AllPlaced (host outer : Extent) : List Expr → Prop
  | [] => True
  | expr :: rest => expr.Placed host outer ∧ Expr.AllPlaced host outer rest

/-- The expression lies in `outer`, its parts in itself, and all that it declares in `host`. Names are spelled as
asked. -/
def Expr.Placed (host outer : Extent) : Expr → Prop
  | .empty => True
  | .scope extent children => inside extent outer ∧ Expr.AllPlaced host extent children
  | .group extent children => inside extent outer ∧ Expr.AllPlaced host extent children
  | .declaration extent declaration => inside extent outer ∧ inside extent host ∧ declaration.Placed extent
  | .name name extent => inside extent outer ∧ spells name extent
  | .call extent function arguments =>
    inside extent outer ∧ function.Placed host extent ∧ Expr.AllPlaced host extent arguments
  | .member extent argument => inside extent outer ∧ argument.Placed host extent
  | .typeName extent base declarator =>
    inside extent outer ∧ base.Placed host ∧ declarator.Placed host extent
  | .number _ extent => inside extent outer
  | .other extent children => inside extent outer ∧ Expr.AllPlaced host extent children

def Declaration.Placed (host : Extent) : Declaration → Prop
  | .objects _ _ base declarators => base.Placed host ∧ InitDeclarator.AllPlaced host declarators
  | .typedefs base declarators => base.Placed host ∧ InitDeclarator.AllPlaced host declarators
  | .tag spec => spec.Placed host

def InitDeclarator.AllPlaced (host : Extent) : List InitDeclarator → Prop
  | [] => True
  | declarator :: rest => declarator.Placed host ∧ InitDeclarator.AllPlaced host rest

def InitDeclarator.Placed (host : Extent) : InitDeclarator → Prop
  | .mk full bare declarator init =>
    inside full host ∧ inside bare full ∧ declarator.Placed host bare ∧ init.Placed host full

end

def Form.Placed (host : Extent) : Form → Prop
  | .function _ _ base declarator extent body =>
    base.Placed inside spells host ∧ inside extent host ∧ declarator.Placed inside spells host extent ∧
      body.Placed inside spells host host
  | .declaration content => content.Placed inside spells host
  | _ => True

def Item.Placed (item : Item) : Prop :=
  inside item.extent item.extent ∧ item.form.Placed inside spells item.extent

end Placed

mutual

/-- The names in a type that are read as expressions, each with its place. -/
def TypeSpec.names : TypeSpec → List (String × Extent)
  | .record _ _ _ fields => FieldDecl.namesAll fields
  | .enumeration _ _ constants => Enumerator.namesAll constants
  | _ => []

def FieldDecl.namesAll : List FieldDecl → List (String × Extent)
  | [] => []
  | field :: rest => field.names ++ FieldDecl.namesAll rest

def FieldDecl.names : FieldDecl → List (String × Extent)
  | .mk _ base declarators => base.names ++ Declarator.namesAll declarators

def Declarator.namesAll : List Declarator → List (String × Extent)
  | [] => []
  | declarator :: rest => declarator.names ++ Declarator.namesAll rest

def Enumerator.namesAll : List Enumerator → List (String × Extent)
  | [] => []
  | constant :: rest => constant.names ++ Enumerator.namesAll rest

def Enumerator.names : Enumerator → List (String × Extent)
  | .mk _ _ _ init => init.names

def Declarator.names : Declarator → List (String × Extent)
  | .pointer inner => inner.names
  | .array _ inner => inner.names
  | .function params _ inner => Param.namesAll params ++ inner.names
  | _ => []

def Param.namesAll : List Param → List (String × Extent)
  | [] => []
  | param :: rest => param.names ++ Param.namesAll rest

def Param.names : Param → List (String × Extent)
  | .mk _ base declarator => base.names ++ declarator.names

def Expr.names : Expr → List (String × Extent)
  | .scope _ children => Expr.namesAll children
  | .group _ children => Expr.namesAll children
  | .declaration _ declaration => declaration.names
  | .name name extent => [(name, extent)]
  | .call _ function arguments => function.names ++ Expr.namesAll arguments
  | .member _ argument => argument.names
  | .typeName _ base declarator => base.names ++ declarator.names
  | .other _ children => Expr.namesAll children
  | _ => []

def Expr.namesAll : List Expr → List (String × Extent)
  | [] => []
  | expr :: rest => expr.names ++ Expr.namesAll rest

def Declaration.names : Declaration → List (String × Extent)
  | .objects _ _ base declarators => base.names ++ InitDeclarator.namesAll declarators
  | .typedefs base declarators => base.names ++ InitDeclarator.namesAll declarators
  | .tag spec => spec.names

def InitDeclarator.namesAll : List InitDeclarator → List (String × Extent)
  | [] => []
  | declarator :: rest => declarator.names ++ InitDeclarator.namesAll rest

def InitDeclarator.names : InitDeclarator → List (String × Extent)
  | .mk _ _ declarator init => declarator.names ++ init.names

end

def Form.names : Form → List (String × Extent)
  | .function _ _ base declarator _ body => base.names ++ (declarator.names ++ body.names)
  | .declaration declared => declared.names
  | _ => []

section Lists

variable {spells : String → Extent → Prop} {host outer : Extent}

@[simp] theorem FieldDecl.allPlaced_iff {fields : List FieldDecl} :
    FieldDecl.AllPlaced inside spells host fields ↔ ∀ field ∈ fields, field.Placed inside spells host := by
  induction fields with
  | nil => simp [FieldDecl.AllPlaced]
  | cons first rest ih => simp [FieldDecl.AllPlaced, ih]

@[simp] theorem Enumerator.allPlaced_iff {constants : List Enumerator} :
    Enumerator.AllPlaced inside spells host constants ↔ ∀ constant ∈ constants, constant.Placed inside spells host := by
  induction constants with
  | nil => simp [Enumerator.AllPlaced]
  | cons first rest ih => simp [Enumerator.AllPlaced, ih]

@[simp] theorem Declarator.allPlaced_iff {declarators : List Declarator} :
    Declarator.AllPlaced inside spells host declarators ↔
      ∀ declarator ∈ declarators, declarator.Placed inside spells host host := by
  induction declarators with
  | nil => simp [Declarator.AllPlaced]
  | cons first rest ih => simp [Declarator.AllPlaced, ih]

@[simp] theorem Param.allPlaced_iff {params : List Param} :
    Param.AllPlaced inside spells host params ↔ ∀ param ∈ params, param.Placed inside spells host := by
  induction params with
  | nil => simp [Param.AllPlaced]
  | cons first rest ih => simp [Param.AllPlaced, ih]

@[simp] theorem Expr.allPlaced_iff {exprs : List Expr} :
    Expr.AllPlaced inside spells host outer exprs ↔ ∀ expr ∈ exprs, expr.Placed inside spells host outer := by
  induction exprs with
  | nil => simp [Expr.AllPlaced]
  | cons first rest ih => simp [Expr.AllPlaced, ih]

@[simp] theorem InitDeclarator.allPlaced_iff {declarators : List InitDeclarator} :
    InitDeclarator.AllPlaced inside spells host declarators ↔
      ∀ declarator ∈ declarators, declarator.Placed inside spells host := by
  induction declarators with
  | nil => simp [InitDeclarator.AllPlaced]
  | cons first rest ih => simp [InitDeclarator.AllPlaced, ih]

end Lists

theorem startsIn_anywhere (host : Extent) (start : Nat) : StartsIn Extent.Anywhere host start :=
  ⟨⟨start, start⟩, trivial, rfl⟩

section Anywhere

variable {spells : String → Extent → Prop}

def Spelled (spells : String → Extent → Prop) (names : List (String × Extent)) : Prop :=
  ∀ entry ∈ names, spells entry.1 entry.2

theorem spelled_append {first second : List (String × Extent)} :
    Spelled spells (first ++ second) ↔ Spelled spells first ∧ Spelled spells second :=
  List.forall_mem_append

mutual

theorem TypeSpec.placed_anywhere (host : Extent) :
    ∀ spec : TypeSpec, Spelled spells spec.names → spec.Placed Extent.Anywhere spells host
  | .builtin _, _ | .named _, _ | .unknown _, _ => trivial
  | .tag _ _ start, _ => startsIn_anywhere host start
  | .record _ _ start fields, spelled =>
    ⟨startsIn_anywhere host start, FieldDecl.allPlaced_anywhere host fields spelled⟩
  | .enumeration _ start constants, spelled =>
    ⟨startsIn_anywhere host start, Enumerator.allPlaced_anywhere host constants spelled⟩

theorem FieldDecl.allPlaced_anywhere (host : Extent) :
    ∀ fields, Spelled spells (FieldDecl.namesAll fields) → FieldDecl.AllPlaced Extent.Anywhere spells host fields
  | [], _ => trivial
  | .mk _ base declarators :: rest, spelled => by
    obtain ⟨own, others⟩ := spelled_append.mp spelled
    obtain ⟨type, inner⟩ := spelled_append.mp own
    exact ⟨⟨base.placed_anywhere host type, Declarator.allPlaced_anywhere host declarators inner⟩,
      FieldDecl.allPlaced_anywhere host rest others⟩

theorem Enumerator.allPlaced_anywhere (host : Extent) :
    ∀ constants, Spelled spells (Enumerator.namesAll constants) →
      Enumerator.AllPlaced Extent.Anywhere spells host constants
  | [], _ => trivial
  | .mk _ start _ init :: rest, spelled => by
    obtain ⟨own, others⟩ := spelled_append.mp spelled
    exact ⟨⟨startsIn_anywhere host start, init.placed_anywhere host host own⟩,
      Enumerator.allPlaced_anywhere host rest others⟩

theorem Declarator.allPlaced_anywhere (host : Extent) :
    ∀ declarators, Spelled spells (Declarator.namesAll declarators) →
      Declarator.AllPlaced Extent.Anywhere spells host declarators
  | [], _ => trivial
  | declarator :: rest, spelled => by
    obtain ⟨own, others⟩ := spelled_append.mp spelled
    exact ⟨declarator.placed_anywhere host host own, Declarator.allPlaced_anywhere host rest others⟩

theorem Declarator.placed_anywhere (host outer : Extent) :
    ∀ declarator : Declarator, Spelled spells declarator.names → declarator.Placed Extent.Anywhere spells host outer
  | .anonymous, _ | .name .., _ => trivial
  | .pointer inner, spelled | .array _ inner, spelled => inner.placed_anywhere host outer spelled
  | .function params _ inner, spelled => by
    obtain ⟨own, others⟩ := spelled_append.mp spelled
    exact ⟨Param.allPlaced_anywhere host params own, inner.placed_anywhere host outer others⟩

theorem Param.allPlaced_anywhere (host : Extent) :
    ∀ params, Spelled spells (Param.namesAll params) → Param.AllPlaced Extent.Anywhere spells host params
  | [], _ => trivial
  | .mk extent base declarator :: rest, spelled => by
    obtain ⟨own, others⟩ := spelled_append.mp spelled
    obtain ⟨type, inner⟩ := spelled_append.mp own
    exact ⟨⟨trivial, base.placed_anywhere host type, declarator.placed_anywhere host extent inner⟩,
      Param.allPlaced_anywhere host rest others⟩

theorem Expr.allPlaced_anywhere (host outer : Extent) :
    ∀ exprs, Spelled spells (Expr.namesAll exprs) → Expr.AllPlaced Extent.Anywhere spells host outer exprs
  | [], _ => trivial
  | expr :: rest, spelled => by
    obtain ⟨own, others⟩ := spelled_append.mp spelled
    exact ⟨expr.placed_anywhere host outer own, Expr.allPlaced_anywhere host outer rest others⟩

theorem Expr.placed_anywhere (host outer : Extent) :
    ∀ expr : Expr, Spelled spells expr.names → expr.Placed Extent.Anywhere spells host outer
  | .empty, _ | .number .., _ => trivial
  | .name name extent, spelled => ⟨trivial, spelled (name, extent) List.mem_cons_self⟩
  | .scope extent children, spelled | .group extent children, spelled | .other extent children, spelled =>
    ⟨trivial, Expr.allPlaced_anywhere host extent children spelled⟩
  | .declaration extent declaration, spelled => ⟨trivial, trivial, declaration.placed_anywhere extent spelled⟩
  | .call extent function arguments, spelled => by
    obtain ⟨own, others⟩ := spelled_append.mp spelled
    exact ⟨trivial, function.placed_anywhere host extent own, Expr.allPlaced_anywhere host extent arguments others⟩
  | .member extent argument, spelled => ⟨trivial, argument.placed_anywhere host extent spelled⟩
  | .typeName extent base declarator, spelled => by
    obtain ⟨own, others⟩ := spelled_append.mp spelled
    exact ⟨trivial, base.placed_anywhere host own, declarator.placed_anywhere host extent others⟩

theorem Declaration.placed_anywhere (host : Extent) :
    ∀ declaration : Declaration, Spelled spells declaration.names → declaration.Placed Extent.Anywhere spells host
  | .objects _ _ base declarators, spelled | .typedefs base declarators, spelled => by
    obtain ⟨own, others⟩ := spelled_append.mp spelled
    exact ⟨base.placed_anywhere host own, InitDeclarator.allPlaced_anywhere host declarators others⟩
  | .tag spec, spelled => spec.placed_anywhere host spelled

theorem InitDeclarator.allPlaced_anywhere (host : Extent) :
    ∀ declarators, Spelled spells (InitDeclarator.namesAll declarators) →
      InitDeclarator.AllPlaced Extent.Anywhere spells host declarators
  | [], _ => trivial
  | .mk full bare declarator init :: rest, spelled => by
    obtain ⟨own, others⟩ := spelled_append.mp spelled
    obtain ⟨named, value⟩ := spelled_append.mp own
    exact ⟨⟨trivial, trivial, declarator.placed_anywhere host bare named, init.placed_anywhere host full value⟩,
      InitDeclarator.allPlaced_anywhere host rest others⟩

end

theorem Form.placed_anywhere (host : Extent) {form : Form} (spelled : Spelled spells form.names) :
    form.Placed Extent.Anywhere spells host := by
  cases form with
  | function storage isInline base declarator extent body =>
    obtain ⟨own, others⟩ := spelled_append.mp spelled
    obtain ⟨named, inner⟩ := spelled_append.mp others
    exact ⟨base.placed_anywhere host own, trivial, declarator.placed_anywhere host extent named,
      body.placed_anywhere host host inner⟩
  | declaration declaration => exact declaration.placed_anywhere host spelled
  | _ => trivial

end Anywhere

section Widen

variable {spells : String → Extent → Prop} (nesting : Extent.IsNesting inside)
  {host outer wider : Extent} (within : inside outer wider)
include nesting within

theorem Declarator.placed_widen :
    ∀ declarator : Declarator, declarator.Placed inside spells host outer → declarator.Placed inside spells host wider
  | .anonymous, _ => trivial
  | .name _ _, placed => nesting.trans placed within
  | .pointer inner, placed => Declarator.placed_widen inner placed
  | .array _ inner, placed => Declarator.placed_widen inner placed
  | .function _ _ inner, placed => ⟨placed.1, Declarator.placed_widen inner placed.2⟩

theorem Expr.Placed.widen {expr : Expr} (placed : expr.Placed inside spells host outer) :
    expr.Placed inside spells host wider := by
  cases expr with
  | empty => trivial
  | number => exact nesting.trans placed within
  | _ => exact ⟨nesting.trans placed.1 within, placed.2⟩

end Widen

def Reading.Spells (source : List Char) (name : String) (extent : Extent) : Prop :=
  string source extent = name

structure Reading.Places (inside : Extent → Extent → Prop) (spells : String → Extent → Prop) (host : Extent)
    (reading : Reading) : Prop where
  expr : reading.expr.Placed inside spells host reading.extent
  parts : ∀ part ∈ reading.parts, part.Placed inside spells host reading.extent
  type : reading.type.Placed inside spells host
  declarator : reading.declarator.Placed inside spells host reading.extent
  initDeclarator : reading.initDeclarator.Placed inside spells host
  param : ∀ param ∈ reading.param, param.Placed inside spells host
  params : ∀ param ∈ reading.params.1, param.Placed inside spells host
  fields : ∀ field ∈ reading.fields, field.Placed inside spells host
  members : ∀ field ∈ reading.members, field.Placed inside spells host
  enumerators : ∀ constant ∈ reading.enumerators, constant.Placed inside spells host
  constants : ∀ constant ∈ reading.constants, constant.Placed inside spells host
  form : reading.form.Placed inside spells host

/-- A node lies in everything that it lies in, in each of its roles, and its top-level constructs in their own
extents. -/
structure Reading.Placed (inside : Extent → Extent → Prop) (spells : String → Extent → Prop) (reading : Reading) :
    Prop where
  places : ∀ host, inside reading.extent host → reading.Places inside spells host
  items : ∀ item ∈ reading.items, item.Placed inside spells

namespace Reading

variable {spells : String → Extent → Prop} {source : List Char} {label : Label} {extent host : Extent} {child : Reading}
  {children : List Reading}

theorem mem_of_child? {field : String} (found : child? children field = some child) :
    child ∈ children :=
  List.mem_of_find?_eq_some found

theorem mem_of_named (member : child ∈ named children) : child ∈ children :=
  (List.mem_filter.mp member).1

theorem mem_of_childrenAt {field : String} (member : child ∈ childrenAt children field) :
    child ∈ children :=
  (List.mem_filter.mp member).1

theorem mem_of_dismissFirst {field : String} {marked : List (Reading × Bool)} {entry : Reading × Bool}
    (member : entry ∈ dismissFirst field marked) : ∃ counts, (entry.1, counts) ∈ marked := by
  induction marked with
  | nil => cases member
  | cons first rest ih =>
    unfold dismissFirst at member
    split at member
    · rcases List.mem_cons.mp member with rfl | member
      · exact ⟨first.2, List.mem_cons_self⟩
      · exact ⟨entry.2, List.mem_cons_of_mem _ member⟩
    · rcases List.mem_cons.mp member with rfl | member
      · exact ⟨first.2, List.mem_cons_self⟩
      · obtain ⟨counts, known⟩ := ih member
        exact ⟨counts, List.mem_cons_of_mem _ known⟩

theorem mem_of_markBranches {entry : Reading × Bool} (member : entry ∈ markBranches children) : entry.1 ∈ children := by
  obtain ⟨counts, member⟩ := mem_of_dismissFirst member
  obtain ⟨counts, member⟩ := mem_of_dismissFirst member
  obtain ⟨child, known, same⟩ := List.mem_map.mp member
  cases same
  exact known

theorem mem_of_branches (member : child ∈ branches children) : child ∈ children := by
  obtain ⟨entry, marked, rfl⟩ := List.mem_map.mp member
  exact mem_of_markBranches (List.mem_filter.mp marked).1

section Children

variable (places : ∀ child ∈ children, child.Places inside spells host)
include places

theorem baseType_placed : (baseType children).Placed inside spells host := by
  unfold baseType
  cases found : child? children "type" with
  | none => trivial
  | some child => exact (places child (mem_of_child? found)).type

theorem typeOf_placed (lies : inside extent host) :
    (typeOf source label extent children).Placed inside spells host := by
  have starts : StartsIn inside host extent.start := ⟨extent, lies, rfl⟩
  have members : ∀ body, child? children "body" = some body → FieldDecl.AllPlaced inside spells host body.members :=
    fun body found => FieldDecl.allPlaced_iff.mpr (places body (mem_of_child? found)).members
  have constants : ∀ body, child? children "body" = some body →
      Enumerator.AllPlaced inside spells host body.constants :=
    fun body found => Enumerator.allPlaced_iff.mpr (places body (mem_of_child? found)).constants
  unfold typeOf
  dsimp only
  cases found : child? children "body" with
  | none =>
    split <;> first
      | exact starts
      | trivial
  | some body =>
    split <;> first
      | exact ⟨starts, members body found⟩
      | exact ⟨starts, constants body found⟩
      | trivial

variable (nesting : Extent.IsNesting inside) (nest : ∀ child ∈ children, inside child.extent extent)
include nesting nest

theorem optionalDeclarator_placed : (optionalDeclarator children).Placed inside spells host extent := by
  unfold optionalDeclarator
  cases found : child? children "declarator" with
  | none => trivial
  | some child =>
    have member := mem_of_child? found
    exact Declarator.placed_widen nesting (nest child member) _ (places child member).declarator

theorem exprAt_placed (field : String) :
    Expr.Placed inside spells host extent (((child? children field).map (·.expr)).getD .empty) := by
  cases found : child? children field with
  | none => trivial
  | some child =>
    have member := mem_of_child? found
    exact (places child member).expr.widen nesting (nest child member)

theorem declaratorOf_placed (self : inside extent extent) :
    (declaratorOf source label extent children).Placed inside spells host extent := by
  have inner := optionalDeclarator_placed places nesting nest
  have params : ∀ param ∈ (((child? children "parameters").map (·.params)).getD ([], false)).1,
      param.Placed inside spells host := by
    cases found : child? children "parameters" with
    | none => simp
    | some list => exact (places list (mem_of_child? found)).params
  unfold declaratorOf
  dsimp only
  split <;> first
    | trivial
    | exact self
    | exact inner
    | exact ⟨Param.allPlaced_iff.mpr params, inner⟩
    | skip
  all_goals
    cases found : (named children).find? fun child => !"attribute".toList.isPrefixOf child.label.kind.toList with
    | none => trivial
    | some child =>
      have member := mem_of_named (List.mem_of_find?_eq_some found)
      exact Declarator.placed_widen nesting (nest child member) _ (places child member).declarator

theorem initDeclaratorOf_placed (lies : inside extent host) :
    (initDeclaratorOf source label extent children).Placed inside spells host := by
  have self := nesting.self lies
  unfold initDeclaratorOf
  split
  · split
    · next bare found =>
      have member := mem_of_child? found
      exact ⟨lies, nest bare member, (places bare member).declarator, exprAt_placed places nesting nest "value"⟩
    · exact ⟨lies, self, trivial, trivial⟩
  · exact ⟨lies, self, declaratorOf_placed places nesting nest self, trivial⟩

theorem declarationOf_placed (lies : inside extent host) :
    (declarationOf source label extent children).Placed inside spells host := by
  unfold declarationOf
  split
  · refine ⟨baseType_placed places, InitDeclarator.allPlaced_iff.mpr fun declarator listed => ?_⟩
    obtain ⟨child, known, rfl⟩ := List.mem_map.mp listed
    exact (places child (mem_of_childrenAt known)).initDeclarator
  · refine ⟨baseType_placed places, InitDeclarator.allPlaced_iff.mpr fun declarator listed => ?_⟩
    obtain ⟨child, known, rfl⟩ := List.mem_map.mp listed
    have member := mem_of_childrenAt known
    have within := nest child member
    exact ⟨nesting.trans within lies, nesting.self within, (places child member).declarator, trivial⟩
  · exact typeOf_placed places lies

theorem formOf_placed {node : Node} (same : node.extent = extent) (lies : inside extent host) :
    (formOf source node children).Placed inside spells host := by
  have widen : ∀ {declarator : Declarator}, declarator.Placed inside spells host extent →
      declarator.Placed inside spells host host :=
    Declarator.placed_widen nesting lies _
  unfold formOf
  dsimp only
  split
  · trivial
  · trivial
  · trivial
  · split
    · split <;> trivial
    · trivial
  · have body := (exprAt_placed places nesting nest "body").widen nesting lies
    cases found : child? children "declarator" with
    | none => exact ⟨baseType_placed places, by rwa [← same] at lies, trivial, body⟩
    | some child =>
      have member := mem_of_child? found
      exact ⟨baseType_placed places, nesting.trans (nest child member) lies, (places child member).declarator, body⟩
  all_goals first
    | exact declarationOf_placed places nesting (same ▸ nest) (same ▸ lies)
    | trivial

theorem fieldsOf_placed (lies : inside extent host) :
    ∀ field ∈ fieldsOf label extent children, field.Placed inside spells host := by
  intro field member
  unfold fieldsOf at member
  split at member
  · obtain ⟨child, known, member⟩ := List.mem_flatMap.mp member
    exact (places child (mem_of_branches (mem_of_named known))).fields field member
  · split at member
    · rw [List.mem_singleton.mp member]
      refine ⟨baseType_placed places, Declarator.allPlaced_iff.mpr fun declarator listed => ?_⟩
      obtain ⟨child, known, rfl⟩ := List.mem_map.mp listed
      have isChild := mem_of_childrenAt known
      exact Declarator.placed_widen nesting (nesting.trans (nest child isChild) lies) _
        (places child isChild).declarator
    · cases member

theorem enumeratorsOf_placed (lies : inside extent host) :
    ∀ constant ∈ enumeratorsOf source label children, constant.Placed inside spells host := by
  intro constant member
  unfold enumeratorsOf at member
  split at member
  · obtain ⟨child, known, member⟩ := List.mem_flatMap.mp member
    exact (places child (mem_of_branches (mem_of_named known))).enumerators constant member
  · split at member
    · split at member
      · next name found =>
        rw [List.mem_singleton.mp member]
        have within := nesting.trans (nest name (mem_of_child? found)) lies
        exact ⟨⟨name.extent, within, rfl⟩, (exprAt_placed places nesting nest "value").widen nesting lies⟩
      · cases member
    · cases member

end Children

section Node

variable (nesting : Extent.IsNesting inside) (spelled : ∀ extent, spells (string source extent) extent)
  (placed : ∀ child ∈ children, ∀ host, inside child.extent host → child.Places inside spells host)
  (nest : ∀ child ∈ children, inside child.extent extent)
include nesting spelled placed nest

theorem exprOf_placed (lies : inside extent host) :
    (exprOf source label extent children).Placed inside spells host extent := by
  have self := nesting.self lies
  have places : ∀ child ∈ children, child.Places inside spells host :=
    fun child member => placed child member host (nesting.trans (nest child member) lies)
  have within : ∀ child ∈ children, child.Places inside spells extent :=
    fun child member => placed child member extent (nest child member)
  have exprs : ∀ list : List Reading, (∀ child ∈ list, child ∈ children) →
      Expr.AllPlaced inside spells host extent (list.map (·.expr)) := by
    intro list known
    refine Expr.allPlaced_iff.mpr fun part listed => ?_
    obtain ⟨child, present, rfl⟩ := List.mem_map.mp listed
    have member := known child present
    exact (places child member).expr.widen nesting (nest child member)
  unfold exprOf
  dsimp only
  split
  · trivial
  · split
    · exact ⟨self, exprs _ fun child known => mem_of_branches (mem_of_named known)⟩
    · split
      · exact ⟨self, lies, declarationOf_placed within nesting nest self⟩
      · split <;> first
          | exact ⟨self, exprs _ fun child known => mem_of_named known⟩
          | exact ⟨self, lies, declarationOf_placed within nesting nest self⟩
          | exact self
          | exact ⟨self, spelled extent⟩
          | exact ⟨self, exprAt_placed places nesting nest "argument"⟩
          | exact ⟨self, baseType_placed places, optionalDeclarator_placed places nesting nest⟩
          | skip
        refine ⟨self, exprAt_placed places nesting nest "function", Expr.allPlaced_iff.mpr ?_⟩
        cases found : child? children "arguments" with
        | none => simp
        | some list =>
          have member := mem_of_child? found
          exact fun part listed => ((places list member).parts part listed).widen nesting (nest list member)

/-- All readings of a node at once: a reading is built from those of the children, whatever role it has. -/
theorem ofChildren_places {node : Node} (same : node.extent = extent) (lies : inside extent host) :
    (ofChildren source node children).Places inside spells host := by
  have self := nesting.self lies
  have places : ∀ child ∈ children, child.Places inside spells host :=
    fun child member => placed child member host (nesting.trans (nest child member) lies)
  subst same
  exact
    { expr := exprOf_placed nesting spelled placed nest lies
      parts := fun part member => by
        obtain ⟨child, known, rfl⟩ := List.mem_map.mp member
        have isChild := mem_of_named known
        exact (places child isChild).expr.widen nesting (nest child isChild)
      type := typeOf_placed places lies
      declarator := declaratorOf_placed places nesting nest self
      initDeclarator := initDeclaratorOf_placed places nesting nest lies
      param := fun param found => by
        unfold ofChildren paramOf at found
        dsimp only at found
        split at found
        · cases found
          exact ⟨lies, baseType_placed places, optionalDeclarator_placed places nesting nest⟩
        · cases found
      params := fun param member => by
        obtain ⟨child, known, found⟩ := List.mem_filterMap.mp member
        exact (places child (mem_of_named known)).param param found
      fields := fieldsOf_placed places nesting nest lies
      members := fun field member => by
        obtain ⟨child, known, member⟩ := List.mem_flatMap.mp member
        exact (places child (mem_of_named known)).fields field member
      enumerators := enumeratorsOf_placed places nesting nest lies
      constants := fun constant member => by
        obtain ⟨child, known, member⟩ := List.mem_flatMap.mp member
        exact (places child (mem_of_named known)).enumerators constant member
      form := formOf_placed places nesting nest rfl lies }

end Node

theorem map_dismissFirst (field : String) (entries : List (Reading × Bool)) :
    (dismissFirst field entries).map (·.1) = entries.map (·.1) := by
  induction entries with
  | nil => rfl
  | cons first rest ih =>
    unfold dismissFirst
    split
    · rfl
    · simp [ih]

theorem map_markBranches (children : List Reading) : (markBranches children).map (·.1) = children := by
  rw [markBranches, map_dismissFirst, map_dismissFirst, List.map_map]
  exact List.map_id children

theorem items_ofChildren (source : List Char) (node : Node) (children : List Reading) :
    ∃ entries : List (Reading × Bool),
      entries.map (·.1) = children ∧ (ofChildren source node children).items = itemsAmong entries := by
  refine ⟨_, ?_, rfl⟩
  split
  · exact map_markBranches children
  · rw [List.map_map]
    exact List.map_id children

theorem ofNode_label (node : Node) : (ofNode source node).label = node.label := by
  cases node
  rfl

theorem ofNode_extent (node : Node) : (ofNode source node).extent = node.extent := by
  cases node
  rfl

theorem ofNodes_eq_map (nodes : List Node) : ofNodes source nodes = nodes.map (ofNode source) := by
  induction nodes with
  | nil => simp [ofNodes]
  | cons node rest ih => rw [ofNodes, ih, List.map_cons]

theorem ofNodes_places (source : List Char) (nodes : List Node) :
    (ofNodes source nodes).map (fun reading => (reading.label, reading.extent)) = nodes.map Node.place := by
  rw [ofNodes_eq_map, List.map_map]
  exact List.map_congr_left fun node _ => Prod.ext (ofNode_label node) (ofNode_extent node)

theorem itemExtent_cases (reading : Reading) (next : Option Reading) :
    itemExtent reading next = reading.extent ∨
      isTagSpecifier reading.label.kind = true ∧ ∃ after, next = some after ∧ after.label.kind = ";" ∧
        itemExtent reading next = ⟨reading.extent.start, after.extent.stop⟩ := by
  unfold itemExtent
  split
  · next after =>
    split
    · next tag =>
      simp only [Bool.and_eq_true, beq_iff_eq] at tag
      exact .inr ⟨tag.1, after, rfl, tag.2, rfl⟩
    · exact .inl rfl
  · exact .inl rfl

theorem itemsAmong_cons (entry : Reading × Bool) (rest : List (Reading × Bool)) :
    ∃ here, itemsAmong (entry :: rest) = here ++ itemsAmong rest ∧
      (here = [] ∨ entry.1.label.named = true ∧
        (here = entry.1.items ∨ here = [⟨itemExtent entry.1 (rest.head?.map (·.1)), entry.1.form⟩])) := by
  refine ⟨_, rfl, ?_⟩
  split
  · exact .inl rfl
  · next counts =>
    have named : entry.1.label.named = true := by
      simp only [Bool.or_eq_true, not_or] at counts
      simpa using counts.1.1
    split
    · exact .inr ⟨named, .inl rfl⟩
    · exact .inr ⟨named, .inr rfl⟩

theorem mem_itemsAmong {entries : List (Reading × Bool)} {item : Item} (member : item ∈ itemsAmong entries) :
    ∃ entry ∈ entries, item ∈ entry.1.items ∨ ∃ next, item = ⟨itemExtent entry.1 next, entry.1.form⟩ := by
  induction entries with
  | nil => cases member
  | cons entry rest ih =>
    obtain ⟨here, split, own⟩ := itemsAmong_cons entry rest
    rw [split] at member
    rcases List.mem_append.mp member with member | member
    · refine ⟨entry, List.mem_cons_self, ?_⟩
      rcases own with rfl | ⟨-, rfl | rfl⟩
      · cases member
      · exact .inl member
      · exact .inr ⟨_, List.mem_singleton.mp member⟩
    · obtain ⟨other, listed, own⟩ := ih member
      exact ⟨other, List.mem_cons_of_mem _ listed, own⟩

/-- Every item is placed in its own extent, also when it takes the semicolon behind it along. -/
theorem itemsAmong_placed (nesting : Extent.IsNesting inside) {outer : Extent} {entries : List (Reading × Bool)}
    (placed : ∀ entry ∈ entries, entry.1.Placed inside spells)
    (lined : Extent.Lined inside outer (entries.map fun entry => (entry.1.label, entry.1.extent))) :
    ∀ item ∈ itemsAmong entries, item.Placed inside spells := by
  induction entries with
  | nil => simp [itemsAmong]
  | cons entry rest ih =>
    obtain ⟨lies, next, others⟩ := lined
    obtain ⟨here, split, own⟩ := itemsAmong_cons entry rest
    have placedHere := placed entry List.mem_cons_self
    intro item member
    rw [split] at member
    rcases List.mem_append.mp member with member | member
    · rcases own with rfl | ⟨-, rfl | rfl⟩
      · cases member
      · exact placedHere.items item member
      · rw [List.mem_singleton.mp member]
        have within : inside entry.1.extent (itemExtent entry.1 (rest.head?.map (·.1))) ∧
            inside (itemExtent entry.1 (rest.head?.map (·.1))) outer := by
          rcases itemExtent_cases entry.1 (rest.head?.map (·.1)) with same | ⟨tag, after, found, semicolon, same⟩
          · rw [same]
            exact ⟨nesting.self lies, lies⟩
          · rw [same]
            refine next tag (after.label, after.extent) ?_ semicolon
            cases rest with
            | nil => cases found
            | cons second rest =>
              cases found
              exact Option.mem_some_self _
        exact ⟨nesting.self within.2, (placedHere.places _ within.1).form⟩
    · exact ih (fun other known => placed other (List.mem_cons_of_mem _ known)) others item member

mutual

/-- By recursion on the tree: the children are placed, and they stand in line inside the node. -/
theorem ofNode_placed (nesting : Extent.IsNesting inside) (spelled : ∀ extent, spells (string source extent) extent) :
    ∀ {node : Node}, node.Nests inside → (ofNode source node).Placed inside spells
  | .node label extent children, nests => by
    have placed := ofNodes_placed nesting spelled nests.2
    have lined : Extent.Lined inside extent
        ((ofNodes source children).map fun reading => (reading.label, reading.extent)) := by
      rw [ofNodes_places]
      exact nests.1
    have within : ∀ child ∈ ofNodes source children, inside child.extent extent :=
      fun child member => lined.mem (List.mem_map_of_mem member)
    rw [ofNode]
    refine ⟨fun host => ofChildren_places nesting spelled (fun child member => (placed child member).places) within rfl,
      ?_⟩
    obtain ⟨entries, same, items⟩ := items_ofChildren source (.node label extent children) (ofNodes source children)
    rw [items]
    rw [← same, List.map_map] at lined
    exact itemsAmong_placed nesting (fun entry member => placed entry.1 (same ▸ List.mem_map_of_mem member)) lined

theorem ofNodes_placed (nesting : Extent.IsNesting inside) (spelled : ∀ extent, spells (string source extent) extent) :
    ∀ {nodes : List Node}, Node.AllNest inside nodes → ∀ child ∈ ofNodes source nodes, child.Placed inside spells
  | [], _ => by simp [ofNodes]
  | node :: rest, nests => by
    intro child member
    rw [ofNodes] at member
    rcases List.mem_cons.mp member with rfl | member
    · exact ofNode_placed nesting spelled nests.1
    · exact ofNodes_placed nesting spelled nests.2 child member

end

end Reading

/-- The top-level constructs of a nested tree lie as the tree says, and a name is the text of its node. -/
theorem itemsOf_placed {inside : Extent → Extent → Prop} (nesting : Extent.IsNesting inside)
    {spells : String → Extent → Prop} {source : List Char}
    (spelled : ∀ extent, spells (Reading.string source extent) extent) {tree : Node} (nests : tree.Nests inside) :
    ∀ item ∈ itemsOf source tree, item.Placed inside spells :=
  (Reading.ofNode_placed nesting spelled nests).items

theorem itemsOf_spelled (source : List Char) (tree : Node) :
    ∀ item ∈ itemsOf source tree, item.Placed Extent.Anywhere (Reading.Spells source) :=
  itemsOf_placed ⟨fun _ => trivial, fun _ _ => trivial⟩ (fun _ => rfl) (Node.nests_of_forall (fun _ _ => trivial) tree)

end Surface

end Excerpt
