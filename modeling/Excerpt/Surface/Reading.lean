import Excerpt.Surface.Basic
import Excerpt.Token

/-!
Reading surface forms off a concrete tree. The same node may be read as an expression, a type or a declarator, so each
node is given its reading in every role at once, and its parent takes the one that it needs.
-/

namespace Excerpt.Surface

/-- What a node is in each role. -/
structure Reading where
  label : Label
  extent : Extent
  expr : Expr
  /-- The expressions of the named children. -/
  parts : List Expr
  type : TypeSpec
  declarator : Declarator
  /-- As a declarator of a declaration, its initializer split off. -/
  initDeclarator : InitDeclarator
  param : Option Param
  /-- The parameters among the children, and whether more may follow them. -/
  params : List Param × Bool
  /-- As a line of a member list. -/
  fields : List FieldDecl
  /-- The members among the children. -/
  members : List FieldDecl
  /-- As a line of an enumerator list. -/
  enumerators : List Enumerator
  /-- The enumerators among the children. -/
  constants : List Enumerator
  form : Form
  /-- The top-level constructs among the children. -/
  items : List Item

namespace Reading

def child? (children : List Reading) (field : String) : Option Reading :=
  children.find? fun child => child.label.field == some field

def named (children : List Reading) : List Reading :=
  children.filter (·.label.named)

/-- Marks the first child that fills a field as not counting. -/
def dismissFirst (field : String) : List (Reading × Bool) → List (Reading × Bool)
  | [] => []
  | (child, counts) :: rest =>
    if child.label.field == some field then (child, false) :: rest
    else (child, counts) :: dismissFirst field rest

/-- Children of a conditional group, each with whether it belongs to a branch. The condition, which fills a field
`condition` or `name`, does not. -/
def markBranches (children : List Reading) : List (Reading × Bool) :=
  dismissFirst "name" (dismissFirst "condition" (children.map fun child => (child, true)))

def branches (children : List Reading) : List Reading :=
  ((markBranches children).filter (·.2)).map (·.1)

/-- Kinds of groups that the preprocessor may leave out. -/
def isConditional (kind : String) : Bool :=
  ["preproc_if", "preproc_ifdef", "preproc_else", "preproc_elif", "preproc_elifdef"].contains kind

/-- Kinds of such groups in a list of members or enumerators. -/
def isConditionalLine (kind : String) : Bool :=
  "preproc_if".toList.isPrefixOf kind.toList || kind == "preproc_else" ||
    "preproc_elif".toList.isPrefixOf kind.toList

/-- Kinds of nodes that refer to no declaration. -/
def isSilent (kind : String) : Bool :=
  ["comment", "string_literal", "concatenated_string", "char_literal", "field_identifier", "statement_identifier",
    "primitive_type", "preproc_def", "preproc_function_def", "preproc_call", "preproc_include"].contains kind

def isTagSpecifier (kind : String) : Bool :=
  ["struct_specifier", "union_specifier", "enum_specifier"].contains kind

def chars (source : List Char) (extent : Extent) : List Char :=
  Text.slice source extent.start extent.stop

def string (source : List Char) (extent : Extent) : String :=
  String.ofList (chars source extent)

def childString? (source : List Char) (children : List Reading) (field : String) : Option String :=
  (child? children field).map fun child => string source child.extent

/-- Storage class and `inline` among the specifiers; of several storage classes the last counts. -/
def specifiers (source : List Char) (children : List Reading) : StorageClass × Bool :=
  (named children).foldl
    (fun found child =>
      if child.label.kind = "storage_class_specifier" then
        match string source child.extent with
        | "static" => (.static, found.2)
        | "extern" => (.external, found.2)
        | "auto" => (.automatic, found.2)
        | "register" => (.register, found.2)
        | "inline" | "__inline" | "__inline__" | "__forceinline" => (found.1, true)
        | _ => found
      else found)
    (.unspecified, false)

/-- Base type of a declaration; it is `int` when none is written. -/
def baseType (children : List Reading) : TypeSpec :=
  ((child? children "type").map (·.type)).getD (.builtin "int")

def spaced (text : List Char) : String :=
  String.ofList (List.intercalate [' '] (Text.words text))

def typeOf (source : List Char) (label : Label) (extent : Extent) (children : List Reading) : TypeSpec :=
  let name := childString? source children "name"
  let record := fun isUnion =>
    match child? children "body" with
    | some body => TypeSpec.record isUnion name extent.start body.members
    | none => .tag (if isUnion then .union else .struct) (name.getD "") extent.start
  match label.kind with
  | "primitive_type" | "sized_type_specifier" => .builtin (spaced (chars source extent))
  | "type_identifier" => .named (string source extent)
  | "struct_specifier" => record false
  | "union_specifier" => record true
  | "enum_specifier" =>
    match child? children "body" with
    | some body => .enumeration name extent.start body.constants
    | none => .tag .enumeration (name.getD "") extent.start
  | "macro_type_specifier" => .unknown (string source extent)
  | _ => .builtin (string source extent)

def declaratorOf (source : List Char) (label : Label) (extent : Extent) (children : List Reading) : Declarator :=
  let inner := ((child? children "declarator").map (·.declarator)).getD .anonymous
  match label.kind with
  | "identifier" | "field_identifier" | "type_identifier" => .name (string source extent) extent
  | "pointer_declarator" | "abstract_pointer_declarator" => .pointer inner
  | "array_declarator" | "abstract_array_declarator" =>
    .array ((child? children "size").map fun size => chars source size.extent) inner
  | "function_declarator" | "abstract_function_declarator" =>
    let (params, variadic) := ((child? children "parameters").map (·.params)).getD ([], false)
    .function params variadic inner
  | "init_declarator" => inner
  | "parenthesized_declarator" | "abstract_parenthesized_declarator" | "attributed_declarator" =>
    (((named children).find? fun child => !"attribute".toList.isPrefixOf child.label.kind.toList).map
      (·.declarator)).getD .anonymous
  | _ => .anonymous

def optionalDeclarator (children : List Reading) : Declarator :=
  ((child? children "declarator").map (·.declarator)).getD .anonymous

def initDeclaratorOf (source : List Char) (label : Label) (extent : Extent) (children : List Reading) :
    InitDeclarator :=
  if label.kind = "init_declarator" then
    match child? children "declarator" with
    | some bare => .mk extent bare.extent bare.declarator (((child? children "value").map (·.expr)).getD .empty)
    | none => .mk extent extent .anonymous .empty
  else .mk extent extent (declaratorOf source label extent children) .empty

def paramOf (label : Label) (extent : Extent) (children : List Reading) : Option Param :=
  if label.kind = "parameter_declaration" then
    some (.mk extent (baseType children) (optionalDeclarator children))
  else none

def childrenAt (children : List Reading) (field : String) : List Reading :=
  children.filter fun child => child.label.field == some field

def fieldsOf (label : Label) (extent : Extent) (children : List Reading) : List FieldDecl :=
  if isConditionalLine label.kind then (named (branches children)).flatMap (·.fields)
  else if label.kind = "field_declaration" then
    [.mk extent (baseType children) ((childrenAt children "declarator").map (·.declarator))]
  else []

def enumeratorsOf (source : List Char) (label : Label) (children : List Reading) : List Enumerator :=
  if isConditionalLine label.kind then (named (branches children)).flatMap (·.enumerators)
  else if label.kind = "enumerator" then
    match child? children "name" with
    | some name =>
      let value := child? children "value"
      [.mk (string source name.extent) name.extent.start (value.map fun value => chars source value.extent)
        ((value.map (·.expr)).getD .empty)]
    | none => []
  else []

def declarationOf (source : List Char) (label : Label) (extent : Extent) (children : List Reading) : Declaration :=
  match label.kind with
  | "declaration" =>
    let (storage, isInline) := specifiers source children
    .objects storage isInline (baseType children) ((childrenAt children "declarator").map (·.initDeclarator))
  | "type_definition" =>
    .typedefs (baseType children)
      ((childrenAt children "declarator").map fun child => .mk child.extent child.extent child.declarator .empty)
  | _ => .tag (typeOf source label extent children)

def exprOf (source : List Char) (label : Label) (extent : Extent) (children : List Reading) : Expr :=
  let parts := (named children).map (·.expr)
  let at? := fun field => ((child? children field).map (·.expr)).getD .empty
  if isSilent label.kind then .empty
  else if isConditional label.kind then .group extent ((named (branches children)).map (·.expr))
  else if isTagSpecifier label.kind then .declaration extent (declarationOf source label extent children)
  else
    match label.kind with
    | "compound_statement" | "for_statement" => .scope extent parts
    | "declaration" | "type_definition" => .declaration extent (declarationOf source label extent children)
    | "identifier" => .name (string source extent) extent
    | "call_expression" =>
      .call extent (at? "function") (((child? children "arguments").map (·.parts)).getD [])
    | "field_expression" => .member extent (at? "argument")
    | "type_descriptor" => .typeName extent (baseType children) (optionalDeclarator children)
    | "number_literal" => .number (chars source extent) extent
    | _ => .other extent parts

/-- Header name of an inclusion without its delimiters, and whether they are angle brackets. -/
def headerOf (raw : List Char) : String × Bool :=
  match raw with
  | '<' :: rest => (String.ofList (Text.dropEndWhile (· == '>') rest), true)
  | _ => (String.ofList (Text.dropEndWhile (· == '"') (raw.dropWhile (· == '"'))), false)

/-- Names in a parameter list: the pieces made of identifier characters, and the ellipsis. -/
def macroParams (source : List Char) (list : Node) : List String :=
  (list.children.map fun child => string source child.extent).filter
    fun name => name == "..." || name.toList.all Token.isIdentifierChar

/-- Form of a top-level node. The lists of macro parameters are read off the nodes themselves. -/
def formOf (source : List Char) (node : Node) (children : List Reading) : Form :=
  let field := fun name => ((child? children name).map fun child => chars source child.extent)
  match node.kind with
  | "preproc_include" =>
    let (header, system) := headerOf (Text.trim ((field "path").getD []))
    .inclusion header system
  | "preproc_def" | "preproc_function_def" =>
    .define ((childString? source children "name").getD "") ((node.child? "parameters").map (macroParams source))
      (Text.trim (Text.spliceLines ((field "value").getD [])))
  | "preproc_call" =>
    match field "directive", field "argument" with
    | some directive, some argument =>
      if String.ofList (directive.filter (!Text.isBlank ·)) = "#undef" then
        .undef (String.ofList (Text.trim argument))
      else .directive
    | _, _ => .directive
  | "function_definition" =>
    let (storage, isInline) := specifiers source children
    let declarator := child? children "declarator"
    .function storage isInline (baseType children) ((declarator.map (·.declarator)).getD .anonymous)
      ((declarator.map (·.extent)).getD node.extent) (((child? children "body").map (·.expr)).getD .empty)
  | "declaration" | "type_definition" | "struct_specifier" | "union_specifier" | "enum_specifier" =>
    .declaration (declarationOf source node.label node.extent children)
  | _ => .other

/-- Extent of a top-level construct: a tag takes the semicolon behind it along. -/
def itemExtent (reading : Reading) (next : Option Reading) : Extent :=
  match next with
  | some after =>
    if isTagSpecifier reading.label.kind && after.label.kind == ";" then
      ⟨reading.extent.start, after.extent.stop⟩
    else reading.extent
  | none => reading.extent

def itemsAmong : List (Reading × Bool) → List Item
  | [] => []
  | (reading, counts) :: rest =>
    let here :=
      if !reading.label.named || !counts || reading.label.kind = "comment" then []
      else if isConditional reading.label.kind then reading.items
      else [⟨itemExtent reading (rest.head?.map (·.1)), reading.form⟩]
    here ++ itemsAmong rest

def ofChildren (source : List Char) (node : Node) (children : List Reading) : Reading :=
  let label := node.label
  let extent := node.extent
  { label
    extent
    expr := exprOf source label extent children
    parts := (named children).map (·.expr)
    type := typeOf source label extent children
    declarator := declaratorOf source label extent children
    initDeclarator := initDeclaratorOf source label extent children
    param := paramOf label extent children
    params := ((named children).filterMap (·.param), (named children).any (·.label.kind == "variadic_parameter"))
    fields := fieldsOf label extent children
    members := (named children).flatMap (·.fields)
    enumerators := enumeratorsOf source label children
    constants := (named children).flatMap (·.enumerators)
    form := formOf source node children
    items :=
      itemsAmong
        (if isConditional label.kind then markBranches children else children.map fun child => (child, true)) }

mutual

def ofNode (source : List Char) : Node → Reading
  | .node label extent children => ofChildren source (.node label extent children) (ofNodes source children)

def ofNodes (source : List Char) : List Node → List Reading
  | [] => []
  | node :: rest => ofNode source node :: ofNodes source rest

end

end Reading

def itemsOf (source : List Char) (tree : Node) : List Item :=
  (Reading.ofNode source tree).items

end Excerpt.Surface
