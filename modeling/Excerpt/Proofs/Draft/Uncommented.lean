import Excerpt.Proofs.Draft.Comments
import Excerpt.Proofs.Draft.Files
import Excerpt.Proofs.Draft.Written
import Excerpt.Proofs.Surface.Placement

/-!
Units without their comments. A program does not depend on them unless a comment stands where the reading looks at a
neighbour.
-/

namespace Excerpt

open Surface Drafting

namespace Node

mutual

def withoutComments : Node → Node
  | .node label extent children => .node label extent (dropComments children)

def dropComments : List Node → List Node
  | [] => []
  | first :: rest =>
    if first.kind = "comment" then dropComments rest else first.withoutComments :: dropComments rest

end

mutual

def everywhere (check : Node → Bool) : Node → Bool
  | .node label extent children => check (.node label extent children) && allEverywhere check children

def allEverywhere (check : Node → Bool) : List Node → Bool
  | [] => true
  | first :: rest => first.everywhere check && allEverywhere check rest

end

/-- A comment fills no field, and its text starts with a slash. -/
def isPlainComment (source : List Char) (node : Node) : Bool :=
  node.label.field.isNone && (Reading.chars source node.extent).head? == some '/'

/-- A comment is plain, and no comment hides the declarator in parentheses. -/
def hidesNothing (source : List Char) (node : Node) : Bool :=
  (node.kind != "comment" || node.isPlainComment source) &&
    (!Reading.isDeclaratorGroup node.kind || Reading.showsDeclarator (node.children.map label))

/-- Among siblings of these kinds, no comment parts a tag from its semicolon. -/
def semicolonsFollow : List String → Bool
  | [] => true
  | kind :: rest =>
    !(Reading.isTagSpecifier kind && rest.head? == some "comment" &&
      (rest.dropWhile (· == "comment")).head? == some ";") && semicolonsFollow rest

mutual

/-- No comment parts a tag at the top level from its semicolon. -/
def keepsSemicolons : Node → Bool
  | .node _ _ children => semicolonsFollow (children.map kind) && groupsKeepSemicolons children

def groupsKeepSemicolons : List Node → Bool
  | [] => true
  | first :: rest => (!Reading.isConditional first.kind || first.keepsSemicolons) && groupsKeepSemicolons rest

end

theorem withoutComments_label (node : Node) : node.withoutComments.label = node.label := by
  cases node
  rfl

theorem withoutComments_extent (node : Node) : node.withoutComments.extent = node.extent := by
  cases node
  rfl

section Comments

variable {source : List Char} {nodes : List Node}

theorem check_of_everywhere {check : Node → Bool} {node : Node} (all : node.everywhere check = true) :
    check node = true := by
  cases node
  rw [everywhere, Bool.and_eq_true] at all
  exact all.1

theorem everywhere_of_mem {check : Node → Bool} {node : Node} (all : allEverywhere check nodes = true)
    (member : node ∈ nodes) : node.everywhere check = true := by
  induction nodes with
  | nil => cases member
  | cons first rest ih =>
    rw [allEverywhere, Bool.and_eq_true] at all
    rcases List.mem_cons.mp member with rfl | inside
    · exact all.1
    · exact ih all.2 inside

theorem isPlainComment_of_everywhere {node : Node} (apart : node.everywhere (hidesNothing source) = true)
    (comment : node.kind = "comment") : node.isPlainComment source = true := by
  have here := check_of_everywhere apart
  simp only [hidesNothing, comment, bne_self_eq_false, Bool.false_or, Bool.and_eq_true] at here
  exact here.1

theorem not_param_of_isPlainComment {node : Node} (plain : node.isPlainComment source = true) :
    (Reading.string source node.extent == "..." ||
      (Reading.string source node.extent).toList.all Token.isIdentifierChar) = false := by
  rw [isPlainComment, Bool.and_eq_true, beq_iff_eq] at plain
  obtain ⟨rest, text⟩ := List.head?_eq_some_iff.mp plain.2
  have different : String.ofList ('/' :: rest) ≠ "..." := by
    intro same
    have start := congrArg (·.toList.head?) same
    simp only [String.toList_ofList, List.head?_cons] at start
    exact absurd start (by decide)
  have slash : Token.isIdentifierChar '/' = false := by decide
  rw [Reading.string, text, Bool.or_eq_false_iff, String.toList_ofList, List.all_cons, slash]
  exact ⟨beq_eq_false_iff_ne.mpr different, rfl⟩

theorem find?_dropComments (field : String) (apart : allEverywhere (hidesNothing source) nodes = true) :
    (dropComments nodes).find? (fun child => child.label.field == some field) =
      (nodes.find? fun child => child.label.field == some field).map withoutComments := by
  induction nodes with
  | nil => rfl
  | cons first rest ih =>
    rw [allEverywhere, Bool.and_eq_true] at apart
    rw [dropComments]
    split
    case isTrue comment =>
      have plain := isPlainComment_of_everywhere apart.1 comment
      rw [isPlainComment, Bool.and_eq_true, Option.isNone_iff_eq_none] at plain
      rw [ih apart.2, List.find?_cons_of_neg (by simp [plain.1])]
    case isFalse =>
      rw [List.find?_cons, List.find?_cons, withoutComments_label, ih apart.2]
      split <;> rfl

theorem macroParams_withoutComments {list : Node} (apart : list.everywhere (hidesNothing source) = true) :
    Reading.macroParams source list.withoutComments = Reading.macroParams source list := by
  obtain ⟨label, extent, nodes⟩ := list
  rw [everywhere, Bool.and_eq_true] at apart
  have inside := apart.2
  simp only [Reading.macroParams, withoutComments, children]
  clear apart
  induction nodes with
  | nil => rfl
  | cons first rest ih =>
    rw [allEverywhere, Bool.and_eq_true] at inside
    rw [dropComments]
    split
    case isTrue comment =>
      have dropped := not_param_of_isPlainComment (isPlainComment_of_everywhere inside.1 comment)
      rw [ih inside.2, List.map_cons, List.filter_cons_of_neg (by rw [dropped]; exact Bool.false_ne_true)]
    case isFalse =>
      rw [List.map_cons, List.map_cons, List.filter_cons, List.filter_cons, withoutComments_extent, ih inside.2]

end Comments

end Node

namespace Surface.Reading

variable {source : List Char}

theorem ofNode_isComment {node : Node} (comment : node.kind = "comment") (plain : node.isPlainComment source = true) :
    (ofNode source node).IsComment := by
  obtain ⟨⟨field, isNamed, kind⟩, extent, children⟩ := node
  rw [Node.isPlainComment, Bool.and_eq_true, Option.isNone_iff_eq_none] at plain
  obtain rfl : kind = "comment" := comment
  have line : isConditionalLine "comment" = false := by decide
  rw [ofNode, ofChildren]
  constructor
  case field => exact plain.1
  case fields => simp [fieldsOf, Node.label, line]
  case enumerators => simp [enumeratorsOf, Node.label, line]
  all_goals rfl

theorem ofNodes_labels (nodes : List Node) : (ofNodes source nodes).map (·.label) = nodes.map Node.label := by
  have places := congrArg (List.map Prod.fst) (ofNodes_places source nodes)
  rwa [List.map_map, List.map_map] at places

theorem macroParams_dropComments {label : Label} {extent : Extent} {children : List Node}
    (apart : Node.allEverywhere (Node.hidesNothing source) children = true) :
    ((Node.node label extent (Node.dropComments children)).child? "parameters").map (macroParams source) =
      ((Node.node label extent children).child? "parameters").map (macroParams source) := by
  rw [Node.child?, Node.child?, Node.children, Node.children, Node.find?_dropComments _ apart, Option.map_map]
  cases found : children.find? fun child => child.label.field == some "parameters" with
  | none => rfl
  | some list =>
    have inside := Node.everywhere_of_mem apart (List.mem_of_find?_eq_some found)
    exact congrArg some (Node.macroParams_withoutComments inside)

theorem showsDeclarator_of_hidesNothing {node : Node} (apart : node.hidesNothing source = true)
    (group : isDeclaratorGroup node.kind = true) :
    showsDeclarator ((ofNodes source node.children).map (·.label)) = true := by
  rw [ofNodes_labels]
  simpa [Node.hidesNothing, group] using (Bool.and_eq_true_iff.mp apart).2

mutual

theorem ofNode_alike : ∀ {node : Node}, node.everywhere (Node.hidesNothing source) = true →
    (ofNode source node).Alike (ofNode source node.withoutComments)
  | .node label extent children, apart => by
    rw [Node.everywhere, Bool.and_eq_true] at apart
    rw [Node.withoutComments, ofNode, ofNode]
    exact ofChildren_alike (ofNodes_skims apart.2) rfl rfl (macroParams_dropComments apart.2).symm
      (showsDeclarator_of_hidesNothing apart.1)

theorem ofNodes_skims : ∀ {nodes : List Node}, Node.allEverywhere (Node.hidesNothing source) nodes = true →
    Skims IsComment Kept (ofNodes source nodes) (ofNodes source (Node.dropComments nodes))
  | [], _ => .nil
  | node :: rest, apart => by
    rw [Node.allEverywhere, Bool.and_eq_true] at apart
    rw [ofNodes, Node.dropComments]
    split
    case isTrue comment =>
      exact .skip (ofNode_isComment comment (Node.isPlainComment_of_everywhere apart.1 comment)) (ofNodes_skims apart.2)
    case isFalse other =>
      rw [ofNodes]
      exact .keep ⟨by rwa [ofNode_label], ofNode_alike apart.1⟩ (ofNodes_skims apart.2)

end

structure Laid (first second : Reading) : Prop where
  kind : first.label.kind ≠ "comment"
  label : first.label = second.label
  extent : first.extent = second.extent
  items : isConditional first.label.kind = true → first.items.map (·.extent) = second.items.map (·.extent)

section Extents

variable {marked rest : List (Reading × Bool)}

theorem head?_kind (skims : Skims (fun mark => mark.1.IsComment) (Marked Laid) marked rest) :
    rest.head?.map (·.1.label.kind) = ((marked.map (·.1.label.kind)).dropWhile (· == "comment")).head? := by
  induction skims with
  | nil => rfl
  | skip gone _ ih => rw [List.map_cons, gone.kind, List.dropWhile_cons_of_pos rfl, ih]
  | keep mark _ _ =>
    rw [List.map_cons, List.dropWhile_cons_of_neg (by simpa using mark.here.kind), List.head?_cons, List.head?_cons,
      Option.map_some, mark.here.label]

theorem itemExtent_of_ne {reading : Reading} {next : Option Reading}
    (other : isTagSpecifier reading.label.kind = true → next.map (·.label.kind) ≠ some ";") :
    itemExtent reading next = reading.extent := by
  rcases itemExtent_cases reading next with same | ⟨tag, after, rfl, semicolon, -⟩
  · exact same
  · exact absurd (congrArg some semicolon) (other tag)

/-- A tag takes the semicolon behind it along, so no comment may stand between the two. -/
theorem itemExtent_eq {first second : Reading} (laid : first.Laid second)
    (skims : Skims (fun mark => mark.1.IsComment) (Marked Laid) marked rest)
    (semicolons : Node.semicolonsFollow (first.label.kind :: marked.map (·.1.label.kind)) = true) :
    itemExtent first (marked.head?.map (·.1)) = itemExtent second (rest.head?.map (·.1)) := by
  have behind := head?_kind skims
  cases skims with
  | nil => exact laid.extent
  | keep mark _ =>
    simp only [List.head?_cons, Option.map_some, itemExtent, laid.label, laid.extent, mark.here.label, mark.here.extent]
  | @skip comment list _ gone _ =>
    have atComment : itemExtent first (((comment :: list).head?).map (·.1)) = first.extent := by
      apply itemExtent_of_ne
      simp [gone.kind]
    have behindComment : itemExtent second (rest.head?.map (·.1)) = second.extent := by
      apply itemExtent_of_ne
      intro tag semicolon
      rw [Option.map_map] at semicolon
      rw [← laid.label] at tag
      rw [Node.semicolonsFollow, ← behind, tag, List.map_cons, List.head?_cons, gone.kind] at semicolons
      have parted : (rest.head?.map (·.1.label.kind) == some ";") = true := beq_iff_eq.mpr semicolon
      simp [parted] at semicolons
    rw [atComment, behindComment, laid.extent]

theorem itemsAmong_extents (skims : Skims (fun mark => mark.1.IsComment) (Marked Laid) marked rest)
    (semicolons : Node.semicolonsFollow (marked.map (·.1.label.kind)) = true) :
    (itemsAmong marked).map (·.extent) = (itemsAmong rest).map (·.extent) := by
  induction skims with
  | nil => rfl
  | @skip comment _ _ gone _ ih =>
    obtain ⟨reading, counts⟩ := comment
    have kind : reading.label.kind = "comment" := gone.kind
    rw [List.map_cons, Node.semicolonsFollow, Bool.and_eq_true] at semicolons
    rw [itemsAmong, if_pos (by simp [kind]), List.nil_append]
    exact ih semicolons.2
  | @keep first second _ _ mark skims ih =>
    obtain ⟨reading, counts⟩ := first
    obtain ⟨other, otherCounts⟩ := second
    obtain ⟨laid, rfl⟩ := mark
    have extent := itemExtent_eq laid skims semicolons
    rw [List.map_cons, Node.semicolonsFollow, Bool.and_eq_true] at semicolons
    rw [itemsAmong, itemsAmong, List.map_append, List.map_append, ih semicolons.2]
    congr 1
    have items := laid.items
    have label : reading.label = other.label := laid.label
    simp only [label] at items ⊢
    split
    · rfl
    split
    case isTrue group => exact items group
    case isFalse => exact congrArg (fun extent => [extent]) extent

theorem ofChildren_extents {node other : Node} {children others : List Reading} (label : node.label = other.label)
    (skims : Skims IsComment Laid children others)
    (semicolons : Node.semicolonsFollow (children.map (·.label.kind)) = true) :
    (ofChildren source node children).items.map (·.extent) = (ofChildren source other others).items.map (·.extent) := by
  rw [ofChildren, ofChildren, ← label]
  dsimp only
  by_cases group : isConditional node.label.kind = true
  · rw [if_pos group, if_pos group]
    apply itemsAmong_extents (markBranches_skims (fun _ _ laid => laid.label) skims)
    rw [← map_markBranches children, List.map_map] at semicolons
    exact semicolons
  · rw [if_neg group, if_neg group]
    apply itemsAmong_extents (markAll_skims skims)
    rw [List.map_map]
    exact semicolons

end Extents

theorem ofNodes_kinds (source : List Char) (nodes : List Node) :
    (ofNodes source nodes).map (·.label.kind) = nodes.map Node.kind := by
  calc (ofNodes source nodes).map (·.label.kind) = ((ofNodes source nodes).map (·.label)).map (·.kind) := by
        rw [List.map_map]
        rfl
    _ = nodes.map Node.kind := by
        rw [ofNodes_labels, List.map_map]
        rfl

mutual

theorem ofNode_extents : ∀ {node : Node}, node.everywhere (Node.hidesNothing source) = true →
    node.keepsSemicolons = true →
      (ofNode source node).items.map (·.extent) = (ofNode source node.withoutComments).items.map (·.extent)
  | .node label extent children, apart, semicolons => by
    rw [Node.everywhere, Bool.and_eq_true] at apart
    rw [Node.keepsSemicolons, Bool.and_eq_true] at semicolons
    rw [← ofNodes_kinds source] at semicolons
    rw [Node.withoutComments, ofNode, ofNode]
    exact ofChildren_extents rfl (ofNodes_laid apart.2 semicolons.2) semicolons.1

theorem ofNodes_laid : ∀ {nodes : List Node}, Node.allEverywhere (Node.hidesNothing source) nodes = true →
    Node.groupsKeepSemicolons nodes = true →
      Skims IsComment Laid (ofNodes source nodes) (ofNodes source (Node.dropComments nodes))
  | [], _, _ => .nil
  | node :: rest, apart, semicolons => by
    rw [Node.allEverywhere, Bool.and_eq_true] at apart
    rw [Node.groupsKeepSemicolons, Bool.and_eq_true] at semicolons
    have others := ofNodes_laid apart.2 semicolons.2
    rw [ofNodes, Node.dropComments]
    split
    case isTrue comment =>
      exact .skip (ofNode_isComment comment (Node.isPlainComment_of_everywhere apart.1 comment)) others
    case isFalse other =>
      rw [ofNodes]
      have alike := ofNode_alike apart.1
      refine .keep ⟨by rwa [ofNode_label], alike.label, alike.extent, ?_⟩ others
      intro group
      rw [ofNode_label] at group
      have inside : node.keepsSemicolons = true := by simpa [Node.kind, group] using semicolons.1
      exact ofNode_extents apart.1 inside

end

end Surface.Reading

def Document.withoutComments (document : Document) : Document :=
  { document with tree := document.tree.withoutComments }

/-- No comment in the tree stands where the reading looks at a neighbour. -/
def Document.commentsApart (document : Document) : Bool :=
  document.tree.everywhere (Node.hidesNothing document.text) && document.tree.keepsSemicolons

def FileContent.withoutComments : FileContent → FileContent
  | .document source => .document source.withoutComments
  | content => content

def FileContent.commentsApart : FileContent → Bool
  | .document source => source.commentsApart
  | _ => true

namespace FileSystem

def withoutComments (set : FileSystem) : FileSystem :=
  { set with files := set.files.map fun file => (file.1, file.2.withoutComments) }

def commentsApart (set : FileSystem) : Bool :=
  set.files.all (·.2.commentsApart)

variable (set : FileSystem)

theorem content?_withoutComments (place : Place) :
    set.withoutComments.content? place = (set.content? place).map FileContent.withoutComments := by
  obtain ⟨files, directory⟩ := set
  simp only [content?, withoutComments]
  induction files with
  | nil => rfl
  | cons file rest ih =>
    rw [List.map_cons, List.lookup_cons, List.lookup_cons, ih]
    split <;> rfl

theorem isDirectory_withoutComments (place : Place) :
    set.withoutComments.isDirectory place = set.isDirectory place := by
  rw [isDirectory, isDirectory, withoutComments, List.any_map]
  rfl

theorem followWith_withoutComments (jump : Place → List String → Except FileError Place) (place : Place)
    (segments : List String) :
    set.withoutComments.followWith jump place segments = set.followWith jump place segments := by
  induction segments generalizing place with
  | nil => rfl
  | cons segment rest ih =>
    simp only [followWith, isDirectory_withoutComments, content?_withoutComments, ih]
    cases set.content? (place ++ [segment]) with
    | none => rfl
    | some content => cases content <;> rfl

theorem follow_withoutComments (links : Nat) : set.withoutComments.follow links = set.follow links := by
  induction links with
  | zero =>
    funext place segments
    exact set.followWith_withoutComments _ place segments
  | succ links ih =>
    funext place segments
    rw [follow, follow, ih, followWith_withoutComments]

theorem locate_withoutComments (path : String) : set.withoutComments.locate path = set.locate path := by
  rw [locate, locate, follow_withoutComments]
  rfl

theorem isFile_withoutComments (path : String) : set.withoutComments.isFile path = set.isFile path := by
  simp only [isFile, locate_withoutComments, content?_withoutComments, Option.isSome_map]

theorem read_withoutComments (path : String) :
    set.withoutComments.read path = (set.read path).map Document.withoutComments := by
  rw [read, read, locate_withoutComments]
  cases set.locate path with
  | error cause => rfl
  | ok place =>
    dsimp only
    rw [content?_withoutComments]
    cases set.content? place with
    | none => rfl
    | some content => cases content <;> rfl

theorem commentsApart_of_mem {set : FileSystem} (apart : set.commentsApart = true) {document : Document}
    (member : ∃ place, (place, FileContent.document document) ∈ set.files) : document.commentsApart = true := by
  obtain ⟨place, listed⟩ := member
  exact List.all_eq_true.mp apart _ listed

end FileSystem

theorem SearchPath.read_withoutComments (search : SearchPath) (set : FileSystem) (header : String)
    (includer : Option String) : search.read set.withoutComments header includer =
      (search.read set header includer).map fun found => (found.1, found.2.withoutComments) := by
  have same : set.withoutComments.isFile = set.isFile := funext set.isFile_withoutComments
  rw [read, read, resolve?, resolve?, same]
  cases (search.candidates header includer).find? set.isFile with
  | none => rfl
  | some path =>
    dsimp only
    rw [FileSystem.read_withoutComments]
    cases set.read path <;> rfl

namespace Drafting

section Entering

variable {files : FileSystem} {search : SearchPath}
  {enter other : String → Document → Option IncludeId → Drafting (Option FileId)}

theorem enterItems_of_alike {items others : List Surface.Item}
    (forms : List.Forall₂ (fun item other => item.form.Alike other.form) items others)
    (extents : items.map (·.extent) = others.map (·.extent)) (file : FileId) :
    enterItems files search enter file items = enterItems files search enter file others := by
  induction forms with
  | nil => rfl
  | @cons item other _ _ head _ ih =>
    rw [List.map_cons, List.map_cons, List.cons_eq_cons] at extents
    have here : enterItem files search enter file item = enterItem files search enter file other := by
      simp only [enterItem, extents.1, head files search enter]
    rw [enterItems, enterItems, here, ih extents.2]

/-- Two ways of entering a header do the same, the other one on the header without its comments. -/
def AgreesOn (enter other : String → Document → Option IncludeId → Drafting (Option FileId)) : Prop :=
  ∀ path document includedBy, document.commentsApart = true →
    other path document.withoutComments includedBy = enter path document includedBy

/-- A header is found at the same place, and its document has lost its comments. -/
theorem enterInclusion_withoutComments (apart : files.commentsApart = true) (agrees : AgreesOn enter other)
    (header : String) (system : Bool) :
    enterInclusion files.withoutComments search other header system =
      enterInclusion files search enter header system := by
  rw [enterInclusion, enterInclusion]
  apply bind_congr
  intro before
  dsimp only
  rw [SearchPath.read_withoutComments]
  cases system with
  | true => simp only [if_true]
  | false =>
    cases read : search.read files header (some (before.program.file before.file).path) with
    | error cause => simp only [Except.map, Except.toOption, Bool.false_eq_true, if_false]
    | ok found =>
      obtain ⟨path, document⟩ := found
      have known := FileSystem.commentsApart_of_mem apart (SearchPath.mem_of_read read)
      have entered := fun includedBy => agrees path document includedBy known
      simp only [Except.map, Except.toOption, Bool.false_eq_true, if_false, Option.map_some,
        FileSystem.locate_withoutComments, entered]

theorem enterForm_withoutComments (apart : files.commentsApart = true) (agrees : AgreesOn enter other) (form : Form) :
    enterForm files.withoutComments search other form = enterForm files search enter form := by
  cases form with
  | inclusion header system => exact enterInclusion_withoutComments apart agrees header system
  | _ => rfl

theorem enterItems_withoutComments (apart : files.commentsApart = true) (agrees : AgreesOn enter other) (file : FileId)
    (items : List Surface.Item) :
    enterItems files.withoutComments search other file items = enterItems files search enter file items := by
  induction items with
  | nil => rfl
  | cons item rest ih =>
    rw [enterItems, enterItems, enterItem, enterItem, enterForm_withoutComments apart agrees, ih]

end Entering

/-- By induction on the depth: files are entered alike when their headers are. -/
theorem enterFile_withoutComments {files : FileSystem} (search : SearchPath) (apart : files.commentsApart = true)
    (depth : Nat) :
    AgreesOn (enterFile files search depth) (enterFile files.withoutComments search depth) := by
  induction depth with
  | zero =>
    intro path document includedBy _
    rfl
  | succ depth ih =>
    intro path document includedBy here
    rw [Document.commentsApart, Bool.and_eq_true] at here
    have forms := (Reading.ofNode_alike here.1).items
    have extents := Reading.ofNode_extents here.1 here.2
    simp only [enterFile, enterItems_withoutComments apart ih, Document.withoutComments, itemsOf,
      enterItems_of_alike forms extents]

end Drafting

namespace Program

theorem ofDocument_withoutComments {files : FileSystem} {document : Document} (apart : files.commentsApart = true)
    (here : document.commentsApart = true) (search : SearchPath) (path : String) :
    ofDocument files.withoutComments search path document.withoutComments = ofDocument files search path document := by
  have depth : files.withoutComments.files.length = files.files.length := List.length_map _
  rw [ofDocument, ofDocument, depth, enterFile_withoutComments search apart _ path document none here]

/-- Without the comments in the trees the program is the same, if no comment stands between a tag and its semicolon or
in front of a declarator in parentheses. -/
theorem ofFile_withoutComments (files : FileSystem) (search : SearchPath) (path : String)
    (apart : files.commentsApart = true) :
    ofFile files.withoutComments search path = ofFile files search path := by
  rw [ofFile, ofFile, FileSystem.isFile_withoutComments, FileSystem.read_withoutComments]
  split
  case isFalse => rfl
  case isTrue =>
    cases read : files.read path with
    | error cause => simp only [Except.map]
    | ok document =>
      have here := FileSystem.commentsApart_of_mem apart (FileSystem.mem_of_read read)
      exact congrArg Except.ok (ofDocument_withoutComments apart here search path)

section Units

open Written

def remarkedUnit : FileSystem :=
  ⟨[(["unit.c"], .document (Written.document
      [("", token "comment" "// unit"), ("\n", Written.inclusion "\"part.h\""), ("", record "s" "x"),
        ("", token "';" ";"), (" ", token "comment" "/* tag */"), ("\n", parenthesized [] "n" ["/* name */"]),
        ("\n", function "f" (spacedCall "g" ["/* call */"] "1"))])),
    (["part.h"], .document (Written.document [("", object "y"), (" ", token "comment" "/* part */")]))], []⟩

set_option maxRecDepth 10000 in
theorem ofFile_remarkedUnit : remarkedUnit.commentsApart = true ∧
    ((ofFile remarkedUnit ⟨[]⟩ "unit.c").toOption.map fun program => (program.decls.size, program.files.size)) =
        some (4, 2) ∧
      ofFile remarkedUnit.withoutComments ⟨[]⟩ "unit.c" = ofFile remarkedUnit ⟨[]⟩ "unit.c" := by
  have apart : remarkedUnit.commentsApart = true := by decide +kernel
  exact ⟨apart, by decide +kernel, ofFile_withoutComments _ _ _ apart⟩

def partedTag : FileSystem :=
  ⟨[(["unit.c"], .document (Written.document
      [("", record "s" "x"), (" ", token "comment" "/* c */"), (" ", token "';" ";")]))], []⟩

def hiddenName : FileSystem :=
  ⟨[(["unit.c"], .document (Written.document [("", parenthesized ["/* c */"] "n" [])]))], []⟩

theorem ofFile_ne_of_image {α : Type} {files : FileSystem} (image : Program → α)
    (different : (ofFile files.withoutComments ⟨[]⟩ "unit.c").toOption.map image ≠
      (ofFile files ⟨[]⟩ "unit.c").toOption.map image) :
    ofFile files.withoutComments ⟨[]⟩ "unit.c" ≠ ofFile files ⟨[]⟩ "unit.c" := by
  intro same
  rw [same] at different
  exact different rfl

set_option maxRecDepth 10000 in
/-- The item of the structure ends at the semicolon only without the comment, and the name is declared only without
it. -/
theorem ofFile_withoutComments_differs :
    ofFile partedTag.withoutComments ⟨[]⟩ "unit.c" ≠ ofFile partedTag ⟨[]⟩ "unit.c" ∧
      ofFile hiddenName.withoutComments ⟨[]⟩ "unit.c" ≠ ofFile hiddenName ⟨[]⟩ "unit.c" :=
  ⟨ofFile_ne_of_image (fun program => (program.item 0).span) (by decide +kernel),
    ofFile_ne_of_image (fun program => program.decls.size) (by decide +kernel)⟩

end Units

end Program

end Excerpt
