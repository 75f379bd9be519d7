import Excerpt.Proofs.Draft.Agreement

/-!
Comments among the children of a node. A comment refers to nothing and fills no field, so what a node reads off its
children is the same without it.
-/

namespace Excerpt.Surface

open Drafting

/-- The second list is the first one without some of its skipped elements, up to alike elements. -/
inductive Skims {α : Type} (skipped : α → Prop) (alike : α → α → Prop) : List α → List α → Prop
  | nil : Skims skipped alike [] []
  | skip {first : α} {list other : List α} (absent : skipped first) (rest : Skims skipped alike list other) :
      Skims skipped alike (first :: list) other
  | keep {first second : α} {list other : List α} (here : alike first second) (rest : Skims skipped alike list other) :
      Skims skipped alike (first :: list) (second :: other)

namespace Skims

variable {α β : Type} {skipped : α → Prop} {alike : α → α → Prop} {list other : List α}
  {skippedImage : β → Prop} {alikeImage : β → β → Prop}

theorem map (skims : Skims skipped alike list other) (image : α → β)
    (absent : ∀ element, skipped element → skippedImage (image element))
    (present : ∀ first second, alike first second → alikeImage (image first) (image second)) :
    Skims skippedImage alikeImage (list.map image) (other.map image) := by
  induction skims with
  | nil => exact .nil
  | skip gone _ ih => exact .skip (absent _ gone) ih
  | keep here _ ih => exact .keep (present _ _ here) ih

theorem filter (skims : Skims skipped alike list other) (holds : α → Bool)
    (same : ∀ first second, alike first second → holds first = holds second) :
    Skims skipped alike (list.filter holds) (other.filter holds) := by
  induction skims with
  | nil => exact .nil
  | skip gone _ ih =>
    rw [List.filter_cons]
    split
    · exact .skip gone ih
    · exact ih
  | keep here _ ih =>
    rw [List.filter_cons, List.filter_cons, same _ _ here]
    split
    · exact .keep here ih
    · exact ih

theorem find? (skims : Skims skipped alike list other) {holds : α → Bool}
    (never : ∀ element, skipped element → holds element = false)
    (same : ∀ first second, alike first second → holds first = holds second) :
    Option.Rel alike (list.find? holds) (other.find? holds) := by
  induction skims with
  | nil => exact .none
  | skip gone _ ih => rwa [List.find?_cons_of_neg (by simp [never _ gone])]
  | keep here _ ih =>
    rw [List.find?_cons, List.find?_cons, same _ _ here]
    split
    · exact .some here
    · exact ih

theorem flatMap (skims : Skims skipped alike list other) {image : α → List β}
    (absent : ∀ element, skipped element → image element = [])
    (present : ∀ first second, alike first second → List.Forall₂ alikeImage (image first) (image second)) :
    List.Forall₂ alikeImage (list.flatMap image) (other.flatMap image) := by
  induction skims with
  | nil => exact .nil
  | skip gone _ ih => rwa [List.flatMap_cons, absent _ gone, List.nil_append]
  | keep here _ ih => exact List.rel_append (present _ _ here) ih

end Skims

section Options

variable {α β : Type} {alike : α → α → Prop} {first second : Option α} {image : α → β}

theorem rel_cases (rel : Option.Rel alike first second) : first = none ∧ second = none ∨
    ∃ value other, first = some value ∧ second = some other ∧ alike value other := by
  cases rel with
  | none => exact .inl ⟨rfl, rfl⟩
  | some here => exact .inr ⟨_, _, rfl, rfl, here⟩

theorem map_eq_of_rel (rel : Option.Rel alike first second)
    (same : ∀ value other, alike value other → image value = image other) : first.map image = second.map image := by
  cases rel with
  | none => rfl
  | some here => exact congrArg some (same _ _ here)

theorem getD_of_rel {alikeImage : β → β → Prop} {absent : β} (rel : Option.Rel alike first second)
    (base : alikeImage absent absent)
    (step : ∀ value other, alike value other → alikeImage (image value) (image other)) :
    alikeImage ((first.map image).getD absent) ((second.map image).getD absent) := by
  cases rel with
  | none => exact base
  | some here => exact step _ _ here

end Options

namespace Reading

structure Alike (first second : Reading) : Prop where
  label : first.label = second.label
  extent : first.extent = second.extent
  expr : first.expr.Alike second.expr
  parts : enterExprs first.parts = enterExprs second.parts
  type : first.type.Alike second.type
  declarator : first.declarator.Alike second.declarator
  initDeclarator : first.initDeclarator.Alike second.initDeclarator
  param : List.Forall₂ Param.Alike first.param.toList second.param.toList
  params : List.Forall₂ Param.Alike first.params.1 second.params.1
  variadic : first.params.2 = second.params.2
  fields : List.Forall₂ FieldDecl.Alike first.fields second.fields
  members : List.Forall₂ FieldDecl.Alike first.members second.members
  enumerators : List.Forall₂ Enumerator.Alike first.enumerators second.enumerators
  constants : List.Forall₂ Enumerator.Alike first.constants second.constants
  form : first.form.Alike second.form
  items : List.Forall₂ (fun item other => item.form.Alike other.form) first.items second.items

structure IsComment (reading : Reading) : Prop where
  kind : reading.label.kind = "comment"
  field : reading.label.field = none
  expr : reading.expr = .empty
  declarator : reading.declarator = .anonymous
  param : reading.param = none
  fields : reading.fields = []
  enumerators : reading.enumerators = []

structure Kept (first second : Reading) : Prop where
  kind : first.label.kind ≠ "comment"
  alike : first.Alike second

section Children

variable {α : Type} {source : List Char} {children others : List Reading}

/-- Kinds of nodes whose declarator stands among their children without a field. -/
def isDeclaratorGroup (kind : String) : Bool :=
  ["parenthesized_declarator", "abstract_parenthesized_declarator", "attributed_declarator"].contains kind

/-- A child that is taken for the declarator in such a node, if it is the first one. -/
def mayDeclare (label : Label) : Bool :=
  label.named && !"attribute".toList.isPrefixOf label.kind.toList

/-- No comment is taken for the declarator while there is one. -/
def showsDeclarator (labels : List Label) : Bool :=
  (labels.find? mayDeclare).all (·.kind != "comment") ||
    labels.all fun label => !mayDeclare label || label.kind == "comment"

theorem find?_named (readings : List Reading) :
    ((named readings).find? fun child => !"attribute".toList.isPrefixOf child.label.kind.toList) =
      readings.find? (mayDeclare ·.label) := by
  rw [named, List.find?_filter]
  simp only [mayDeclare, Bool.decide_and, Bool.decide_eq_true]

theorem fieldTest_of_isComment {reading : Reading} (comment : reading.IsComment) (field : String) :
    (reading.label.field == some field) = false := by
  rw [comment.field]
  rfl

theorem fieldTest_of_kept {first second : Reading} (kept : first.Kept second) (field : String) :
    (first.label.field == some field) = (second.label.field == some field) := by
  rw [kept.alike.label]

variable (skims : Skims IsComment Kept children others)
include skims

theorem named_skims : Skims IsComment Kept (named children) (named others) := by
  apply skims.filter (·.label.named)
  intro first second kept
  rw [kept.alike.label]

theorem child?_kept (field : String) :
    Option.Rel Kept (child? children field) (child? others field) :=
  skims.find? (fun _ comment => fieldTest_of_isComment comment field) fun _ _ kept => fieldTest_of_kept kept field

theorem child?_cases (field : String) : child? children field = none ∧ child? others field = none ∨
    ∃ first second : Reading, child? children field = some first ∧ child? others field = some second ∧
      first.Alike second := by
  rcases rel_cases (child?_kept skims field) with missing | ⟨first, second, found, otherFound, kept⟩
  · exact .inl missing
  · exact .inr ⟨first, second, found, otherFound, kept.alike⟩

theorem child?_extent (field : String) (image : Extent → α) :
    ((child? children field).map fun child => image child.extent) =
      (child? others field).map fun child => image child.extent :=
  map_eq_of_rel (child?_kept skims field) fun _ _ kept => congrArg image kept.alike.extent

theorem childRole (field : String) (alike : α → α → Prop)
    {role : Reading → α} {absent : α} (base : alike absent absent)
    (step : ∀ first second : Reading, first.Alike second → alike (role first) (role second)) :
    alike (((child? children field).map role).getD absent) (((child? others field).map role).getD absent) :=
  getD_of_rel (child?_kept skims field) base fun first second kept => step first second kept.alike

theorem childrenAt_alike (field : String) :
    List.Forall₂ Alike (childrenAt children field) (childrenAt others field) := by
  rw [childrenAt, childrenAt]
  induction skims with
  | nil => exact .nil
  | skip gone _ ih =>
    rw [List.filter_cons_of_neg (by simp [fieldTest_of_isComment gone])]
    exact ih
  | keep kept _ ih =>
    rw [List.filter_cons, List.filter_cons, fieldTest_of_kept kept field]
    split
    · exact .cons kept.alike ih
    · exact ih

theorem enterExprs_of_skims :
    enterExprs (children.map (·.expr)) = enterExprs (others.map (·.expr)) := by
  induction skims with
  | nil => rfl
  | skip gone _ ih => rw [List.map_cons, gone.expr, enterExprs_empty, ih]
  | keep kept _ ih => simp only [List.map_cons, enterExprs, kept.alike.expr.enter, ih]

theorem childString?_eq (field : String) :
    childString? source children field = childString? source others field :=
  child?_extent skims field (string source)

theorem baseType_alike : (baseType children).Alike (baseType others) :=
  childRole skims "type" TypeSpec.Alike (fun _ => rfl) fun _ _ alike => alike.type

theorem optionalDeclarator_alike :
    (optionalDeclarator children).Alike (optionalDeclarator others) :=
  childRole skims "declarator" Declarator.Alike (fun _ _ => rfl) fun _ _ alike => alike.declarator

theorem childExpr_alike (field : String) :
    Expr.Alike (((child? children field).map (·.expr)).getD .empty)
      (((child? others field).map (·.expr)).getD .empty) :=
  childRole skims field Expr.Alike (Expr.alike_refl _) fun _ _ alike => alike.expr

theorem typeOf_alike (label : Label) (extent : Extent) :
    (typeOf source label extent children).Alike (typeOf source label extent others) := by
  obtain ⟨field, isNamed, kind⟩ := label
  rcases child?_cases skims "body" with ⟨missing, otherMissing⟩ | ⟨body, otherBody, found, otherFound, alike⟩
  · simp only [typeOf, childString?_eq skims, missing, otherMissing]
    split <;> exact fun _ => rfl
  · simp only [typeOf, childString?_eq skims, found, otherFound]
    split
    case h_4 | h_5 => exact TypeSpec.alike_record alike.members _ _ _
    case h_6 => exact TypeSpec.alike_enumeration alike.constants _ _
    all_goals exact fun _ => rfl

theorem isComment_of_mem {child : Reading} (member : child ∈ children)
    (comment : child.label.kind = "comment") : child.IsComment := by
  induction skims with
  | nil => cases member
  | skip gone _ ih =>
    rcases List.mem_cons.mp member with rfl | inside
    · exact gone
    · exact ih inside
  | keep kept _ ih =>
    rcases List.mem_cons.mp member with rfl | inside
    · exact absurd comment kept.kind
    · exact ih inside

theorem exists_kept {other : Reading} (member : other ∈ others) :
    ∃ child ∈ children, child.Kept other := by
  induction skims with
  | nil => cases member
  | skip _ _ ih =>
    obtain ⟨child, inside, kept⟩ := ih member
    exact ⟨child, List.mem_cons_of_mem _ inside, kept⟩
  | keep kept _ ih =>
    rcases List.mem_cons.mp member with rfl | inside
    · exact ⟨_, List.mem_cons_self, kept⟩
    · obtain ⟨child, inside, kept⟩ := ih inside
      exact ⟨child, List.mem_cons_of_mem _ inside, kept⟩

/-- In parentheses the declarator is the first child that may be one, so a comment must not stand in front of it. -/
theorem findDeclarator_kept
    (first : ∀ child, children.find? (mayDeclare ·.label) = some child → child.label.kind ≠ "comment") :
    Option.Rel Kept (children.find? (mayDeclare ·.label)) (others.find? (mayDeclare ·.label)) := by
  induction skims with
  | nil => exact .none
  | @skip comment list other gone _ ih =>
    cases may : mayDeclare comment.label with
    | true => exact absurd gone.kind (first comment (List.find?_cons_of_pos may))
    | false =>
      rw [List.find?_cons_of_neg (by simp [may])] at first ⊢
      exact ih first
  | @keep child other list rest kept _ ih =>
    have same := kept.alike.label
    cases may : mayDeclare child.label with
    | true =>
      simp only [List.find?_cons, ← same, may]
      exact .some kept
    | false =>
      rw [List.find?_cons_of_neg (by simp [may])] at first ⊢
      rw [List.find?_cons_of_neg (by simp [← same, may])]
      exact ih first

theorem findDeclarator_alike
    (shown : showsDeclarator (children.map (·.label)) = true) :
    Declarator.Alike (((children.find? (mayDeclare ·.label)).map (·.declarator)).getD .anonymous)
      (((others.find? (mayDeclare ·.label)).map (·.declarator)).getD .anonymous) := by
  rw [showsDeclarator, Bool.or_eq_true, List.find?_map, List.all_map, List.all_eq_true] at shown
  rcases shown with first | comments
  · refine getD_of_rel (findDeclarator_kept skims ?_) (fun _ _ => rfl) fun _ _ kept => kept.alike.declarator
    intro child found
    simpa [Function.comp_def, found] using first
  · -- Every child that may declare is a comment: the first list gives an anonymous declarator and the other one none.
    have anonymous : ((children.find? (mayDeclare ·.label)).map (·.declarator)).getD .anonymous = .anonymous := by
      cases found : children.find? (mayDeclare ·.label) with
      | none => rfl
      | some child =>
        have member := List.mem_of_find?_eq_some found
        have may := List.find?_some found
        have comment : child.label.kind = "comment" := by simpa [may] using comments child member
        exact (isComment_of_mem skims member comment).declarator
    have missing : others.find? (mayDeclare ·.label) = none := by
      rw [List.find?_eq_none]
      intro other member may
      obtain ⟨child, inside, kept⟩ := exists_kept skims member
      rw [← kept.alike.label] at may
      exact kept.kind (by simpa [may] using comments child inside)
    rw [anonymous, missing]
    exact fun _ _ => rfl

theorem declaratorOf_alike (label : Label) (extent : Extent)
    (shown : isDeclaratorGroup label.kind = true → showsDeclarator (children.map (·.label)) = true) :
    (declaratorOf source label extent children).Alike (declaratorOf source label extent others) := by
  obtain ⟨field, isNamed, kind⟩ := label
  have inner := optionalDeclarator_alike skims
  simp only [optionalDeclarator] at inner
  simp only [declaratorOf, child?_extent skims "size" (chars source), find?_named]
  split
  case h_4 | h_5 => exact Declarator.alike_pointer inner
  case h_6 | h_7 => exact Declarator.alike_array inner _
  case h_8 | h_9 =>
    rcases child?_cases skims "parameters" with ⟨missing, otherMissing⟩ | ⟨list, otherList, found, otherFound, alike⟩
    · rw [missing, otherMissing]
      exact Declarator.alike_function inner .nil _
    · simp only [found, otherFound, Option.map_some, Option.getD_some, alike.variadic]
      exact Declarator.alike_function inner alike.params _
  case h_10 => exact inner
  case h_11 | h_12 | h_13 => exact findDeclarator_alike skims (shown rfl)
  all_goals exact fun _ _ => rfl

theorem initDeclaratorOf_alike (label : Label) (extent : Extent)
    (shown : isDeclaratorGroup label.kind = true → showsDeclarator (children.map (·.label)) = true) :
    (initDeclaratorOf source label extent children).Alike (initDeclaratorOf source label extent others) := by
  rw [initDeclaratorOf, initDeclaratorOf]
  split
  · rcases child?_cases skims "declarator" with ⟨missing, otherMissing⟩ | ⟨bare, otherBare, found, otherFound, alike⟩
    · rw [missing, otherMissing]
      exact InitDeclarator.alike_mk (fun _ _ => rfl) (Expr.alike_refl _)
    · simp only [found, otherFound, alike.extent]
      exact InitDeclarator.alike_mk alike.declarator (childExpr_alike skims "value")
  · exact InitDeclarator.alike_mk (declaratorOf_alike skims label extent shown) (Expr.alike_refl _)

theorem paramOf_alike (label : Label) (extent : Extent) :
    List.Forall₂ Param.Alike (paramOf label extent children).toList (paramOf label extent others).toList := by
  rw [paramOf, paramOf]
  split
  · exact .cons (Param.alike_mk (baseType_alike skims) (optionalDeclarator_alike skims)) .nil
  · exact .nil

theorem specifiers_eq :
    specifiers source children = specifiers source others := by
  have inside := named_skims skims
  rw [specifiers, specifiers]
  generalize (StorageClass.unspecified, false) = found
  generalize named children = list at inside ⊢
  generalize named others = other at inside ⊢
  induction inside generalizing found with
  | nil => rfl
  | skip gone _ ih => rw [List.foldl_cons, ih, if_neg (by simp [gone.kind])]
  | keep kept _ ih => rw [List.foldl_cons, List.foldl_cons, ih, kept.alike.label, kept.alike.extent]

theorem declarators_alike {role : Reading → α} {alike : α → α → Prop}
    (step : ∀ first second : Reading, first.Alike second → alike (role first) (role second)) :
    List.Forall₂ alike ((childrenAt children "declarator").map role) ((childrenAt others "declarator").map role) := by
  rw [List.forall₂_map_left_iff, List.forall₂_map_right_iff]
  exact (childrenAt_alike skims "declarator").imp step

theorem declarationOf_alike (label : Label) (extent : Extent) :
    (declarationOf source label extent children).Alike (declarationOf source label extent others) := by
  rw [declarationOf, declarationOf, specifiers_eq skims]
  split
  · exact Declaration.alike_objects (baseType_alike skims)
      (declarators_alike skims fun _ _ alike => alike.initDeclarator) _ _
  · apply Declaration.alike_typedefs (baseType_alike skims)
    apply declarators_alike skims
    intro first second alike
    rw [alike.extent]
    exact InitDeclarator.alike_mk alike.declarator (Expr.alike_refl _)
  · exact Declaration.alike_tag (typeOf_alike skims label extent)

theorem members_alike :
    List.Forall₂ FieldDecl.Alike ((named children).flatMap (·.fields)) ((named others).flatMap (·.fields)) :=
  (named_skims skims).flatMap (fun _ comment => comment.fields) fun _ _ kept => kept.alike.fields

theorem constants_alike :
    List.Forall₂ Enumerator.Alike ((named children).flatMap (·.enumerators)) ((named others).flatMap (·.enumerators)) :=
  (named_skims skims).flatMap (fun _ comment => comment.enumerators) fun _ _ kept => kept.alike.enumerators

theorem params_alike :
    List.Forall₂ Param.Alike ((named children).filterMap (·.param)) ((named others).filterMap (·.param)) := by
  rw [List.filterMap_eq_flatMap_toList, List.filterMap_eq_flatMap_toList]
  apply (named_skims skims).flatMap
  · intro reading comment
    rw [comment.param, Option.toList_none]
  · intro first second kept
    exact kept.alike.param

theorem variadic_eq :
    (named children).any (·.label.kind == "variadic_parameter") =
      (named others).any (·.label.kind == "variadic_parameter") := by
  have inside := named_skims skims
  generalize named children = list at inside ⊢
  generalize named others = other at inside ⊢
  induction inside with
  | nil => rfl
  | skip gone _ ih => rw [List.any_cons, gone.kind, ih]; rfl
  | keep kept _ ih => rw [List.any_cons, List.any_cons, kept.alike.label, ih]

end Children

section Branches

structure Marked (alike : Reading → Reading → Prop) (first second : Reading × Bool) : Prop where
  here : alike first.1 second.1
  counts : first.2 = second.2

variable {source : List Char} {children others : List Reading} {marked rest : List (Reading × Bool)}
  {alike : Reading → Reading → Prop}

theorem markAll_skims (skims : Skims IsComment alike children others) :
    Skims (fun mark => mark.1.IsComment) (Marked alike) (children.map fun child => (child, true))
      (others.map fun child => (child, true)) :=
  skims.map _ (fun _ comment => comment) fun _ _ here => ⟨here, rfl⟩

theorem dismissFirst_skims (labels : ∀ first second, alike first second → first.label = second.label)
    (skims : Skims (fun mark => mark.1.IsComment) (Marked alike) marked rest) (field : String) :
    Skims (fun mark => mark.1.IsComment) (Marked alike) (dismissFirst field marked) (dismissFirst field rest) := by
  induction skims with
  | nil => exact .nil
  | @skip comment _ _ gone _ ih =>
    obtain ⟨reading, counts⟩ := comment
    rw [dismissFirst, if_neg (by simp [fieldTest_of_isComment gone])]
    exact .skip gone ih
  | @keep first second _ _ here skims ih =>
    obtain ⟨reading, counts⟩ := first
    obtain ⟨other, otherCounts⟩ := second
    have label : reading.label = other.label := labels _ _ here.here
    rw [dismissFirst, dismissFirst, label]
    split
    · exact .keep ⟨here.here, rfl⟩ skims
    · exact .keep here ih

theorem markBranches_skims (labels : ∀ first second, alike first second → first.label = second.label)
    (skims : Skims IsComment alike children others) :
    Skims (fun mark => mark.1.IsComment) (Marked alike) (markBranches children) (markBranches others) :=
  dismissFirst_skims labels (dismissFirst_skims labels (markAll_skims skims) "condition") "name"

/-- A comment is no construct, so the constructs are alike one by one. -/
theorem itemsAmong_alike (skims : Skims (fun mark => mark.1.IsComment) (Marked Kept) marked rest) :
    List.Forall₂ (fun item other => item.form.Alike other.form) (itemsAmong marked) (itemsAmong rest) := by
  induction skims with
  | nil => exact .nil
  | @skip comment _ _ gone _ ih =>
    obtain ⟨reading, counts⟩ := comment
    have kind : reading.label.kind = "comment" := gone.kind
    rw [itemsAmong, if_pos (by simp [kind]), List.nil_append]
    exact ih
  | @keep first second _ _ here _ ih =>
    obtain ⟨reading, counts⟩ := first
    obtain ⟨other, otherCounts⟩ := second
    obtain ⟨kept, rfl⟩ := here
    rw [itemsAmong, itemsAmong, kept.alike.label]
    apply List.rel_append _ ih
    split
    · exact .nil
    split
    · exact kept.alike.items
    · exact .cons kept.alike.form .nil

variable (skims : Skims IsComment Kept children others)
include skims

theorem branches_skims : Skims IsComment Kept (branches children) (branches others) := by
  have marked := markBranches_skims (fun _ _ kept => kept.alike.label) skims
  have counting := marked.filter (·.2) fun _ _ mark => mark.counts
  exact counting.map _ (fun _ comment => comment) fun _ _ mark => mark.here

theorem fieldsOf_alike (label : Label) (extent : Extent) :
    List.Forall₂ FieldDecl.Alike (fieldsOf label extent children) (fieldsOf label extent others) := by
  rw [fieldsOf, fieldsOf]
  split
  · exact members_alike (branches_skims skims)
  · split
    · have declarators := declarators_alike skims fun _ _ alike => alike.declarator
      exact .cons (FieldDecl.alike_mk (baseType_alike skims) declarators) .nil
    · exact .nil

theorem enumeratorsOf_alike (label : Label) :
    List.Forall₂ Enumerator.Alike (enumeratorsOf source label children) (enumeratorsOf source label others) := by
  simp only [enumeratorsOf, child?_extent skims "value" (chars source)]
  split
  · exact constants_alike (branches_skims skims)
  · split
    · rcases child?_cases skims "name" with ⟨missing, otherMissing⟩ | ⟨name, otherName, found, otherFound, alike⟩
      · rw [missing, otherMissing]
        exact .nil
      · simp only [found, otherFound, alike.extent]
        exact .cons (Enumerator.alike_mk (childExpr_alike skims "value") _ _ _) .nil
    · exact .nil

theorem exprOf_alike (label : Label) (extent : Extent) :
    (exprOf source label extent children).Alike (exprOf source label extent others) := by
  have parts := enterExprs_of_skims (named_skims skims)
  have arguments : enterExprs (((child? children "arguments").map (·.parts)).getD []) =
      enterExprs (((child? others "arguments").map (·.parts)).getD []) :=
    childRole skims "arguments" (fun first second => enterExprs first = enterExprs second) rfl
      fun _ _ alike => alike.parts
  rw [exprOf, exprOf]
  split
  · exact Expr.alike_refl _
  split
  · exact Expr.alike_group (enterExprs_of_skims (named_skims (branches_skims skims)))
  split
  · exact Expr.alike_declaration (declarationOf_alike skims label extent)
  · split
    case h_1 | h_2 => exact Expr.alike_scope parts
    case h_3 | h_4 => exact Expr.alike_declaration (declarationOf_alike skims label extent)
    case h_5 => exact Expr.alike_refl _
    case h_6 => exact Expr.alike_call (childExpr_alike skims "function") arguments
    case h_7 => exact Expr.alike_member (childExpr_alike skims "argument")
    case h_8 => exact Expr.alike_typeName (baseType_alike skims) (optionalDeclarator_alike skims)
    case h_9 => exact Expr.alike_refl _
    case h_10 => exact Expr.alike_other parts

theorem formOf_alike {node other : Node}
    (label : node.label = other.label) (extent : node.extent = other.extent)
    (params : (node.child? "parameters").map (macroParams source) = (other.child? "parameters").map
      (macroParams source)) :
    (formOf source node children).Alike (formOf source other others) := by
  simp only [formOf, Node.kind, label, extent, params, childString?_eq skims, child?_extent skims _ (chars source),
    specifiers_eq skims]
  split
  case h_5 =>
    have bare : (child? children "declarator").map (·.extent) = (child? others "declarator").map (·.extent) :=
      child?_extent skims "declarator" id
    rw [bare]
    exact Form.alike_function (baseType_alike skims) (optionalDeclarator_alike skims) (childExpr_alike skims "body") _ _
  case h_6 | h_7 | h_8 | h_9 | h_10 => exact Form.alike_declaration (declarationOf_alike skims other.label other.extent)
  all_goals exact fun _ _ _ => rfl

theorem ofChildren_alike {node other : Node}
    (label : node.label = other.label) (extent : node.extent = other.extent)
    (params : (node.child? "parameters").map (macroParams source) = (other.child? "parameters").map
      (macroParams source))
    (shown : isDeclaratorGroup node.kind = true → showsDeclarator (children.map (·.label)) = true) :
    (ofChildren source node children).Alike (ofChildren source other others) := by
  have form := formOf_alike skims label extent params
  rw [ofChildren, ofChildren, ← label, ← extent]
  constructor
  case label => rfl
  case extent => rfl
  case expr => exact exprOf_alike skims _ _
  case parts => exact enterExprs_of_skims (named_skims skims)
  case type => exact typeOf_alike skims _ _
  case declarator => exact declaratorOf_alike skims _ _ shown
  case initDeclarator => exact initDeclaratorOf_alike skims _ _ shown
  case param => exact paramOf_alike skims _ _
  case params => exact params_alike skims
  case variadic => exact variadic_eq skims
  case fields => exact fieldsOf_alike skims _ _
  case members => exact members_alike skims
  case enumerators => exact enumeratorsOf_alike skims _
  case constants => exact constants_alike skims
  case form => exact form
  case items =>
    split
    · exact itemsAmong_alike (markBranches_skims (fun _ _ kept => kept.alike.label) skims)
    · exact itemsAmong_alike (markAll_skims skims)

end Branches

end Reading

end Excerpt.Surface
