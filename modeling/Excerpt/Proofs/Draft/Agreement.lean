import Excerpt.Proofs.Draft.Reading
import Mathlib.Data.List.Forall2

/-!
Surface forms that are entered alike: entering one does to every draft what entering the other does.
-/

namespace Excerpt.Surface

open Drafting

def TypeSpec.Alike (first second : TypeSpec) : Prop :=
  ∀ standalone, enterType standalone first = enterType standalone second

def FieldDecl.Alike (first second : FieldDecl) : Prop :=
  enterField first = enterField second

def Enumerator.Alike (first second : Enumerator) : Prop :=
  ∀ owner next, enterEnumerator owner next first = enterEnumerator owner next second

def Declarator.Alike (first second : Declarator) : Prop :=
  ∀ base params, enterDeclarator base params first = enterDeclarator base params second

def Param.Alike (first second : Param) : Prop :=
  enterParam first = enterParam second

/-- Entered alike, also as the function of a call. -/
structure Expr.Alike (first second : Expr) : Prop where
  enter : enterExpr first = enterExpr second
  callee : ∀ draft : Draft, draft.macroCallee? first = draft.macroCallee? second

structure InitDeclarator.Alike (first second : InitDeclarator) : Prop where
  object : ∀ storage isInline base, enterObject storage isInline base first = enterObject storage isInline base second
  typedef : ∀ base, enterTypedef base first = enterTypedef base second

def Declaration.Alike (first second : Declaration) : Prop :=
  enterDeclaration first = enterDeclaration second

def Form.Alike (first second : Form) : Prop :=
  ∀ files search enter, enterForm files search enter first = enterForm files search enter second

section Lists

theorem enterFields_of_alike {fields others : List FieldDecl} (alike : List.Forall₂ FieldDecl.Alike fields others) :
    enterFields fields = enterFields others := by
  induction alike with
  | nil => rfl
  | cons head _ ih =>
    rw [FieldDecl.Alike] at head
    simp only [enterFields, head, ih]

theorem enterFieldDeclarators_of_alike {declarators others : List Declarator}
    (alike : List.Forall₂ Declarator.Alike declarators others) (base : TypeId) (span : Span) :
    enterFieldDeclarators base span declarators = enterFieldDeclarators base span others := by
  induction alike with
  | nil => rfl
  | cons head _ ih =>
    rw [Declarator.Alike] at head
    simp only [enterFieldDeclarators, head, ih]

theorem enterEnumerators_of_alike {constants others : List Enumerator}
    (alike : List.Forall₂ Enumerator.Alike constants others) (owner : DeclId) (next : Int64) :
    enterEnumerators owner next constants = enterEnumerators owner next others := by
  induction alike generalizing next with
  | nil => rfl
  | cons head _ ih =>
    rw [Enumerator.Alike] at head
    simp only [enterEnumerators, head, ih]

theorem enterParams_of_alike {params others : List Param} (alike : List.Forall₂ Param.Alike params others) :
    enterParams params = enterParams others := by
  induction alike with
  | nil => rfl
  | cons head _ ih =>
    rw [Param.Alike] at head
    simp only [enterParams, head, ih]

theorem enterObjects_of_alike {declarators others : List InitDeclarator}
    (alike : List.Forall₂ InitDeclarator.Alike declarators others) (storage : StorageClass) (isInline : Bool)
    (base : TypeId) :
    enterObjects storage isInline base declarators = enterObjects storage isInline base others := by
  induction alike with
  | nil => rfl
  | cons head _ ih => simp only [enterObjects, head.object, ih]

theorem enterTypedefs_of_alike {declarators others : List InitDeclarator}
    (alike : List.Forall₂ InitDeclarator.Alike declarators others) (base : TypeId) :
    enterTypedefs base declarators = enterTypedefs base others := by
  induction alike with
  | nil => rfl
  | cons head _ ih => simp only [enterTypedefs, head.typedef, ih]

theorem enterExprs_empty (exprs : List Expr) : enterExprs (.empty :: exprs) = enterExprs exprs := by
  simp only [enterExprs, enterExpr, pure_bind, Option.toList_none, List.nil_append, bind_pure]

theorem isEmpty_of_forall₂ {α : Type} {alike : α → α → Prop} {list other : List α}
    (all : List.Forall₂ alike list other) :
    list.isEmpty = other.isEmpty := by
  cases all <;> rfl

end Lists

section Parts

variable {extent full bare : Extent} {base otherBase : TypeSpec} {inner otherInner : Declarator} {init otherInit : Expr}

theorem TypeSpec.alike_record {fields others : List FieldDecl} (members : List.Forall₂ FieldDecl.Alike fields others)
    (isUnion : Bool) (name : Option String) (start : Nat) :
    Alike (.record isUnion name start fields) (.record isUnion name start others) := by
  intro standalone
  simp only [enterType, enterFields_of_alike members]

theorem TypeSpec.alike_enumeration {constants others : List Enumerator}
    (members : List.Forall₂ Enumerator.Alike constants others) (name : Option String) (start : Nat) :
    Alike (.enumeration name start constants) (.enumeration name start others) := by
  intro standalone
  simp only [enterType, enterEnumerators_of_alike members]

theorem FieldDecl.alike_mk (bases : base.Alike otherBase) {declarators others : List Declarator}
    (list : List.Forall₂ Declarator.Alike declarators others) :
    Alike (.mk extent base declarators) (.mk extent otherBase others) := by
  rw [TypeSpec.Alike] at bases
  simp only [Alike, enterField, bases, isEmpty_of_forall₂ list, enterFieldDeclarators_of_alike list]

theorem Enumerator.alike_mk (inits : init.Alike otherInit) (name : String) (start : Nat) (value : Option (List Char)) :
    Alike (.mk name start value init) (.mk name start value otherInit) := by
  intro owner next
  simp only [enterEnumerator, inits.enter]

theorem Declarator.alike_pointer (alike : inner.Alike otherInner) : Alike (.pointer inner) (.pointer otherInner) := by
  intro base params
  rw [Alike] at alike
  simp only [enterDeclarator, alike]

theorem Declarator.alike_array (alike : inner.Alike otherInner) (size : Option (List Char)) :
    Alike (.array size inner) (.array size otherInner) := by
  intro base params
  rw [Alike] at alike
  simp only [enterDeclarator, alike]

theorem Declarator.alike_function (alike : inner.Alike otherInner) {params others : List Param}
    (list : List.Forall₂ Param.Alike params others) (variadic : Bool) :
    Alike (.function params variadic inner) (.function others variadic otherInner) := by
  intro base params
  rw [Alike] at alike
  simp only [enterDeclarator, alike, enterParams_of_alike list]

theorem Param.alike_mk (bases : base.Alike otherBase) (declarators : inner.Alike otherInner) :
    Alike (.mk extent base inner) (.mk extent otherBase otherInner) := by
  rw [TypeSpec.Alike] at bases
  rw [Declarator.Alike] at declarators
  simp only [Alike, enterParam, bases, declarators]

theorem InitDeclarator.alike_mk (declarators : inner.Alike otherInner) (inits : init.Alike otherInit) :
    Alike (.mk full bare inner init) (.mk full bare otherInner otherInit) := by
  rw [Declarator.Alike] at declarators
  constructor
  case object =>
    intro storage isInline base
    simp only [enterObject, declarators, inits.enter]
  case typedef =>
    intro base
    simp only [enterTypedef, declarators]

theorem Declaration.alike_objects (bases : base.Alike otherBase) {declarators others : List InitDeclarator}
    (list : List.Forall₂ InitDeclarator.Alike declarators others) (storage : StorageClass) (isInline : Bool) :
    Alike (.objects storage isInline base declarators) (.objects storage isInline otherBase others) := by
  rw [TypeSpec.Alike] at bases
  simp only [Alike, enterDeclaration, bases, isEmpty_of_forall₂ list, enterObjects_of_alike list]

theorem Declaration.alike_typedefs (bases : base.Alike otherBase) {declarators others : List InitDeclarator}
    (list : List.Forall₂ InitDeclarator.Alike declarators others) :
    Alike (.typedefs base declarators) (.typedefs otherBase others) := by
  rw [TypeSpec.Alike] at bases
  simp only [Alike, enterDeclaration, bases, enterTypedefs_of_alike list]

theorem Declaration.alike_tag {spec other : TypeSpec} (alike : spec.Alike other) : Alike (.tag spec) (.tag other) := by
  rw [TypeSpec.Alike] at alike
  simp only [Alike, enterDeclaration, alike]

theorem Expr.alike_refl (expr : Expr) : expr.Alike expr :=
  ⟨rfl, fun _ => rfl⟩

theorem Expr.alike_scope {exprs others : List Expr} (parts : enterExprs exprs = enterExprs others) :
    Alike (.scope extent exprs) (.scope extent others) :=
  ⟨by simp only [enterExpr, parts], fun _ => rfl⟩

theorem Expr.alike_group {exprs others : List Expr} (parts : enterExprs exprs = enterExprs others) :
    Alike (.group extent exprs) (.group extent others) :=
  ⟨by simp only [enterExpr, parts], fun _ => rfl⟩

theorem Expr.alike_other {exprs others : List Expr} (parts : enterExprs exprs = enterExprs others) :
    Alike (.other extent exprs) (.other extent others) :=
  ⟨by simp only [enterExpr, parts], fun _ => rfl⟩

theorem Expr.alike_declaration {declaration other : Declaration} (alike : declaration.Alike other) :
    Alike (.declaration extent declaration) (.declaration extent other) := by
  rw [Declaration.Alike] at alike
  exact ⟨by simp only [enterExpr, alike], fun _ => rfl⟩

theorem Expr.alike_call {function other : Expr} (alike : function.Alike other) {exprs others : List Expr}
    (arguments : enterExprs exprs = enterExprs others) :
    Alike (.call extent function exprs) (.call extent other others) :=
  ⟨by simp only [enterExpr, alike.enter, alike.callee, arguments], fun _ => rfl⟩

theorem Expr.alike_member {argument other : Expr} (alike : argument.Alike other) :
    Alike (.member extent argument) (.member extent other) :=
  ⟨by simp only [enterExpr, alike.enter], fun _ => rfl⟩

theorem Expr.alike_typeName (bases : base.Alike otherBase) (declarators : inner.Alike otherInner) :
    Alike (.typeName extent base inner) (.typeName extent otherBase otherInner) := by
  rw [TypeSpec.Alike] at bases
  rw [Declarator.Alike] at declarators
  exact ⟨by simp only [enterExpr, bases, declarators], fun _ => rfl⟩

theorem Form.alike_function (bases : base.Alike otherBase) (declarators : inner.Alike otherInner)
    (bodies : init.Alike otherInit) (storage : StorageClass) (isInline : Bool) :
    Alike (.function storage isInline base inner extent init)
      (.function storage isInline otherBase otherInner extent otherInit) := by
  rw [TypeSpec.Alike] at bases
  rw [Declarator.Alike] at declarators
  intro files search enter
  simp only [enterForm, enterFunction, bases, declarators, bodies.enter]

theorem Form.alike_declaration {declaration other : Declaration} (alike : declaration.Alike other) :
    Alike (.declaration declaration) (.declaration other) := by
  rw [Declaration.Alike] at alike
  intro files search enter
  simp only [enterForm, alike]

end Parts

end Excerpt.Surface
