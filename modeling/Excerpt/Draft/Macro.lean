import Excerpt.Constant.Expression
import Excerpt.Draft.Basic

namespace Excerpt.Draft

variable (draft : Draft)

/-- Levels of macros inside each other through which constants are folded. -/
def foldDepth : Nat := 17

/-- Value of a name, through at most `depth` levels of macros. A macro hides an enum constant of its name; one with
parameters has no value. -/
def constant? : Nat → String → Option Int64
  | 0, _ => none
  | depth + 1, name =>
    match draft.definition? name with
    | some id =>
      match (draft.program.directive id).kind with
      | .define none body _ => Constant.evaluate (constant? depth) body
      | _ => none
    | none =>
      match draft.ordinary? name with
      | some id =>
        match (draft.program.decl id).kind with
        | .enumConstant value _ _ => some value
        | _ => none
      | none => none

def fold (text : List Char) : Option Int64 :=
  Constant.evaluate (draft.constant? foldDepth) text

/-- What the macro `id` refers to when it is expanded inside the macros `active`, to `depth` levels of macros. -/
def expansionFrom (span : Span) : Nat → List MacroId → MacroId → Stmt
  | 0, _, id => .leaf (.expansion (draft.program.directive id).name) span
  | depth + 1, active, id =>
    .node (.expansion (draft.program.directive id).name) span
      ((draft.program.directive id).names.filterMap fun name =>
        match (draft.definition? name).filter fun inner => !(id :: active).contains inner with
        | some inner => some (expansionFrom span depth (id :: active) inner)
        | none => (draft.ordinary? name).map fun decl => .leaf (.declRef decl false) span)

/-- What a use of a macro refers to. A macro is not expanded inside itself, so the levels are at most the macros. -/
def expansion (span : Span) (id : MacroId) : Stmt :=
  draft.expansionFrom span draft.program.macros.size [] id

def definitionLike? (functionLike : Bool) (name : String) : Option MacroId :=
  (draft.definition? name).filter fun id => (draft.program.directive id).isFunctionLike == functionLike

def nameStmt? (name : String) (span : Span) : Option Stmt :=
  match draft.definitionLike? false name with
  | some id => some (draft.expansion span id)
  | none => (draft.ordinary? name).map fun decl => .leaf (.declRef decl true) span

/-- The use of a macro with parameters as the function of a call. -/
def macroCallee? : Surface.Expr → Option Stmt
  | .name name extent =>
    (draft.definitionLike? true name).map fun id => draft.expansion (draft.spanOf extent) id
  | _ => none

end Excerpt.Draft
