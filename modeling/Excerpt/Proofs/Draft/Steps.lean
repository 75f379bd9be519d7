import Excerpt.Draft.File
import Excerpt.Proofs.Program.Build
import Excerpt.Proofs.Program.Walk

/-!
The steps that reading declarations takes. Everything that holds of a draft while it is read is derived from them.
-/

namespace Excerpt

/-- Sorts of declarations. A declaration keeps its sort, and so do those that continue it. -/
inductive DeclSort where
  /-- Functions and variables. -/
  | symbol
  | tag
  | constant
  | typeName
deriving DecidableEq

namespace DeclKind

def sort : DeclKind → DeclSort
  | .function .. => .symbol
  | .var .. => .symbol
  | .record .. => .tag
  | .enumeration .. => .tag
  | .enumConstant .. => .constant
  | .typedef _ => .typeName

def declaredTypes : DeclKind → List TypeId
  | .function type _ _ => [type]
  | .var type _ => [type]
  | .record _ fields _ => fields.map (·.type)
  | .typedef underlying => [underlying]
  | _ => []

def isEnumConstant : DeclKind → Bool
  | .enumConstant .. => true
  | _ => false

theorem isTag_eq (kind : DeclKind) : kind.isTag = decide (kind.sort = .tag) := by
  cases kind <;> rfl

theorem isEnumConstant_eq (kind : DeclKind) : kind.isEnumConstant = decide (kind.sort = .constant) := by
  cases kind <;> rfl

/-- The kind of a declaration that has just been made: constants and initializer are still to come. -/
def IsNew : DeclKind → Prop
  | .enumeration constants _ => constants = []
  | .var _ init => init = none
  | _ => True

end DeclKind

namespace Program

variable {program : Program} {id : DeclId}

theorem lt_size_of_ne (differs : program.decl id ≠ default) : id < program.decls.size := by
  by_contra outside
  exact differs (program.decl_of_size_le (Nat.not_lt.mp outside))

theorem lt_size_of_sort {sort : DeclSort} (same : (program.decl id).kind.sort = sort) (plain : sort ≠ .symbol) :
    id < program.decls.size := by
  apply lt_size_of_ne
  intro missing
  rw [missing] at same
  exact plain same.symm

theorem lt_size_of_isEnumConstant (constant : (program.decl id).kind.isEnumConstant = true) :
    id < program.decls.size := by
  rw [DeclKind.isEnumConstant_eq, decide_eq_true_eq] at constant
  exact lt_size_of_sort constant (by decide)

theorem lt_size_of_isTag (tag : (program.decl id).kind.isTag = true) : id < program.decls.size := by
  rw [DeclKind.isTag_eq, decide_eq_true_eq] at tag
  exact lt_size_of_sort tag (by decide)

end Program

def CType.named? : CType → Option DeclId
  | .record decl => some decl
  | .enumeration decl => some decl
  | .typedef decl => some decl
  | _ => none

namespace Draft

variable {base : Nat} {before after : Draft}

/-- A new declaration of a sort may continue the entity of `id`. -/
inductive Continues (draft : Draft) (sort : DeclSort) (id : DeclId) : Prop
  | ordinary {scope : Scope} {name : String} (member : scope ∈ draft.scopes) (bound : (name, id) ∈ scope.ordinary)
      (same : (draft.program.decl id).kind.sort = sort)
  | tag {scope : Scope} {name : String} (member : scope ∈ draft.scopes) (bound : (name, id) ∈ scope.tags)
      (same : sort = .tag)

inductive Nameable (draft : Draft) (id : DeclId) : Prop
  | tag {scope : Scope} {name : String} (member : scope ∈ draft.scopes) (bound : (name, id) ∈ scope.tags)
  | plain (sort : (draft.program.decl id).kind.sort ≠ .symbol)

/-- A declaration receives parts that were read after it. -/
structure Revises (draft : Draft) (id : DeclId) (old new : Decl) : Prop where
  chain : new.chain = old.chain
  sort : new.kind.sort = old.kind.sort
  constants : ∀ constants complete, new.kind = .enumeration constants complete → new.kind = old.kind ∨
    ∀ constant ∈ constants, (draft.program.decl constant).kind.isEnumConstant = true
  init : ∀ type init, new.kind = .var type (some init) → new.kind = old.kind ∨ ∀ inner, init.Declares inner → id < inner
  owner : ∀ value owner init, new.kind = .enumConstant value owner init → new.kind = old.kind

theorem Revises.refl (draft : Draft) (id : DeclId) (decl : Decl) : draft.Revises id decl decl :=
  ⟨rfl, rfl, fun _ _ _ => .inl rfl, fun _ _ _ => .inl rfl, fun _ _ _ _ => rfl⟩

/-- A step of reading a declaration. Only declarations from number `base` on receive parts. -/
inductive Step (base : Nat) (draft : Draft) : Draft → Prop
  | frame (span : Span) (function : Option DeclId) (defined : List ChainId) :
      Step base draft { draft with span, function, defined }
  | intern (type : CType) (named : ∀ id, type.named? = some id → draft.Nameable id) :
      Step base draft { draft with program := { draft.program with types := draft.program.types.push type } }
  | enter : Step base draft draft.enterScope
  | leave : Step base draft draft.leaveScope
  | declare (decl : Decl) (previous : Option DeclId) (isNew : decl.kind.IsNew)
      (continues : ∀ earlier, previous = some earlier →
        draft.Continues decl.kind.sort earlier ∧ decl.kind.sort ≠ .constant)
      (owned : ∀ value owner init, decl.kind = .enumConstant value owner init →
        (draft.program.decl owner).kind.sort = .tag) :
      Step base draft { draft with program := draft.program.addDecl decl previous }
  | ordinary (name : String) (id : DeclId) (known : id < draft.program.decls.size) :
      Step base draft (draft.bindOrdinary name id)
  | tag (name : String) (id : DeclId) (known : (draft.program.decl id).kind.isTag = true) :
      Step base draft (draft.bindTag name id)
  | fileTag (name : String) (id : DeclId) (known : (draft.program.decl id).kind.isTag = true) :
      Step base draft (draft.bindFileTag name id)
  | revise (id : DeclId) (since : base ≤ id) (change : Decl → Decl)
      (revises : draft.Revises id (draft.program.decl id) (change (draft.program.decl id))) :
      Step base draft { draft with program := draft.program.modifyDecl id change }

theorem Step.withSpan (draft : Draft) (span : Span) : Step base draft { draft with span } :=
  .frame span draft.function draft.defined

theorem Step.withFunction (draft : Draft) (function : Option DeclId) :
    Step base draft { draft with function } :=
  .frame draft.span function draft.defined

theorem Step.withDefined (draft : Draft) (defined : List ChainId) :
    Step base draft { draft with defined } :=
  .frame draft.span draft.function defined

theorem Step.weaken {lower : Nat} (step : Step base before after) (below : lower ≤ base) :
    Step lower before after := by
  cases step with
  | frame span function defined => exact .frame span function defined
  | intern type named => exact .intern type named
  | enter => exact .enter
  | leave => exact .leave
  | declare decl previous isNew continues owned => exact .declare decl previous isNew continues owned
  | ordinary name id known => exact .ordinary name id known
  | tag name id known => exact .tag name id known
  | fileTag name id known => exact .fileTag name id known
  | revise id since change revises => exact .revise id (below.trans since) change revises

@[simp] theorem bindOrdinary_program (draft : Draft) (name : String) (id : DeclId) :
    (draft.bindOrdinary name id).program = draft.program := by
  unfold bindOrdinary modifyInnermost; split <;> rfl

@[simp] theorem bindTag_program (draft : Draft) (name : String) (id : DeclId) :
    (draft.bindTag name id).program = draft.program := by
  unfold bindTag modifyInnermost; split <;> rfl

theorem Step.size_le (step : Step base before after) :
    before.program.decls.size ≤ after.program.decls.size := by
  cases step with
  | frame => exact Nat.le_refl _
  | intern => exact Nat.le_refl _
  | enter => exact Nat.le_refl _
  | leave => exact Nat.le_refl _
  | declare => simp
  | ordinary => simp
  | tag => simp
  | fileTag => exact Nat.le_refl _
  | revise => simp

/-- Some steps of reading declarations, after which the old declarations have no other parts than before. -/
def Steps (before after : Draft) : Prop :=
  Relation.ReflTransGen (Step before.program.decls.size) before after

namespace Steps

variable {middle : Draft}

theorem refl : before.Steps before :=
  Relation.ReflTransGen.refl

theorem tail (steps : before.Steps middle) (step : Step before.program.decls.size middle after) : before.Steps after :=
  Relation.ReflTransGen.tail steps step

theorem single (step : Step before.program.decls.size before after) : before.Steps after :=
  refl.tail step

theorem size_le (steps : before.Steps after) : before.program.decls.size ≤ after.program.decls.size := by
  induction steps with
  | refl => exact Nat.le_refl _
  | tail _ step ih => exact ih.trans step.size_le

theorem trans (first : before.Steps middle) (second : middle.Steps after) : before.Steps after := by
  induction second with
  | refl => exact first
  | tail _ step ih => exact ih.tail (step.weaken first.size_le)

theorem head (step : Step before.program.decls.size before middle) (steps : middle.Steps after) : before.Steps after :=
  (single step).trans steps

end Steps

structure SameLayout (before after : Draft) : Prop where
  files : after.program.files = before.program.files
  items : after.program.items = before.program.items
  macros : after.program.macros = before.program.macros
  uses : after.program.uses = before.program.uses
  includes : after.program.includes = before.program.includes
  file : after.file = before.file
  item : after.item = before.item
  read : after.read = before.read

theorem Step.sameLayout (step : Step base before after) : before.SameLayout after := by
  cases step with
  | frame => exact ⟨rfl, rfl, rfl, rfl, rfl, rfl, rfl, rfl⟩
  | intern => exact ⟨rfl, rfl, rfl, rfl, rfl, rfl, rfl, rfl⟩
  | enter => exact ⟨rfl, rfl, rfl, rfl, rfl, rfl, rfl, rfl⟩
  | leave => exact ⟨rfl, rfl, rfl, rfl, rfl, rfl, rfl, rfl⟩
  | declare decl previous => cases previous <;> exact ⟨rfl, rfl, rfl, rfl, rfl, rfl, rfl, rfl⟩
  | ordinary => unfold bindOrdinary modifyInnermost; split <;> exact ⟨rfl, rfl, rfl, rfl, rfl, rfl, rfl, rfl⟩
  | tag => unfold bindTag modifyInnermost; split <;> exact ⟨rfl, rfl, rfl, rfl, rfl, rfl, rfl, rfl⟩
  | fileTag => exact ⟨rfl, rfl, rfl, rfl, rfl, rfl, rfl, rfl⟩
  | revise => exact ⟨rfl, rfl, rfl, rfl, rfl, rfl, rfl, rfl⟩

theorem Steps.sameLayout (steps : before.Steps after) : before.SameLayout after := by
  induction steps with
  | refl => exact ⟨rfl, rfl, rfl, rfl, rfl, rfl, rfl, rfl⟩
  | tail _ step ih =>
    have last := step.sameLayout
    exact ⟨last.files.trans ih.files, last.items.trans ih.items, last.macros.trans ih.macros,
      last.uses.trans ih.uses, last.includes.trans ih.includes, last.file.trans ih.file, last.item.trans ih.item,
      last.read.trans ih.read⟩

theorem Step.decl_of_lt (step : Step base before after) {id : DeclId} (old : id < base)
    (inside : id < before.program.decls.size) : after.program.decl id = before.program.decl id := by
  cases step with
  | frame => rfl
  | intern => rfl
  | enter => rfl
  | leave => rfl
  | declare decl previous => exact Program.decl_addDecl_of_lt inside
  | ordinary => rw [bindOrdinary_program]
  | tag => rw [bindTag_program]
  | fileTag => rfl
  | revise revised since change =>
    have other : id ≠ revised := Nat.ne_of_lt (old.trans_le since)
    dsimp only
    rw [Program.decl_modifyDecl, if_neg fun same => other same.1]

theorem Steps.decl_of_lt (steps : before.Steps after) {id : DeclId}
    (old : id < before.program.decls.size) : after.program.decl id = before.program.decl id := by
  induction steps with
  | refl => rfl
  | tail earlier step ih => rw [step.decl_of_lt old (old.trans_le (Steps.size_le earlier)), ih]

theorem Step.sort_eq (step : Step base before after) {id : DeclId}
    (inside : id < before.program.decls.size) :
    (after.program.decl id).kind.sort = (before.program.decl id).kind.sort := by
  cases step with
  | revise revised since change revises =>
    dsimp only
    rw [Program.decl_modifyDecl]
    split
    · next same => rw [revises.sort, same.1]
    · rfl
  | declare decl previous => exact congrArg (·.kind.sort) (Program.decl_addDecl_of_lt inside)
  | ordinary => rw [bindOrdinary_program]
  | tag => rw [bindTag_program]
  | _ => rfl

theorem innermost_mem_scopes (draft : Draft) : draft.innermost ∈ draft.scopes := by
  unfold innermost scopes
  cases draft.blocks with
  | nil => simp
  | cons scope rest => simp

theorem fileScope_mem_scopes (draft : Draft) : draft.fileScope ∈ draft.scopes := by
  simp [scopes]

end Draft

theorem mem_of_lookup {β : Type} {name : String} {value : β} {bindings : List (String × β)}
    (found : bindings.lookup name = some value) : (name, value) ∈ bindings := by
  obtain ⟨before, after, split, -⟩ := List.lookup_eq_some_iff.mp found
  simp [split]

end Excerpt
