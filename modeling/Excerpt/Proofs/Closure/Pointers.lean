import Excerpt.Config.Basic
import Excerpt.Proofs.Closure.Rules
import Excerpt.Proofs.Draft.Written

/-!
Which declarations are printed as pointers. The marking decides for each declaration; printing looks the pointer up by
name and compares the chain.
-/

namespace Excerpt

theorem Session.renameOf_eq_some {session : Session} {rootChains : List ChainId} {id : DeclId} {rename : Rename}
    (found : session.renameOf? rootChains id = some rename) :
    (session.program.decl id).name = some rename.symbol ∧ rename.chain = (session.program.decl id).chain := by
  unfold Session.renameOf? at found
  split at found
  · cases found
  · unfold Program.rename? at found
    dsimp only at found
    split at found
    · split at found
      · next kind name _ named =>
        split at found
        · cases found
          exact ⟨named, rfl⟩
        · cases found
      · cases found
    · cases found

def Closure.renameNamed? (closure : Closure) (name : Option String) : Option Rename :=
  closure.renames.find? fun rename => some rename.symbol == name

theorem Closure.renameNamed_eq_some {closure : Closure} {name : Option String} {rename : Rename}
    (found : closure.renameNamed? name = some rename) : rename ∈ closure.renames ∧ name = some rename.symbol := by
  have symbol := List.find?_some found
  exact ⟨List.mem_of_find?_eq_some found, (beq_iff_eq.mp symbol).symm⟩

theorem Closure.renameFor_eq_some {closure : Closure} {program : Program} {id : DeclId} {rename : Rename} :
    closure.renameFor? program id = some rename ↔
      closure.renameNamed? (program.decl id).name = some rename ∧ rename.chain = (program.decl id).chain := by
  unfold Closure.renameFor? Closure.renameNamed?
  dsimp only
  rw [Option.filter_eq_some_iff, beq_iff_eq]

namespace Session

variable {session : Session} {requested : List String} {closure : Closure}

def IsSymbol (session : Session) (id : DeclId) : Prop :=
  (session.program.decl id).isFileScope = true ∧
    ((session.program.decl id).kind.isFunction = true ∨ (session.program.decl id).kind.isVar = true)

/-- Marking and printing agree on a declaration: it is printed as a pointer exactly when it is not requested and may
become one, and when it is printed in full, all that its body and its text need is marked. -/
structure Agrees (session : Session) (requested : List String) (closure : Closure) (id : DeclId) : Prop where
  pointer : (closure.renameFor? session.program id).isSome = true ↔
    session.isRequested requested (session.program.decl id).chain = false ∧
      (session.program.rename? session.policy id).isSome = true
  body : closure.renameFor? session.program id = none → ∀ member, session.BodyNeeds id member → member ∈ closure.decls
  macros : closure.renameFor? session.program id = none → ∀ occurrence ∈ session.program.usesInDecl id, ∀ directive,
    session.Expands occurrence.name occurrence.pos directive → directive ∈ closure.macros

/-- Whether a symbol becomes a pointer depends on its name and its entity, not on the declaration. -/
theorem rename_isSome_congr {policy : PointerPolicy} {first second : DeclId} (symbol : session.IsSymbol second)
    (name : (session.program.decl second).name = (session.program.decl first).name)
    (chain : (session.program.decl second).chain = (session.program.decl first).chain)
    (found : (session.program.rename? policy first).isSome = true) :
    (session.program.rename? policy second).isSome = true := by
  obtain ⟨fileScope, sort⟩ := symbol
  have kind : ∃ kind, session.program.symbolKind? second = some kind := by
    unfold Program.symbolKind?
    cases declared : (session.program.decl second).kind <;>
      simp [declared, DeclKind.isFunction, DeclKind.isVar] at sort ⊢
  have internal : session.program.isInternal second = session.program.isInternal first := by
    simp only [Program.isInternal, Program.redecls, chain]
  obtain ⟨kind, known⟩ := kind
  unfold Program.rename? at found ⊢
  dsimp only at found ⊢
  rw [known, name, internal, fileScope]
  split at found
  · next enabled =>
    simp only [Bool.and_eq_true] at enabled
    rw [enabled.1]
    cases named : (session.program.decl first).name with
    | none => simp [named] at found
    | some text =>
      cases other : session.program.symbolKind? first with
      | none => simp [other] at found
      | some _ => simpa [named, other] using found
  · cases found

theorem isSymbol_of_rename {policy : PointerPolicy} {id : DeclId}
    (candidate : (session.program.rename? policy id).isSome = true) : session.IsSymbol id := by
  unfold Program.rename? at candidate
  dsimp only at candidate
  split at candidate
  · next enabled =>
    simp only [Bool.and_eq_true] at enabled
    refine ⟨enabled.2, ?_⟩
    cases kind : (session.program.decl id).kind <;>
      simp [Program.symbolKind?, kind, DeclKind.isFunction, DeclKind.isVar] at candidate ⊢
  · cases candidate

theorem isExternalized_iff {id : DeclId} : session.isExternalized requested id = true ↔
    session.isRequested requested (session.program.decl id).chain = false ∧ session.isDeclExpanded id = true ∧
      (session.program.rename? session.policy id).isSome = true := by
  simp [isExternalized, and_assoc]

/-- Printing knows one pointer for a name, so the declarations that it finds it for belong to one entity. -/
theorem chain_eq_of_renameFor {program : Program} {first second : DeclId}
    (pointerFirst : (closure.renameFor? program first).isSome = true)
    (pointerSecond : (closure.renameFor? program second).isSome = true)
    (name : (program.decl first).name = (program.decl second).name) :
    (program.decl first).chain = (program.decl second).chain := by
  obtain ⟨one, foundOne⟩ := Option.isSome_iff_exists.mp pointerFirst
  obtain ⟨two, foundTwo⟩ := Option.isSome_iff_exists.mp pointerSecond
  have same : one = two := by
    have lookupOne := (Closure.renameFor_eq_some.mp foundOne).1
    have lookupTwo := (Closure.renameFor_eq_some.mp foundTwo).1
    rw [name, lookupTwo] at lookupOne
    exact (Option.some.inj lookupOne).symm
  have chainOne := (Closure.renameFor_eq_some.mp foundOne).2
  have chainTwo := (Closure.renameFor_eq_some.mp foundTwo).2
  rw [← chainOne, ← chainTwo, same]

section Closures

variable (consistent : session.program.Consistent) (found : session.closure requested = .ok closure)
include consistent found

theorem exists_externalized {rename : Rename} (member : rename ∈ closure.renames) :
    ∃ id ∈ closure.decls, session.isExternalized requested id = true ∧
      (session.program.decl id).name = some rename.symbol ∧ rename.chain = (session.program.decl id).chain := by
  obtain ⟨roots, resolved, rfl⟩ := closure_eq_ok found
  obtain ⟨id, marked, origin⟩ := closureOf_origin consistent.chainsInside member
  refine ⟨id, marked, ?_, renameOf_eq_some origin⟩
  rw [← renameOf_isSome consistent resolved, origin]
  rfl

theorem exists_renameNamed {id : DeclId} (marked : id ∈ closure.decls)
    (external : session.isExternalized requested id = true) :
    ∃ rename, closure.renameNamed? (session.program.decl id).name = some rename := by
  obtain ⟨roots, resolved, rfl⟩ := closure_eq_ok found
  rw [← renameOf_isSome consistent resolved] at external
  obtain ⟨rename, origin⟩ := Option.isSome_iff_exists.mp external
  obtain ⟨known, member, same⟩ := closureOf_rename consistent.chainsInside marked origin
  apply Option.isSome_iff_exists.mp
  rw [Closure.renameNamed?, List.find?_isSome]
  exact ⟨known, member, by rw [same, (renameOf_eq_some origin).1]; simp⟩

theorem isExternalized_of_renameFor {id : DeclId} (symbol : session.IsSymbol id)
    (expanded : session.isDeclExpanded id = true) (pointer : (closure.renameFor? session.program id).isSome = true) :
    session.isExternalized requested id = true := by
  obtain ⟨rename, pointer⟩ := Option.isSome_iff_exists.mp pointer
  obtain ⟨lookup, chain⟩ := Closure.renameFor_eq_some.mp pointer
  obtain ⟨member, named⟩ := Closure.renameNamed_eq_some lookup
  obtain ⟨origin, -, external, originNamed, originChain⟩ := exists_externalized consistent found member
  have sameChain : (session.program.decl id).chain = (session.program.decl origin).chain := chain.symm.trans originChain
  simp only [isExternalized, Bool.and_eq_true] at external ⊢
  obtain ⟨⟨free, -⟩, candidate⟩ := external
  rw [sameChain]
  exact ⟨⟨free, expanded⟩, rename_isSome_congr symbol (named.trans originNamed.symm) sameChain candidate⟩

theorem agrees_of_iff {id : DeclId} (marked : id ∈ closure.decls) (expanded : session.isDeclExpanded id = true)
    (same : (closure.renameFor? session.program id).isSome = true ↔ session.isExternalized requested id = true) :
    session.Agrees requested closure id := by
  have obeys := closure_obeys consistent found
  have plain : closure.renameFor? session.program id = none →
      session.isExternalized requested id = false := by
    intro missing
    rw [← Bool.not_eq_true, ← same, missing]
    simp
  refine ⟨?_, fun missing => obeys.bodies id marked (plain missing), fun missing occurrence used => ?_⟩
  · rw [same]
    simp [isExternalized, expanded]
  · refine obeys.uses id marked occurrence ?_
    rw [scannedUses, scanStop, plain missing]
    exact used

theorem renameFor_of_one_chain {id : DeclId} (marked : id ∈ closure.decls)
    (external : session.isExternalized requested id = true)
    (one : ∀ other ∈ closure.decls, session.isExternalized requested other = true →
      (session.program.decl other).name = (session.program.decl id).name →
      (session.program.decl other).chain = (session.program.decl id).chain) :
    (closure.renameFor? session.program id).isSome = true := by
  obtain ⟨rename, lookup⟩ := exists_renameNamed consistent found marked external
  obtain ⟨member, symbol⟩ := Closure.renameNamed_eq_some lookup
  obtain ⟨other, otherMarked, otherExternal, named, chain⟩ := exists_externalized consistent found member
  have same := one other otherMarked otherExternal (named.trans symbol.symm)
  rw [Closure.renameFor_eq_some.mpr ⟨lookup, chain.trans same⟩]
  rfl

end Closures

/-- Printing never makes a pointer that the marking did not. For the declarations of one name the two agree if and only
if those that become pointers are declarations of one entity. -/
theorem agrees_iff_one_chain (read : session.IsRead) (found : session.closure requested = .ok closure) :
    (∀ id ∈ closure.decls, session.IsSymbol id → session.isDeclExpanded id = true →
      (closure.renameFor? session.program id).isSome = true → session.isExternalized requested id = true) ∧
    ∀ name : Option String,
      (∀ id ∈ closure.decls, session.IsSymbol id → session.isDeclExpanded id = true →
        (session.program.decl id).name = name → session.Agrees requested closure id) ↔
      ∀ first ∈ closure.decls, ∀ second ∈ closure.decls, session.isExternalized requested first = true →
        session.isExternalized requested second = true → (session.program.decl first).name = name →
        (session.program.decl second).name = name →
        (session.program.decl first).chain = (session.program.decl second).chain := by
  have consistent := read.consistent
  refine ⟨fun id _ => isExternalized_of_renameFor consistent found, fun name => ⟨fun agree => ?_, fun one => ?_⟩⟩
  · intro first firstMarked second secondMarked firstExternal secondExternal firstNamed secondNamed
    have pointer : ∀ id ∈ closure.decls, session.isExternalized requested id = true →
        (session.program.decl id).name = name → (closure.renameFor? session.program id).isSome = true := by
      intro id marked external named
      obtain ⟨free, expanded, candidate⟩ := isExternalized_iff.mp external
      exact (agree id marked (isSymbol_of_rename candidate) expanded named).pointer.mpr ⟨free, candidate⟩
    exact chain_eq_of_renameFor (pointer first firstMarked firstExternal firstNamed)
      (pointer second secondMarked secondExternal secondNamed) (firstNamed.trans secondNamed.symm)
  · intro id marked symbol expanded named
    apply agrees_of_iff consistent found marked expanded
    constructor
    · exact isExternalized_of_renameFor consistent found symbol expanded
    · intro external
      apply renameFor_of_one_chain consistent found marked external
      intro other otherMarked otherExternal same
      exact one other otherMarked id marked otherExternal external (same.trans named) named

def onePointer : Session :=
  ({} : Config).session (.ofDocument ⟨[], []⟩ ⟨[]⟩ "unit.c"
    (Written.document
      [("", .object "x"), ("\n", .staticFunction "g" (.reference "x")), ("\n", .function "a" (.call "g"))]))

set_option maxRecDepth 10000 in
theorem agrees_onePointer : ∃ closure, onePointer.closure ["a"] = .ok closure ∧ closure.decls = [1, 2] ∧
    (closure.renameFor? onePointer.program 1).isSome = true ∧ onePointer.Agrees ["a"] closure 1 := by
  let closure : Closure :=
    { roots := [2], decls := [1, 2], macros := [], needsUndef := [], renames := [⟨"g", .function, 1⟩],
      passSizes := [2] }
  have facts : onePointer.closure ["a"] = .ok closure ∧ (closure.renameFor? onePointer.program 1).isSome = true ∧
      (∀ first ∈ closure.decls, ∀ second ∈ closure.decls, onePointer.isExternalized ["a"] first = true →
        onePointer.isExternalized ["a"] second = true → (onePointer.program.decl first).name = some "g" →
        (onePointer.program.decl second).name = some "g" →
        (onePointer.program.decl first).chain = (onePointer.program.decl second).chain) ∧
      (onePointer.program.rename? onePointer.policy 1).isSome = true ∧ onePointer.isDeclExpanded 1 = true ∧
      (onePointer.program.decl 1).name = some "g" := by
    decide +kernel
  obtain ⟨found, pointer, one, candidate, expanded, named⟩ := facts
  have agree := ((agrees_iff_one_chain ⟨_, _, _, _, rfl⟩ found).2 (some "g")).mpr one
  exact ⟨closure, found, rfl, pointer, agree 1 (by decide) (isSymbol_of_rename candidate) expanded named⟩

/-- A unit whose two arms of a conditional each define a `static` function `g`; the second `g` reads `x`. -/
def twoArms : Session :=
  ({} : Config).session (.ofDocument ⟨[], []⟩ ⟨[]⟩ "unit.c"
    (Written.document
      [("", .object "x"),
        ("\n", .group "preproc_ifdef"
          [("", .token "'#ifdef" "#ifdef"), (" ", .token "name.identifier" "FAST"),
            ("\n", .staticFunction "g" (.token "number_literal" "1")), ("\n", .function "a" (.call "g")),
            ("\n", .group "alternative.preproc_else"
              [("", .token "'#else" "#else"), ("\n", .staticFunction "g" (.reference "x")),
                ("\n", .function "b" (.call "g"))] ""),
            ("\n", .token "'#endif" "#endif")] "")]))

set_option maxRecDepth 10000 in
/-- The pointer of the first `g` takes the name, so the second is printed in full though its body was not walked. -/
theorem twoArms_disagree : ∃ closure, twoArms.closure ["a", "b"] = .ok closure ∧ 3 ∈ closure.decls ∧
    twoArms.IsSymbol 3 ∧ twoArms.isExternalized ["a", "b"] 3 = true ∧ closure.renameFor? twoArms.program 3 = none ∧
    twoArms.BodyNeeds 3 0 ∧ 0 ∉ closure.decls ∧ ¬twoArms.Agrees ["a", "b"] closure 3 := by
  let closure : Closure :=
    { roots := [2, 4], decls := [1, 2, 3, 4], macros := [], needsUndef := [], renames := [⟨"g", .function, 1⟩],
      passSizes := [4] }
  have facts : twoArms.closure ["a", "b"] = .ok closure ∧ twoArms.isExternalized ["a", "b"] 3 = true ∧
      closure.renameFor? twoArms.program 3 = none ∧ 0 ∈ twoArms.bodyDecls 3 := by
    decide +kernel
  obtain ⟨found, external, plain, reached⟩ := facts
  have read : twoArms.IsRead := ⟨_, _, _, _, rfl⟩
  obtain ⟨free, -, candidate⟩ := isExternalized_iff.mp external
  have needed : twoArms.BodyNeeds 3 0 := (mem_bodyDecls read.consistent).mp reached
  refine ⟨closure, found, by decide, isSymbol_of_rename candidate, external, plain, needed, by decide, ?_⟩
  intro agrees
  have pointer := agrees.pointer.mpr ⟨free, candidate⟩
  rw [plain] at pointer
  cases pointer

end Session

end Excerpt
