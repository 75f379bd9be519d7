import Excerpt.Config.Basic
import Excerpt.Proofs.Closure.Order
import Excerpt.Proofs.Draft.Declarators
import Excerpt.Proofs.Draft.Written

/-!
Closures grow with the requests and with fewer pointers.
-/

namespace Excerpt

/-- Every symbol that becomes a pointer under the policy may do so under the other. -/
def PointerPolicy.AtMost (policy other : PointerPolicy) : Prop :=
  policy.enabled = false ∨
    other.enabled = true ∧ policy.enabled = true ∧ ∀ name ∈ policy.exported, name ∈ other.exported

namespace Closure

structure Within (small large : Closure) : Prop where
  decls : ∀ id ∈ small.decls, id ∈ large.decls
  macros : ∀ id ∈ small.macros, id ∈ large.macros
  needsUndef : ∀ id ∈ small.needsUndef, id ∈ large.needsUndef

structure IsUnion (both left right : Closure) : Prop where
  decls : ∀ id, id ∈ both.decls ↔ id ∈ left.decls ∨ id ∈ right.decls
  macros : ∀ id, id ∈ both.macros ↔ id ∈ left.macros ∨ id ∈ right.macros
  needsUndef : ∀ id, id ∈ both.needsUndef ↔ id ∈ left.needsUndef ∨ id ∈ right.needsUndef

end Closure

/-- A policy that allows more makes a pointer of every symbol of which the other one makes a pointer. -/
theorem Program.rename_isSome_mono {program : Program} {policy other : PointerPolicy} (most : policy.AtMost other)
    {id : DeclId} (found : (program.rename? policy id).isSome = true) : (program.rename? other id).isSome = true := by
  unfold rename? at found ⊢
  dsimp only at found ⊢
  split at found
  · next enabled =>
    obtain ⟨enabled, fileScope⟩ := Bool.and_eq_true_iff.mp enabled
    rcases most with disabled | ⟨other, -, exported⟩
    · rw [disabled] at enabled
      cases enabled
    · rw [other, fileScope]
      split at found
      · next kind name _ _ =>
        split at found
        · next chosen =>
          have chosen : program.isInternal id = true ∨ name ∈ policy.exported := by simpa using chosen
          have stays : program.isInternal id = true ∨ name ∈ _ := chosen.imp_right (exported name)
          simp [stays]
        · cases found
      · cases found
  · cases found

theorem Program.mem_usesBetween_of_le {program : Program} {item : ItemId} {start stop later : Nat} (less : stop ≤ later)
    {occurrence : MacroUse} (used : occurrence ∈ program.usesBetween ⟨item, start⟩ ⟨item, stop⟩) :
    occurrence ∈ program.usesBetween ⟨item, start⟩ ⟨item, later⟩ := by
  simp only [usesBetween, List.mem_filter, SourcePos.before, Bool.and_eq_true, Bool.or_eq_true, beq_iff_eq,
    decide_eq_true_eq] at used ⊢
  obtain ⟨known, after, before⟩ := used
  exact ⟨known, after, before.imp_right fun here => ⟨here.1, here.2.trans_le less⟩⟩

namespace Session

variable {session : Session}

def IsParsed (session : Session) : Prop :=
  ∃ files search path document, FileSystem.IsNested files ∧ document.tree.isNested = true ∧
    session.program = Program.ofDocument files search path document

theorem IsParsed.isRead (parsed : session.IsParsed) : session.IsRead := by
  obtain ⟨files, search, path, document, -, -, same⟩ := parsed
  exact ⟨files, search, path, document, same⟩

theorem IsParsed.declaratorsInside (parsed : session.IsParsed) : session.program.DeclaratorsInside := by
  obtain ⟨files, search, path, document, headers, nested, same⟩ := parsed
  exact same ▸ Program.ofDocument_declaratorsInside headers search path nested

section Grow

variable {requested more : List String} (within : ∀ name ∈ requested, name ∈ more) {policy : PointerPolicy}
  (most : policy.AtMost session.policy)
include within most

theorem isExternalized_of_more {id : DeclId}
    (external : ({ session with policy } : Session).isExternalized more id = true) :
    session.isExternalized requested id = true := by
  simp only [isExternalized, Bool.and_eq_true, Bool.not_eq_true'] at external ⊢
  obtain ⟨⟨free, expanded⟩, candidate⟩ := external
  refine ⟨⟨?_, expanded⟩, Program.rename_isSome_mono most candidate⟩
  simp only [isRequested, List.any_eq_false] at free ⊢
  exact fun name asked => free name (within name asked)

/-- A declaration whose symbol is not a pointer is searched for macros to its end, the declarator included. -/
theorem scanStop_le (inside : session.program.DeclaratorsInside) (id : DeclId) :
    session.scanStop requested id ≤ ({ session with policy } : Session).scanStop more id := by
  have bound : ((session.program.decl id).declarator.map (·.bare.stop)).getD (session.program.decl id).span.stop ≤
      (session.program.decl id).span.stop := by
    cases found : (session.program.decl id).declarator with
    | none => exact Nat.le_refl _
    | some spans => exact inside id spans found
  unfold scanStop
  dsimp only
  cases external : ({ session with policy } : Session).isExternalized more id with
  | true =>
    rw [isExternalized_of_more within most external]
  | false =>
    split
    · exact bound
    · exact Nat.le_refl _

/-- What obeys the rules for more requests and fewer pointers obeys the rules for fewer requests and more pointers. -/
theorem Obeys.of_more (consistent : session.program.Consistent) (inside : session.program.DeclaratorsInside)
    {decls : Set DeclId} {macros : Set MacroId} (obeys : ({ session with policy } : Session).Obeys more decls macros) :
    session.Obeys requested decls macros where
  requests name asked := obeys.requests name (within name asked)
  declarations id marked member needed := by
    -- The list of needed declarations does not depend on the policy.
    have listed : member ∈ session.declDecls id := (mem_declDecls consistent).mpr needed
    have same : ({ session with policy } : Session).program.Consistent := consistent
    exact obeys.declarations id marked member ((mem_declDecls same).mp listed)
  bodies id marked plain member needed := by
    have listed : member ∈ session.bodyDecls id := (mem_bodyDecls consistent).mpr needed
    have same : ({ session with policy } : Session).program.Consistent := consistent
    refine obeys.bodies id marked ?_ member ((mem_bodyDecls same).mp listed)
    cases external : ({ session with policy } : Session).isExternalized more id with
    | true => rw [isExternalized_of_more within most external] at plain; cases plain
    | false => rfl
  uses id marked occurrence used :=
    obeys.uses id marked occurrence (Program.mem_usesBetween_of_le (scanStop_le within most inside id) used)
  replacements directive marked expanded member needed := obeys.replacements directive marked expanded member needed

theorem closure_within (consistent : session.program.Consistent) (inside : session.program.DeclaratorsInside)
    {small large : Closure} (found : session.closure requested = .ok small)
    (foundLarge : ({ session with policy } : Session).closure more = .ok large) : small.Within large := by
  have larger : ({ session with policy } : Session).Obeys more _ _ := closure_obeys consistent foundLarge
  obtain ⟨decls, macros⟩ := closure_subset consistent found (larger.of_more within most consistent inside)
  refine ⟨decls, macros, fun id member => ?_⟩
  rw [needsUndef_eq found, List.mem_filter] at member
  rw [needsUndef_eq foundLarge, List.mem_filter]
  exact ⟨macros id member.1, member.2⟩

end Grow

section Union

variable (off : session.policy.enabled = false)
include off

/-- Without pointers, sets that obey the rules for two requests obey them together for both. -/
theorem Obeys.union {first second : List String} {decls others : Set DeclId} {macros directives : Set MacroId}
    (left : session.Obeys first decls macros) (right : session.Obeys second others directives) :
    session.Obeys (first ++ second) (decls ∪ others) (macros ∪ directives) := by
  have uses : ∀ requested id, session.scannedUses requested id = session.program.usesInDecl id := by
    intro requested id
    simp only [scannedUses, scanStop, isExternalized_of_off off, Program.usesInDecl, Bool.false_eq_true, ↓reduceIte]
  have plain := isExternalized_of_off off
  constructor
  · intro name asked chain listed last representative member inside before
    rcases List.mem_append.mp asked with asked | asked
    · exact .inl (left.requests name asked chain listed last representative member inside before)
    · exact .inr (right.requests name asked chain listed last representative member inside before)
  · rintro id (marked | marked) member needed
    · exact .inl (left.declarations id marked member needed)
    · exact .inr (right.declarations id marked member needed)
  · rintro id (marked | marked) - member needed
    · exact .inl (left.bodies id marked (plain _ id) member needed)
    · exact .inr (right.bodies id marked (plain _ id) member needed)
  · rintro id (marked | marked) occurrence used directive expands
    · exact .inl (left.uses id marked occurrence (by rwa [uses] at used ⊢) directive expands)
    · exact .inr (right.uses id marked occurrence (by rwa [uses] at used ⊢) directive expands)
  · rintro directive (marked | marked) expanded member needed
    · exact .inl (left.replacements directive marked expanded member needed)
    · exact .inr (right.replacements directive marked expanded member needed)

/-- Without pointers the rules do not refer to the requests, so the union of two closures obeys the rules of both. -/
theorem closure_union (consistent : session.program.Consistent) (inside : session.program.DeclaratorsInside)
    {first second : List String} {left right both : Closure} (foundLeft : session.closure first = .ok left)
    (foundRight : session.closure second = .ok right) (found : session.closure (first ++ second) = .ok both) :
    both.IsUnion left right := by
  have obeys := (closure_obeys consistent foundLeft).union off (closure_obeys consistent foundRight)
  obtain ⟨decls, macros⟩ := closure_subset consistent found obeys
  have same : session.policy.AtMost session.policy := .inl off
  have withLeft : left.Within both :=
    closure_within (fun _ => List.mem_append_left _) same consistent inside foundLeft found
  have withRight : right.Within both :=
    closure_within (fun _ => List.mem_append_right _) same consistent inside foundRight found
  refine ⟨fun id => ⟨decls id, ?_⟩, fun id => ⟨macros id, ?_⟩, fun id => ⟨fun member => ?_, ?_⟩⟩
  · exact fun member => member.elim (withLeft.decls id) (withRight.decls id)
  · exact fun member => member.elim (withLeft.macros id) (withRight.macros id)
  · rw [needsUndef_eq found, List.mem_filter] at member
    rw [needsUndef_eq foundLeft, needsUndef_eq foundRight, List.mem_filter, List.mem_filter]
    exact (macros id member.1).imp (⟨·, member.2⟩) (⟨·, member.2⟩)
  · exact fun member => member.elim (withLeft.needsUndef id) (withRight.needsUndef id)

end Union

/-- More requests and fewer pointers give a larger closure. Without pointers the closure of two lists of requests
together is the union of their closures. -/
theorem closure_monotone_and_additive (parsed : session.IsParsed) :
    (∀ requested more policy small large, (∀ name ∈ requested, name ∈ more) → policy.AtMost session.policy →
      session.closure requested = .ok small → ({ session with policy } : Session).closure more = .ok large →
      small.Within large) ∧
    (session.policy.enabled = false → ∀ first second left right, session.closure first = .ok left →
      session.closure second = .ok right →
      ∃ both, session.closure (first ++ second) = .ok both ∧ both.IsUnion left right) := by
  have consistent := parsed.isRead.consistent
  have inside := parsed.declaratorsInside
  constructor
  · intro requested more policy small large within most found foundLarge
    exact closure_within within most consistent inside found foundLarge
  · intro off first second left right foundLeft foundRight
    obtain ⟨leftRoots, leftResolved, -⟩ := closure_eq_ok foundLeft
    obtain ⟨rightRoots, rightResolved, -⟩ := closure_eq_ok foundRight
    obtain ⟨roots, resolved⟩ : ∃ roots, (first ++ second).mapM session.root = .ok roots := by
      refine exists_roots fun name asked => ?_
      rcases List.mem_append.mp asked with asked | asked
      · obtain ⟨root, -, known⟩ := (roots_of_mapM leftResolved).1 name asked
        exact ⟨root, known⟩
      · obtain ⟨root, -, known⟩ := (roots_of_mapM rightResolved).1 name asked
        exact ⟨root, known⟩
    have found : session.closure (first ++ second) = .ok (session.closureOf roots) := by
      rw [Session.closure, resolved]
      rfl
    exact ⟨_, found, closure_union off consistent inside foundLeft foundRight found⟩

def helperChain (externalize : Bool) : Session :=
  ({ externalize } : Config).session (.ofDocument ⟨[], []⟩ ⟨[]⟩ "unit.c"
    (Written.document
      [("", .define "N" "1"), ("", .define "K" "2"), ("", .staticFunction "h" (.reference "N")),
        ("\n", .staticFunction "g" (.call "h")), ("\n", .function "a" (.call "g")),
        ("\n", .function "b" (.reference "K"))]))

theorem helperChain_isParsed (externalize : Bool) : (helperChain externalize).IsParsed := by
  have headers : FileSystem.IsNested ⟨[], []⟩ := by
    intro place document known
    cases known
  exact ⟨_, _, _, _, headers, by decide +kernel, rfl⟩

set_option maxRecDepth 10000 in
theorem closure_monotone_helperChain : ∃ small large left right both : Closure,
    (helperChain true).closure ["a"] = .ok small ∧ (helperChain true).closure ["a", "g"] = .ok large ∧
      small.Within large ∧
    small.decls = [1, 2] ∧ large.decls = [0, 1, 2] ∧ (helperChain false).closure ["a"] = .ok left ∧
    small.Within left ∧ left.macros = [0] ∧ (helperChain false).closure ["b"] = .ok right ∧ right.decls = [3] ∧
    (helperChain false).closure ["a", "b"] = .ok both ∧ both.IsUnion left right := by
  let small : Closure :=
    { roots := [2], decls := [1, 2], macros := [], needsUndef := [], renames := [⟨"g", .function, 1⟩],
      passSizes := [2] }
  let large : Closure :=
    { roots := [2, 1], decls := [0, 1, 2], macros := [], needsUndef := [], renames := [⟨"h", .function, 0⟩],
      passSizes := [3] }
  let left : Closure :=
    { roots := [2], decls := [0, 1, 2], macros := [0], needsUndef := [], renames := [], passSizes := [2, 3, 3] }
  let right : Closure :=
    { roots := [3], decls := [3], macros := [1], needsUndef := [], renames := [], passSizes := [1] }
  have foundSmall : (helperChain true).closure ["a"] = .ok small := by decide +kernel
  have foundLarge : (helperChain true).closure ["a", "g"] = .ok large := by decide +kernel
  have foundLeft : (helperChain false).closure ["a"] = .ok left := by decide +kernel
  have foundRight : (helperChain false).closure ["b"] = .ok right := by decide +kernel
  obtain ⟨grow, -⟩ := closure_monotone_and_additive (helperChain_isParsed true)
  obtain ⟨-, add⟩ := closure_monotone_and_additive (helperChain_isParsed false)
  obtain ⟨both, foundBoth, union⟩ := add rfl ["a"] ["b"] left right foundLeft foundRight
  have same : (helperChain true).policy.AtMost (helperChain true).policy := .inr ⟨rfl, rfl, fun _ => id⟩
  have less : (helperChain false).policy.AtMost (helperChain true).policy := .inl rfl
  have requests := grow ["a"] ["a", "g"] _ small large (by simp) same foundSmall foundLarge
  have pointers := grow ["a"] ["a"] _ small left (by simp) less foundSmall foundLeft
  exact ⟨small, large, left, right, both, foundSmall, foundLarge, requests, rfl, rfl, foundLeft, pointers, rfl,
    foundRight, rfl, foundBoth, union⟩

end Session

end Excerpt
