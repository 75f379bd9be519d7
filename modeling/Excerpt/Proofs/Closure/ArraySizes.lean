import Excerpt.Config.Basic
import Excerpt.Proofs.Closure.Rules
import Excerpt.Proofs.Constant.Substitution
import Excerpt.Proofs.Draft.Sorts
import Excerpt.Proofs.Draft.UnitSizes
import Excerpt.Proofs.Draft.Written
import Excerpt.Proofs.Program.EnumValue
import Excerpt.Proofs.Text.Tokens
import Mathlib.Data.List.TakeWhile

/-!
The enumerations that array sizes come from. A type keeps the number that a size was folded to, not the names in it, so
the enumeration is found again by that number.
-/

namespace Excerpt

def DeclKind.constant? : DeclKind → Option (Int64 × DeclId)
  | .enumConstant value owner _ => some (value, owner)
  | _ => none

theorem DeclKind.constant?_eq_some {kind : DeclKind} {value : Int64} {owner : DeclId}
    (found : kind.constant? = some (value, owner)) : ∃ init, kind = .enumConstant value owner init := by
  cases kind <;> simp_all [constant?]

namespace Program

variable (program : Program)

/-- The enumeration that a value stands for: that of the last constant of the value at file scope, with no constant of
the value inside the function at hand. -/
structure StandsFor (value : Int64) (context : Option DeclId) (owner : DeclId) : Prop where
  last : ∃ constant init, (program.decl constant).context = none ∧
    (program.decl constant).kind = .enumConstant value owner init ∧
    ∀ other, program.IsConstant value none other → other ≤ constant
  unhidden : ∀ function ∈ context, ∀ other, ¬ program.IsConstant value (some function) other

variable {program} {value : Int64} {context : Option DeclId}

theorem StandsFor.enumConstant? {owner : DeclId} (stands : program.StandsFor value context owner) :
    ∃ constant init, program.enumConstant? value context = some constant ∧
      (program.decl constant).kind = .enumConstant value owner init := by
  obtain ⟨constant, init, atFileScope, kind, last⟩ := stands.last
  have found := enumConstantIn?_eq_some_iff.mpr ⟨⟨atFileScope, owner, init, kind⟩, fun other known => last other known⟩
  refine ⟨constant, init, ?_, kind⟩
  rw [Program.enumConstant?, found]
  cases context with
  | none => rw [found, Option.some_or]
  | some function => rw [enumConstantIn?_eq_none_iff.mpr (stands.unhidden function rfl), Option.none_or]

end Program

namespace Token

theorem tokenize_of_isCIdentifier {name : String} (isName : isCIdentifier name = true) :
    tokenize name.toList = [⟨.identifier, name, 0⟩] := by
  unfold isCIdentifier at isName
  split at isName
  · cases isName
  · next c rest text =>
    obtain ⟨start, inside⟩ := Bool.and_eq_true_iff.mp isName
    have ends : rest.takeWhile isIdentifierChar = rest := List.takeWhile_eq_self_iff.mpr (List.all_eq_true.mp inside)
    have found : lexeme? (c :: rest) = some (.token .identifier (rest.length + 1)) := by
      rw [lexeme_of_isIdentifierStart start]
      simp [identifier?, start, ends]
    have whole : (c :: rest).take (rest.length + 1) = name.toList := by simp [text]
    have nothing := scanFrom_skip rest [] c.utf8Size
    rw [List.append_nil] at nothing
    rw [text, tokenize, scanFrom]
    simp only [found, whole, String.ofList_toList, Nat.add_sub_cancel, Nat.zero_add, nothing, scanFrom]

end Token

theorem Constant.evaluate_name {resolve : String → Option Int64} {name : String} (isName : isCIdentifier name = true)
    (isOperand : name ≠ "sizeof") : Constant.evaluate resolve name.toList = resolve name := by
  have derived : Derives 11 (tokenize name.toList) (.name name) := by
    rw [Token.tokenize_of_isCIdentifier isName]
    exact .name rfl isOperand
  exact derived.evaluate_eq

theorem Draft.fold_name {draft : Draft} {name : String} {constant owner : DeclId} {value : Int64} {init : Option Stmt}
    (isName : isCIdentifier name = true) (isOperand : name ≠ "sizeof") (plain : draft.definition? name = none)
    (bound : draft.ordinary? name = some constant)
    (kind : (draft.program.decl constant).kind = .enumConstant value owner init) :
    draft.fold name.toList = some value := by
  rw [fold, Constant.evaluate_name isName isOperand, foldDepth, constant?]
  simp only [plain, bound, kind]

namespace Session

variable {session : Session} {requested : List String} {closure : Closure}

theorem markedWith_self (consistent : session.program.Consistent) {id : DeclId}
    (inside : id < session.program.decls.size) : session.MarkedWith id id :=
  ⟨id, .inl rfl, (consistent.chains _ id).mpr ⟨inside, rfl⟩, Nat.le_refl id⟩

/-- The owner of the constant that a size stands for is a tag of the unit, so the size needs it. -/
theorem typeNeeds_of_hasArray (consistent : session.program.Consistent) (sorted : session.program.WellSorted)
    {type : TypeId} {value : Int64} {context : Option DeclId} {owner : DeclId}
    (array : session.program.HasArray type (some value)) (stands : session.program.StandsFor value context owner) :
    session.TypeNeeds context type owner := by
  obtain ⟨part, element, reached, same⟩ := array
  obtain ⟨constant, init, found, kind⟩ := stands.enumConstant?
  have owned : session.owner? constant = some owner := by rw [owner?, kind]
  -- The owner is a tag, and only declarations in the table are tags.
  have inside := Program.lt_size_of_sort (sorted.owners constant value owner init kind) (by decide)
  exact ⟨part, owner, reached, same ▸ .arraySize found owned, markedWith_self consistent inside⟩

section Closures

variable (consistent : session.program.Consistent) (off : session.policy.enabled = false)
  (found : session.closure requested = .ok closure) {id owner : DeclId} {type : TypeId}
  (declared : type ∈ (session.program.decl id).kind.declaredTypes)
  (needed : session.TypeNeeds (session.lookupContext id) type owner)
include consistent found declared needed

theorem mem_closure_of_declared (marked : id ∈ closure.decls) : owner ∈ closure.decls :=
  (closure_obeys consistent found).declarations id marked owner (.type declared needed)

include off in
/-- A declaration inside a marked function counts although it need not be marked itself: a local variable never is, and
the walk through the body goes on to its type. -/
theorem mem_closure_of_local {function : DeclId} {body : Stmt} (inside : id < session.program.decls.size)
    (read : (session.program.decl function).kind.body? = some body) (declares : body.Declares id)
    (marked : function ∈ closure.decls) : owner ∈ closure.decls := by
  obtain ⟨node, inner, place⟩ := declares
  have reached : Relation.ReflTransGen session.program.StmtStep body node :=
    Program.reaches_of_hasChild (Stmt.reaches_of_mem_preorder inner)
  have obeys := (closure_obeys consistent found).bodies function marked (isExternalized_of_off off requested function)
  -- A local variable is not marked itself: the node that declares it leads to its type.
  cases kind : (session.program.decl id).kind.isVar with
  | false =>
    refine mem_closure_of_declared consistent found declared needed (obeys id ⟨body, node, read, reached, ?_⟩)
    rw [place]
    exact .declaration kind ⟨(consistent.chains _ id).mpr ⟨inside, rfl⟩, Nat.le_refl id⟩
  | true =>
    refine obeys owner ⟨body, node, read, reached, ?_⟩
    cases same : (session.program.decl id).kind with
    | var variableType init =>
      obtain rfl : type = variableType := by simpa [same, DeclKind.declaredTypes] using declared
      rw [place]
      exact .variable same needed
    | _ => simp [same, DeclKind.isVar] at kind

end Closures

/-- Without pointers, a closure holds the enumerations that the sizes of the arrays in it stand for. The arrays are
those in the type of a marked declaration, or of a declaration inside a marked function. A size that is the name of a
constant at file scope has the enumeration of the constant, unless the value stands for another one. -/
theorem array_size_owner_mem_closure {files : FileSystem} {search : SearchPath} {path : String} {document : Document}
    (read : session.program = Program.ofDocument files search path document) (off : session.policy.enabled = false)
    (found : session.closure requested = .ok closure) :
    ∀ reading ∈ Program.sizesOf files search path document, ∃ id, reading.holder = some id ∧
      ((id ∈ closure.decls ∨
          reading.isLocal = true ∧ ∃ function ∈ (session.program.decl id).context, function ∈ closure.decls) →
        (∀ value owner, reading.size = some value → session.program.StandsFor value (session.lookupContext id) owner →
          owner ∈ closure.decls) ∧
        (∀ name constant value owner init, reading.text = name.toList → isCIdentifier name = true → name ≠ "sizeof" →
          reading.draft.definition? name = none → reading.draft.ordinary? name = some constant →
          (reading.draft.program.decl constant).kind = .enumConstant value owner init →
          session.program.StandsFor value (session.lookupContext id) owner → owner ∈ closure.decls)) := by
  intro reading listed
  have recorded := Program.sizesOf_recorded files search path document reading listed
  have consistent := Program.ofDocument_consistent files search path document
  have sorted := Program.ofDocument_wellSorted files search path document
  rw [← read] at recorded consistent sorted
  obtain ⟨id, holder, inside, type, declared, array⟩ := recorded.found
  refine ⟨id, holder, fun marked => ?_⟩
  have bySize : ∀ value owner, reading.size = some value →
      session.program.StandsFor value (session.lookupContext id) owner → owner ∈ closure.decls := by
    intro value owner size stands
    have needed := typeNeeds_of_hasArray consistent sorted (size ▸ array) stands
    rcases marked with marked | ⟨isLocal, function, context, marked⟩
    · exact mem_closure_of_declared consistent found declared needed marked
    · obtain ⟨body, bodied, declares⟩ := recorded.declared isLocal id holder function context
      exact mem_closure_of_local consistent off found declared needed inside bodied declares marked
  refine ⟨bySize, fun name constant value owner init text isName isOperand plain bound kind => ?_⟩
  have size : reading.size = some value := by
    rw [SizeReading.size, text, Draft.fold_name isName isOperand plain bound kind]
  exact bySize value owner size

/-- Two enumerations with a constant of the value 4 each, an array and a function that reads it. -/
def sharedSizeUnit (size : String) : Document :=
  Written.document
    [("", .valuedEnumeration "a" "X" "4"), ("", .token "';" ";"), ("\n", .valuedEnumeration "b" "Y" "4"),
      ("", .token "';" ";"), ("\n", .array "t" size), ("\n", .function "f" (.element "t" "0"))]

def sharedSize (size : String) : Session :=
  ({ externalize := false } : Config).session (.ofDocument ⟨[], []⟩ ⟨[]⟩ "unit.c" (sharedSizeUnit size))

structure SharedSizeReading (name : String) (constant owner : DeclId) (reading : SizeReading) : Prop where
  listed : reading ∈ Program.sizesOf ⟨[], []⟩ ⟨[]⟩ "unit.c" (sharedSizeUnit name)
  text : reading.text = name.toList
  holder : reading.holder = some 4
  plain : reading.draft.definition? name = none
  bound : reading.draft.ordinary? name = some constant
  kind : ∃ init, (reading.draft.program.decl constant).kind = .enumConstant 4 owner init

theorem exists_sharedSizeReading {name : String} {constant owner : DeclId}
    (read : (Program.sizesOf ⟨[], []⟩ ⟨[]⟩ "unit.c" (sharedSizeUnit name)).map (fun reading =>
        ((reading.text, reading.holder),
          (reading.draft.definition? name, reading.draft.ordinary? name),
          (reading.draft.program.decl constant).kind.constant?)) =
      [((name.toList, some 4), (none, some constant), some (4, owner))]) :
    ∃ reading, SharedSizeReading name constant owner reading := by
  obtain ⟨reading, single, facts⟩ := List.map_eq_singleton_iff.mp read
  simp only [Prod.mk.injEq] at facts
  obtain ⟨⟨text, holder⟩, ⟨plain, bound⟩, constant⟩ := facts
  exact ⟨reading, single ▸ List.mem_singleton_self reading, text, holder, plain, bound,
    DeclKind.constant?_eq_some constant⟩

set_option maxRecDepth 10000 in
/-- The size `Y` stands for the second of two constants of its value. -/
theorem array_size_owner_mem_sharedSize : ∃ closure reading, (sharedSize "Y").closure ["f"] = .ok closure ∧
    SharedSizeReading "Y" 3 2 reading ∧ 4 ∈ closure.decls ∧ 2 ∈ closure.decls := by
  obtain ⟨found, entries, constant, atFileScope⟩ : (sharedSize "Y").closure ["f"] = .ok
        { roots := [5], decls := [2, 3, 4, 5], macros := [], needsUndef := [], renames := [], passSizes := [4, 4] } ∧
      (sharedSize "Y").program.enumValues = [((4, none), 1), ((4, none), 3)] ∧
      ((sharedSize "Y").program.decl 3).kind.constant? = some (4, 2) ∧ (sharedSize "Y").lookupContext 4 = none := by
    decide +kernel
  obtain ⟨reading, read⟩ : ∃ reading, SharedSizeReading "Y" 3 2 reading := exists_sharedSizeReading (by decide +kernel)
  obtain ⟨init, kind⟩ := DeclKind.constant?_eq_some constant
  have constants : ∀ other, (sharedSize "Y").program.IsConstant 4 none other ↔ other = 1 ∨ other = 3 := by
    intro other
    rw [← Program.mem_enumValues, entries]
    simp
  have stands : (sharedSize "Y").program.StandsFor 4 ((sharedSize "Y").lookupContext 4) 2 := by
    refine ⟨⟨3, init, ((constants 3).mpr (.inr rfl)).1, kind, fun other known => ?_⟩, by simp [atFileScope]⟩
    rcases (constants other).mp known with rfl | rfl <;> decide
  obtain ⟨id, holder, owners⟩ := array_size_owner_mem_closure rfl rfl found reading read.listed
  obtain rfl : 4 = id := Option.some.inj (read.holder.symm.trans holder)
  obtain ⟨init, kind⟩ := read.kind
  obtain ⟨-, byName⟩ := owners (.inl (by decide))
  exact ⟨_, reading, found, read, by decide,
    byName "Y" 3 4 2 init read.text (by decide) (by decide) read.plain read.bound kind stands⟩

set_option maxRecDepth 10000 in
/-- The size `X` is taken for the other constant of its value, so that the enumeration of `X` is missing. -/
theorem array_size_owner_missing_sharedSize : ∃ closure reading, (sharedSize "X").closure ["f"] = .ok closure ∧
    SharedSizeReading "X" 1 0 reading ∧ 4 ∈ closure.decls ∧ ((sharedSize "X").program.decl 1).context = none ∧
    0 ∉ closure.decls := by
  obtain ⟨found, atFileScope⟩ : (sharedSize "X").closure ["f"] = .ok
        { roots := [5], decls := [2, 3, 4, 5], macros := [], needsUndef := [], renames := [], passSizes := [4, 4] } ∧
      ((sharedSize "X").program.decl 1).context = none := by
    decide +kernel
  obtain ⟨reading, read⟩ : ∃ reading, SharedSizeReading "X" 1 0 reading := exists_sharedSizeReading (by decide +kernel)
  exact ⟨_, reading, found, read, by decide, atFileScope, by decide⟩

end Session

end Excerpt
