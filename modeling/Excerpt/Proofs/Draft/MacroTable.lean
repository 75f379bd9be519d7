import Excerpt.Proofs.Draft.Tracing
import Excerpt.Proofs.Program.Timeline

/-!
The macro definitions in force while a unit is read, and those that its positions give.
-/

namespace Excerpt

abbrev MacroTable := String → Option MacroId

namespace MacroTable

def ofDirectives (directives : Array MacroDirective) : MacroTable :=
  ({ program := { macros := directives } } : Draft).definition?

theorem definition_eq (draft : Draft) : draft.definition? = ofDirectives draft.program.macros :=
  rfl

theorem ofDirectives_empty : ofDirectives #[] = fun _ => none :=
  rfl

/-- A `#define` takes its name over and an `#undef` frees it. -/
theorem ofDirectives_push (directives : Array MacroDirective) (last : MacroDirective) :
    ofDirectives (directives.push last) =
      Function.update (ofDirectives directives) last.name (if last.isDefine then some directives.size else none) := by
  funext name
  have old : ∀ id ∈ List.range directives.size,
      (directives.push last).getD id default = directives.getD id default := by
    intro id inside
    have inside := List.mem_range.mp inside
    simp [Array.getD_eq_getD_getElem?, Array.getElem?_push, Nat.ne_of_lt inside]
  have new : (directives.push last).getD directives.size default = last := by
    simp
  have front : (List.range directives.size).filter (fun id => ((directives.push last).getD id default).name == name) =
      (List.range directives.size).filter fun id => (directives.getD id default).name == name :=
    List.filter_congr fun id inside => by rw [old id inside]
  simp only [ofDirectives, Draft.definition?, Program.directive, Array.size_push, List.range_succ,
    List.filter_append, front]
  by_cases own : last.name = name
  · rw [List.filter_cons_of_pos (by simp [own]), List.filter_nil, List.getLast?_concat, ← own, Function.update_self,
      Option.filter_some, new]
  · rw [List.filter_cons_of_neg (by simpa using own), List.filter_nil, List.append_nil,
      Function.update_of_ne (Ne.symm own), Draft.definition?]
    simp only [Program.directive]
    cases found :
      ((List.range directives.size).filter fun id => (directives.getD id default).name == name).getLast? with
    | none => rfl
    | some id =>
      rw [Option.filter_some, Option.filter_some, old id (List.mem_of_mem_filter (List.mem_of_getLast? found))]

end MacroTable

namespace Opening

/-- The table behind an item: a definition takes its name over, and a removal frees it. -/
def tableAfter (opening : Opening) (table : MacroTable) : MacroTable :=
  match opening.item.form with
  | .define name _ _ => Function.update table name (some opening.draft.program.macros.size)
  | .undef name => Function.update table name none
  | _ => table

def tableOf (openings : List Opening) : MacroTable :=
  openings.foldl (fun table opening => opening.tableAfter table) fun _ => none

theorem tableAfter_ofDirectives (opening : Opening) :
    opening.tableAfter (MacroTable.ofDirectives opening.draft.program.macros) =
      MacroTable.ofDirectives opening.macros := by
  obtain ⟨document, ⟨extent, form⟩, draft⟩ := opening
  cases form with
  | define | undef =>
    simp only [tableAfter, macros, Surface.Form.macro?, MacroTable.ofDirectives_push]
    rfl
  | inclusion | directive | function | declaration | other => rfl

theorem Relays.table {first last : Array MacroDirective} {openings : List Opening}
    (relays : Relays first openings last) :
    openings.foldl (fun table opening => opening.tableAfter table) (MacroTable.ofDirectives first) =
      MacroTable.ofDirectives last := by
  induction openings generalizing first with
  | nil => rw [relays, List.foldl_nil]
  | cons opening rest ih =>
    obtain ⟨here, behind⟩ := relays
    rw [List.foldl_cons, ← here, opening.tableAfter_ofDirectives, ih behind]

theorem Relays.front {first last : Array MacroDirective} {front back : List Opening} {opening : Opening}
    (relays : Relays first (front ++ opening :: back) last) : Relays first front opening.draft.program.macros := by
  induction front generalizing first with
  | nil => exact relays.1
  | cons _ rest ih => exact ⟨relays.1, ih relays.2⟩

theorem Relays.definition {last : Array MacroDirective} {front back : List Opening} {opening : Opening}
    (relays : Relays #[] (front ++ opening :: back) last) : opening.draft.definition? = tableOf front := by
  rw [MacroTable.definition_eq, ← relays.front.table, MacroTable.ofDirectives_empty, tableOf]

/-- The drafts that occur while an item is entered, those of a header that it brings in apart. -/
def Occurs (opening : Opening) (moment : Draft) : Prop :=
  moment = opening.draft ∨ opening.start.Steps moment

theorem Occurs.macros {opening : Opening} {moment : Draft} (occurs : opening.Occurs moment) :
    moment.program.macros = opening.draft.program.macros := by
  rcases occurs with same | steps
  · rw [same]
  · rw [steps.sameLayout.macros, opening.start_sameTables.macros]

end Opening

theorem filter_range_lt {count bound : Nat} (inside : bound ≤ count) :
    (List.range count).filter (fun id => decide (id < bound)) = List.range bound := by
  obtain ⟨rest, rfl⟩ := Nat.exists_eq_add_of_le inside
  rw [List.range_add, List.filter_append]
  have front : (List.range bound).filter (fun id => decide (id < bound)) = List.range bound :=
    List.filter_eq_self.mpr fun id member => by simpa using member
  have back : ((List.range rest).map (bound + ·)).filter (fun id => decide (id < bound)) = [] := by
    simp
  rw [front, back, List.append_nil]

namespace Program

section Unit

variable {program : Program} (unit : program.Unrolling [])
include unit

theorem timeline_of_ascends (ascends : ∀ early late : Nat, early < late → late < program.macros.size →
      (program.directive early).item < (program.directive late).item) (name : String) :
    program.timeline name = (List.range program.macros.size).filter fun id => (program.directive id).name == name := by
  rw [timeline, stableSort_eq_insertionSort]
  apply List.Pairwise.insertionSort_eq
  apply List.Pairwise.filter
  refine List.pairwise_lt_range.imp_of_mem fun {early late} first second less => ?_
  have first := List.mem_range.mp first
  have second := List.mem_range.mp second
  exact (directive_atOrBefore_iff unit first second).mpr (Nat.le_of_lt (ascends early late less second))

/-- The directives before an item are those that were read before it, so its position gives what the table had. -/
theorem visibleDefinition_of_lasts {opening : Opening} (lasts : opening.Lasts program)
    (ascends : ∀ early late : Nat, early < late → late < program.macros.size →
      (program.directive early).item < (program.directive late).item)
    (noDirective : ∀ id, (program.item opening.draft.item).kind ≠ .directive id) (name : String) (offset : Nat) :
    program.visibleDefinition? name ⟨opening.draft.item, offset⟩ = opening.draft.definition? name := by
  have early : ∀ id ∈ List.range program.macros.size,
      (program.directive id).pos.atOrBefore ⟨opening.draft.item, offset⟩ =
        decide (id < opening.draft.program.macros.size) := by
    intro id inside
    have inside := List.mem_range.mp inside
    rw [Bool.eq_iff_iff, decide_eq_true_eq, directive_atOrBefore_pos unit inside noDirective]
    exact (lasts.earlier id inside).symm
  have known : (List.range program.macros.size).filter
      (fun id => (program.directive id).pos.atOrBefore ⟨opening.draft.item, offset⟩) =
        List.range opening.draft.program.macros.size := by
    rw [List.filter_congr early, filter_range_lt lasts.macroCount]
  have names : ∀ id ∈ List.range opening.draft.program.macros.size,
      program.directive id = opening.draft.program.directive id :=
    fun id inside => lasts.directive id (List.mem_range.mp inside)
  rw [visibleDefinition?, directiveAt_eq, timeline_of_ascends unit ascends, List.filter_comm, known, Draft.definition?,
    List.filter_congr fun id inside => by rw [names id inside]]
  cases found : ((List.range opening.draft.program.macros.size).filter
      fun id => (opening.draft.program.directive id).name == name).getLast? with
  | none => rfl
  | some id =>
    rw [Option.filter_some, Option.filter_some, names id (List.mem_of_mem_filter (List.mem_of_getLast? found))]

end Unit

/-- The table that the items of a unit build up and the positions of the finished unit agree. -/
structure MacrosAgree (program : Program) (openings : List Opening) : Prop where
  /-- The openings are the items of the unit in their order. -/
  items : openings.map (·.draft.item) = List.range program.items.size
  /-- While an item is entered, the table is what the items in front of it made of it. -/
  entered : ∀ front opening back, openings = front ++ opening :: back → ∀ moment, opening.Occurs moment →
    moment.definition? = Opening.tableOf front
  /-- At every offset of an item that is no `#define` or `#undef`, a position gives what the table holds. -/
  resolved : ∀ front opening back, openings = front ++ opening :: back →
    (∀ id, (program.item opening.draft.item).kind ≠ .directive id) → ∀ name offset id,
      Opening.tableOf front name = some id ↔ program.resolveMacro name ⟨opening.draft.item, offset⟩ = .ok id
  /-- Every use was recorded while an item was entered, and it resolves to what the table held then. -/
  uses : ∀ occurrence ∈ program.uses, ∃ front opening back id, openings = front ++ opening :: back ∧
    occurrence ∈ opening.uses ∧ occurrence.pos.seq = opening.draft.item ∧
      Opening.tableOf front occurrence.name = some id ∧ program.resolveMacro occurrence.name occurrence.pos = .ok id

section Opened

variable {known : Document → Prop} {program : Program} {openings : List Opening}
  (opened : program.Opened known openings)
include opened

theorem Opened.noDirective {opening : Opening} (member : opening ∈ openings) (isCode : opening.item.form.isCode = true)
    (id : MacroId) : (program.item opening.draft.item).kind ≠ .directive id := by
  intro kind
  have directive := (opened.lasts opening member).kind.directive.mp ⟨id, kind⟩
  rw [Surface.Form.isMacroDirective, Surface.Form.macro_of_isCode isCode] at directive
  cases directive

/-- Table and positions give the same answer at every item that is not such a directive itself. -/
theorem Opened.macrosAgree (unit : program.Unrolling []) : program.MacrosAgree openings := by
  have resolved : ∀ front opening back, openings = front ++ opening :: back →
      (∀ id, (program.item opening.draft.item).kind ≠ .directive id) → ∀ name offset id,
        Opening.tableOf front name = some id ↔ program.resolveMacro name ⟨opening.draft.item, offset⟩ = .ok id := by
    intro front opening back split noDirective name offset id
    have relays := opened.relays
    rw [split] at relays
    have lasts := opened.lasts opening (by rw [split]; simp)
    rw [resolveMacro_eq_ok, visibleDefinition_of_lasts unit lasts opened.ascends noDirective, relays.definition]
  refine ⟨opened.items_eq_range, ?_, resolved, ?_⟩
  · intro front opening back split moment occurs
    have relays := opened.relays
    rw [split] at relays
    rw [← relays.definition, MacroTable.definition_eq, MacroTable.definition_eq, occurs.macros]
  · intro occurrence used
    obtain ⟨opening, member, own⟩ := opened.uses occurrence used
    obtain ⟨isCode, offset, name, id, -, defined, -, rfl⟩ := Opening.mem_uses.mp own
    obtain ⟨front, back, split⟩ := List.append_of_mem member
    have relays := opened.relays
    rw [split] at relays
    rw [relays.definition] at defined
    exact ⟨front, opening, back, id, split, own, rfl, defined,
      (resolved front opening back split (opened.noDirective member isCode) _ _ id).mp defined⟩

end Opened

/-- While a unit is read, its macro names mean what their positions in the finished unit say. -/
theorem ofDocument_macros_agree (files : FileSystem) (search : SearchPath) (path : String) (document : Document) :
    (Program.ofDocument files search path document).MacrosAgree (Program.openingsOf files search path document) :=
  (ofDocument_opened files search path document).macrosAgree (ofDocument_unrolled files search path document)

end Program

end Excerpt
