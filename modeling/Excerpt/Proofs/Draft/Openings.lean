import Excerpt.Proofs.Draft.Confining
import Excerpt.Proofs.Draft.Forming
import Excerpt.Proofs.Draft.ItemCode
import Excerpt.Proofs.Draft.Layout

/-!
What an item finds when it is entered, and what it adds. `Opening.Lasts` says that both are still there in a later
program.
-/

namespace Excerpt

namespace Draft

/-- Between items the scopes are sound, no block is open, and names at file scope stand for declarations of that
name. -/
structure Settled (draft : Draft) : Prop where
  consistent : draft.Consistent
  names : ∀ name id, (name, id) ∈ draft.fileScope.ordinary →
    (draft.program.decl id).name = some name ∧ (draft.program.decl id).context = none
  blocks : draft.blocks = []

theorem Settled.congr {draft other : Draft} (settled : draft.Settled) (same : draft.SameNames other) :
    other.Settled := by
  refine ⟨settled.consistent.congr same.decls same.chains same.fileScope same.blocks, fun name id bound => ?_,
    same.blocks.trans settled.blocks⟩
  rw [same.fileScope] at bound
  rw [Program.decl, same.decls, ← Program.decl]
  exact settled.names name id bound

theorem SameNames.carries {draft other : Draft} (same : draft.SameNames other)
    (files : other.program.files = draft.program.files) : draft.program.Carries other.program :=
  Program.carries_of_decls same.decls same.chains (.of_eq same.types) fun id old =>
    ⟨files ▸ old, by rw [Program.file, files, ← Program.file]⟩

end Draft

namespace Surface.Form

def isMacroDirective (form : Form) : Bool :=
  form.macro?.isSome

end Surface.Form

namespace Opening

variable (opening : Opening)

theorem mem_uses {opening : Opening} {occurrence : MacroUse} :
    occurrence ∈ opening.uses ↔ opening.item.form.isCode = true ∧
      ∃ offset name id, (offset, name) ∈ identifiers (opening.draft.program.text opening.draft.span) ∧
        opening.draft.definition? name = some id ∧
        ((opening.draft.program.directive id).isFunctionLike = true →
          followedByParen (opening.draft.program.text opening.draft.span)
            (offset + Text.byteLength name.toList) = true) ∧
        occurrence = ⟨name, ⟨opening.draft.item, opening.draft.span.start + offset⟩,
          ⟨opening.draft.file, opening.draft.span.start + offset,
            opening.draft.span.start + offset + Text.byteLength name.toList⟩⟩ := by
  unfold uses
  split
  · next isCode =>
    simp only [isCode, true_and, Draft.usesIn, List.mem_filterMap, Prod.exists]
    refine exists_congr fun offset => exists_congr fun name => ?_
    cases defined : opening.draft.definition? name with
    | none => simp
    | some id =>
      simp only [Option.some.injEq, Option.ite_none_left_eq_some, Bool.and_eq_true, Bool.not_eq_true', not_and,
        Bool.not_eq_false, exists_and_left, exists_eq_left', eq_comm (a := occurrence)]
  · next other => simp [other]

/-- Each item finds the directives that the one before it left. -/
def Relays : Array MacroDirective → List Opening → Array MacroDirective → Prop
  | first, [], last => last = first
  | first, opening :: rest, last => opening.draft.program.macros = first ∧ Relays opening.macros rest last

theorem Relays.append {first middle last : Array MacroDirective} {front back : List Opening}
    (early : Relays first front middle) (late : Relays middle back last) : Relays first (front ++ back) last := by
  induction front generalizing first with
  | nil =>
    rw [← early]
    exact late
  | cons opening rest ih => exact ⟨early.1, ih early.2⟩

theorem after_eq_draft {opening : Opening} (plain : opening.item.form.isCode = false) :
    opening.after = opening.draft := by
  obtain ⟨document, ⟨extent, form⟩, draft⟩ := opening
  cases form with
  | function | declaration | other => cases plain
  | inclusion | define | undef | directive => rfl

/-- The kind that entering the item gives it: macro directives, and the declarations that it holds at file scope. -/
structure HasKind (opening : Opening) (kind : ItemKind) : Prop where
  directive : (∃ id, kind = .directive id) ↔ opening.item.form.isMacroDirective = true
  members : ∀ members, kind = .decls members ↔
    members ≠ [] ∧ members = opening.after.declaredSince opening.draft.program.decls.size

theorem HasKind.plain {opening : Opening} {kind : ItemKind} (plain : opening.item.form.isCode = false)
    (directive : (∃ id, kind = .directive id) ↔ opening.item.form.isMacroDirective = true)
    (other : ∀ members, kind ≠ .decls members) : opening.HasKind kind := by
  refine ⟨directive, fun members => ⟨fun found => absurd found (other members), fun found => ?_⟩⟩
  have none : opening.draft.declaredSince opening.draft.program.decls.size = [] := by
    rw [Draft.declaredSince, List.filter_eq_nil_iff]
    intro decl member
    have below := List.mem_range.mp member
    simp only [Bool.and_eq_true, decide_eq_true_eq, not_and]
    omega
  rw [after_eq_draft plain, none] at found
  exact absurd found.2 found.1

end Opening

/-- A program that was read on: what it held has stayed, directives whose headers were read have their kind, and new
directives stand behind its items. -/
structure Program.Onward (before after : Program) : Prop where
  itemCount : before.items.size ≤ after.items.size
  item : ∀ id : Nat, id < before.items.size → after.item id = before.item id ∨
    (before.item id).kind = .other ∧ ∃ k, after.item id = { before.item id with kind := .inclusion k }
  files : before.files.toList <+: after.files.toList
  macros : before.macros.toList <+: after.macros.toList
  behind : ∀ id : Nat, before.macros.size ≤ id → id < after.macros.size → before.items.size ≤ (after.directive id).item
  size : before.decls.size ≤ after.decls.size
  decl : ∀ id : Nat, id < before.decls.size → after.decl id = before.decl id
  carries : before.Carries after
  uses : ∀ occurrence ∈ before.uses, occurrence ∈ after.uses

namespace Opening

structure Sound (opening : Opening) : Prop where
  settled : opening.draft.Settled
  outer : opening.draft.fileScope.Shows opening.draft.program none
  types : opening.draft.program.TypesFormed
  listed : opening.item ∈ Surface.itemsOf opening.document.text opening.document.tree
  file : opening.draft.file < opening.draft.program.files.size
  text : (opening.draft.program.file opening.draft.file).text = opening.document.text
  span : opening.draft.span = opening.item.extent.inFile opening.draft.file
  function : opening.draft.function = none

structure Lasts (program : Program) (opening : Opening) : Prop where
  inside : opening.draft.item < program.items.size
  file : (program.item opening.draft.item).file = opening.draft.file
  span : (program.item opening.draft.item).span = opening.draft.span
  kind : opening.HasKind (program.item opening.draft.item).kind
  fileCount : opening.draft.program.files.size ≤ program.files.size
  files : ∀ id : Nat, id < opening.draft.program.files.size → program.file id = opening.draft.program.file id
  macroCount : opening.draft.program.macros.size ≤ program.macros.size
  directive : ∀ id : Nat, id < opening.draft.program.macros.size →
    program.directive id = opening.draft.program.directive id
  earlier : ∀ id : Nat, id < program.macros.size →
    (id < opening.draft.program.macros.size ↔ (program.directive id).item < opening.draft.item)
  size : opening.after.program.decls.size ≤ program.decls.size
  decls : ∀ id : Nat, id < opening.after.program.decls.size → program.decl id = opening.after.program.decl id
  carries : opening.after.program.Carries program
  uses : ∀ occurrence ∈ opening.uses, occurrence ∈ program.uses

variable {opening : Opening} {program later : Program}

theorem HasKind.inclusion (hasKind : opening.HasKind .other) (k : IncludeId) : opening.HasKind (.inclusion k) := by
  refine ⟨?_, fun members => ?_⟩
  · rw [← hasKind.directive]
    simp
  · rw [← hasKind.members]
    simp

theorem Lasts.onward (lasts : opening.Lasts program) (onward : program.Onward later) : opening.Lasts later := by
  have fileCount : program.files.size ≤ later.files.size := onward.files.length_le
  have macroCount : program.macros.size ≤ later.macros.size := onward.macros.length_le
  have entry : (later.item opening.draft.item).file = opening.draft.file ∧
      (later.item opening.draft.item).span = opening.draft.span ∧
        opening.HasKind (later.item opening.draft.item).kind := by
    rcases onward.item _ lasts.inside with same | ⟨open_, k, same⟩
    · rw [same]
      exact ⟨lasts.file, lasts.span, lasts.kind⟩
    · rw [same]
      exact ⟨lasts.file, lasts.span, (open_ ▸ lasts.kind).inclusion k⟩
  refine ⟨lasts.inside.trans_le onward.itemCount, entry.1, entry.2.1, entry.2.2, lasts.fileCount.trans fileCount, ?_,
    lasts.macroCount.trans macroCount, ?_, ?_, lasts.size.trans onward.size, ?_, lasts.carries.trans onward.carries,
    fun occurrence member => onward.uses occurrence (lasts.uses occurrence member)⟩
  · intro id known
    exact (Program.getD_of_prefix onward.files (known.trans_le lasts.fileCount) _).trans (lasts.files id known)
  · intro id known
    exact (Program.getD_of_prefix onward.macros (known.trans_le lasts.macroCount) _).trans (lasts.directive id known)
  · intro id known
    by_cases old : id < program.macros.size
    · have same : later.directive id = program.directive id := Program.getD_of_prefix onward.macros old _
      rw [same]
      exact lasts.earlier id old
    · have behind := onward.behind id (Nat.not_lt.mp old) known
      constructor
      · intro early
        exact absurd (early.trans_le lasts.macroCount) old
      · intro front
        exact absurd (front.trans (lasts.inside.trans_le behind)) (Nat.lt_irrefl _)
  · intro id known
    rw [onward.decl id (known.trans_le lasts.size), lasts.decls id known]

end Opening

theorem Program.addUses_uses (program : Program) (uses : List MacroUse) :
    (uses.foldl Program.addUse program).uses = program.uses ++ uses := by
  induction uses generalizing program with
  | nil => simp
  | cons first rest ih => rw [List.foldl_cons, ih]; simp [Program.addUse]

theorem Opening.start_sameTables (opening : Opening) : opening.draft.program.SameTables opening.start.program :=
  Drafting.addUses_sameTables opening.uses opening.draft.program

theorem Opening.start_sameNames (opening : Opening) : opening.draft.SameNames opening.start :=
  Drafting.addUses_sameNames opening.draft opening.uses

theorem Opening.steps (opening : Opening) : opening.start.Steps opening.after :=
  Drafting.codeOf_steps opening.item.form opening.start

theorem Opening.after_uses (opening : Opening) :
    opening.after.program.uses = opening.draft.program.uses ++ opening.uses := by
  rw [opening.steps.sameLayout.uses]
  exact Program.addUses_uses opening.draft.program opening.uses

theorem Opening.start_decls (opening : Opening) : opening.start.program.decls = opening.draft.program.decls :=
  opening.start_sameNames.decls

/-- The declarations of an item lie as its tree says, whatever it means for one extent to lie inside another. -/
theorem Drafting.item_coded {item : Surface.Item} {draft : Draft} (settled : draft.Settled)
    (outside : draft.function = none)
    (here : draft.span = item.extent.inFile draft.file) {inside : Extent → Extent → Prop}
    (nesting : Extent.IsNesting inside)
    (placed : item.Placed inside Surface.AnyName) :
    Gives (codeOf item.form) draft fun _ after =>
      draft.Coded ⟨inside, nesting, draft.file, draft.item⟩ item.extent after := by
  refine codeOf_coded ⟨rfl, rfl, here, placed.1, settled.consistent, settled.names, fun inner => ?_⟩ outside
    settled.blocks placed.2
  rw [outside] at inner
  cases inner

theorem Draft.Coded.settled {site : Site} {host : Extent} {before after : Draft} (coded : before.Coded site host after)
    (settled : before.Settled) : after.Settled :=
  ⟨coded.steps.consistent settled.consistent, coded.bound.names, coded.blocks⟩

theorem Opening.Sound.coded {opening : Opening} (sound : opening.Sound) {inside : Extent → Extent → Prop}
    (nesting : Extent.IsNesting inside) (placed : opening.item.Placed inside Surface.AnyName) :
    opening.start.Coded ⟨inside, nesting, opening.draft.file, opening.draft.item⟩ opening.item.extent opening.after :=
  Drafting.item_coded (sound.settled.congr opening.start_sameNames) sound.function sound.span nesting placed

theorem Opening.Sound.coded_anywhere {opening : Opening} (sound : opening.Sound) :
    opening.start.Coded
      ⟨Extent.Anywhere, ⟨fun _ => trivial, fun _ _ => trivial⟩, opening.draft.file, opening.draft.item⟩
      opening.item.extent opening.after :=
  sound.coded _ ⟨trivial, Surface.Form.placed_anywhere _ fun _ _ => trivial⟩

theorem Opening.start_carries (opening : Opening) : opening.draft.program.Carries opening.start.program :=
  opening.start_sameNames.carries opening.start_sameTables.files

theorem Opening.Sound.confines {opening : Opening} (sound : opening.Sound) :
    opening.start.Confines opening.document.text none opening.after := by
  have same := opening.start_sameNames
  have files := opening.start_sameTables.files
  have blocks := same.blocks.trans sound.settled.blocks
  refine Drafting.codeOf_confines
    ⟨sound.function, files ▸ sound.file, ?_, fun _ => rfl, ?_, fun scope member => ?_⟩ blocks
    (Surface.itemsOf_spelled _ _ opening.item sound.listed).2
  · exact (congrArg SourceFile.text (opening.start_sameTables.file _)).trans sound.text
  · exact same.fileScope ▸ sound.outer.mono opening.start_carries
  · rw [blocks] at member
    cases member

/-- The scene of an item: macros are used at the places in `expands`. -/
def Opening.scene (opening : Opening) (expands : String → Span → Prop) : Scene where
  file := opening.draft.file
  base := opening.draft.program.decls.size
  table := opening.draft.definition?
  expands := expands

theorem Opening.Sound.formed {opening : Opening} (sound : opening.Sound) {expands : String → Span → Prop}
    (allowed : Surface.Spelled (opening.scene expands).Allows opening.item.form.names) :
    opening.after.Formed (opening.scene expands) := by
  have same := opening.start_sameNames
  have start : opening.start.Formed (opening.scene expands) := by
    refine ⟨(sound.settled.congr same).consistent, rfl, ?_, Nat.le_of_eq (congrArg Array.size same.decls).symm,
      sound.types.congr same.types same.decls, fun id since inside => ?_⟩
    · funext name
      simp only [Opening.scene, Draft.definition?, Program.directive, opening.start_sameTables.macros]
    · rw [same.decls] at inside
      exact absurd inside (Nat.not_lt.mpr since)
  exact Drafting.codeOf_formed start allowed

theorem Opening.Sound.after_types {opening : Opening} (sound : opening.Sound) : opening.after.program.TypesFormed :=
  (sound.formed
    (fun _ _ _ _ => trivial : Surface.Spelled (opening.scene fun _ _ => True).Allows opening.item.form.names)).types

theorem Opening.Lasts.formed {opening : Opening} {program : Program} (lasts : opening.Lasts program)
    (sound : opening.Sound)
    {expands : String → Span → Prop}
    (allowed : Surface.Spelled (opening.scene expands).Allows opening.item.form.names) {id : Nat}
    (new : opening.draft.program.decls.size ≤ id) (known : id < opening.after.program.decls.size) :
    (program.decl id).kind.Formed (opening.scene expands) program := by
  rw [lasts.decls id known]
  exact ((sound.formed allowed).decls id new known).mono (.of_decl lasts.carries.types.count lasts.decls)

section Enters

variable {files : FileSystem} {search : SearchPath} {opening : Opening} {kind : ItemKind} {after : Draft}

theorem Surface.Form.isCode_of_isMacroDirective {form : Form} (directive : form.isMacroDirective = true) :
    form.isCode = false := by
  cases form with
  | define | undef => rfl
  | function | declaration | other | inclusion | directive => cases directive

theorem Opening.sameNames_of_plain (plain : opening.item.form.isCode = false) (same : opening.draft.SameNames after) :
    opening.after.SameNames after := by
  rw [Opening.after_eq_draft plain]
  exact same

theorem Opening.uses_of_plain (plain : opening.item.form.isCode = false) : opening.uses = [] := by
  simp [Opening.uses, plain]

variable (enters : opening.Enters files search kind after)
include enters

theorem Opening.Enters.names : opening.after.SameNames after := by
  cases enters with
  | code => exact ⟨rfl, rfl, rfl, rfl, rfl, rfl⟩
  | directive isDirective =>
    exact sameNames_of_plain (Surface.Form.isCode_of_isMacroDirective isDirective) ⟨rfl, rfl, rfl, rfl, rfl, rfl⟩
  | inclusion form => exact sameNames_of_plain (by rw [form]; rfl) ⟨rfl, rfl, rfl, rfl, rfl, rfl⟩
  | other form => exact sameNames_of_plain (by rw [form]; rfl) ⟨rfl, rfl, rfl, rfl, rfl, rfl⟩

theorem Opening.Enters.uses_eq : after.program.uses = opening.draft.program.uses ++ opening.uses := by
  cases enters with
  | code => exact opening.after_uses
  | directive isDirective =>
    rw [uses_of_plain (Surface.Form.isCode_of_isMacroDirective isDirective), List.append_nil]
  | inclusion form =>
    rw [uses_of_plain (by rw [form]; rfl), List.append_nil]
    rfl
  | other form => rw [uses_of_plain (by rw [form]; rfl), List.append_nil]

theorem Opening.Enters.macros_eq : after.program.macros = opening.macros := by
  cases enters with
  | code isCode =>
    rw [opening.after_sameTables.macros, Opening.macros, Surface.Form.macro_of_isCode isCode]
  | directive => rfl
  | inclusion form | other form =>
    rw [Opening.macros, form]
    rfl

theorem Opening.Enters.hasKind : opening.HasKind kind := by
  cases enters with
  | code isCode members =>
    have noDirective : opening.item.form.isMacroDirective = false := by
      rw [Surface.Form.isMacroDirective, Surface.Form.macro_of_isCode isCode]
      rfl
    rw [members]
    split
    · next none => exact ⟨by simp [noDirective], by simp [none]⟩
    · next nonempty =>
      refine ⟨by simp [noDirective],
        fun members => ⟨fun found => ?_, fun found => congrArg ItemKind.decls found.2.symm⟩⟩
      cases found
      exact ⟨nonempty, rfl⟩
  | directive isDirective =>
    exact .plain (Surface.Form.isCode_of_isMacroDirective isDirective) ⟨fun _ => isDirective, fun _ => ⟨_, rfl⟩⟩
      (by simp)
  | inclusion form | other form =>
    exact .plain (by rw [form]; rfl) (by simp [form, Surface.Form.isMacroDirective, Surface.Form.macro?]) (by simp)

end Enters

end Excerpt
