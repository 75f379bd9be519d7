import Excerpt.Config.Basic
import Excerpt.Extraction
import Excerpt.Proofs.Closure.Rules
import Excerpt.Proofs.Draft.MacroTable
import Excerpt.Proofs.Draft.Written
import Excerpt.Proofs.Text.Slices
import Mathlib.Data.List.TakeWhile

/-!
The macro uses in bodies and the recorded ones. A body is read from the tree of its item, the recorded uses from the
text of the item.
-/

namespace Excerpt

namespace Text

/-- Nothing but blanks stands between `offset` and an opening parenthesis. -/
def OpensBehind (text : List Char) (offset : Nat) : Prop :=
  ∃ front blanks back, text = front ++ blanks ++ '(' :: back ∧ byteLength front = offset ∧
    ∀ c ∈ blanks, isBlank c = true

theorem head_trimStart_eq_paren {text : List Char} :
    (trimStart text).head? = some '(' ↔ ∃ blanks back, text = blanks ++ '(' :: back ∧
      ∀ c ∈ blanks, isBlank c = true := by
  constructor
  · intro found
    obtain ⟨back, trimmed⟩ := List.head?_eq_some_iff.mp found
    refine ⟨text.takeWhile isBlank, back, ?_, fun c member => List.mem_takeWhile_imp member⟩
    rw [← trimmed, trimStart, List.takeWhile_append_dropWhile]
  · rintro ⟨blanks, back, rfl, blank⟩
    rw [trimStart, List.dropWhile_append_of_pos blank]
    rfl

end Text

theorem followedByParen_iff {text : List Char} {offset : Nat} :
    followedByParen text offset = true ↔ Text.OpensBehind text offset := by
  unfold followedByParen Text.OpensBehind
  cases dropped : Text.dropBytes? offset text with
  | none =>
    refine ⟨(fun found => by cases found), ?_⟩
    rintro ⟨front, blanks, back, split, length, -⟩
    rw [List.append_assoc] at split
    rw [Text.dropBytes_eq_some.mpr ⟨front, split, length⟩] at dropped
    cases dropped
  | some rest =>
    simp only [beq_iff_eq, Text.head_trimStart_eq_paren]
    constructor
    · rintro ⟨blanks, back, same, blank⟩
      obtain ⟨front, split, length⟩ := Text.dropBytes_eq_some.mp dropped
      exact ⟨front, blanks, back, by rw [split, same, List.append_assoc], length, blank⟩
    · rintro ⟨front, blanks, back, split, length, blank⟩
      rw [List.append_assoc] at split
      rw [Text.dropBytes_eq_some.mpr ⟨front, split, length⟩, Option.some.injEq] at dropped
      exact ⟨blanks, back, dropped.symm, blank⟩

namespace Opening

variable (opening : Opening)

def text : List Char :=
  Text.slice opening.document.text opening.item.extent.start opening.item.extent.stop

/-- Every name that the tree has in the code of the item is an identifier of its text at the same place. -/
def NamesAreTokens : Prop :=
  ∀ entry ∈ opening.item.form.names, opening.item.extent.start ≤ entry.2.start ∧
    (entry.2.start - opening.item.extent.start, entry.1) ∈ identifiers opening.text

instance : Decidable opening.NamesAreTokens :=
  inferInstanceAs (Decidable (∀ entry ∈ opening.item.form.names, _))

def expands (name : String) (span : Span) : Prop :=
  ∃ extent id, (name, extent) ∈ opening.item.form.names ∧ span = extent.inFile opening.draft.file ∧
    opening.draft.definition? name = some id

variable {opening}

theorem allows_expands : Surface.Spelled (opening.scene opening.expands).Allows opening.item.form.names :=
  fun entry member id defined => ⟨entry.2, id, member, rfl, defined⟩

theorem Sound.text_eq (sound : opening.Sound) : opening.draft.program.text opening.draft.span = opening.text := by
  rw [Program.text, sound.span]
  exact congrArg (fun text => Text.slice text opening.item.extent.start opening.item.extent.stop) sound.text

end Opening

theorem Surface.Form.isCode_of_names {form : Form} {entry : String × Extent} (member : entry ∈ form.names) :
    form.isCode = true := by
  cases form with
  | function | declaration => rfl
  | inclusion | define | undef | directive | other => cases member

namespace Program

variable {program : Program}

def Records (program : Program) (name : String) (pos : SourcePos) : Prop :=
  ∃ occurrence ∈ program.uses, occurrence.name = name ∧ occurrence.pos = pos

instance (name : String) (pos : SourcePos) : Decidable (program.Records name pos) :=
  inferInstanceAs (Decidable (∃ occurrence ∈ program.uses, _))

section Opened

variable {known : Document → Prop} {openings : List Opening} (opened : program.Opened known openings)
  {opening : Opening} (member : opening ∈ openings)
include opened member

theorem Opened.records_iff {name : String} {offset : Nat} :
    program.Records name ⟨opening.draft.item, offset⟩ ↔
      ∃ occurrence ∈ opening.uses, occurrence.name = name ∧ occurrence.pos.offset = offset := by
  constructor
  · rintro ⟨occurrence, used, named, pos⟩
    obtain ⟨owner, listed, own⟩ := opened.uses occurrence used
    have seq : owner.draft.item = opening.draft.item := by
      obtain ⟨-, _, _, _, -, -, -, rfl⟩ := Opening.mem_uses.mp own
      exact congrArg SourcePos.seq pos
    rw [opened.eq_of_item listed member seq] at own
    exact ⟨occurrence, own, named, congrArg SourcePos.offset pos⟩
  · rintro ⟨occurrence, own, named, rfl⟩
    refine ⟨occurrence, (opened.lasts opening member).uses occurrence own, named, ?_⟩
    obtain ⟨-, _, _, _, -, -, -, rfl⟩ := Opening.mem_uses.mp own
    rfl

/-- A name of the text that stands for a macro is recorded exactly when a parenthesis opens behind it, if the macro has
parameters. -/
theorem Opened.records_token_iff (isCode : opening.item.form.isCode = true) {name : String} {offset : Nat}
    {id : MacroId}
    (token : (offset, name) ∈ identifiers opening.text) (defined : opening.draft.definition? name = some id) :
    program.Records name ⟨opening.draft.item, opening.item.extent.start + offset⟩ ↔
      ((program.directive id).isFunctionLike = true →
        Text.OpensBehind opening.text (offset + Text.byteLength name.toList)) := by
  have sound := opened.sound opening member
  have same : program.directive id = opening.draft.program.directive id :=
    (opened.lasts opening member).directive id (Draft.lt_of_definition defined)
  have start : opening.draft.span.start = opening.item.extent.start := by rw [sound.span]; rfl
  rw [opened.records_iff member, same, ← followedByParen_iff]
  simp only [Opening.mem_uses, sound.text_eq, start]
  constructor
  · rintro ⟨occurrence, ⟨-, place, spelled, other, -, found, opens, rfl⟩, rfl, place_eq⟩
    rw [defined, Option.some.injEq] at found
    subst found
    rwa [Nat.add_left_cancel place_eq] at opens
  · intro opens
    exact ⟨_, ⟨isCode, offset, name, id, token, defined, opens, rfl⟩, rfl, rfl⟩

theorem Opened.expands {id : Nat} (inside : id < program.decls.size)
    (item : (program.decl id).item = opening.draft.item)
    {body : Stmt} (kind : (program.decl id).kind.body? = some body) {name : String} {span : Span}
    (used : (name, span) ∈ body.outermostExpansions) : opening.expands name span := by
  have formed := opened.formed inside member item Opening.allows_expands
  exact (formed.body body kind).expansions (name, span) used

end Opened

/-- The macro use `name` at `span` is a use of `directive` in code of the item, and it is recorded exactly when
nothing but blanks stands between the name of a macro with parameters and the parenthesis behind it. A recorded use
that a declaration of a closure covers brings the directive into the closure. -/
structure UseScanned (program : Program) (opening : Opening) (name : String) (span : Span) (directive : MacroId) :
    Prop where
  resolved : program.resolveMacro name ⟨opening.draft.item, span.start⟩ = .ok directive
  recorded : program.Records name ⟨opening.draft.item, span.start⟩ ↔
    ((program.directive directive).isFunctionLike = true →
      Text.OpensBehind opening.text (span.start - opening.item.extent.start + Text.byteLength name.toList))
  marked : program.Records name ⟨opening.draft.item, span.start⟩ → ∀ session : Session, session.program = program →
    ∀ requested closure, session.closure requested = .ok closure → ∀ host ∈ closure.decls,
      (program.decl host).item = opening.draft.item → (program.decl host).span.start ≤ span.start →
        span.start < session.scanStop requested host → directive ∈ closure.macros

theorem marked_of_records {session : Session} (consistent : session.program.Consistent) {name : String}
    {pos : SourcePos} {directive : MacroId} (recorded : session.program.Records name pos)
    (resolved : session.program.resolveMacro name pos = .ok directive) {requested : List String} {closure : Closure}
    (found : session.closure requested = .ok closure) {host : DeclId} (member : host ∈ closure.decls)
    (item : (session.program.decl host).item = pos.seq) (starts : (session.program.decl host).span.start ≤ pos.offset)
    (stops : pos.offset < session.scanStop requested host) : directive ∈ closure.macros := by
  obtain ⟨occurrence, used, rfl, rfl⟩ := recorded
  have scanned : occurrence ∈ session.scannedUses requested host := by
    refine List.mem_filter.mpr ⟨used, ?_⟩
    simp [SourcePos.atOrBefore, SourcePos.before, item, starts, stops]
  exact (Session.closure_obeys consistent found).uses host member occurrence scanned directive
    ⟨occurrence.name, .refl, resolveMacro_eq_ok.mp resolved⟩

/-- Every macro use in a body or initializer is recorded, and so followed, up to the layout of calls: the parenthesis
has to follow the name behind blanks. -/
theorem ofDocument_uses_scanned (files : FileSystem) (search : SearchPath) (path : String) (document : Document)
    {opening : Opening} (member : opening ∈ openingsOf files search path document) (tokens : opening.NamesAreTokens)
    {id : Nat} (inside : id < (ofDocument files search path document).decls.size)
    (item : ((ofDocument files search path document).decl id).item = opening.draft.item) {body : Stmt}
    (kind : ((ofDocument files search path document).decl id).kind.body? = some body) {name : String} {span : Span}
    (used : (name, span) ∈ body.outermostExpansions) :
    ∃ directive, (ofDocument files search path document).UseScanned opening name span directive := by
  have consistent := ofDocument_consistent files search path document
  have unit := ofDocument_unrolled files search path document
  have opened := ofDocument_opened files search path document
  generalize ofDocument files search path document = program at *
  obtain ⟨extent, directive, listed, rfl, defined⟩ := opened.expands member inside item kind used
  obtain ⟨behind, token⟩ := tokens (name, extent) listed
  have isCode := Surface.Form.isCode_of_names listed
  have resolved : program.resolveMacro name ⟨opening.draft.item, extent.start⟩ = .ok directive := by
    rw [resolveMacro_eq_ok,
      visibleDefinition_of_lasts unit (opened.lasts opening member) opened.ascends (opened.noDirective member isCode)]
    exact defined
  have recorded := opened.records_token_iff member isCode token defined
  rw [Nat.add_sub_cancel' behind] at recorded
  refine ⟨directive, resolved, recorded, ?_⟩
  rintro records session rfl requested closure found host marked here starts stops
  exact marked_of_records consistent records resolved found marked here starts stops

def macroCall (comments : List String) : Document :=
  Written.document [("", .defineFunction "FN" "x" "((x) + 1)"), ("", .function "k" (.spacedCall "FN" comments "3"))]

set_option maxRecDepth 10000 in
theorem uses_scanned_macroCall : ∃ opening ∈ openingsOf ⟨[], []⟩ ⟨[]⟩ "unit.c" (macroCall []),
    (ofDocument ⟨[], []⟩ ⟨[]⟩ "unit.c" (macroCall [])).UseScanned opening "FN" ⟨0, 45, 47⟩ 0 ∧
      (ofDocument ⟨[], []⟩ ⟨[]⟩ "unit.c" (macroCall [])).Records "FN" ⟨1, 45⟩ := by
  have facts : (openingsOf ⟨[], []⟩ ⟨[]⟩ "unit.c" (macroCall []))[1]?.isSome = true ∧
      (∀ opening ∈ (openingsOf ⟨[], []⟩ ⟨[]⟩ "unit.c" (macroCall []))[1]?, opening.NamesAreTokens ∧
        opening.draft.item = 1 ∧ followedByParen opening.text (45 - opening.item.extent.start + 2) = true) ∧
      0 < (ofDocument ⟨[], []⟩ ⟨[]⟩ "unit.c" (macroCall [])).decls.size ∧
      ((ofDocument ⟨[], []⟩ ⟨[]⟩ "unit.c" (macroCall [])).decl 0).item = 1 ∧
      (∃ body ∈ ((ofDocument ⟨[], []⟩ ⟨[]⟩ "unit.c" (macroCall [])).decl 0).kind.body?,
        ("FN", (⟨0, 45, 47⟩ : Span)) ∈ body.outermostExpansions) ∧
      (ofDocument ⟨[], []⟩ ⟨[]⟩ "unit.c" (macroCall [])).resolveMacro "FN" ⟨1, 45⟩ = .ok 0 := by
    decide +kernel
  obtain ⟨some, opens, inside, item, ⟨body, kind, used⟩, resolved⟩ := facts
  obtain ⟨opening, found⟩ := Option.isSome_iff_exists.mp some
  obtain ⟨tokens, place, paren⟩ := opens opening found
  have member := List.mem_of_getElem? found
  obtain ⟨directive, scanned⟩ :=
    ofDocument_uses_scanned _ _ _ _ member tokens inside (item.trans place.symm) kind used
  have same := scanned.resolved
  rw [place, resolved] at same
  cases same
  have recorded := scanned.recorded.mpr fun _ => followedByParen_iff.mp paren
  rw [place] at recorded
  exact ⟨opening, member, scanned, recorded⟩

/-- The same with a comment between the name and the parenthesis. -/
def commentedCall : Session :=
  ({} : Config).session (.ofDocument ⟨[], []⟩ ⟨[]⟩ "unit.c" (macroCall ["/* c */"]))

set_option maxRecDepth 10000 in
/-- The comment hides the use, and the output lacks the definition. -/
theorem commentedCall_unrecorded :
    (∀ opening ∈ openingsOf ⟨[], []⟩ ⟨[]⟩ "unit.c" (macroCall ["/* c */"]), opening.NamesAreTokens) ∧
      (∃ body, (commentedCall.program.decl 0).kind.body? = some body ∧
        ("FN", ⟨0, 45, 47⟩) ∈ body.outermostExpansions) ∧
      ¬commentedCall.program.Records "FN" ⟨(commentedCall.program.decl 0).item, 45⟩ ∧
      ∃ extraction, commentedCall.extract ["k"] = .ok extraction ∧ extraction.closure.macros = [] ∧
        extraction.text = "int k(void) \x7b return FN /* c */ (3); \x7d\n".toList := by
  let extraction : Extraction :=
    { closure := { roots := [0], decls := [0], macros := [], needsUndef := [], renames := [], passSizes := [1] }
      kept := [0]
      text := "int k(void) \x7b return FN /* c */ (3); \x7d\n".toList }
  have facts : (∀ opening ∈ openingsOf ⟨[], []⟩ ⟨[]⟩ "unit.c" (macroCall ["/* c */"]), opening.NamesAreTokens) ∧
      (∃ body ∈ (commentedCall.program.decl 0).kind.body?,
        ("FN", (⟨0, 45, 47⟩ : Span)) ∈ body.outermostExpansions) ∧
      ¬commentedCall.program.Records "FN" ⟨(commentedCall.program.decl 0).item, 45⟩ ∧
      commentedCall.extract ["k"] = .ok extraction := by
    decide +kernel
  obtain ⟨tokens, ⟨body, kind, used⟩, unrecorded, found⟩ := facts
  exact ⟨tokens, ⟨body, kind, used⟩, unrecorded, extraction, found, rfl, rfl⟩

end Program

end Excerpt
