import Excerpt.Extraction
import Excerpt.Report.Json

namespace Excerpt

structure DeclEntry where
  name : Option String
  kind : String
  location : Location
  /-- The declaration is one of the outermost. -/
  emitted : Bool
deriving DecidableEq, Repr, Inhabited

structure MacroEntry where
  name : String
  location : Location
  needsUndef : Bool
deriving DecidableEq, Repr, Inhabited

structure Report where
  file : String
  functions : List String
  decls : List DeclEntry
  macros : List MacroEntry
  renames : List Rename
  passSizes : List Nat
deriving DecidableEq, Repr, Inhabited

def Session.report (session : Session) (extraction : Extraction) : Report :=
  let program := session.program
  let closure := extraction.closure
  { file := session.mainPath
    functions := closure.roots.filterMap fun id => (program.decl id).name
    decls := closure.decls.map fun id =>
      let decl := program.decl id
      ⟨decl.name, decl.kind.name, program.location decl.span, extraction.kept.contains id⟩
    macros := closure.macros.map fun id =>
      let directive := program.directive id
      ⟨directive.name, program.location directive.span, closure.needsUndef.contains id⟩
    renames := closure.renames
    passSizes := closure.passSizes }

def Location.layout (location : Location) : Json.Layout :=
  Json.object [("file", Json.string location.file), ("line", Json.number location.line),
    ("column", Json.number location.column), ("end_line", Json.number location.endLine),
    ("end_column", Json.number location.endColumn)]

def DeclEntry.layout (entry : DeclEntry) : Json.Layout :=
  Json.object [("name", (entry.name.map Json.string).getD Json.null), ("kind", Json.string entry.kind),
    ("location", entry.location.layout), ("emitted", Json.bool entry.emitted)]

def MacroEntry.layout (entry : MacroEntry) : Json.Layout :=
  Json.object [("name", Json.string entry.name), ("location", entry.location.layout),
    ("needs_undef", Json.bool entry.needsUndef)]

def Rename.layout (rename : Rename) : Json.Layout :=
  Json.object [("original", Json.string rename.symbol), ("new_name", Json.string rename.pointer),
    ("kind", Json.string rename.kind.name)]

def Report.render (report : Report) : String :=
  Json.object [("file", Json.string report.file), ("functions", Json.array (report.functions.map Json.string)),
    ("decls", Json.array (report.decls.map (·.layout))), ("macros", Json.array (report.macros.map (·.layout))),
    ("renames", Json.array (report.renames.map (·.layout))),
    ("pass_sizes", Json.array (report.passSizes.map Json.number))] 0

end Excerpt
