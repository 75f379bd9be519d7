import Excerpt.Draft.File

/-!
Small units written out: text together with the concrete tree that it has wherever it stands.
-/

namespace Excerpt

structure Written where
  text : List Char
  node : Nat → Node

namespace Written

def token (label text : String) : Written :=
  ⟨text.toList, fun start => .node (Label.ofText label.toList) ⟨start, start + text.length⟩ []⟩

/-- The nodes of parts that follow each other, each behind its blanks. -/
def nodesFrom (start : Nat) : List (String × Written) → List Node
  | [] => []
  | (blanks, part) :: rest =>
    part.node (start + blanks.length) :: nodesFrom (start + blanks.length + part.text.length) rest

/-- Parts under one node that reaches to the end of `trailing`. -/
def group (label : String) (parts : List (String × Written)) (trailing : String) : Written :=
  let text := (parts.flatMap fun (blanks, part) => blanks.toList ++ part.text) ++ trailing.toList
  ⟨text, fun start => .node (Label.ofText label.toList) ⟨start, start + text.length⟩ (nodesFrom start parts)⟩

def define (name value : String) : Written :=
  group "preproc_def"
    [("", token "'#define" "#define"), (" ", token "name.identifier" name), (" ", token "value.preproc_arg" value)] "\n"

def defineFunction (name param value : String) : Written :=
  group "preproc_function_def"
    [("", token "'#define" "#define"), (" ", token "name.identifier" name),
      ("", group "parameters.preproc_params"
      [("", token "'(" "("), ("", token "identifier" param), ("", token "')" ")")] ""),
      (" ", token "value.preproc_arg" value)] "\n"

def undef (name : String) : Written :=
  group "preproc_call"
    [("", token "directive.preproc_directive" "#undef"), (" ", token "argument.preproc_arg" name)] "\n"

def inclusion (header : String) : Written :=
  group "preproc_include" [("", token "'#include" "#include"), (" ", token "path.string_literal" header)] "\n"

def object (name : String) : Written :=
  group "declaration"
    [("", token "type.primitive_type" "int"), (" ", token "declarator.identifier" name), ("", token "';" ";")] ""

def storedObject (storage name : String) : Written :=
  group "declaration"
    [("", group "storage_class_specifier" [("", token ("'" ++ storage) storage)] ""),
      (" ", token "type.primitive_type" "int"), (" ", token "declarator.identifier" name), ("", token "';" ";")] ""

def enumeration (name constant : String) : Written :=
  group "enum_specifier"
    [("", token "'enum" "enum"), (" ", token "name.type_identifier" name),
      (" ", group "body.enumerator_list"
        [("", token "'\x7b" "\x7b"), (" ", group "enumerator" [("", token "name.identifier" constant)] ""),
          (" ", token "'\x7d" "\x7d")] "")] ""

def record (name field : String) : Written :=
  group "struct_specifier"
    [("", token "'struct" "struct"), (" ", token "name.type_identifier" name),
      (" ", group "body.field_declaration_list"
        [("", token "'\x7b" "\x7b"),
          (" ", group "field_declaration"
            [("", token "type.primitive_type" "int"), (" ", token "declarator.field_identifier" field),
              ("", token "';" ";")] ""),
          (" ", token "'\x7d" "\x7d")] "")] ""

def recordPointer (tag name : String) : Written :=
  group "declaration"
    [("", group "type.struct_specifier" [("", token "'struct" "struct"), (" ", token "name.type_identifier" tag)] ""),
      (" ", group "declarator.pointer_declarator" [("", token "'*" "*"), ("", token "declarator.identifier" name)] ""),
      ("", token "';" ";")] ""

def linkedRecord (name field : String) : Written :=
  group "struct_specifier"
    [("", token "'struct" "struct"), (" ", token "name.type_identifier" name),
      (" ", group "body.field_declaration_list"
        [("", token "'\x7b" "\x7b"),
          (" ", group "field_declaration"
            [("", group "type.struct_specifier"
              [("", token "'struct" "struct"), (" ", token "name.type_identifier" name)] ""),
              (" ", group "declarator.pointer_declarator"
                [("", token "'*" "*"), ("", token "declarator.field_identifier" field)] ""),
              ("", token "';" ";")] ""),
          (" ", token "'\x7d" "\x7d")] "")] ""

def initialized (name : String) (value : Written) : Written :=
  group "declaration"
    [("", token "type.primitive_type" "int"),
      (" ", group "declarator.init_declarator"
        [("", token "declarator.identifier" name), (" ", token "'=" "="), (" ", value)] ""),
      ("", token "';" ";")] ""

def valuedEnumeration (name constant value : String) : Written :=
  group "enum_specifier"
    [("", token "'enum" "enum"), (" ", token "name.type_identifier" name),
      (" ", group "body.enumerator_list"
        [("", token "'\x7b" "\x7b"),
          (" ", group "enumerator"
            [("", token "name.identifier" constant), (" ", token "'=" "="),
              (" ", token "value.number_literal" value)] ""),
          (" ", token "'\x7d" "\x7d")] "")] ""

def array (name size : String) : Written :=
  group "declaration"
    [("", token "type.primitive_type" "int"),
      (" ", group "declarator.array_declarator"
        [("", token "declarator.identifier" name), ("", token "'[" "["), ("", token "size.identifier" size),
          ("", token "']" "]")] ""),
      ("", token "';" ";")] ""

def paddedArray (name size padding : String) : Written :=
  group "declaration"
    [("", token "type.primitive_type" "int"),
      (" ", group "declarator.array_declarator"
        [("", token "declarator.identifier" name), ("", token "'[" "["),
          ("", group "size.binary_expression"
            [("", token "left.identifier" size), (" ", token "operator.'+" "+"),
              (" ", token "right.number_literal" padding)] ""),
          ("", token "']" "]")] ""),
      ("", token "';" ";")] ""

def functionHead (name : String) : Written :=
  group "declarator.function_declarator"
    [("", token "declarator.identifier" name),
      ("", group "parameters.parameter_list"
        [("", token "'(" "("), ("", group "parameter_declaration" [("", token "type.primitive_type" "void")] ""),
          ("", token "')" ")")] "")] ""

def returns (result : Written) : Written :=
  group "body.compound_statement"
    [("", token "'\x7b" "\x7b"),
      (" ", group "return_statement" [("", token "'return" "return"), (" ", result), ("", token "';" ";")] ""),
      (" ", token "'\x7d" "\x7d")] ""

def function (name : String) (result : Written) : Written :=
  group "function_definition"
    [("", token "type.primitive_type" "int"), (" ", functionHead name), (" ", returns result)] ""

def staticFunction (name : String) (result : Written) : Written :=
  group "function_definition"
    [("", group "storage_class_specifier" [("", token "'static" "static")] ""),
      (" ", token "type.primitive_type" "int"), (" ", functionHead name), (" ", returns result)] ""

def reference (name : String) : Written :=
  token "identifier" name

def element (name index : String) : Written :=
  group "subscript_expression"
    [("", token "argument.identifier" name), ("", token "'[" "["), ("", token "index.number_literal" index),
      ("", token "']" "]")] ""

def member (label name field : String) : Written :=
  group label
    [("", token "argument.identifier" name), ("", token "operator.'." "."),
      ("", token "field.field_identifier" field)] ""

def blockValue (label : String) (declared result : Written) : Written :=
  group label
    [("", token "'(" "("),
      ("", group "compound_statement"
        [("", token "'\x7b" "\x7b"), (" ", declared),
          (" ", group "expression_statement" [("", result), ("", token "';" ";")] ""), (" ", token "'\x7d" "\x7d")] ""),
      ("", token "')" ")")] ""

def call (name : String) : Written :=
  group "call_expression"
    [("", token "function.identifier" name),
      ("", group "arguments.argument_list" [("", token "'(" "("), ("", token "')" ")")] "")] ""

def spacedCall (name : String) (comments : List String) (argument : String) : Written :=
  group "call_expression"
    ([("", token "function.identifier" name)] ++ (comments.map fun comment => (" ", token "comment" comment)) ++
      [(" ", group "arguments.argument_list"
        [("", token "'(" "("), ("", token "number_literal" argument), ("", token "')" ")")] "")]) ""

def parenthesized (before : List String) (name : String) (after : List String) : Written :=
  let remarks := fun comments : List String => comments.map fun comment => ("", token "comment" comment)
  group "declaration"
    [("", token "type.primitive_type" "int"),
      (" ", group "declarator.parenthesized_declarator"
        ([("", token "'(" "(")] ++ remarks before ++ [("", token "identifier" name)] ++ remarks after ++
          [("", token "')" ")")]) ""),
      ("", token "';" ";")] ""

def document (parts : List (String × Written)) : Document :=
  let written := group "translation_unit" parts "\n"
  ⟨written.text, written.node 0⟩

end Written

end Excerpt
