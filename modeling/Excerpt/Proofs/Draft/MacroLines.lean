import Excerpt.Proofs.Draft.Uncommented
import Excerpt.Proofs.Draft.WellFormed
import Excerpt.Proofs.Text.Keywords
import Excerpt.Proofs.Text.Respacing

namespace Excerpt

namespace Text

/-- Every line break stands behind a backslash. -/
def isContinued : List Char → Bool
  | '\\' :: '\r' :: '\n' :: rest => isContinued rest
  | '\\' :: '\n' :: rest => isContinued rest
  | c :: rest => c != '\n' && isContinued rest
  | [] => true

/-- Joining lines leaves no line break exactly if each is continued. -/
theorem newline_mem_spliceLines (text : List Char) : '\n' ∈ spliceLines text ↔ isContinued text = false := by
  fun_induction spliceLines text with
  | case1 rest ih | case2 rest ih => simp [isContinued, ih]
  | case3 c rest noReturn noBreak ih =>
    rw [isContinued, List.mem_cons, ih, Bool.and_eq_false_iff, bne_eq_false_iff_eq, eq_comm]
    · exact noReturn
    · exact noBreak
  | case4 => simp [isContinued]

theorem mem_of_mem_trim {c : Char} {text : List Char} (member : c ∈ trim text) : c ∈ text := by
  obtain ⟨front, back, split, -⟩ := exists_trim text
  rw [split]
  exact List.mem_append_left back (List.mem_append_right front member)

end Text

namespace Surface.Reading

variable {source : List Char}

def isContinuedDefine (source : List Char) (node : Node) : Bool :=
  !(node.kind == "preproc_def" || node.kind == "preproc_function_def") ||
    node.children.all fun child => child.label.field != some "value" || Text.isContinued (chars source child.extent)

theorem newline_not_mem_value {node : Node} (continued : isContinuedDefine source node = true)
    (kind : node.kind = "preproc_def" ∨ node.kind = "preproc_function_def") :
    '\n' ∉ Text.trim (Text.spliceLines
      (((child? (ofNodes source node.children) "value").map fun child => chars source child.extent).getD [])) := by
  intro member
  have broken := (Text.newline_mem_spliceLines _).mp (Text.mem_of_mem_trim member)
  cases found : child? (ofNodes source node.children) "value" with
  | none => simp [found, Text.isContinued] at broken
  | some value =>
    have listed := List.mem_of_find?_eq_some found
    rw [ofNodes_eq_map] at listed
    obtain ⟨child, isChild, rfl⟩ := List.mem_map.mp listed
    have field := List.find?_some found
    rw [ofNode_label, beq_iff_eq] at field
    simp only [isContinuedDefine, Bool.or_eq_true, Bool.not_eq_true', Bool.or_eq_false_iff,
      beq_eq_false_iff_ne] at continued
    have values := continued.resolve_left fun neither => kind.elim neither.1 neither.2
    have joined := List.all_eq_true.mp values child isChild
    rw [field, bne_self_eq_false, Bool.false_or] at joined
    rw [found, Option.map_some, Option.getD_some, ofNode_extent, joined] at broken
    cases broken

theorem formOf_define {node : Node} {name : String} {params : Option (List String)} {body : List Char}
    (continued : isContinuedDefine source node = true)
    (define : formOf source node (ofNodes source node.children) = .define name params body) : '\n' ∉ body := by
  unfold formOf at define
  split at define
  · cases define
  · next kind =>
    cases define
    exact newline_not_mem_value continued (.inl kind)
  · next kind =>
    cases define
    exact newline_not_mem_value continued (.inr kind)
  · dsimp only at define
    split at define
    · split at define <;> cases define
    · cases define
  all_goals cases define

mutual

/-- A top-level construct is the form of a node of the tree. -/
theorem ofNode_items {check : Node → Bool} : ∀ {node : Node}, node.everywhere check = true →
    ∀ item ∈ (ofNode source node).items,
      ∃ inner, check inner = true ∧ item.form = formOf source inner (ofNodes source inner.children)
  | .node label extent children => by
    intro all item member
    rw [Node.everywhere, Bool.and_eq_true] at all
    obtain ⟨entries, same, items⟩ := items_ofChildren source (.node label extent children) (ofNodes source children)
    rw [ofNode, items] at member
    obtain ⟨entry, listed, own⟩ := mem_itemsAmong member
    refine ofNodes_items all.2 entry.1 (same ▸ List.mem_map_of_mem listed) item (own.imp_right ?_)
    rintro ⟨next, rfl⟩
    rfl

theorem ofNodes_items {check : Node → Bool} : ∀ {nodes : List Node}, Node.allEverywhere check nodes = true →
    ∀ reading ∈ ofNodes source nodes, ∀ item : Item, item ∈ reading.items ∨ item.form = reading.form →
      ∃ inner, check inner = true ∧ item.form = formOf source inner (ofNodes source inner.children)
  | [] => by simp [ofNodes]
  | node :: rest => by
    intro all reading member item own
    rw [Node.allEverywhere, Bool.and_eq_true] at all
    rw [ofNodes] at member
    rcases List.mem_cons.mp member with rfl | member
    · rcases own with inner | own
      · exact ofNode_items all.1 item inner
      · refine ⟨node, Node.check_of_everywhere all.1, own.trans ?_⟩
        cases node
        rfl
    · exact ofNodes_items all.2 reading member item own

end

end Surface.Reading

def Document.definesOnLines (document : Document) : Bool :=
  document.tree.everywhere (Surface.Reading.isContinuedDefine document.text)

namespace Program

section Lines

variable {files : FileSystem} (search : SearchPath) (path : String) {document : Document}
  (headers : ∀ place header, (place, FileContent.document header) ∈ files.files → header.definesOnLines = true)
  (main : document.definesOnLines = true)
include headers main

/-- The replacements of a unit are single lines if all line breaks in its `#define`s are continued. -/
theorem ofDocument_bodies_on_lines {id : Nat} {params : Option (List String)} {body : List Char} {names : List String}
    (define : ((ofDocument files search path document).directive id).kind = .define params body names) :
    '\n' ∉ body := by
  have opened := openingsOf_opened headers search path main
  by_cases inside : id < (ofDocument files search path document).macros.size
  · obtain ⟨opening, member, wrote⟩ := opened.exists_wrote inside
    have said := wrote.said
    rw [define] at said
    obtain ⟨name, form⟩ : ∃ name, opening.item.form = .define name params body := by
      unfold Surface.Form.macro? at said
      split at said <;> cases said
      exact ⟨_, by assumption⟩
    obtain ⟨node, continued, same⟩ := Surface.Reading.ofNode_items (opened.documents opening member) opening.item
      (opened.sound opening member).listed
    exact Surface.Reading.formOf_define continued (same.symm.trans form)
  · have missing : (ofDocument files search path document).directive id = default := by
      rw [directive, Array.getD_eq_getD_getElem?, Array.getElem?_eq_none (Nat.not_lt.mp inside)]
      rfl
    rw [missing] at define
    cases define
    exact List.not_mem_nil

/-- In such a unit, definitions that are taken for the same have the same parameters and the same tokens, up to the
blanks inside string and character constants. -/
theorem ofDocument_sameDefinition {id other : Nat} {params otherParams : Option (List String)}
    {body otherBody : List Char} {names otherNames : List String}
    (define : ((ofDocument files search path document).directive id).kind = .define params body names)
    (otherDefine : ((ofDocument files search path document).directive other).kind =
      .define otherParams otherBody otherNames)
    (same : ((ofDocument files search path document).directive id).sameDefinition
      ((ofDocument files search path document).directive other) = true) :
    params = otherParams ∧ List.Forall₂ Token.Respaced (tokenize body) (tokenize otherBody) := by
  have line := ofDocument_bodies_on_lines search path headers main define
  have otherLine := ofDocument_bodies_on_lines search path headers main otherDefine
  simp only [MacroDirective.sameDefinition, define, otherDefine, Bool.and_eq_true, beq_iff_eq] at same
  exact ⟨same.1, Token.tokenize_of_words line otherLine same.2⟩

end Lines

end Program

end Excerpt
