import Excerpt.Proofs.Draft.Folding

namespace Excerpt

namespace Constant

variable {resolve : String → Option Int64} {level : Nat} {tokens : List Token} {expr : Expr}

theorem Derives.exists_place (derived : Derives level tokens expr) {token : Token} (listed : token ∈ tokens)
    (kind : token.kind = .identifier) (outer : Nat) : ∃ place ∈ expr.places outer, place.2 = token.text := by
  have punct : ∀ {other : Token}, other.kind = .punct → token ≠ other := by
    rintro other isPunct rfl
    rw [isPunct] at kind
    cases kind
  induction derived generalizing outer with
  | number other | char other =>
    rw [← List.mem_singleton.mp listed, kind] at other
    cases other
  | name => exact ⟨_, List.mem_singleton_self _, by rw [List.mem_singleton.mp listed]⟩
  | group opens _ closes ih =>
    simp only [List.mem_cons, List.mem_append, List.not_mem_nil, or_false, punct opens.1, punct closes.1,
      false_or] at listed
    exact ih listed 0
  | unary sign _ _ ih => exact ih (List.mem_of_ne_of_mem (punct sign) listed) 11
  | binary _ sign _ _ left right =>
    simp only [List.mem_append, List.mem_cons, punct sign, false_or] at listed
    simp only [Expr.places, List.mem_append, or_and_right, exists_or]
    exact listed.imp (left · _) (right · _)
  | conditional _ marks _ divides _ condition positive negative =>
    simp only [List.mem_append, List.mem_cons, punct marks.1, punct divides.1, false_or, ← or_assoc] at listed
    simp only [Expr.places, List.mem_append, or_and_right, exists_or]
    exact listed.imp (Or.imp (condition · _) (positive · _)) (negative · _)
  | tighter _ _ ih => exact ih listed outer

theorem resolve_of_evaluate {text : List Char} {value : Int64} (evaluates : evaluate resolve text = some value)
    {token : Token}
    (listed : token ∈ tokenize text) (kind : token.kind = .identifier) : ∃ value, resolve token.text = some value := by
  obtain ⟨expr, derived⟩ := exists_derives_of_evaluate evaluates
  rw [derived.evaluate_eq] at evaluates
  obtain ⟨place, placed, same⟩ := derived.exists_place listed kind 0
  exact same ▸ resolve_of_value evaluates place placed

end Constant

namespace Draft

/-- The macro `name` has no parameters, and `inner` is an identifier of its replacement. -/
def Mentions (draft : Draft) (name inner : String) : Prop :=
  ∃ body, draft.replacement? name = some body ∧ ∃ token ∈ tokenize body, token.kind = .identifier ∧ token.text = inner

variable {draft : Draft} {name inner : String} {value : Int64} {levels : Nat}

/-- A macro with a value gives each name in its replacement a value, one level further down. -/
theorem constant?_of_mentions (mentions : draft.Mentions name inner)
    (found : draft.constant? levels name = some value) :
    0 < levels ∧ ∃ value, draft.constant? (levels - 1) inner = some value := by
  obtain ⟨body, replaced, token, listed, kind, rfl⟩ := mentions
  cases levels with
  | zero => cases found
  | succ fewer =>
    rw [constant?_of_replacement replaced] at found
    exact ⟨Nat.succ_pos fewer, Constant.resolve_of_evaluate found listed kind⟩

/-- A macro has a value only if every name in its replacement has one, with one level of macros less. A path of mentions
takes as many levels as it is long. -/
theorem constant?_of_path {path : List String} (nested : List.IsChain draft.Mentions (name :: path))
    (found : draft.constant? levels name = some value) :
    path.length < levels ∧ ∃ value, draft.constant? (levels - path.length) (path.getLastD name) = some value := by
  induction path generalizing name levels value with
  | nil =>
    refine ⟨Nat.pos_of_ne_zero ?_, value, found⟩
    rintro rfl
    cases found
  | cons next rest ih =>
    obtain ⟨first, nested⟩ := List.isChain_cons_cons.mp nested
    obtain ⟨some, value, found⟩ := constant?_of_mentions first found
    obtain ⟨below, value, found⟩ := ih nested found
    have less : levels - 1 - rest.length = levels - (rest.length + 1) := by omega
    rw [less] at found
    rw [List.length_cons, List.getLastD_cons]
    exact ⟨by omega, value, found⟩

theorem constant?_of_cycle (cycle : Relation.TransGen draft.Mentions name name) (levels : Nat) :
    draft.constant? levels name = none := by
  induction levels generalizing name with
  | zero => rfl
  | succ fewer ih =>
    by_contra found
    obtain ⟨value, found⟩ := Option.ne_none_iff_exists'.mp found
    obtain ⟨next, mentions, back⟩ := Relation.TransGen.head'_iff.mp cycle
    obtain ⟨-, value, found⟩ := constant?_of_mentions mentions found
    rw [Nat.add_sub_cancel, ih (.tail' back mentions)] at found
    cases found

/-- A macro that leads back to itself has no value, whatever the levels of macros. A macro with a value has a value for
every name in its replacement, and no name stands deeper in replacements than the levels of folding allow. -/
theorem constant?_acyclic (draft : Draft) (name : String) :
    (Relation.TransGen draft.Mentions name name → ∀ levels, draft.constant? levels name = none) ∧
      ∀ value, draft.constant? foldDepth name = some value →
        (∀ inner, draft.Mentions name inner → ∃ value, draft.constant? (foldDepth - 1) inner = some value) ∧
        ∀ path, List.IsChain draft.Mentions (name :: path) → path.length < foldDepth ∧
          ∃ value, draft.constant? (foldDepth - path.length) (path.getLastD name) = some value :=
  ⟨constant?_of_cycle, fun _ found =>
    ⟨fun _ mentions => (constant?_of_mentions mentions found).2, fun _ nested => constant?_of_path nested found⟩⟩

def ofMacros (macros : List (String × String)) : Draft :=
  { program := { macros := (macros.map fun (name, body) =>
      ⟨name, .define none body.toList [], default, default, 0⟩).toArray } }

/-- Two macros that stand for each other have no value, and a macro for a sum has that of the sum. -/
theorem constant?_acyclic_ofMacros :
    (∀ levels, (ofMacros [("A", "(B)"), ("B", "0 ? A : 1")]).constant? levels "A" = none) ∧
      (ofMacros [("N", "K + 1"), ("K", "2")]).constant? foldDepth "N" = some 3 ∧
      ∃ value, (ofMacros [("N", "K + 1"), ("K", "2")]).constant? 16 "K" = some value := by
  have first : (ofMacros [("A", "(B)"), ("B", "0 ? A : 1")]).Mentions "A" "B" := ⟨_, rfl, by decide⟩
  have second : (ofMacros [("A", "(B)"), ("B", "0 ? A : 1")]).Mentions "B" "A" := ⟨_, rfl, by decide⟩
  have sum : (ofMacros [("N", "K + 1"), ("K", "2")]).constant? foldDepth "N" = some 3 := by decide +kernel
  exact ⟨(constant?_acyclic _ "A").1 (.tail (.single first) second), sum,
    ((constant?_acyclic _ "N").2 3 sum).1 "K" ⟨_, rfl, by decide⟩⟩

end Draft

end Excerpt
