import Excerpt.Program.Build
import Mathlib.Order.Nat

namespace Excerpt.Program

variable {program : Program}

def nextChain (program : Program) (previous : Option DeclId) : ChainId :=
  match previous with
  | some earlier => (program.decl earlier).chain
  | none => program.chains.size

section Decls

variable {decl : Decl} {previous : Option DeclId} {id : DeclId}

theorem addDecl_decls (program : Program) (decl : Decl) (previous : Option DeclId) :
    (program.addDecl decl previous).decls = program.decls.push { decl with chain := program.nextChain previous } := by
  cases previous <;> rfl

@[simp] theorem addDecl_size : (program.addDecl decl previous).decls.size = program.decls.size + 1 := by
  simp [addDecl_decls]

theorem decl_addDecl : (program.addDecl decl previous).decl id =
    if id = program.decls.size then { decl with chain := program.nextChain previous } else program.decl id := by
  simp only [Program.decl, addDecl_decls, Array.getD_eq_getD_getElem?, Array.getElem?_push]
  split_ifs <;> rfl

theorem decl_addDecl_of_lt (old : id < program.decls.size) :
    (program.addDecl decl previous).decl id = program.decl id := by
  rw [decl_addDecl, if_neg (Nat.ne_of_lt old)]

@[simp] theorem decl_addDecl_size :
    (program.addDecl decl previous).decl program.decls.size = { decl with chain := program.nextChain previous } := by
  rw [decl_addDecl, if_pos rfl]

/-- A declaration joins the chain of what it continues, or opens one, and is the last of it. Other chains stay. -/
theorem chain_addDecl {chain : ChainId} (joined : ∀ earlier, previous = some earlier →
      (program.decl earlier).chain < program.chains.size) :
    (program.addDecl decl previous).chain chain =
      if chain = program.nextChain previous then program.chain chain ++
        [program.decls.size] else program.chain chain := by
  cases previous with
  | some earlier =>
    have inside := joined earlier rfl
    simp only [Program.chain, addDecl, nextChain, Array.getD_eq_getD_getElem?, Array.getElem?_modify]
    by_cases same : (program.decl earlier).chain = chain
    · subst same
      simp [inside]
    · simp [same, Ne.symm same]
  | none =>
    simp only [Program.chain, addDecl, nextChain, Array.getD_eq_getD_getElem?, Array.getElem?_push]
    by_cases same : chain = program.chains.size
    · subst same
      simp
    · simp [same]

theorem decl_modifyDecl {change : Decl → Decl} {other : DeclId} :
    (program.modifyDecl id change).decl other =
      if other = id ∧ id < program.decls.size then change (program.decl id) else program.decl other := by
  simp only [Program.decl, modifyDecl, Array.getD_eq_getD_getElem?, Array.getElem?_modify]
  by_cases same : id = other
  · subst same
    by_cases inside : id < program.decls.size
    · simp [inside]
    · simp [inside]
  · simp [same, Ne.symm same]

@[simp] theorem modifyDecl_size {change : Decl → Decl} :
    (program.modifyDecl id change).decls.size = program.decls.size := by
  simp [modifyDecl]

end Decls

section Layout

theorem item_setItemKind {id other : ItemId} {kind : ItemKind} (inside : id < program.items.size) :
    (program.setItemKind id kind).item other =
      if other = id then { program.item id with kind } else program.item other := by
  simp only [item, setItemKind, Array.getD_eq_getD_getElem?, Array.getElem?_modify]
  by_cases same : id = other
  · subst same
    simp [inside]
  · simp [same, Ne.symm same]

theorem inclusion_setIncludedFile {id other : IncludeId} {file : FileId} :
    (program.setIncludedFile id file).inclusion other =
      if other = id ∧ id < program.includes.size then { program.inclusion id with file := some file }
      else program.inclusion other := by
  simp only [Program.inclusion, setIncludedFile, Array.getD_eq_getD_getElem?, Array.getElem?_modify]
  by_cases same : id = other
  · subst same
    by_cases inside : id < program.includes.size <;> simp [inside]
  · simp [same, Ne.symm same]

end Layout

end Excerpt.Program
