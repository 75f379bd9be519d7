import Excerpt.Proofs.Closure.Chains
import Excerpt.Proofs.Draft.Carrying
import Excerpt.Proofs.Draft.Written

namespace Excerpt

/-- The tags bound in each scope, the innermost first. -/
abbrev TagTables := List (List (String × DeclId))

theorem DeclKind.hasBody_of_isTag {kind : DeclKind} (isTag : kind.isTag = true) : kind.hasBody = false := by
  cases kind with
  | function => cases isTag
  | _ => rfl

theorem DeclKind.isTag_or_hasBody {kind : DeclKind} (definition : kind.isDefinition = true) :
    kind.isTag = true ∨ kind.hasBody = true := by
  cases kind with
  | function type body => cases body <;> simp_all [isDefinition, hasBody]
  | record | enumeration => exact .inl rfl
  | _ => cases definition

namespace Program

def DefinesTag (program : Program) (id : DeclId) : Prop :=
  (program.decl id).kind.isTag = true ∧ (program.decl id).kind.isDefinition = true

/-- A tag by itself. -/
def ForwardsTag (program : Program) (id : DeclId) : Prop :=
  (program.decl id).kind.isTag = true ∧ (program.decl id).kind.isDefinition = false

def IsLastTag (program : Program) (id : Nat) : Prop :=
  ∀ other : Nat, (program.decl other).kind.isTag = true → (program.decl other).chain = (program.decl id).chain →
    other ≤ id

/-- Every tag that is bound is bound once, and what its name leads to is the last tag of its chain. Between two
definitions in a chain stands a tag by itself. -/
structure Separates (program : Program) (tables : TagTables) : Prop where
  bounded : ∀ id : Nat, id < program.decls.size → (program.decl id).chain < program.chains.size
  tags : ∀ table ∈ tables, ∀ entry ∈ table, (program.decl entry.2).kind.isTag = true
  distinct : (tables.flatten.map Prod.snd).Nodup
  last : ∀ table ∈ tables, ∀ (name : String) (id : Nat), table.lookup name = some id → program.IsLastTag id
  between : ∀ first second : Nat, first < second → program.DefinesTag first → program.DefinesTag second →
    (program.decl first).chain = (program.decl second).chain →
    ∃ forward : Nat, first < forward ∧ forward < second ∧ program.ForwardsTag forward ∧
      (program.decl forward).chain = (program.decl first).chain

variable {program : Program} {tables : TagTables} {decl : Decl} {previous : Option DeclId}

theorem Separates.sublist (separates : program.Separates tables) {fewer : TagTables} (sublist : fewer.Sublist tables) :
    program.Separates fewer where
  bounded := separates.bounded
  tags table member := separates.tags table (sublist.subset member)
  distinct := separates.distinct.sublist (sublist.flatten.map _)
  last table member := separates.last table (sublist.subset member)
  between := separates.between

theorem Separates.enter (separates : program.Separates tables) : program.Separates ([] :: tables) where
  bounded := separates.bounded
  tags := List.forall_mem_cons.mpr ⟨by simp, separates.tags⟩
  distinct := separates.distinct
  last := List.forall_mem_cons.mpr ⟨by simp, separates.last⟩
  between := separates.between

theorem Separates.perm (separates : program.Separates tables) {others : TagTables} (perm : tables.Perm others) :
    program.Separates others where
  bounded := separates.bounded
  tags table member := separates.tags table (perm.mem_iff.mpr member)
  distinct := (perm.flatten.map _).nodup_iff.mp separates.distinct
  last table member := separates.last table (perm.mem_iff.mpr member)
  between := separates.between

/-- Order depends on the chains and on which tags are definitions, nothing else. -/
theorem Separates.congr {other : Program} (separates : program.Separates tables)
    (size : other.decls.size = program.decls.size) (chains : other.chains.size = program.chains.size)
    (chain : ∀ id, (other.decl id).chain = (program.decl id).chain)
    (isTag : ∀ id, (other.decl id).kind.isTag = (program.decl id).kind.isTag)
    (isDefinition : ∀ id, (program.decl id).kind.isTag = true →
      (other.decl id).kind.isDefinition = (program.decl id).kind.isDefinition) : other.Separates tables := by
  have defines : ∀ {id}, other.DefinesTag id → program.DefinesTag id := by
    rintro id ⟨tag, definition⟩
    rw [isTag] at tag
    exact ⟨tag, isDefinition id tag ▸ definition⟩
  refine ⟨?_, ?_, separates.distinct, ?_, ?_⟩
  · simpa only [size, chains, chain] using separates.bounded
  · simpa only [isTag] using separates.tags
  · simpa only [IsLastTag, isTag, chain] using separates.last
  · intro first second less firstDefines secondDefines same
    rw [chain, chain] at same
    obtain ⟨forward, after, before, ⟨tag, plain⟩, joined⟩ :=
      separates.between first second less (defines firstDefines) (defines secondDefines) same
    refine ⟨forward, after, before, ⟨(isTag forward).trans tag, (isDefinition forward tag).trans plain⟩, ?_⟩
    rw [chain, chain, joined]

section AddDecl

variable (separates : program.Separates tables)
  (known : ∀ earlier, previous = some earlier → earlier < program.decls.size)
include separates known

theorem Separates.bounded_addDecl {id : Nat} (inside : id < (program.addDecl decl previous).decls.size) :
    ((program.addDecl decl previous).decl id).chain < (program.addDecl decl previous).chains.size := by
  rw [addDecl_size] at inside
  rw [decl_addDecl]
  cases previous with
  | none =>
    have more : (program.addDecl decl none).chains.size = program.chains.size + 1 := by simp [addDecl]
    rw [more]
    split
    · exact Nat.lt_succ_self _
    · next old => exact Nat.lt_succ_of_lt (separates.bounded id (Nat.lt_of_le_of_ne (Nat.le_of_lt_succ inside) old))
  | some earlier =>
    have same : (program.addDecl decl (some earlier)).chains.size = program.chains.size := by simp [addDecl]
    rw [same]
    split
    · exact separates.bounded earlier (known earlier rfl)
    · next old => exact separates.bounded id (Nat.lt_of_le_of_ne (Nat.le_of_lt_succ inside) old)

/-- A declaration that joins another chain leaves the last tag of a chain the last one. -/
theorem Separates.last_addDecl {id : Nat} (last : program.IsLastTag id) (inside : id < program.decls.size)
    (apart : decl.kind.isTag = true → ∀ earlier, previous = some earlier →
      (program.decl earlier).chain ≠ (program.decl id).chain) : (program.addDecl decl previous).IsLastTag id := by
  intro other tag same
  rw [decl_addDecl_of_lt inside] at same
  rw [decl_addDecl] at tag same
  split_ifs at tag same
  · cases previous with
    | none => exact absurd same (separates.bounded id inside).ne'
    | some earlier => exact absurd same (apart tag earlier rfl)
  · exact last other tag same

/-- A definition that joins a chain stands behind the tag by itself that it joins, and that one behind all earlier
definitions. -/
theorem Separates.between_addDecl
    (reopens : decl.kind.isTag = true → decl.kind.isDefinition = true → ∀ earlier, previous = some earlier →
      program.ForwardsTag earlier ∧ program.IsLastTag earlier)
    {first second : Nat} (less : first < second) (firstDefines : (program.addDecl decl previous).DefinesTag first)
    (secondDefines : (program.addDecl decl previous).DefinesTag second)
    (same : ((program.addDecl decl previous).decl first).chain = ((program.addDecl decl previous).decl second).chain) :
    ∃ forward : Nat, first < forward ∧ forward < second ∧ (program.addDecl decl previous).ForwardsTag forward ∧
      ((program.addDecl decl previous).decl forward).chain = ((program.addDecl decl previous).decl first).chain := by
  have inside : second < program.decls.size + 1 := addDecl_size ▸ lt_size_of_isTag secondDefines.1
  have old : ∀ {id}, id < program.decls.size → (program.addDecl decl previous).decl id = program.decl id :=
    decl_addDecl_of_lt
  have firstOld := old (show first < program.decls.size by omega)
  rw [DefinesTag, firstOld] at firstDefines
  by_cases new : second = program.decls.size
  · subst new
    rw [DefinesTag, decl_addDecl_size] at secondDefines
    rw [firstOld, decl_addDecl_size] at same
    cases previous with
    | none => exact absurd same (separates.bounded first (by omega)).ne
    | some earlier =>
      obtain ⟨forwards, last⟩ := reopens secondDefines.1 secondDefines.2 earlier rfl
      have below : first < earlier := by
        refine Nat.lt_of_le_of_ne (last first firstDefines.1 same) ?_
        rintro rfl
        exact Bool.false_ne_true (forwards.2.symm.trans firstDefines.2)
      have earlierOld := old (known earlier rfl)
      refine ⟨earlier, below, known earlier rfl, ?_, ?_⟩
      · rwa [ForwardsTag, earlierOld]
      · rw [earlierOld, firstOld]
        exact same.symm
  · have secondOld := old (show second < program.decls.size by omega)
    rw [DefinesTag, secondOld] at secondDefines
    rw [firstOld, secondOld] at same
    obtain ⟨forward, after, before, forwards, joined⟩ :=
      separates.between first second less firstDefines secondDefines same
    have forwardOld := old (show forward < program.decls.size by omega)
    refine ⟨forward, after, before, ?_, ?_⟩
    · rwa [ForwardsTag, forwardOld]
    · rwa [forwardOld, firstOld]

/-- A declaration that continues no tag changes no order. -/
theorem Separates.addDecl (plain : decl.kind.isTag = true → previous = none) :
    (program.addDecl decl previous).Separates tables where
  bounded _ := separates.bounded_addDecl known
  tags table member entry bound := by
    have tag := separates.tags table member entry bound
    rwa [decl_addDecl_of_lt (lt_size_of_isTag tag)]
  distinct := separates.distinct
  last table member name id found := by
    have tag := separates.tags table member _ (mem_of_lookup found)
    refine separates.last_addDecl known (separates.last table member name id found) (lt_size_of_isTag tag) ?_
    intro isTag earlier joins
    rw [plain isTag] at joins
    cases joins
  between _ _ := by
    refine separates.between_addDecl known fun isTag _ earlier joins => ?_
    rw [plain isTag] at joins
    cases joins

end AddDecl

/-- A tag is declared and bound in one of the scopes. It joins at most the tag of its name there; a definition joins
only a tag by itself. -/
theorem Separates.bind {table : List (String × DeclId)} {rest : TagTables} {name : String}
    (separates : program.Separates (table :: rest)) (isTag : decl.kind.isTag = true)
    (joins : ∀ earlier, previous = some earlier → table.lookup name = some earlier)
    (reopens : decl.kind.isDefinition = true → ∀ earlier, previous = some earlier → program.ForwardsTag earlier) :
    (program.addDecl decl previous).Separates (((name, program.decls.size) :: table) :: rest) := by
  have known : ∀ table' ∈ table :: rest, ∀ entry ∈ table', entry.2 < program.decls.size :=
    fun table' member entry bound => lt_size_of_isTag (separates.tags table' member entry bound)
  have joined : ∀ earlier, previous = some earlier → earlier < program.decls.size :=
    fun earlier found => known table List.mem_cons_self _ (mem_of_lookup (joins earlier found))
  -- A name that leads elsewhere than the tag that is joined leads to another chain, since both would end theirs.
  have last : ∀ table' ∈ table :: rest, ∀ (word : String) (id : Nat), table'.lookup word = some id →
      previous ≠ some id → (program.addDecl decl previous).IsLastTag id := by
    intro table' member word id found differs
    have ends := separates.last table' member word id found
    refine separates.last_addDecl joined ends (known table' member _ (mem_of_lookup found))
      fun _ earlier taken same => ?_
    have other := separates.last table List.mem_cons_self name earlier (joins earlier taken)
    have tag := separates.tags table' member _ (mem_of_lookup found)
    have before := ends earlier (separates.tags table List.mem_cons_self _ (mem_of_lookup (joins earlier taken))) same
    exact differs (taken.trans (congrArg some (Nat.le_antisymm before (other id tag same.symm))))
  have distinct := separates.distinct
  simp only [List.flatten_cons, List.map_append, List.nodup_append] at distinct
  obtain ⟨own, others, apart⟩ := distinct
  refine ⟨fun _ => separates.bounded_addDecl joined, ?_, ?_, ?_, fun _ _ => ?_⟩
  · have old : ∀ table' ∈ table :: rest, ∀ entry ∈ table',
        ((program.addDecl decl previous).decl entry.2).kind.isTag = true := by
      intro table' member entry bound
      rw [decl_addDecl_of_lt (known table' member entry bound)]
      exact separates.tags table' member entry bound
    refine List.forall_mem_cons.mpr
      ⟨List.forall_mem_cons.mpr ⟨?_, old table List.mem_cons_self⟩, fun table' member => ?_⟩
    · rwa [decl_addDecl_size]
    · exact old table' (List.mem_cons_of_mem _ member)
  · refine List.nodup_cons.mpr ⟨fun member => ?_, separates.distinct⟩
    obtain ⟨entry, bound, same⟩ := List.mem_map.mp member
    obtain ⟨table', isTable, bound⟩ := List.mem_flatten (L := table :: rest).mp bound
    exact absurd same (known table' isTable entry bound).ne
  · refine List.forall_mem_cons.mpr ⟨fun word id found => ?_, fun table' member word id found => ?_⟩
    · by_cases same : word = name
      · rw [same, List.lookup_cons_self] at found
        cases found
        intro other tag _
        have inside := lt_size_of_isTag tag
        rw [addDecl_size] at inside
        exact Nat.le_of_lt_succ inside
      · rw [List.lookup_cons, beq_false_of_ne same] at found
        refine last table List.mem_cons_self word id found fun taken => same ?_
        exact congrArg Prod.fst
          (List.inj_on_of_nodup_map own (mem_of_lookup found) (mem_of_lookup (joins id taken)) rfl)
    · refine last table' (List.mem_cons_of_mem _ member) word id found fun taken => ?_
      have here : id ∈ table.map Prod.snd := List.mem_map_of_mem (mem_of_lookup (joins id taken))
      have there : id ∈ rest.flatten.map Prod.snd :=
        List.mem_map_of_mem (List.mem_flatten.mpr ⟨table', member, mem_of_lookup found⟩)
      exact apart id here id there rfl
  · refine separates.between_addDecl joined fun _ definition earlier taken => ⟨reopens definition earlier taken, ?_⟩
    exact separates.last table List.mem_cons_self name earlier (joins earlier taken)

theorem lt_size_of_hasBody {id : DeclId} (bodied : (program.decl id).kind.hasBody = true) :
    id < program.decls.size := by
  apply lt_size_of_ne
  intro missing
  rw [missing] at bodied
  cases bodied

theorem part_modifyDecl {α : Type} (part : Decl → α) {id : DeclId} {change : Decl → Decl}
    (same : ∀ decl, part (change decl) = part decl) (other : DeclId) :
    part ((program.modifyDecl id change).decl other) = part (program.decl other) := by
  rw [decl_modifyDecl]
  split
  · next found => rw [same, found.1]
  · rfl

/-- Names are bound to known declarations, and tags as `Separates` says. -/
structure Orderly (program : Program) (scopes : List Scope) : Prop where
  ordinary : ∀ scope ∈ scopes, ∀ entry ∈ scope.ordinary, entry.2 < program.decls.size
  separates : program.Separates (scopes.map (·.tags))

namespace Orderly

variable {scopes rest : List Scope} {scope : Scope} {name : String}

theorem addDecl (orderly : program.Orderly scopes)
    (known : ∀ earlier, previous = some earlier → earlier < program.decls.size)
    (plain : decl.kind.isTag = true → previous = none) : (program.addDecl decl previous).Orderly scopes where
  ordinary scope member entry bound := by
    rw [addDecl_size]
    exact Nat.lt_succ_of_lt (orderly.ordinary scope member entry bound)
  separates := orderly.separates.addDecl known plain

theorem bindOrdinary (orderly : program.Orderly (scope :: rest)) {id : DeclId} (inside : id < program.decls.size) :
    program.Orderly ({ scope with ordinary := (name, id) :: scope.ordinary } :: rest) where
  ordinary := by
    obtain ⟨first, others⟩ := List.forall_mem_cons.mp orderly.ordinary
    exact List.forall_mem_cons.mpr ⟨List.forall_mem_cons.mpr ⟨inside, first⟩, others⟩
  separates := orderly.separates

theorem bindTag (orderly : program.Orderly (scope :: rest)) (isTag : decl.kind.isTag = true)
    (joins : ∀ earlier, previous = some earlier → scope.tags.lookup name = some earlier)
    (reopens : decl.kind.isDefinition = true → ∀ earlier, previous = some earlier → program.ForwardsTag earlier) :
    (program.addDecl decl previous).Orderly
      ({ scope with tags := (name, program.decls.size) :: scope.tags } :: rest) where
  ordinary := by
    obtain ⟨first, others⟩ := List.forall_mem_cons.mp orderly.ordinary
    rw [addDecl_size]
    exact List.forall_mem_cons.mpr ⟨fun entry bound => Nat.lt_succ_of_lt (first entry bound),
      fun scope member entry bound => Nat.lt_succ_of_lt (others scope member entry bound)⟩
  separates := orderly.separates.bind isTag joins reopens

theorem perm (orderly : program.Orderly scopes) {others : List Scope} (perm : scopes.Perm others) :
    program.Orderly others where
  ordinary scope member := orderly.ordinary scope (perm.mem_iff.mpr member)
  separates := orderly.separates.perm (perm.map _)

theorem enter (orderly : program.Orderly scopes) : program.Orderly ({} :: scopes) where
  ordinary := List.forall_mem_cons.mpr ⟨by simp, orderly.ordinary⟩
  separates := orderly.separates.enter

theorem sublist (orderly : program.Orderly scopes) {fewer : List Scope} (sublist : fewer.Sublist scopes) :
    program.Orderly fewer where
  ordinary scope member := orderly.ordinary scope (sublist.subset member)
  separates := orderly.separates.sublist (sublist.map _)

theorem congr (orderly : program.Orderly scopes) {other : Program} (decls : other.decls = program.decls)
    (chains : other.chains = program.chains) : other.Orderly scopes := by
  have decl : other.decl = program.decl := by
    funext id
    rw [Program.decl, Program.decl, decls]
  refine ⟨by rw [decls]; exact orderly.ordinary, orderly.separates.congr ?_ ?_ ?_ ?_ ?_⟩
  · rw [decls]
  · rw [chains]
  · simp [decl]
  · simp [decl]
  · simp [decl]

theorem modifyDecl (orderly : program.Orderly scopes) {id : DeclId} {change : Decl → Decl}
    (same : ∀ decl, (change decl).chain = decl.chain ∧ (change decl).kind.isTag = decl.kind.isTag ∧
      (decl.kind.isTag = true → (change decl).kind.isDefinition = decl.kind.isDefinition)) :
    (program.modifyDecl id change).Orderly scopes := by
  refine ⟨by simpa using orderly.ordinary, orderly.separates.congr (by simp) rfl ?_ ?_ fun other tag => ?_⟩
  · exact part_modifyDecl Decl.chain fun decl => (same decl).1
  · exact part_modifyDecl (fun decl => decl.kind.isTag) fun decl => (same decl).2.1
  · rw [decl_modifyDecl]
    split
    · next found => exact found.1 ▸ (same _).2.2 (found.1 ▸ tag)
    · rfl

end Orderly

end Program

namespace Draft

/-- Reading from one draft to another keeps the order and the chains, defines no function and gives no function a
body. -/
structure Advances (before after : Draft) : Prop where
  orderly : before.program.Orderly before.scopes → after.program.Orderly after.scopes
  keeps : ∀ id : Nat, id < before.program.decls.size →
    id < after.program.decls.size ∧ (after.program.decl id).chain = (before.program.decl id).chain
  defined : after.defined = before.defined
  bodies : ∀ id, (after.program.decl id).kind.hasBody = true → (before.program.decl id).kind.hasBody = true

variable {draft : Draft} {decl : Decl} {previous : Option DeclId} {name : String}

theorem exists_scopes_eq (draft : Draft) : ∃ rest, draft.scopes = draft.innermost :: rest ∧
    ∀ change, (draft.modifyInnermost change).scopes = change draft.innermost :: rest := by
  unfold scopes innermost modifyInnermost
  cases draft.blocks with
  | nil => exact ⟨[], rfl, fun _ => rfl⟩
  | cons scope rest => exact ⟨rest ++ [draft.fileScope], rfl, fun _ => rfl⟩

theorem defined_modifyInnermost (draft : Draft) (change : Scope → Scope) :
    (draft.modifyInnermost change).defined = draft.defined := by
  unfold modifyInnermost
  split <;> rfl

theorem advances_of_program {after : Draft} (noBody : decl.kind.hasBody = false)
    (program : after.program = draft.program.addDecl decl previous) (defined : after.defined = draft.defined)
    (orderly : draft.program.Orderly draft.scopes → (draft.program.addDecl decl previous).Orderly after.scopes) :
    draft.Advances after := by
  rw [← program] at orderly
  refine ⟨orderly, fun id inside => ?_, defined, fun id bodied => ?_⟩
  · rw [program, Program.addDecl_size, Program.decl_addDecl_of_lt inside]
    exact ⟨Nat.lt_succ_of_lt inside, rfl⟩
  · rw [program, Program.decl_addDecl] at bodied
    split at bodied
    · rw [noBody] at bodied
      cases bodied
    · exact bodied

theorem advances_bindOrdinary (noTag : decl.kind.isTag = false) (noBody : decl.kind.hasBody = false)
    (bound : ∀ earlier, previous = some earlier → ∃ scope ∈ draft.scopes, (name, earlier) ∈ scope.ordinary) :
    draft.Advances (({ draft with program := draft.program.addDecl decl previous } : Draft).bindOrdinary name
      draft.program.decls.size) := by
  refine advances_of_program noBody (bindOrdinary_program ..) (defined_modifyInnermost _ _) fun orderly => ?_
  have known : ∀ earlier, previous = some earlier → earlier < draft.program.decls.size := by
    intro earlier found
    obtain ⟨scope, member, bound⟩ := bound earlier found
    exact orderly.ordinary scope member _ bound
  obtain ⟨rest, scopes, changed⟩ := exists_scopes_eq { draft with program := draft.program.addDecl decl previous }
  have added := orderly.addDecl known fun isTag => absurd (noTag.symm.trans isTag) Bool.false_ne_true
  rw [bindOrdinary, changed]
  exact Program.Orderly.bindOrdinary (scopes ▸ added) (by simp)

/-- A tag is bound in the innermost scope, where at most one tag of its name is joined. -/
theorem advances_bindTag (isTag : decl.kind.isTag = true)
    (joins : ∀ earlier, previous = some earlier → draft.innermost.tags.lookup name = some earlier)
    (reopens : decl.kind.isDefinition = true → ∀ earlier, previous = some earlier → draft.program.ForwardsTag earlier) :
    draft.Advances (({ draft with program := draft.program.addDecl decl previous } : Draft).bindTag name
      draft.program.decls.size) := by
  refine advances_of_program (DeclKind.hasBody_of_isTag isTag) (bindTag_program ..) (defined_modifyInnermost _ _)
    fun orderly => ?_
  obtain ⟨rest, scopes, changed⟩ := exists_scopes_eq { draft with program := draft.program.addDecl decl previous }
  rw [bindTag, changed]
  exact Program.Orderly.bindTag (scopes ▸ orderly) isTag joins reopens

/-- The first mention of a tag in a body is bound at file scope, which stands behind the blocks. -/
theorem advances_bindFileTag (isTag : decl.kind.isTag = true) :
    draft.Advances (({ draft with program := draft.program.addDecl decl none } : Draft).bindFileTag name
      draft.program.decls.size) := by
  refine advances_of_program (DeclKind.hasBody_of_isTag isTag) (show _ = draft.program.addDecl decl none from rfl) rfl
    fun orderly => ?_
  have moved : (draft.fileScope :: draft.blocks).Perm draft.scopes := (List.perm_append_singleton ..).symm
  have bound : (draft.program.addDecl decl none).Orderly
      ({ draft.fileScope with tags := (name, draft.program.decls.size) :: draft.fileScope.tags } :: draft.blocks) :=
    (orderly.perm moved.symm).bindTag isTag (fun _ none => by cases none) fun _ _ none => by cases none
  exact bound.perm (List.perm_append_singleton _ _).symm

theorem advances_modifyDecl (id : DeclId) (change : Decl → Decl)
    (same : ∀ decl, (change decl).chain = decl.chain ∧ (change decl).kind.isTag = decl.kind.isTag ∧
      (change decl).kind.isDefinition = decl.kind.isDefinition ∧ (change decl).kind.hasBody = decl.kind.hasBody) :
    draft.Advances { draft with program := draft.program.modifyDecl id change } where
  orderly orderly := orderly.modifyDecl fun decl => ⟨(same decl).1, (same decl).2.1, fun _ => (same decl).2.2.1⟩
  keeps other inside := by
    refine ⟨?_, Program.part_modifyDecl Decl.chain (fun decl => (same decl).1) other⟩
    simpa using inside
  defined := rfl
  bodies other bodied := by
    rwa [Program.part_modifyDecl (fun decl => decl.kind.hasBody) (fun decl => (same decl).2.2.2) other] at bodied

theorem advances_congr {after : Draft} (decls : after.program.decls = draft.program.decls)
    (chains : after.program.chains = draft.program.chains) (scopes : after.scopes = draft.scopes)
    (defined : after.defined = draft.defined) : draft.Advances after := by
  have decl : after.program.decl = draft.program.decl := by
    funext id
    rw [Program.decl, Program.decl, decls]
  refine ⟨fun orderly => ?_, fun id inside => ?_, defined, fun id bodied => decl ▸ bodied⟩
  · rw [scopes]
    exact orderly.congr decls chains
  · rw [decls, decl]
    exact ⟨inside, rfl⟩

/-- A chain has at most one function with a body, and chains that have one are defined. -/
structure Single (draft : Draft) : Prop where
  known : ∀ chain ∈ draft.defined, ∃ id : Nat, id < draft.program.decls.size ∧ (draft.program.decl id).chain = chain
  defined : ∀ id, (draft.program.decl id).kind.hasBody = true → (draft.program.decl id).chain ∈ draft.defined
  single : ∀ first second, (draft.program.decl first).kind.hasBody = true →
    (draft.program.decl second).kind.hasBody = true →
    (draft.program.decl first).chain = (draft.program.decl second).chain → first = second

/-- What holds of every draft between two items. -/
structure Ordered (draft : Draft) : Prop where
  orderly : draft.program.Orderly draft.scopes
  single : draft.Single

variable {before after : Draft}

/-- Reading that gives no function a body keeps every chain at one body. -/
theorem Single.advance (single : before.Single) (advances : before.Advances after) : after.Single := by
  have chain : ∀ id, (after.program.decl id).kind.hasBody = true →
      (after.program.decl id).chain = (before.program.decl id).chain := fun id bodied =>
    (advances.keeps id (Program.lt_size_of_hasBody (advances.bodies id bodied))).2
  refine ⟨fun defined member => ?_, fun id bodied => ?_, fun first second isFirst isSecond same => ?_⟩
  · rw [advances.defined] at member
    obtain ⟨id, inside, same⟩ := single.known defined member
    obtain ⟨still, kept⟩ := advances.keeps id inside
    exact ⟨id, still, kept.trans same⟩
  · rw [advances.defined, chain id bodied]
    exact single.defined id (advances.bodies id bodied)
  · rw [chain first isFirst, chain second isSecond] at same
    exact single.single first second (advances.bodies first isFirst) (advances.bodies second isSecond) same

theorem Ordered.advance (ordered : before.Ordered) (advances : before.Advances after) : after.Ordered :=
  ⟨advances.orderly ordered.orderly, ordered.single.advance advances⟩

/-- A body for a chain that is not defined yet is the only one of its chain. -/
theorem Single.define (id : Nat) (single : before.Single)
    (keeps : ∀ other : Nat, other < before.program.decls.size →
      other < after.program.decls.size ∧ (after.program.decl other).chain = (before.program.decl other).chain)
    (inside : id < after.program.decls.size) (fresh : (after.program.decl id).chain ∉ before.defined)
    (defined : after.defined = (after.program.decl id).chain :: before.defined)
    (bodies : ∀ other, other ≠ id → (after.program.decl other).kind.hasBody = true →
      (before.program.decl other).kind.hasBody = true) : after.Single := by
  have old : ∀ other, other ≠ id → (after.program.decl other).kind.hasBody = true →
      (after.program.decl other).chain = (before.program.decl other).chain ∧
        (after.program.decl other).chain ∈ before.defined := by
    intro other differs bodied
    have had := bodies other differs bodied
    have same := (keeps other (Program.lt_size_of_hasBody had)).2
    exact ⟨same, same ▸ single.defined other had⟩
  refine ⟨fun chain member => ?_, fun other bodied => ?_, fun first second isFirst isSecond same => ?_⟩
  · rw [defined] at member
    rcases List.mem_cons.mp member with rfl | member
    · exact ⟨id, inside, rfl⟩
    · obtain ⟨other, known, chain⟩ := single.known chain member
      obtain ⟨still, kept⟩ := keeps other known
      exact ⟨other, still, kept.trans chain⟩
  · rw [defined]
    by_cases own : other = id
    · exact own ▸ List.mem_cons_self
    · exact List.mem_cons_of_mem _ (old other own bodied).2
  · by_cases firstOwn : first = id <;> by_cases secondOwn : second = id
    · exact firstOwn.trans secondOwn.symm
    · exact absurd (old second secondOwn isSecond).2 (same ▸ firstOwn ▸ fresh)
    · exact absurd (old first firstOwn isFirst).2 (same ▸ secondOwn ▸ fresh)
    · obtain ⟨firstChain, -⟩ := old first firstOwn isFirst
      obtain ⟨secondChain, -⟩ := old second secondOwn isSecond
      rw [firstChain, secondChain] at same
      exact single.single first second (bodies first firstOwn isFirst) (bodies second secondOwn isSecond) same

/-- A function is defined: its chain counts as defined while the body is read, and the body is given at the end. -/
theorem Ordered.define (ordered : draft.Ordered) {closed : Draft} {id : Nat} {chain : ChainId} {change : Decl → Decl}
    (fresh : chain ∉ draft.defined)
    (advances : ({ draft with defined := chain :: draft.defined } : Draft).Advances closed)
    (inside : id < closed.program.decls.size) (joined : (closed.program.decl id).chain = chain)
    (same : ∀ decl, (change decl).chain = decl.chain ∧ (change decl).kind.isTag = decl.kind.isTag ∧
      (decl.kind.isTag = true → (change decl).kind.isDefinition = decl.kind.isDefinition)) :
    ({ closed with program := closed.program.modifyDecl id change } : Draft).Ordered := by
  have chains : ∀ other, ((closed.program.modifyDecl id change).decl other).chain = (closed.program.decl other).chain :=
    Program.part_modifyDecl Decl.chain fun decl => (same decl).1
  have own : ((closed.program.modifyDecl id change).decl id).chain = chain := (chains id).trans joined
  refine ⟨(advances.orderly ordered.orderly).modifyDecl same,
    ordered.single.define id (fun other known => ?_) ?_ ?_ ?_ ?_⟩
  · obtain ⟨still, kept⟩ := advances.keeps other known
    exact ⟨by simpa using still, (chains other).trans kept⟩
  · simpa using inside
  · exact own ▸ fresh
  · exact own ▸ advances.defined
  · intro other differs bodied
    rw [Program.decl_modifyDecl, if_neg fun found => differs found.1] at bodied
    exact advances.bodies other bodied

/-- A definition of a name whose chain is defined already opens another chain. -/
theorem Ordered.nextChain_fresh (ordered : draft.Ordered) (name : String) :
    draft.program.nextChain (draft.definedAs? name) ∉ draft.defined := by
  cases joins : draft.definedAs? name with
  | none =>
    intro member
    obtain ⟨id, inside, chain⟩ := ordered.single.known _ member
    exact absurd chain (ordered.orderly.separates.bounded id inside).ne
  | some earlier =>
    obtain ⟨-, isOpen⟩ := Option.filter_eq_some_iff.mp joins
    simpa [Program.nextChain] using (Bool.and_eq_true_iff.mp isOpen).2

end Draft

namespace Drafting

open Surface

/-- No action of reading defines a function, and a tag is defined again only behind the tag by itself. -/
theorem carries_advances : Carries Draft.Advances where
  refl draft := ⟨id, fun _ inside => ⟨inside, rfl⟩, rfl, fun _ => id⟩
  trans first second := by
    refine ⟨second.orderly ∘ first.orderly, fun id inside => ?_, second.defined.trans first.defined,
      fun id bodied => first.bodies id (second.bodies id bodied)⟩
    obtain ⟨between, chain⟩ := first.keeps id inside
    obtain ⟨last, later⟩ := second.keeps id between
    exact ⟨last, later.trans chain⟩
  typesStay _ _ := trivial
  addType type draft _ := by
    refine ⟨?_, trivial⟩
    change draft.Advances { draft with program := (draft.program.addType type).2 }
    unfold Program.addType
    split <;> exact Draft.advances_congr rfl rfl rfl rfl
  tagReference standalone kind name start draft := by
    have plain : kind.incomplete.isTag = true ∧ kind.incomplete.isDefinition = false := by
      cases kind <;> exact ⟨rfl, rfl⟩
    simp only [tagReference, gives_bind, gives_get]
    split
    · refine Draft.advances_bindTag plain.1 (fun _ found => found) fun definition => ?_
      rw [plain.2] at definition
      cases definition
    · split
      · exact Draft.advances_congr rfl rfl rfl rfl
      · exact Draft.advances_bindFileTag plain.1
  defineTag name start kind isTag isDefinition draft := by
    simp only [defineTag, gives_bind, gives_get]
    cases name with
    | none =>
      have noBody := DeclKind.hasBody_of_isTag isTag
      exact Draft.advances_of_program noBody rfl rfl fun orderly => orderly.addDecl (by simp) fun _ => rfl
    | some name =>
      refine Draft.advances_bindTag isTag (fun earlier found => ?_) fun _ earlier found => ?_
      · exact (Option.filter_eq_some_iff.mp found).1
      · obtain ⟨-, lacking⟩ := Option.filter_eq_some_iff.mp found
        split at lacking <;> simp_all [Program.ForwardsTag, DeclKind.isTag, DeclKind.isDefinition]
  declareObject storage isInline full bare name extent type draft := by
    simp only [declareObject, gives_bind, gives_get]
    refine Draft.advances_bindOrdinary ?_ ?_ fun earlier found => ?_
    · dsimp only
      split <;> rfl
    · dsimp only
      split <;> rfl
    · unfold Draft.redeclared? at found
      split at found
      · cases found
      · exact ⟨_, draft.fileScope_mem_scopes, mem_of_lookup (Option.filter_eq_some_iff.mp found).1⟩
  declareTypedef full name extent type draft := by
    simp only [declareTypedef, gives_bind, gives_get]
    refine Draft.advances_bindOrdinary rfl rfl fun earlier found => ?_
    exact ⟨_, draft.innermost_mem_scopes, mem_of_lookup (Option.filter_eq_some_iff.mp found).1⟩
  declareBound decl name plain draft :=
    Draft.advances_bindOrdinary (plain draft).1 (plain draft).2 fun _ found => by cases found
  setFields id fields draft := by
    refine Draft.advances_modifyDecl id _ fun decl => ?_
    split
    · next complete kind =>
      rw [kind]
      cases complete <;> exact ⟨rfl, rfl, rfl, rfl⟩
    · exact ⟨rfl, rfl, rfl, rfl⟩
  setConstants id constants draft := by
    refine Draft.advances_modifyDecl id _ fun decl => ?_
    split
    · next complete kind =>
      rw [kind]
      cases complete <;> exact ⟨rfl, rfl, rfl, rfl⟩
    · exact ⟨rfl, rfl, rfl, rfl⟩
  setInit id init draft := by
    refine Draft.advances_modifyDecl id _ fun decl => ?_
    split
    · next kind =>
      rw [kind]
      exact ⟨rfl, rfl, rfl, rfl⟩
    · exact ⟨rfl, rfl, rfl, rfl⟩
  enterScope draft := ⟨fun orderly => orderly.enter, fun _ inside => ⟨inside, rfl⟩, rfl, fun _ => id⟩
  leaveScope draft :=
    ⟨fun orderly => orderly.sublist ((List.tail_sublist draft.blocks).append_right _),
      fun _ inside => ⟨inside, rfl⟩, rfl, fun _ => id⟩
  withSpan draft span := Draft.advances_congr rfl rfl rfl rfl

variable {draft : Draft} {name : String}

theorem advances_throughScope {bound inner : Draft} {function : Option DeclId}
    (reads : ({ bound.enterScope with function } : Draft).Advances inner) :
    bound.Advances { inner.leaveScope with function := none } := by
  have enters : bound.Advances { bound.enterScope with function } :=
    carries_advances.trans (carries_advances.enterScope bound) (Draft.advances_congr rfl rfl rfl rfl)
  have leaves : inner.Advances { inner.leaveScope with function := none } :=
    carries_advances.trans (carries_advances.leaveScope inner) (Draft.advances_congr rfl rfl rfl rfl)
  exact carries_advances.trans (carries_advances.trans enters reads) leaves

/-- The declaration of a function joins a chain that is not defined, or opens one. -/
theorem declareFunction_opens (ordered : draft.Ordered) (type : TypeId) (isInline : Bool) (storage : StorageClass)
    (offset : Nat) (declarator : Option DeclaratorSpans) :
    Gives (declare (some name) (.function type none isInline) storage offset declarator (draft.definedAs? name)) draft
      fun id after => ∃ chain, chain ∉ draft.defined ∧ (after.program.decl id).chain = chain ∧
        id < after.program.decls.size ∧ ({ draft with defined := chain :: draft.defined } : Draft).Advances
          (({ after with defined := chain :: after.defined } : Draft).bindOrdinary name id) := by
  refine ⟨_, ordered.nextChain_fresh name, congrArg Decl.chain Program.decl_addDecl_size, ?_, ?_⟩
  · exact Program.addDecl_size ▸ Nat.lt_succ_self _
  · refine Draft.advances_bindOrdinary rfl rfl fun earlier found => ?_
    exact ⟨_, draft.fileScope_mem_scopes, mem_of_lookup (Option.filter_eq_some_iff.mp found).1⟩

/-- The step for a function, from its declaration to the body that it is given at the end. -/
theorem enterFunction_ordered (storage : StorageClass) (isInline : Bool) (base : TypeSpec) (declarator : Declarator)
    (extent : Extent) (body : Expr) (ordered : draft.Ordered) :
    Gives (enterFunction storage isInline base declarator extent body) draft fun _ after => after.Ordered := by
  simp only [enterFunction, gives_bind]
  refine (carries_advances.enterType false base draft).mono fun base first typed => ?_
  refine (carries_advances.enterDeclarator declarator trivial).mono fun named second declared => ?_
  have ready := (ordered.advance typed.1).advance declared
  split
  · exact ready
  · next name nameExtent _ =>
    simp only [gives_bind, gives_get, gives_modify]
    refine (declareFunction_opens ready named.type isInline storage _ _).mono fun id third opened => ?_
    obtain ⟨_, fresh, rfl, inside, bound⟩ := opened
    refine (carries_advances.declareParams id named.params _).mono fun _ fourth params => ?_
    refine (carries_advances.enterExpr body fourth).mono fun body fifth read => ?_
    have closes := advances_throughScope (carries_advances.trans params read)
    obtain ⟨still, kept⟩ := closes.keeps id (by rwa [Draft.bindOrdinary_program])
    refine ready.define fresh (carries_advances.trans bound closes) still ?_ fun decl => ?_
    · rw [kept, Draft.bindOrdinary_program]
    · split
      · next kind => simp [kind, DeclKind.isTag]
      · exact ⟨rfl, rfl, fun _ => rfl⟩

theorem kept_ordered : Kept (fun _ => True) Draft.Ordered where
  names ordered same := by
    refine ordered.advance (Draft.advances_congr same.decls same.chains ?_ same.defined)
    rw [Draft.scopes, same.blocks, same.fileScope, ← Draft.scopes]
  code item draft _ ordered _ _ := by
    cases item.form with
    | function storage isInline base declarator extent body =>
      exact enterFunction_ordered storage isInline base declarator extent body ordered
    | declaration declaration =>
      exact (carries_advances.enterDeclaration declaration draft).mono fun _ _ advances => ordered.advance advances
    | _ => exact ordered

end Drafting

namespace Draft

theorem ordered_empty : ({} : Draft).Ordered where
  orderly := by
    refine ⟨by simp [scopes], ?_, ?_, ?_, ?_, ?_⟩
    · exact fun id inside => absurd inside (Nat.not_lt_zero id)
    · simp [scopes]
    · simp [scopes]
    · simp [scopes]
    · exact fun _ second _ _ defines => absurd (Program.lt_size_of_isTag defines.1) (Nat.not_lt_zero second)
  single := by
    refine ⟨by simp, fun id bodied => ?_, fun first second bodied => ?_⟩
    · exact absurd (Program.lt_size_of_hasBody bodied) (Nat.not_lt_zero id)
    · exact absurd (Program.lt_size_of_hasBody bodied) (Nat.not_lt_zero first)

end Draft

theorem Program.representative_isDefinition {program : Program} {chain : ChainId} {definition : DeclId}
    (member : definition ∈ program.chain chain) (defines : (program.decl definition).kind.isDefinition = true) :
    ∃ found ∈ program.chain chain, (program.decl found).kind.isDefinition = true ∧
      program.representative? chain = some found := by
  have some : ((program.chain chain).find? fun id => (program.decl id).kind.isDefinition).isSome :=
    List.find?_isSome.mpr ⟨definition, member, defines⟩
  obtain ⟨found, first⟩ := Option.isSome_iff_exists.mp some
  refine ⟨found, List.mem_of_find?_eq_some first, by simpa using List.find?_some first, ?_⟩
  rw [representative?, first, Option.some_or]

/-- The chain holds a definition of a tag on either side of the tag by itself. -/
def Program.Reopened (program : Program) (chain : ChainId) : Prop :=
  ∃ first forward second : Nat, first < forward ∧ forward < second ∧ first ∈ program.chain chain ∧
    forward ∈ program.chain chain ∧ second ∈ program.chain chain ∧
    program.DefinesTag first ∧ program.ForwardsTag forward ∧ program.DefinesTag second

namespace Session

variable {session : Session} (read : session.IsRead)
include read

theorem IsRead.exists_ordered : ∃ draft : Draft, draft.Ordered ∧ session.program = draft.program.finish := by
  obtain ⟨files, search, path, document, built⟩ := read
  rw [built]
  exact Program.exists_draft_of_kept Drafting.kept_ordered Draft.ordered_empty (fun _ _ _ _ _ => trivial)
    fun _ _ => trivial

theorem IsRead.isTag_eq {chain : ChainId} {first second : DeclId} (isFirst : first ∈ session.program.chain chain)
    (isSecond : second ∈ session.program.chain chain) :
    (session.program.decl first).kind.isTag = (session.program.decl second).kind.isTag := by
  obtain ⟨firstInside, firstChain⟩ := (read.consistent.chains chain first).mp isFirst
  obtain ⟨secondInside, secondChain⟩ := (read.consistent.chains chain second).mp isSecond
  have sort := read.wellSorted.chains first second firstInside secondInside (firstChain.trans secondChain.symm)
  rw [DeclKind.isTag_eq, DeclKind.isTag_eq, sort]

/-- Two definitions in a chain are definitions of a tag, and the tag by itself stands between them. -/
theorem IsRead.reopened_of_lt {chain : ChainId} {first second : Nat} (less : first < second)
    (isFirst : first ∈ session.program.chain chain) (isSecond : second ∈ session.program.chain chain)
    (firstDefines : (session.program.decl first).kind.isDefinition = true)
    (secondDefines : (session.program.decl second).kind.isDefinition = true) : session.program.Reopened chain := by
  obtain ⟨draft, ordered, built⟩ := read.exists_ordered
  have chains := read.consistent.chains chain
  have tags := read.isTag_eq isFirst isSecond
  have same := ((chains first).mp isFirst).2.trans ((chains second).mp isSecond).2.symm
  have tag : (session.program.decl first).kind.isTag = true := by
    by_contra plain
    have firstBody := (DeclKind.isTag_or_hasBody firstDefines).resolve_left plain
    have secondBody := (DeclKind.isTag_or_hasBody secondDefines).resolve_left (tags ▸ plain)
    rw [built] at firstBody secondBody same
    exact less.ne (ordered.single.single first second firstBody secondBody same)
  have between : ∃ forward : Nat, first < forward ∧ forward < second ∧ session.program.ForwardsTag forward ∧
      (session.program.decl forward).chain = (session.program.decl first).chain := by
    have firstTag : session.program.DefinesTag first := ⟨tag, firstDefines⟩
    have secondTag : session.program.DefinesTag second := ⟨tags ▸ tag, secondDefines⟩
    rw [built] at firstTag secondTag same ⊢
    exact ordered.orderly.separates.between first second less firstTag secondTag same
  obtain ⟨forward, after, before, forwards, joined⟩ := between
  have member : forward ∈ session.program.chain chain :=
    (chains forward).mpr ⟨Program.lt_size_of_isTag forwards.1, joined.trans ((chains first).mp isFirst).2⟩
  exact ⟨first, forward, second, after, before, isFirst, member, isSecond, ⟨tag, firstDefines⟩, forwards,
    ⟨tags ▸ tag, secondDefines⟩⟩

/-- An entity has at most one definition unless it is a tag that is defined again behind the tag by itself. The only
definition represents its entity, and it is the one that is marked with any declaration of the entity. -/
theorem defined_once_unless_reopened (chain : ChainId) :
    ((∀ first ∈ session.program.chain chain, ∀ second ∈ session.program.chain chain,
        (session.program.decl first).kind.isDefinition = true → (session.program.decl second).kind.isDefinition = true →
        first = second) ↔ ¬session.program.Reopened chain) ∧
      (∀ member ∈ session.program.chain chain, (session.program.decl member).kind.isTag = false →
        ¬session.program.Reopened chain) ∧
      (¬session.program.Reopened chain → ∀ definition ∈ session.program.chain chain,
        (session.program.decl definition).kind.isDefinition = true →
        session.program.representative? chain = some definition ∧
        ∀ id, (session.program.decl id).chain = chain → ∀ member,
          (member ∈ session.entity id ∧ (session.program.decl member).kind.isDefinition = true) ↔
            member = definition) := by
  have unique : ¬session.program.Reopened chain → ∀ first ∈ session.program.chain chain,
      ∀ second ∈ session.program.chain chain, (session.program.decl first).kind.isDefinition = true →
      (session.program.decl second).kind.isDefinition = true → first = second := by
    intro once first isFirst second isSecond firstDefines secondDefines
    rcases Nat.lt_trichotomy first second with less | same | greater
    · exact absurd (read.reopened_of_lt less isFirst isSecond firstDefines secondDefines) once
    · exact same
    · exact absurd (read.reopened_of_lt greater isSecond isFirst secondDefines firstDefines) once
  refine ⟨⟨fun once => ?_, unique⟩, fun member isMember plain => ?_, fun once definition isMember defines => ?_⟩
  · rintro ⟨first, forward, second, after, before, isFirst, -, isSecond, firstDefines, -, secondDefines⟩
    exact (after.trans before).ne (once first isFirst second isSecond firstDefines.2 secondDefines.2)
  · rintro ⟨first, -, -, -, -, isFirst, -, -, defines, -⟩
    rw [read.isTag_eq isMember isFirst, defines.1] at plain
    cases plain
  · have represents : session.program.representative? chain = some definition := by
      obtain ⟨found, isFound, foundDefines, represents⟩ := Program.representative_isDefinition isMember defines
      rw [represents, unique once found isFound definition isMember foundDefines defines]
    refine ⟨represents, fun id same member => ?_⟩
    rw [mem_entity read.consistent, MarkedWith, Program.redecls, same, represents]
    constructor
    · rintro ⟨⟨-, -, isMarked, -⟩, markedDefines⟩
      exact unique once member isMarked definition isMember markedDefines defines
    · rintro rfl
      exact ⟨⟨member, .inr rfl, isMember, Nat.le_refl member⟩, defines⟩

end Session

namespace Written

def forward (name : String) : Written :=
  group "struct_specifier" [("", token "'struct" "struct"), (" ", token "name.type_identifier" name)] ""

def conditional (name : String) (first second : List (String × Written)) : Written :=
  group "preproc_ifdef"
    ([("", token "'#ifdef" "#ifdef"), (" ", token "name.identifier" name)] ++ first ++
      [("\n", group "alternative.preproc_else" (("", token "'#else" "#else") :: second) ""),
        ("\n", token "'#endif" "#endif")]) ""

end Written

namespace Session

def definedInArms : Session :=
  ({} : Config).session (.ofDocument ⟨[], []⟩ ⟨[]⟩ "unit.c"
    (Written.document
      [("", .forward "s"), ("", .token "';" ";"), ("\n", .record "s" "x"), ("", .token "';" ";"), ("\n", .forward "s"),
        ("", .token "';" ";"),
        ("\n", .conditional "A" [("\n", .function "f" (.reference "a"))] [("\n", .function "f" (.reference "b"))])]))

set_option maxRecDepth 10000 in
theorem defined_once_in_arms :
    definedInArms.program.chain 0 = [0, 1, 2] ∧ definedInArms.program.chain 1 = [3] ∧
      definedInArms.program.chain 2 = [4] ∧ ¬definedInArms.program.Reopened 0 ∧ ¬definedInArms.program.Reopened 1 ∧
      definedInArms.program.representative? 0 = some 1 ∧
      (∀ member, (member ∈ definedInArms.entity 2 ∧ (definedInArms.program.decl member).kind.isDefinition = true) ↔
        member = 1) ∧
      ∀ member, (member ∈ definedInArms.entity 4 ∧ (definedInArms.program.decl member).kind.isDefinition = true) ↔
        member = 4 := by
  have facts : definedInArms.program.chain 0 = [0, 1, 2] ∧ definedInArms.program.chain 1 = [3] ∧
      definedInArms.program.chain 2 = [4] ∧
      (∀ first ∈ definedInArms.program.chain 0, ∀ second ∈ definedInArms.program.chain 0,
        (definedInArms.program.decl first).kind.isDefinition = true →
        (definedInArms.program.decl second).kind.isDefinition = true → first = second) ∧
      (∀ id ∈ [1, 4], (definedInArms.program.decl id).kind.isDefinition = true) ∧
      (∀ id ∈ [3, 4], (definedInArms.program.decl id).kind.isTag = false) ∧
      (definedInArms.program.decl 2).chain = 0 ∧ (definedInArms.program.decl 4).chain = 2 := by
    decide +kernel
  obtain ⟨tags, first, second, alone, definitions, functions, tagChain, functionChain⟩ := facts
  have read : definedInArms.IsRead := ⟨_, _, _, _, rfl⟩
  have tag := defined_once_unless_reopened read 0
  have once := tag.1.mp alone
  have firstOnce := (defined_once_unless_reopened read 1).2.1 3 (by simp [first]) (functions 3 (by simp))
  have function := defined_once_unless_reopened read 2
  have secondOnce := function.2.1 4 (by simp [second]) (functions 4 (by simp))
  obtain ⟨represents, marked⟩ := tag.2.2 once 1 (by simp [tags]) (definitions 1 (by simp))
  refine ⟨tags, first, second, once, firstOnce, represents, marked 2 tagChain, ?_⟩
  exact (function.2.2 secondOnce 4 (by simp [second]) (definitions 4 (by simp))).2 4 functionChain

def definedBehindForward : Session :=
  ({} : Config).session (.ofDocument ⟨[], []⟩ ⟨[]⟩ "unit.c"
    (Written.document
      [("", .conditional "A" [("\n", .record "s" "x"), ("", .token "';" ";")]
        [("\n", .forward "s"), ("", .token "';" ";"), ("\n", .record "s" "y"), ("", .token "';" ";")])]))

set_option maxRecDepth 10000 in
/-- Both definitions are in one chain. The first represents it, and a use of the second marks both. -/
theorem defined_twice_behind_forward :
    definedBehindForward.program.chain 0 = [0, 1, 2] ∧ definedBehindForward.program.Reopened 0 ∧
      definedBehindForward.program.representative? 0 = some 0 ∧
      (definedBehindForward.program.decl 0).kind.isDefinition = true ∧
      (definedBehindForward.program.decl 2).kind.isDefinition = true ∧
      0 ∈ definedBehindForward.entity 2 ∧ 2 ∈ definedBehindForward.entity 2 := by
  have facts : definedBehindForward.program.chain 0 = [0, 1, 2] ∧
      (∀ id ∈ [0, 1, 2], (definedBehindForward.program.decl id).kind.isTag = true) ∧
      (definedBehindForward.program.decl 0).kind.isDefinition = true ∧
      (definedBehindForward.program.decl 1).kind.isDefinition = false ∧
      (definedBehindForward.program.decl 2).kind.isDefinition = true ∧
      definedBehindForward.program.representative? 0 = some 0 ∧
      0 ∈ definedBehindForward.entity 2 ∧ 2 ∈ definedBehindForward.entity 2 := by
    decide +kernel
  obtain ⟨chain, tags, first, forward, second, represents, marksFirst, marksSecond⟩ := facts
  have reopened : definedBehindForward.program.Reopened 0 := by
    refine ⟨0, 1, 2, by decide, by decide, ?_⟩
    rw [chain]
    exact ⟨by simp, by simp, by simp, ⟨tags 0 (by simp), first⟩, ⟨tags 1 (by simp), forward⟩, tags 2 (by simp), second⟩
  exact ⟨chain, reopened, represents, first, second, marksFirst, marksSecond⟩

end Session

end Excerpt
