import Mathlib.Data.List.TakeWhile
import Excerpt.Proofs.Program.Nesting

namespace Excerpt.Program

variable {program : Program} {keepIncludes : Bool}

def flagsFrom (keepIncludes : Bool) (flags : Array Bool) (inclusions : List Inclusion) : Array Bool :=
  inclusions.foldl (fun flags inclusion => flags.push (expandsNext keepIncludes flags inclusion)) flags

theorem expandedFlags_eq (program : Program) (keepIncludes : Bool) :
    program.expandedFlags keepIncludes = flagsFrom keepIncludes #[] program.includes.toList := by
  rw [expandedFlags, flagsFrom, Array.foldl_toList]

theorem flagsFrom_size (flags : Array Bool) (inclusions : List Inclusion) :
    (flagsFrom keepIncludes flags inclusions).size = flags.size + inclusions.length := by
  induction inclusions generalizing flags with
  | nil => rfl
  | cons first rest ih =>
    change (flagsFrom keepIncludes (flags.push _) rest).size = _
    rw [ih, Array.size_push, List.length_cons]
    omega

theorem flagsFrom_getD {flags : Array Bool} {inclusions : List Inclusion} {id : Nat} (old : id < flags.size) :
    (flagsFrom keepIncludes flags inclusions).getD id false = flags.getD id false := by
  induction inclusions generalizing flags with
  | nil => rfl
  | cons first rest ih =>
    change (flagsFrom keepIncludes (flags.push _) rest).getD id false = _
    rw [ih (by rw [Array.size_push]; omega)]
    simp only [Array.getD_eq_getD_getElem?, Array.getElem?_push, if_neg (Nat.ne_of_lt old)]

theorem expandsNext_congr {flags other : Array Bool} {inclusion : Inclusion}
    (same : ∀ parent : Nat, inclusion.parent = some parent → flags.getD parent false = other.getD parent false) :
    expandsNext keepIncludes flags inclusion = expandsNext keepIncludes other inclusion := by
  rw [expandsNext, expandsNext]
  cases isParent : inclusion.parent with
  | none => rfl
  | some parent => rw [Option.all_some, Option.all_some, same parent isParent]

/-- Flags are decided in the order of the directives, so that of a parent is known when it is asked for. -/
theorem flagsFrom_eq {flags : Array Bool} {inclusions : List Inclusion} {index : Nat} {inclusion : Inclusion}
    (found : inclusions[index]? = some inclusion)
    (below : ∀ parent : Nat, inclusion.parent = some parent → parent < flags.size + index) :
    (flagsFrom keepIncludes flags inclusions).getD (flags.size + index) false =
      expandsNext keepIncludes (flagsFrom keepIncludes flags inclusions) inclusion := by
  induction inclusions generalizing flags index with
  | nil => simp at found
  | cons first rest ih =>
    change (flagsFrom keepIncludes (flags.push _) rest).getD _ false =
      expandsNext keepIncludes (flagsFrom keepIncludes (flags.push _) rest) inclusion
    cases index with
    | zero =>
      obtain rfl : first = inclusion := by simpa using found
      rw [flagsFrom_getD (by rw [Array.size_push]; omega)]
      have own : (flags.push (expandsNext keepIncludes flags first)).getD (flags.size + 0) false =
          expandsNext keepIncludes flags first := by
        simp [Array.getD_eq_getD_getElem?]
      rw [own]
      apply expandsNext_congr
      intro parent isParent
      have old := below parent isParent
      rw [flagsFrom_getD (by rw [Array.size_push]; omega)]
      simp only [Array.getD_eq_getD_getElem?, Array.getElem?_push]
      rw [if_neg (by omega)]
    | succ index =>
      have size : (flags.push (expandsNext keepIncludes flags first)).size + index = flags.size + (index + 1) := by
        rw [Array.size_push]
        omega
      exact size ▸ ih found fun parent isParent => size ▸ below parent isParent

theorem isInclusionExpanded_eq (nested : program.Nested) {k : Nat} (known : k < program.includes.size) :
    program.isInclusionExpanded keepIncludes k =
      (!keepIncludes && !(program.inclusion k).system && (program.inclusion k).file.isSome &&
        (program.inclusion k).parent.all fun parent => program.isInclusionExpanded keepIncludes parent) := by
  have found : program.includes.toList[k]? = some (program.inclusion k) := by simp [inclusion, known]
  unfold isInclusionExpanded
  rw [expandedFlags_eq]
  have below : ∀ parent : Nat, (program.inclusion k).parent = some parent → parent < (#[] : Array Bool).size + k := by
    intro parent isParent
    simpa using nested.parents k parent known isParent
  simpa [expandsNext] using flagsFrom_eq found below

theorem isInclusionExpanded_lt {k : Nat} (expanded : program.isInclusionExpanded keepIncludes k = true) :
    k < program.includes.size := by
  by_contra outside
  have size : (program.expandedFlags keepIncludes).size = program.includes.size := by
    rw [expandedFlags_eq, flagsFrom_size]
    simp
  rw [isInclusionExpanded, Array.getD, dif_neg (by omega)] at expanded
  cases expanded

theorem isInclusionExpanded_parent (nested : program.Nested) {k parent : Nat}
    (expanded : program.isInclusionExpanded keepIncludes k = true)
    (isParent : (program.inclusion k).parent = some parent) :
    program.isInclusionExpanded keepIncludes parent = true := by
  rw [isInclusionExpanded_eq nested (isInclusionExpanded_lt expanded), isParent, Bool.and_eq_true] at expanded
  exact expanded.2

theorem Encloses.expanded (nested : program.Nested) {outer : Nat} {inner : Option IncludeId}
    (encloses : program.Encloses outer inner)
    (expanded : ∀ k, inner = some k → program.isInclusionExpanded keepIncludes k = true) :
    program.isInclusionExpanded keepIncludes outer = true := by
  induction encloses with
  | here => exact expanded outer rfl
  | @further middle around ih =>
    exact ih fun k parent => isInclusionExpanded_parent nested (expanded middle rfl) parent

theorem expanded_around {id : ItemId} (expanded : program.isFileExpanded keepIncludes (program.item id).file = true) :
    ∀ k, program.around id = some k → program.isInclusionExpanded keepIncludes k = true := by
  intro k found
  unfold isFileExpanded at expanded
  split at expanded
  · next file present =>
    have same : program.file (program.item id).file = file := by
      rw [Program.file, Array.getD_eq_getD_getElem?, present]
      rfl
    rw [around, same] at found
    simpa [found] using expanded
  · cases expanded

theorem encloses_of_mem_inclusionsFrom {count outer : Nat} {inner : Option IncludeId}
    (member : outer ∈ program.inclusionsFrom count inner) : program.Encloses outer inner := by
  induction count generalizing inner with
  | zero => cases inner <;> cases member
  | succ count ih =>
    cases inner with
    | none => cases member
    | some k =>
      rcases List.mem_cons.mp member with same | member
      · exact same ▸ .here
      · exact .further (ih member)

/-- An item stands for itself unless a directive around it is not expanded. -/
theorem emissionSlot_cases (program : Program) (keepIncludes : Bool) (id : ItemId) :
    program.emissionSlot keepIncludes id = id ∨
      ∃ k, program.Encloses k (program.around id) ∧ program.isInclusionExpanded keepIncludes k = false ∧
        program.emissionSlot keepIncludes id = (program.inclusion k).item := by
  unfold emissionSlot
  dsimp only
  split
  · next k last =>
    have member := List.mem_of_getLast? last
    have hidden := List.mem_takeWhile_imp member
    refine .inr ⟨k, encloses_of_mem_inclusionsFrom (List.takeWhile_subset _ member), ?_, rfl⟩
    simpa using hidden
  · exact .inl rfl

theorem emissionSlot_of_expanded (nested : program.Nested) {id : ItemId}
    (expanded : program.isFileExpanded keepIncludes (program.item id).file = true) :
    program.emissionSlot keepIncludes id = id := by
  rcases program.emissionSlot_cases keepIncludes id with same | ⟨k, encloses, hidden, -⟩
  · exact same
  · rw [encloses.expanded nested (expanded_around expanded)] at hidden
    cases hidden

theorem isFileExpanded_eq {id : Nat} (inside : id < program.files.size) : program.isFileExpanded keepIncludes id =
    (program.file id).includedBy.all fun inclusion => program.isInclusionExpanded keepIncludes inclusion := by
  simp [isFileExpanded, Program.file, inside]

/-- Going outwards from a hidden directive, the last one that is not expanded stands in expanded text. -/
theorem exists_outermost_hidden (nested : program.Nested) {count inner : Nat} (room : inner < count)
    (known : inner < program.includes.size) (hidden : program.isInclusionExpanded keepIncludes inner = false) :
    ∃ outer, ((program.inclusionsFrom count (some inner)).takeWhile
        fun inclusion => !program.isInclusionExpanded keepIncludes inclusion).getLast? = some outer ∧
      ∀ parent, (program.inclusion outer).parent = some parent →
        program.isInclusionExpanded keepIncludes parent = true := by
  induction count generalizing inner with
  | zero => omega
  | succ count ih =>
    have first : (program.inclusionsFrom (count + 1) (some inner)).takeWhile
        (fun inclusion => !program.isInclusionExpanded keepIncludes inclusion) =
          inner :: (program.inclusionsFrom count (program.inclusion inner).parent).takeWhile
            fun inclusion => !program.isInclusionExpanded keepIncludes inclusion := by
      rw [inclusionsFrom, List.takeWhile_cons, hidden]
      rfl
    rw [first]
    cases parent : (program.inclusion inner).parent with
    | none =>
      refine ⟨inner, by cases count <;> rfl, ?_⟩
      intro outer found
      rw [parent] at found
      cases found
    | some above =>
      have below := nested.parents inner above known parent
      cases expanded : program.isInclusionExpanded keepIncludes above with
      | true =>
        refine ⟨inner, ?_, ?_⟩
        · obtain ⟨rest, rfl⟩ := Nat.exists_eq_succ_of_ne_zero (Nat.ne_of_gt (show 0 < count by omega))
          rw [inclusionsFrom, List.takeWhile_cons, expanded]
          rfl
        · intro outer found
          rw [parent] at found
          cases found
          exact expanded
      | false =>
        obtain ⟨outer, last, outside⟩ := ih (by omega) (below.trans known) expanded
        refine ⟨outer, ?_, outside⟩
        rw [List.getLast?_cons, last]
        rfl

section Unit

variable (unit : program.Unrolling [])
include unit

theorem emissionSlot_le {id : Nat} (inside : id < program.items.size) : program.emissionSlot keepIncludes id ≤ id := by
  rcases program.emissionSlot_cases keepIncludes id with same | ⟨k, encloses, -, slot⟩
  · exact same.le
  · rw [slot]
    exact (unit.contiguous id inside k encloses).1.le

/-- The item that stands for another one comes after every expanded item before that one, directives apart. -/
theorem lt_emissionSlot {first second : Nat} (inside : second < program.items.size) (less : first < second)
    (expanded : program.isFileExpanded keepIncludes (program.item first).file = true)
    (noInclusion : ∀ k, (program.item first).kind ≠ .inclusion k) :
    first < program.emissionSlot keepIncludes second := by
  rcases program.emissionSlot_cases keepIncludes second with same | ⟨k, encloses, hidden, slot⟩
  · rw [same]
    exact less
  · rw [slot]
    have known := encloses.lt unit.nested (unit.nested.around_lt inside)
    obtain ⟨-, gap⟩ := unit.contiguous second inside k encloses
    have kind := (unit.inclusion known).2
    rcases Nat.lt_trichotomy (program.inclusion k).item first with before | same | after
    · -- The directive would hide the expanded item too.
      have around := gap first before less.le
      rw [around.expanded unit.nested (expanded_around expanded)] at hidden
      cases hidden
    · rw [same] at kind
      exact absurd kind (noInclusion k)
    · exact after

/-- A hidden item always has a directive in expanded text that stands for it. -/
theorem emissionSlot_of_hidden {id : Nat} (inside : id < program.items.size)
    (hidden : program.isFileExpanded keepIncludes (program.item id).file = false) :
    ∃ k : Nat, k < program.includes.size ∧ program.emissionSlot keepIncludes id = (program.inclusion k).item ∧
      program.inSubtree k (program.item id).file = true ∧ program.isInclusionExpanded keepIncludes k = false ∧
      program.isFileExpanded keepIncludes (program.item (program.inclusion k).item).file = true := by
  have file := unit.nested.items id inside
  rw [isFileExpanded_eq file] at hidden
  obtain ⟨inner, brought, closed⟩ : ∃ inner : Nat, (program.file (program.item id).file).includedBy = some inner ∧
      program.isInclusionExpanded keepIncludes inner = false := by
    cases brought : (program.file (program.item id).file).includedBy with
    | none => simp [brought] at hidden
    | some inner => exact ⟨inner, rfl, by simpa [brought] using hidden⟩
  have known := unit.nested.files _ inner file brought
  obtain ⟨outer, last, outside⟩ := exists_outermost_hidden unit.nested known known closed
  have member := List.mem_of_getLast? last
  have listed := List.takeWhile_subset _ member
  have outerKnown := (encloses_of_mem_inclusionsFrom listed).lt unit.nested fun k same => Option.some.inj same ▸ known
  refine ⟨outer, outerKnown, ?_, ?_, ?_, ?_⟩
  · rw [emissionSlot, inclusionsAround, brought, last]
  · rw [inSubtree, inclusionsAround, brought]
    exact List.contains_iff_mem.mpr listed
  · simpa using List.mem_takeWhile_imp member
  · -- The file of the directive is the one that its parent brought in.
    have place := (unit.inclusion outerKnown).1
    have host := unit.hosts outer outerKnown
    rw [isFileExpanded_eq (unit.nested.items _ place), ← Program.around, host]
    cases parent : (program.inclusion outer).parent with
    | none => rfl
    | some above => exact outside above parent

end Unit

end Excerpt.Program
