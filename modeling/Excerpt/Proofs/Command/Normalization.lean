import Excerpt.Command.Argument
import Mathlib.Data.List.TakeWhile

/-!
Arguments sorted by their place and their form. An argument is an option unless it is the program's name or the value of
the option in front of it.
-/

namespace Excerpt

namespace Argument

def valueOptions : List String :=
  ["-f", "--functions", "--export-symbols", "-o", "--output", "-I", "--include", "--config"]

def switches : List String :=
  ["--no-externalization", "--dump-passes", "--keep-includes", "-h", "--help", "-V", "--version"]

def isUnknown (argument : String) : Bool :=
  startsWith "-" argument &&
    !(["-DCE_EXTRACT_FUNCTIONS=", "-DCE_EXPORT_SYMBOLS=", "-DCE_OUTPUT_FILE=", "-I"].any (startsWith · argument)) &&
    !(["-DCE_NO_EXTERNALIZATION", "-DCE_DUMP_PASSES"] ++ valueOptions ++ switches).contains argument &&
    !((valueOptions.filter (startsWith "--")).any fun option => startsWith (option ++ "=") argument)

def isOption (arguments : List String) : Nat → Bool
  | 0 => false
  | place + 1 => !(isOption arguments place && valueOptions.contains (arguments.getD place ""))

def reaching (arguments : List String) (entry : String × Nat) : List String :=
  if isOption arguments entry.2 then
    if isUnknown entry.1 then [] else (compilerOption? entry.1).getD [entry.1]
  else [entry.1]

section Forms

variable {start argument option : String}

theorem after?_isSome : (after? start argument).isSome = startsWith start argument := by
  unfold after?
  split <;> simp_all

theorem valueOption_isSome (name : String) : (ValueOption.ofName? name).isSome = valueOptions.contains name := by
  unfold ValueOption.ofName?
  split <;> simp_all [valueOptions]

theorem switch_isSome (name : String) :
    ((Switch.ofName? name).isSome || (Notice.ofName? name).isSome) = switches.contains name := by
  unfold Switch.ofName? Notice.ofName?
  split <;> split <;> simp_all [switches]

theorem compilerOption?_isSome (argument : String) : (compilerOption? argument).isSome =
    (["-DCE_EXTRACT_FUNCTIONS=", "-DCE_EXPORT_SYMBOLS=", "-DCE_OUTPUT_FILE="].any (startsWith · argument) ||
      ["-DCE_NO_EXTERNALIZATION", "-DCE_DUMP_PASSES"].contains argument ||
      (argument != "-I" && startsWith "-I" argument)) := by
  simp only [compilerOption?, List.any_cons, List.any_nil, ← after?_isSome]
  cases after? "-DCE_EXTRACT_FUNCTIONS=" argument <;> cases after? "-DCE_EXPORT_SYMBOLS=" argument <;>
    cases after? "-DCE_OUTPUT_FILE=" argument <;> simp only [Option.isSome_some, Option.isSome_none,
      Bool.or_false, Bool.false_or, Bool.true_or]
  by_cases plain : argument ∈ ["-DCE_NO_EXTERNALIZATION", "-DCE_DUMP_PASSES", "-I"]
  · simp only [List.mem_cons, List.not_mem_nil, or_false] at plain
    rcases plain with rfl | rfl | rfl <;> decide
  · simp_all

theorem before_of_split {front rest : List Char} (split : argument.toList = front ++ '=' :: rest)
    (plain : '=' ∉ front) : before '=' argument = String.ofList front := by
  have inside : ∀ c ∈ front, decide (c ≠ '=') = true := fun c member => by
    rw [decide_eq_true_eq]
    exact fun same => plain (same ▸ member)
  rw [before, split, List.takeWhile_append_of_pos inside, List.takeWhile_cons_of_neg (by simp), List.append_nil]

theorem attached?_isSome (argument : String) : (attached? argument).isSome =
    ((valueOptions.filter (startsWith "--")).any fun option => startsWith (option ++ "=") argument) := by
  have plain : ∀ option ∈ valueOptions, '=' ∉ option.toList := by decide
  have isSome : (attached? argument).isSome = true ↔ before '=' argument ∈ valueOptions.filter (startsWith "--") ∧
      '=' ∈ argument.toList := by
    simp only [attached?]
    split <;> simp_all [valueOption_isSome]
  rw [Bool.eq_iff_iff, isSome, List.any_eq_true]
  constructor
  · rintro ⟨listed, some⟩
    obtain ⟨front, rest, split, absent⟩ := List.eq_append_cons_of_mem some
    refine ⟨_, listed, ?_⟩
    rw [before_of_split split absent, startsWith, List.isPrefixOf_iff_prefix, split]
    exact ⟨rest, by simp⟩
  · rintro ⟨option, listed, starts⟩
    obtain ⟨rest, split⟩ := List.isPrefixOf_iff_prefix.mp starts
    rw [String.toList_append, List.append_assoc] at split
    have same := before_of_split split.symm (plain option (List.mem_filter.mp listed).1)
    rw [same, String.ofList_toList, ← split]
    exact ⟨listed, by simp⟩

theorem isUnknown_eq (argument : String) : isUnknown argument = (!(compilerOption? argument).isSome &&
    !(ValueOption.ofName? argument).isSome && !standsAlone argument) := by
  rw [standsAlone, switch_isSome, attached?_isSome, valueOption_isSome, compilerOption?_isSome, isUnknown]
  by_cases directory : argument = "-I"
  · subst directory
    decide
  · have other : (argument != "-I") = true := bne_iff_ne.mpr directory
    have apart : ∀ first second : List String,
        (first ++ second).contains argument = (first.contains argument || second.contains argument) := by simp
    simp only [other, apart, List.any_cons, List.any_nil, Bool.or_false, Bool.true_and]
    grind

theorem compilerOption?_eq_some {options : List String} (found : compilerOption? argument = some options) :
    (∃ option ∈ valueOptions, ∃ value, options = [option, value]) ∨ ∃ switch ∈ switches, options = [switch] := by
  unfold compilerOption? at found
  split at found
  · cases found
    exact .inl ⟨"--functions", by decide, _, rfl⟩
  split at found
  · cases found
    exact .inl ⟨"--export-symbols", by decide, _, rfl⟩
  split at found
  · cases found
    exact .inl ⟨"--output", by decide, _, rfl⟩
  split at found
  · cases found
    exact .inr ⟨"--no-externalization", by decide, rfl⟩
  split at found
  · cases found
    exact .inr ⟨"--dump-passes", by decide, rfl⟩
  split at found
  · cases found
  · obtain ⟨directory, -, rfl⟩ := Option.map_eq_some_iff.mp found
    exact .inl ⟨"--include", by decide, directory, rfl⟩

end Forms

end Argument

namespace Arguments

open Argument

section Steps

variable {argument : String} {rest : List String}

theorem compilerOption?_of_takes (takes : argument ∈ valueOptions) : compilerOption? argument = none := by
  revert argument
  decide

theorem ofOptions_value (takes : argument ∈ valueOptions) (value : String) :
    ofOptions (argument :: value :: rest) = keep [argument, value] (ofOptions rest) := by
  rw [ofOptions, compilerOption?_of_takes takes]
  simp [valueOption_isSome, takes]

theorem ofOptions_last (takes : argument ∈ valueOptions) : ofOptions [argument] = ⟨[argument], []⟩ := by
  rw [ofOptions, compilerOption?_of_takes takes]
  simp [valueOption_isSome, takes]

theorem ofOptions_alone (plain : compilerOption? argument = none) (none : argument ∉ valueOptions)
    (alone : standsAlone argument = true) : ofOptions (argument :: rest) = keep [argument] (ofOptions rest) := by
  rw [ofOptions.eq_def]
  simp [plain, valueOption_isSome, none, alone]

theorem ofOptions_compilerOption {options : List String} (found : compilerOption? argument = some options) :
    ofOptions (options ++ rest) = keep options (ofOptions rest) := by
  obtain ⟨option, takes, value, rfl⟩ | ⟨switch, known, rfl⟩ := compilerOption?_eq_some found
  · exact ofOptions_value takes value
  · have forms : ∀ switch ∈ switches, compilerOption? switch = none ∧ switch ∉ valueOptions ∧
        standsAlone switch = true := by
      decide
    obtain ⟨plain, none, alone⟩ := forms switch known
    exact ofOptions_alone plain none alone

/-- What reaches the command is sorted without a change. -/
theorem ofOptions_known (arguments : List String) :
    ofOptions (ofOptions arguments).known = ⟨(ofOptions arguments).known, []⟩ := by
  fun_induction ofOptions arguments with
  | case1 => rfl
  | case2 argument rest options found ih =>
    rw [keep, ofOptions_compilerOption found, ih]
    rfl
  | case3 argument found takes => exact ofOptions_last (by simpa [valueOption_isSome] using takes)
  | case4 argument found takes value rest ih =>
    rw [keep, List.cons_append, List.singleton_append, ofOptions_value (by simpa [valueOption_isSome] using takes), ih]
    rfl
  | case5 argument rest found none alone ih =>
    rw [keep, List.singleton_append, ofOptions_alone found (by simpa [valueOption_isSome] using none) alone, ih]
    rfl
  | case6 argument rest found none unknown ih => exact ih

end Steps

def byPlace (whole : List String) (entries : List (String × Nat)) : Arguments where
  known := entries.flatMap (reaching whole)
  ignored := (entries.filter fun entry => isOption whole entry.2 && isUnknown entry.1).map Prod.fst

theorem byPlace_cons (whole : List String) (entry : String × Nat) (entries : List (String × Nat)) :
    byPlace whole (entry :: entries) =
      if isOption whole entry.2 && isUnknown entry.1 then ignore entry.1 (byPlace whole entries)
      else keep (reaching whole entry) (byPlace whole entries) := by
  by_cases option : isOption whole entry.2 <;> by_cases unknown : isUnknown entry.1 <;>
    simp [byPlace, keep, ignore, reaching, option, unknown]

theorem isOption_behind {front rest : List String} {argument : String}
    (option : isOption (front ++ argument :: rest) front.length = true) :
    isOption (front ++ argument :: rest) (front.length + 1) = !(ValueOption.ofName? argument).isSome := by
  simp [isOption, option, valueOption_isSome]

/-- From an option on, the arguments are sorted by their places. -/
def SortedByPlace (rest : List String) : Prop :=
  ∀ front, isOption (front ++ rest) front.length = true →
    ofOptions rest = byPlace (front ++ rest) (rest.zipIdx front.length)

theorem SortedByPlace.behind {front rest : List String} {argument : String} (sorted : SortedByPlace rest)
    (option : isOption (front ++ argument :: rest) front.length = true)
    (none : (ValueOption.ofName? argument).isSome = false) :
    ofOptions rest = byPlace (front ++ argument :: rest) (rest.zipIdx (front.length + 1)) := by
  have next := isOption_behind option
  simpa [next, none] using sorted (front ++ [argument])

/-- By the recursion of the sorting: an option takes its value along, whatever the value looks like. -/
theorem ofOptions_byPlace (rest : List String) : SortedByPlace rest := by
  unfold SortedByPlace
  fun_induction ofOptions rest with (intro front option)
  | case1 => rfl
  | case2 argument rest options found ih =>
    have none : (ValueOption.ofName? argument).isSome = false := by
      rw [valueOption_isSome]
      by_contra takes
      rw [compilerOption?_of_takes (by simpa using takes)] at found
      cases found
    rw [SortedByPlace.behind ih option none, List.zipIdx_cons, byPlace_cons]
    simp [reaching, option, isUnknown_eq, found]
  | case3 argument found takes =>
    rw [List.zipIdx_cons, byPlace_cons]
    simp [reaching, option, isUnknown_eq, found, takes, byPlace, keep]
  | case4 argument found takes value rest ih =>
    have behind := isOption_behind option
    have later := ih (front ++ [argument, value])
    simp only [List.append_assoc, List.cons_append, List.nil_append, List.length_append, List.length_cons,
      List.length_nil, Nat.zero_add, Nat.reduceAdd] at later
    rw [later (by rw [isOption, behind, takes]; rfl), List.zipIdx_cons, byPlace_cons, List.zipIdx_cons, byPlace_cons]
    simp [reaching, option, isUnknown_eq, found, takes, behind, keep]
  | case5 argument rest found none alone ih =>
    rw [SortedByPlace.behind ih option (by simpa using none), List.zipIdx_cons, byPlace_cons]
    simp [reaching, option, isUnknown_eq, found, alone]
  | case6 argument rest found none unknown ih =>
    rw [SortedByPlace.behind ih option (by simpa using none), List.zipIdx_cons, byPlace_cons]
    simp_all [isUnknown_eq]

/-- Sorting passes over exactly the unknown flags among the options. All else reaches the command in order, a value as
it is written, and sorting what reaches the command changes nothing. -/
theorem normalize_exact (arguments : List String) :
    normalize (normalize arguments).known = ⟨(normalize arguments).known, []⟩ ∧
      (normalize arguments).ignored = (arguments.zipIdx.filter fun entry =>
        isOption arguments entry.2 && isUnknown entry.1).map Prod.fst ∧
      (normalize arguments).known = arguments.zipIdx.flatMap (reaching arguments) := by
  cases arguments with
  | nil => exact ⟨rfl, rfl, rfl⟩
  | cons program rest =>
    have places : normalize (program :: rest) = byPlace (program :: rest) (program :: rest).zipIdx := by
      rw [normalize, ofOptions_byPlace rest [program] rfl, List.zipIdx_cons, byPlace_cons]
      rfl
    refine ⟨?_, by rw [places]; rfl, by rw [places]; rfl⟩
    rw [normalize, keep, List.singleton_append, normalize, ofOptions_known]
    rfl

end Arguments

end Excerpt
