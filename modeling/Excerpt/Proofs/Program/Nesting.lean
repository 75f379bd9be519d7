import Excerpt.Program.Region
import Excerpt.Proofs.Program.Build

/-!
Headers inside headers. The items that a directive brings in follow it without a gap.
-/

namespace Excerpt.Program

/-- The directive `outer` stands around the file that `inner` brings in. -/
inductive Encloses (program : Program) (outer : Nat) : Option IncludeId → Prop
  | here : Encloses program outer (some outer)
  | further {inner : IncludeId} (around : Encloses program outer (program.inclusion inner).parent) :
      Encloses program outer (some inner)

def around (program : Program) (id : ItemId) : Option IncludeId :=
  (program.file (program.item id).file).includedBy

/-- Files and directives refer to entries that were there before them. -/
structure Nested (program : Program) : Prop where
  files : ∀ id k : Nat, id < program.files.size → (program.file id).includedBy = some k → k < program.includes.size
  items : ∀ id : Nat, id < program.items.size → (program.item id).file < program.files.size
  parents : ∀ k p : Nat, k < program.includes.size → (program.inclusion k).parent = some p → p < k

structure Extends (before after : Program) : Prop where
  files : before.files.toList <+: after.files.toList
  items : before.items.toList <+: after.items.toList
  macros : before.macros.toList <+: after.macros.toList
  includes : before.includes.toList <+: after.includes.toList

theorem getD_of_prefix {α : Type} {early late : Array α} (grown : early.toList <+: late.toList) {id : Nat}
    (inside : id < early.size) (base : α) : late.getD id base = early.getD id base := by
  obtain ⟨more, same⟩ := grown
  rw [Array.getD_eq_getD_getElem?, Array.getD_eq_getD_getElem?, ← Array.getElem?_toList, ← same,
    List.getElem?_append_left inside, Array.getElem?_toList]

theorem prefix_push {α : Type} (entries : Array α) (entry : α) : entries.toList <+: (entries.push entry).toList := by
  rw [Array.toList_push]
  exact List.prefix_append _ _

theorem modify_push {α : Type} (entries : Array α) (entry : α) (change : α → α) :
    (entries.push entry).modify entries.size change = entries.push (change entry) := by
  apply Array.ext_getElem?
  intro k
  simp only [Array.getElem?_modify, Array.getElem?_push]
  by_cases last : k = entries.size
  · simp [last]
  · simp [last, Ne.symm last]

namespace Extends

variable {before after : Program} (grows : Extends before after)
include grows

theorem fileCount : before.files.size ≤ after.files.size := grows.files.length_le

theorem itemCount : before.items.size ≤ after.items.size := grows.items.length_le

theorem macroCount : before.macros.size ≤ after.macros.size := grows.macros.length_le

theorem includeCount : before.includes.size ≤ after.includes.size := grows.includes.length_le

theorem file (id : Nat) (inside : id < before.files.size) : after.file id = before.file id :=
  getD_of_prefix grows.files inside _

theorem item (id : Nat) (inside : id < before.items.size) : after.item id = before.item id :=
  getD_of_prefix grows.items inside _

theorem directive (id : Nat) (inside : id < before.macros.size) : after.directive id = before.directive id :=
  getD_of_prefix grows.macros inside _

theorem inclusion (id : Nat) (inside : id < before.includes.size) : after.inclusion id = before.inclusion id :=
  getD_of_prefix grows.includes inside _

theorem nested (nested : before.Nested)
    (files : ∀ id k : Nat, before.files.size ≤ id → id < after.files.size → (after.file id).includedBy = some k →
      k < after.includes.size)
    (items : ∀ id : Nat, before.items.size ≤ id → id < after.items.size → (after.item id).file < after.files.size)
    (parents : ∀ k p : Nat, before.includes.size ≤ k → k < after.includes.size → (after.inclusion k).parent = some p →
      p < k) : after.Nested := by
  refine ⟨fun id k inside found => ?_, fun id inside => ?_, fun k p inside found => ?_⟩
  · by_cases old : id < before.files.size
    · rw [grows.file id old] at found
      exact (nested.files id k old found).trans_le grows.includeCount
    · exact files id k (Nat.not_lt.mp old) inside found
  · by_cases old : id < before.items.size
    · rw [grows.item id old]
      exact (nested.items id old).trans_le grows.fileCount
    · exact items id (Nat.not_lt.mp old) inside
  · by_cases old : k < before.includes.size
    · rw [grows.inclusion k old] at found
      exact nested.parents k p old found
    · exact parents k p (Nat.not_lt.mp old) inside found

end Extends

section Encloses

variable {program before after : Program} {outer : Nat} {inner : Option IncludeId}

theorem encloses_some {inner : IncludeId} :
    program.Encloses outer (some inner) ↔ outer = inner ∨ program.Encloses outer (program.inclusion inner).parent := by
  constructor
  · intro encloses
    cases encloses with
    | here => exact .inl rfl
    | further around => exact .inr around
  · intro either
    rcases either with same | around
    · exact same ▸ .here
    · exact .further around

/-- A directive is numbered before the directives in its header. -/
theorem Encloses.le (nested : program.Nested) {start : Nat} (encloses : program.Encloses outer inner)
    (starts : inner = some start) (inside : start < program.includes.size) : outer ≤ start := by
  induction encloses generalizing start with
  | here =>
    cases starts
    exact Nat.le_refl _
  | @further middle around ih =>
    cases starts
    cases parent : (program.inclusion middle).parent with
    | none => rw [parent] at around; cases around
    | some above =>
      have below := nested.parents middle above inside parent
      exact (ih parent (below.trans inside)).trans below.le

theorem Encloses.lt (nested : program.Nested) (encloses : program.Encloses outer inner)
    (inside : ∀ k, inner = some k → k < program.includes.size) : outer < program.includes.size := by
  cases start : inner with
  | none => rw [start] at encloses; cases encloses
  | some k => exact (encloses.le nested start (inside k start)).trans_lt (inside k start)

theorem Encloses.congr (encloses : before.Encloses outer inner)
    (parents : ∀ k : Nat, (after.inclusion k).parent = (before.inclusion k).parent) : after.Encloses outer inner := by
  induction encloses with
  | here => exact .here
  | @further middle around ih => exact .further (parents middle ▸ ih)

/-- What encloses a known directive is known, so growing tables add nothing around it. -/
theorem Extends.encloses_iff (extends_ : Extends before after) (nested : before.Nested)
    (inside : ∀ k, inner = some k → k < before.includes.size) :
    after.Encloses outer inner ↔ before.Encloses outer inner := by
  have parentInside : ∀ middle : Nat, middle < before.includes.size →
      ∀ k, (before.inclusion middle).parent = some k → k < before.includes.size :=
    fun middle known k parent => (nested.parents middle k known parent).trans known
  constructor
  · intro encloses
    induction encloses with
    | here => exact .here
    | @further middle around ih =>
      have known := inside middle rfl
      rw [extends_.inclusion middle known] at ih
      exact .further (ih (parentInside middle known))
  · intro encloses
    induction encloses with
    | here => exact .here
    | @further middle around ih =>
      have known := inside middle rfl
      refine .further ?_
      rw [extends_.inclusion middle known]
      exact ih (parentInside middle known)

theorem Nested.around_lt (nested : program.Nested) {id : Nat} (inside : id < program.items.size) :
    ∀ k, program.around id = some k → k < program.includes.size :=
  fun k found => nested.files _ k (nested.items id inside) found

theorem Extends.around (extends_ : Extends before after) (nested : before.Nested) {id : Nat}
    (inside : id < before.items.size) : after.around id = before.around id := by
  rw [Program.around, extends_.item id inside, extends_.file _ (nested.items id inside), ← Program.around]

end Encloses

/-- The tables of a unit, while the headers of the directives in `pending` are being read, the innermost one first. -/
structure Unrolling (pending : List Nat) (program : Program) : Prop where
  nested : program.Nested
  stacked : ∀ k outer, k :: outer <:+ pending → (program.inclusion k).parent = outer.head?
  opened : ∀ k ∈ pending, k < program.includes.size ∧ (program.item (program.inclusion k).item).kind = .other
  ordered : ∀ j k : Nat, j < k → k < program.includes.size → (program.inclusion j).item < (program.inclusion k).item
  directives : ∀ m : Nat, m < program.macros.size → (program.directive m).item < program.items.size ∧
    (program.item (program.directive m).item).kind = .directive m ∧
      (program.directive m).pos.seq = (program.directive m).item
  kinds : ∀ x m : Nat, x < program.items.size → (program.item x).kind = .directive m →
    m < program.macros.size ∧ (program.directive m).item = x
  headers : ∀ x k : Nat, x < program.items.size → (program.item x).kind = .inclusion k → k < program.includes.size
  inclusions : ∀ k : Nat, k < program.includes.size → (program.inclusion k).item < program.items.size ∧
    (k ∉ pending → (program.item (program.inclusion k).item).kind = .inclusion k)
  hosts : ∀ k : Nat, k < program.includes.size →
    program.around (program.inclusion k).item = (program.inclusion k).parent
  contiguous : ∀ x : Nat, x < program.items.size → ∀ k, program.Encloses k (program.around x) →
    (program.inclusion k).item < x ∧ ∀ y : Nat, (program.inclusion k).item < y → y ≤ x →
      program.Encloses k (program.around y)
  running : ∀ k ∈ pending, ∀ y : Nat, (program.inclusion k).item < y → y < program.items.size →
    program.Encloses k (program.around y)

/-- The directives around the innermost open header are exactly those that are open. -/
theorem encloses_head {program : Program} {pending : List Nat}
    (stacked : ∀ k outer, k :: outer <:+ pending → (program.inclusion k).parent = outer.head?) {k : Nat} :
    program.Encloses k pending.head? ↔ k ∈ pending := by
  induction pending with
  | nil => exact ⟨fun encloses => (by cases encloses), fun member => (by cases member)⟩
  | cons inner outer ih =>
    rw [List.head?_cons, encloses_some, stacked inner outer List.suffix_rfl, List.mem_cons]
    exact or_congr_right (ih fun k rest suffix => stacked k rest (suffix.trans (List.suffix_cons inner outer)))

/-- One item is added behind all others, and with it at most one directive, which is open if it is in `now`. -/
structure Appends (pending now : List Nat) (before after : Program) : Prop where
  grows : before.Extends after
  sources : ∀ id k : Nat, before.files.size ≤ id → id < after.files.size → (after.file id).includedBy = some k →
    k < after.includes.size
  inside : (after.item before.items.size).file < after.files.size
  items : after.items.size = before.items.size + 1
  includes : after.includes.size ≤ before.includes.size + 1
  around : after.around before.items.size = pending.head?
  directives : ∀ m : Nat, before.macros.size ≤ m → m < after.macros.size →
    (after.directive m).item = before.items.size ∧ (after.item before.items.size).kind = .directive m ∧
      (after.directive m).pos.seq = before.items.size
  kinds : ∀ m : Nat, (after.item before.items.size).kind = .directive m →
    m < after.macros.size ∧ (after.directive m).item = before.items.size
  headers : ∀ k : Nat, (after.item before.items.size).kind = .inclusion k → k < after.includes.size
  inclusion : before.includes.size < after.includes.size →
    (after.inclusion before.includes.size).item = before.items.size ∧
      (after.inclusion before.includes.size).parent = pending.head?
  opens : now = pending ∧ (before.includes.size < after.includes.size →
      (after.item before.items.size).kind = .inclusion before.includes.size) ∨
    now = before.includes.size :: pending ∧ before.includes.size < after.includes.size ∧
      (after.item before.items.size).kind = .other

namespace Appends

variable {before after : Program} {pending now : List Nat} (appends : Appends pending now before after)
include appends

theorem room : before.items.size < after.items.size := appends.items ▸ Nat.lt_succ_self _

theorem item_eq {id : Nat} (inside : id < after.items.size) (new : ¬id < before.items.size) :
    id = before.items.size := by
  have := appends.items
  omega

theorem inclusion_eq {k : Nat} (inside : k < after.includes.size) (new : ¬k < before.includes.size) :
    k = before.includes.size := by
  have := appends.includes
  omega

end Appends

/-- The directive `k` gets the file that it brought in, and its item the kind of an inclusion. -/
structure Fills (k source : Nat) (before after : Program) : Prop where
  files : after.files = before.files
  macros : after.macros = before.macros
  items : after.items.size = before.items.size
  includes : after.includes.size = before.includes.size
  item : ∀ x, after.item x =
    if x = (before.inclusion k).item then { before.item x with kind := .inclusion k } else before.item x
  inclusion : ∀ j, after.inclusion j =
    if j = k then { before.inclusion j with file := some source } else before.inclusion j

theorem fills_setIncludedFile {program : Program} {k : Nat} (known : k < program.includes.size)
    (inside : (program.inclusion k).item < program.items.size) (source : FileId) :
    Fills k source program
      ((program.setIncludedFile k source).setItemKind (program.inclusion k).item (.inclusion k)) := by
  refine ⟨rfl, rfl, by simp [setItemKind, setIncludedFile], by simp [setItemKind, setIncludedFile], fun x => ?_,
    fun j => ?_⟩
  · rw [item_setItemKind (show _ < (program.setIncludedFile k source).items.size from inside)]
    split
    · next same => rw [same]; rfl
    · rfl
  · change (program.setIncludedFile k source).inclusion j = _
    rw [inclusion_setIncludedFile]
    by_cases own : j = k
    · rw [if_pos ⟨own, known⟩, if_pos own, own]
    · rw [if_neg (own ·.1), if_neg own]

namespace Fills

variable {before after : Program} {k source : Nat} (fills : Fills k source before after)
include fills

theorem place (j : Nat) : (after.inclusion j).item = (before.inclusion j).item := by
  rw [fills.inclusion]
  split <;> rfl

theorem parent (j : Nat) : (after.inclusion j).parent = (before.inclusion j).parent := by
  rw [fills.inclusion]
  split <;> rfl

theorem file (id : Nat) : after.file id = before.file id := by
  rw [Program.file, fills.files, ← Program.file]

theorem directive (m : Nat) : after.directive m = before.directive m := by
  rw [Program.directive, fills.macros, ← Program.directive]

theorem host (x : Nat) : (after.item x).file = (before.item x).file := by
  rw [fills.item]
  split <;> rfl

theorem around (x : Nat) : after.around x = before.around x := by
  rw [Program.around, fills.host, fills.file, ← Program.around]

theorem encloses_iff (j : Nat) (inner : Option IncludeId) : after.Encloses j inner ↔ before.Encloses j inner :=
  ⟨fun encloses => encloses.congr fun k => (fills.parent k).symm, fun encloses => encloses.congr fills.parent⟩

end Fills

namespace Unrolling

variable {program later : Program} {pending : List Nat}

theorem head_lt (unrolling : program.Unrolling pending) : ∀ k, pending.head? = some k → k < program.includes.size :=
  fun k first => (unrolling.opened k (List.mem_of_head? first)).1

theorem inclusion (unit : program.Unrolling []) {k : Nat} (known : k < program.includes.size) :
    (program.inclusion k).item < program.items.size ∧ (program.item (program.inclusion k).item).kind = .inclusion k :=
  ⟨(unit.inclusions k known).1, (unit.inclusions k known).2 List.not_mem_nil⟩

theorem lt_of_mem {k j : Nat} (unrolling : program.Unrolling (k :: pending)) (member : j ∈ pending) : j < k := by
  have known := (unrolling.opened k List.mem_cons_self).1
  have parent := unrolling.stacked k pending List.suffix_rfl
  have encloses := (encloses_head fun k outer suffix =>
    unrolling.stacked k outer (suffix.trans (List.suffix_cons _ pending))).mpr member
  cases first : pending.head? with
  | none => rw [first] at encloses; cases encloses
  | some next =>
    have below := unrolling.nested.parents k next known (parent.trans first)
    exact (encloses.le unrolling.nested first (below.trans known)).trans_lt below

section Appends

variable {now : List Nat} (unrolling : program.Unrolling pending) (appends : Appends pending now program later)
include unrolling appends

theorem place_of_old {k : Nat} (old : k < program.includes.size) : (later.inclusion k).item < program.items.size ∧
    later.item (later.inclusion k).item = program.item (program.inclusion k).item := by
  have inside := (unrolling.inclusions k old).1
  rw [appends.grows.inclusion k old, appends.grows.item _ inside]
  exact ⟨inside, rfl⟩

theorem encloses_old {x : Nat} (inside : x < program.items.size) (k : Nat) :
    later.Encloses k (later.around x) ↔ program.Encloses k (program.around x) := by
  rw [appends.grows.around unrolling.nested inside]
  exact appends.grows.encloses_iff unrolling.nested (unrolling.nested.around_lt inside)

theorem encloses_last (k : Nat) : later.Encloses k (later.around program.items.size) ↔ k ∈ pending := by
  rw [appends.around, appends.grows.encloses_iff unrolling.nested unrolling.head_lt, encloses_head unrolling.stacked]

theorem nested_of_appends : later.Nested := by
  refine appends.grows.nested unrolling.nested appends.sources (fun id new old => ?_) fun k p new old found => ?_
  · obtain rfl := appends.item_eq old (Nat.not_lt.mpr new)
    exact appends.inside
  · obtain rfl := appends.inclusion_eq old (Nat.not_lt.mpr new)
    exact unrolling.head_lt p ((appends.inclusion old).2.symm.trans found)

theorem stacked_of_appends (k : Nat) (outer : List Nat) (suffix : k :: outer <:+ now) :
    (later.inclusion k).parent = outer.head? := by
  have old : k :: outer <:+ pending → (later.inclusion k).parent = outer.head? := by
    intro suffix
    rw [appends.grows.inclusion k (unrolling.opened k (suffix.subset List.mem_cons_self)).1]
    exact unrolling.stacked k outer suffix
  rcases appends.opens with ⟨rfl, -⟩ | ⟨rfl, added, -⟩
  · exact old suffix
  · rcases List.suffix_cons_iff.mp suffix with same | suffix
    · cases same
      exact (appends.inclusion added).2
    · exact old suffix

theorem opened_of_appends :
    ∀ k ∈ now, k < later.includes.size ∧ (later.item (later.inclusion k).item).kind = .other := by
  have old : ∀ k ∈ pending, k < later.includes.size ∧ (later.item (later.inclusion k).item).kind = .other := by
    intro k member
    obtain ⟨known, kind⟩ := unrolling.opened k member
    rw [(unrolling.place_of_old appends known).2]
    exact ⟨known.trans_le appends.grows.includeCount, kind⟩
  rcases appends.opens with ⟨rfl, -⟩ | ⟨rfl, added, kind⟩
  · exact old
  · refine List.forall_mem_cons.mpr ⟨⟨added, ?_⟩, old⟩
    rw [(appends.inclusion added).1, kind]

theorem inclusions_of_appends {k : Nat} (inside : k < later.includes.size) :
    (later.inclusion k).item < later.items.size ∧
      (k ∉ now → (later.item (later.inclusion k).item).kind = .inclusion k) := by
  by_cases old : k < program.includes.size
  · obtain ⟨place, same⟩ := unrolling.place_of_old appends old
    refine ⟨place.trans_le appends.grows.itemCount, fun closed => ?_⟩
    rw [same]
    refine (unrolling.inclusions k old).2 fun member => closed ?_
    rcases appends.opens with ⟨rfl, -⟩ | ⟨rfl, -⟩
    · exact member
    · exact List.mem_cons_of_mem _ member
  · obtain rfl := appends.inclusion_eq inside old
    rw [(appends.inclusion inside).1]
    refine ⟨appends.room, fun closed => ?_⟩
    rcases appends.opens with ⟨rfl, kind⟩ | ⟨rfl, -⟩
    · exact kind inside
    · exact absurd List.mem_cons_self closed

/-- A new item stands inside every header that is open. -/
theorem running_of_appends {k : Nat} (member : k ∈ pending) {y : Nat} (behind : (later.inclusion k).item < y)
    (inside : y < later.items.size) : later.Encloses k (later.around y) := by
  rw [appends.grows.inclusion k (unrolling.opened k member).1] at behind
  by_cases old : y < program.items.size
  · exact (unrolling.encloses_old appends old k).mpr (unrolling.running k member y behind old)
  · obtain rfl := appends.item_eq inside old
    exact (unrolling.encloses_last appends k).mpr member

/-- Between a directive and what it brings in there is no gap: the new item stands last, in open headers only. -/
theorem contiguous_of_appends {x : Nat} (inside : x < later.items.size) {k : Nat}
    (around : later.Encloses k (later.around x)) : (later.inclusion k).item < x ∧
      ∀ y : Nat, (later.inclusion k).item < y → y ≤ x → later.Encloses k (later.around y) := by
  by_cases old : x < program.items.size
  · rw [unrolling.encloses_old appends old] at around
    obtain ⟨less, gap⟩ := unrolling.contiguous x old k around
    rw [appends.grows.inclusion k (around.lt unrolling.nested (unrolling.nested.around_lt old))]
    exact ⟨less, fun y low high => (unrolling.encloses_old appends (high.trans_lt old) k).mpr (gap y low high)⟩
  · obtain rfl := appends.item_eq inside old
    have member := (unrolling.encloses_last appends k).mp around
    exact ⟨(unrolling.place_of_old appends (unrolling.opened k member).1).1, fun y low high =>
      unrolling.running_of_appends appends member low (high.trans_lt inside)⟩

/-- An item may be added inside the innermost header. If it is a directive, its header may be opened with it. -/
theorem push : later.Unrolling now := by
  have grows := appends.grows
  refine ⟨unrolling.nested_of_appends appends, unrolling.stacked_of_appends appends,
    unrolling.opened_of_appends appends, ?_, ?_, ?_, ?_, fun k => unrolling.inclusions_of_appends appends, ?_,
    fun x inside k => unrolling.contiguous_of_appends appends inside, ?_⟩
  · intro j k less inside
    by_cases old : k < program.includes.size
    · rw [grows.inclusion k old, grows.inclusion j (less.trans old)]
      exact unrolling.ordered j k less old
    · obtain rfl := appends.inclusion_eq inside old
      rw [(appends.inclusion inside).1]
      exact (unrolling.place_of_old appends less).1
  · intro m inside
    by_cases old : m < program.macros.size
    · obtain ⟨place, kind, pos⟩ := unrolling.directives m old
      rw [grows.directive m old, grows.item _ place]
      exact ⟨place.trans_le grows.itemCount, kind, pos⟩
    · obtain ⟨place, kind, pos⟩ := appends.directives m (Nat.not_lt.mp old) inside
      rw [place]
      exact ⟨appends.room, kind, pos⟩
  · intro x m inside kind
    by_cases old : x < program.items.size
    · rw [grows.item x old] at kind
      obtain ⟨known, place⟩ := unrolling.kinds x m old kind
      rw [grows.directive m known]
      exact ⟨known.trans_le grows.macroCount, place⟩
    · obtain rfl := appends.item_eq inside old
      exact appends.kinds m kind
  · intro x k inside kind
    by_cases old : x < program.items.size
    · rw [grows.item x old] at kind
      exact (unrolling.headers x k old kind).trans_le grows.includeCount
    · obtain rfl := appends.item_eq inside old
      exact appends.headers k kind
  · intro k inside
    by_cases old : k < program.includes.size
    · rw [grows.inclusion k old, grows.around unrolling.nested (unrolling.inclusions k old).1]
      exact unrolling.hosts k old
    · obtain rfl := appends.inclusion_eq inside old
      rw [(appends.inclusion inside).1, (appends.inclusion inside).2, appends.around]
  · have running := fun k member y => unrolling.running_of_appends appends (k := k) member (y := y)
    rcases appends.opens with ⟨rfl, -⟩ | ⟨rfl, added, -⟩
    · exact running
    · refine List.forall_mem_cons.mpr ⟨fun y behind inside => ?_, running⟩
      rw [(appends.inclusion added).1] at behind
      exact absurd (appends.item_eq inside behind.asymm) behind.ne'

end Appends

/-- The innermost header may be closed: its directive gets the file, and nothing else changes. -/
theorem fill {k source : Nat} (unrolling : program.Unrolling (k :: pending)) (fills : Fills k source program later) :
    later.Unrolling pending := by
  obtain ⟨known, kind⟩ := unrolling.opened k List.mem_cons_self
  have place := fills.place
  have parent := fills.parent
  have source := fills.file
  have directive := fills.directive
  have host := fills.host
  have around := fills.around
  have encloses := fills.encloses_iff
  obtain ⟨files, macros, items, includes, item, -⟩ := fills
  -- An item of another kind than that of an open directive is another one.
  have other : ∀ x kind', kind' ≠ .other → (program.item x).kind = kind' → (later.item x).kind = kind' := by
    intro x kind' differs same
    rw [item, if_neg, same]
    rintro rfl
    exact differs (same.symm.trans kind)
  refine ⟨⟨?_, ?_, ?_⟩, ?_, ?_, ?_, ?_, ?_, ?_, ?_, ?_, ?_, ?_⟩
  · intro id j old found
    rw [source] at found
    exact includes ▸ unrolling.nested.files id j (files ▸ old) found
  · intro id old
    rw [host, files]
    exact unrolling.nested.items id (items ▸ old)
  · intro j p old found
    rw [parent] at found
    exact unrolling.nested.parents j p (includes ▸ old) found
  · intro j outer suffix
    rw [parent]
    exact unrolling.stacked j outer (suffix.trans (List.suffix_cons k pending))
  · intro j member
    obtain ⟨old, kind⟩ := unrolling.opened j (List.mem_cons_of_mem k member)
    have less := unrolling.ordered j k (unrolling.lt_of_mem member) known
    rw [includes, place, item, if_neg (Nat.ne_of_lt less)]
    exact ⟨old, kind⟩
  · intro i j less old
    rw [place, place]
    exact unrolling.ordered i j less (includes ▸ old)
  · intro m old
    obtain ⟨at_, kind, pos⟩ := unrolling.directives m (macros ▸ old)
    rw [directive, items]
    exact ⟨at_, other _ _ (by simp) kind, pos⟩
  · intro x m old kind
    rw [item] at kind
    split at kind
    · cases kind
    · rw [directive, macros]
      exact unrolling.kinds x m (items ▸ old) kind
  · intro x j old kind
    rw [includes]
    rw [item] at kind
    split at kind
    · cases kind
      exact known
    · exact unrolling.headers x j (items ▸ old) kind
  · intro j old
    obtain ⟨at_, kind⟩ := unrolling.inclusions j (includes ▸ old)
    rw [place, items]
    refine ⟨at_, fun closed => ?_⟩
    by_cases same : j = k
    · rw [same, item, if_pos rfl]
    · refine other _ _ (by simp) (kind ?_)
      simp [same, closed]
  · intro j old
    rw [place, around, parent]
    exact unrolling.hosts j (includes ▸ old)
  · intro x old j found
    rw [around, encloses] at found
    obtain ⟨less, gap⟩ := unrolling.contiguous x (items ▸ old) j found
    rw [place]
    refine ⟨less, fun y low high => ?_⟩
    rw [around, encloses]
    exact gap y low high
  · intro j member y behind old
    rw [place] at behind
    rw [around, encloses]
    exact unrolling.running j (List.mem_cons_of_mem k member) y behind (items ▸ old)

theorem finish (unit : program.Unrolling []) : program.finish.Unrolling [] := by
  have encloses : ∀ k inner, program.finish.Encloses k inner ↔ program.Encloses k inner := fun k inner =>
    ⟨fun encloses => encloses.congr fun _ => rfl, fun encloses => encloses.congr fun _ => rfl⟩
  refine ⟨⟨unit.nested.files, unit.nested.items, unit.nested.parents⟩, unit.stacked, unit.opened, unit.ordered,
    unit.directives, unit.kinds, unit.headers, unit.inclusions, unit.hosts, fun x inside k found => ?_, by simp⟩
  obtain ⟨less, gap⟩ := unit.contiguous x inside k ((encloses k _).mp found)
  exact ⟨less, fun y low high => (encloses k _).mpr (gap y low high)⟩

end Unrolling

end Excerpt.Program
