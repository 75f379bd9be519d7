import Mathlib.Algebra.BigOperators.Group.Finset.Basic
import Mathlib.Algebra.BigOperators.Intervals
import Mathlib.Algebra.Order.BigOperators.Group.Finset
import Mathlib.Logic.Relation

/-!
Depth-first search by keys. A key leads to at most one entry of a table, an entry to further keys.
-/

namespace Excerpt

variable {κ : Type} {id size : Nat} {seen listed known : List Nat} {stack : List κ}

/-- Search over the keys on `stack` that leaves out the entries in `seen`, for at most `fuel` steps. -/
def searchFrom (find : κ → Option Nat) (next : Nat → List κ) : Nat → List Nat → List κ → List Nat
  | fuel + 1, seen, key :: stack =>
    match find key with
    | some id =>
      if seen.contains id then searchFrom find next fuel seen stack
      else id :: searchFrom find next fuel (id :: seen) (next id ++ stack)
    | none => searchFrom find next fuel seen stack
  | _, _, _ => []

def KeyStep (find : κ → Option Nat) (next : Nat → List κ) (first second : κ) : Prop :=
  ∃ id, find first = some id ∧ second ∈ next id

/-- Some chain of keys leads from the first key to the entry. -/
def Leads (find : κ → Option Nat) (next : Nat → List κ) (start : κ) (id : Nat) : Prop :=
  ∃ key, Relation.ReflTransGen (KeyStep find next) start key ∧ find key = some id

variable {find : κ → Option Nat} {next : Nat → List κ}

theorem Leads.head {start key : κ} {via : Nat} (found : find start = some via)
    (held : key ∈ next via) (leads : Leads find next key id) : Leads find next start id := by
  obtain ⟨last, chain, foundLast⟩ := leads
  exact ⟨last, .head ⟨via, found, held⟩ chain, foundLast⟩

/-- Number of keys that the entries below `size` outside `seen` can still put on the stack. -/
def unseenKeys (next : Nat → List κ) (size : Nat) (seen : List Nat) : Nat :=
  ∑ id ∈ (Finset.range size).filter (· ∉ seen), (next id).length

/-- The measure: an entry that is met for the first time gives its keys to the stack. -/
theorem unseenKeys_cons (outside : ∀ id, size ≤ id → next id = []) (fresh : id ∉ seen) :
    (next id).length + unseenKeys next size (id :: seen) = unseenKeys next size seen := by
  have rest : (Finset.range size).filter (· ∉ id :: seen) = ((Finset.range size).filter (· ∉ seen)).erase id := by
    ext other
    simp only [Finset.mem_filter, Finset.mem_range, List.mem_cons, Finset.mem_erase]
    tauto
  unfold unseenKeys
  rw [rest]
  by_cases inside : id < size
  · exact Finset.add_sum_erase _ (fun id => (next id).length) (by simp [inside, fresh])
  · rw [Finset.erase_eq_of_notMem (by simp [inside]), outside id (by omega)]
    simp

/-- The search without a bound on its steps: the entries that it lists until its stack is empty. -/
inductive Searches (find : κ → Option Nat) (next : Nat → List κ) : List Nat → List κ → List Nat → Prop
  | done {seen : List Nat} : Searches find next seen [] []
  | missing {seen listed : List Nat} {key : κ} {stack : List κ} (none : find key = none)
      (rest : Searches find next seen stack listed) : Searches find next seen (key :: stack) listed
  | seen {seen listed : List Nat} {key : κ} {stack : List κ} {id : Nat} (found : find key = some id) (old : id ∈ seen)
      (rest : Searches find next seen stack listed) : Searches find next seen (key :: stack) listed
  | fresh {seen listed : List Nat} {key : κ} {stack : List κ} {id : Nat} (found : find key = some id) (new : id ∉ seen)
      (rest : Searches find next (id :: seen) (next id ++ stack) listed) :
      Searches find next seen (key :: stack) (id :: listed)

/-- What is found for the key on top decides the step, so there is one list only. -/
theorem Searches.unique {other : List Nat} (first : Searches find next seen stack listed)
    (second : Searches find next seen stack other) : other = listed := by
  induction first generalizing other with
  | done => cases second; rfl
  | missing none _ ih =>
    cases second with
    | missing _ rest => exact ih rest
    | seen found => simp [none] at found
    | fresh found => simp [none] at found
  | seen found old _ ih =>
    cases second with
    | missing none => simp [none] at found
    | seen _ _ rest => exact ih rest
    | fresh same new =>
      obtain rfl := Option.some.inj (found.symm.trans same)
      exact absurd old new
  | fresh found new _ ih =>
    cases second with
    | missing none => simp [none] at found
    | seen same old =>
      obtain rfl := Option.some.inj (found.symm.trans same)
      exact absurd old new
    | fresh same _ rest =>
      obtain rfl := Option.some.inj (found.symm.trans same)
      rw [ih rest]

/-- The bounded search comes to its end when its bound covers the stack and all keys still to come. -/
theorem searchFrom_searches {fuel : Nat} (find : κ → Option Nat) (seen : List Nat) (stack : List κ)
    (outside : ∀ id, size ≤ id → next id = [])
    (enough : stack.length + unseenKeys next size seen ≤ fuel) :
    Searches find next seen stack (searchFrom find next fuel seen stack) := by
  induction fuel generalizing seen stack with
  | zero =>
    obtain rfl : stack = [] := List.eq_nil_of_length_eq_zero (by omega)
    exact .done
  | succ fuel ih =>
    cases stack with
    | nil => exact .done
    | cons key stack =>
      simp only [List.length_cons] at enough
      simp only [searchFrom]
      cases found : find key with
      | none => exact .missing found (ih seen stack (by omega))
      | some id =>
        dsimp only
        split
        · next old => exact .seen found (by simpa using old) (ih seen stack (by omega))
        · next new =>
          have new : id ∉ seen := by simpa using new
          have spent := unseenKeys_cons outside new
          exact .fresh found new (ih (id :: seen) (next id ++ stack) (by rw [List.length_append]; omega))

/-- What is listed is led to by a key of the stack, by induction on the search. -/
theorem Searches.sound (searches : Searches find next seen stack listed) (member : id ∈ listed) :
    ∃ key ∈ stack, Leads find next key id := by
  induction searches with
  | done => cases member
  | missing _ _ ih =>
    obtain ⟨key, onStack, leads⟩ := ih member
    exact ⟨key, List.mem_cons_of_mem _ onStack, leads⟩
  | seen _ _ _ ih =>
    obtain ⟨key, onStack, leads⟩ := ih member
    exact ⟨key, List.mem_cons_of_mem _ onStack, leads⟩
  | @fresh _ _ key _ _ found _ _ ih =>
    rcases List.mem_cons.mp member with rfl | member
    · exact ⟨key, List.mem_cons_self, key, .refl, found⟩
    · obtain ⟨other, onStack, leads⟩ := ih member
      rcases List.mem_append.mp onStack with held | onStack
      · exact ⟨key, List.mem_cons_self, leads.head found held⟩
      · exact ⟨other, List.mem_cons_of_mem _ onStack, leads⟩

/-- The entry of every key on the stack is seen or listed, and so are the entries of all keys that listed entries
hold. -/
theorem Searches.closed (searches : Searches find next seen stack listed) :
    (∀ key ∈ stack, ∀ id, find key = some id → id ∈ seen ∨ id ∈ listed) ∧
    ∀ via ∈ listed, ∀ key ∈ next via, ∀ id, find key = some id → id ∈ seen ∨ id ∈ listed := by
  induction searches with
  | done => simp
  | missing none _ ih => exact ⟨List.forall_mem_cons.mpr ⟨fun id found => by simp [none] at found, ih.1⟩, ih.2⟩
  | seen found old _ ih =>
    refine ⟨List.forall_mem_cons.mpr ⟨fun id same => ?_, ih.1⟩, ih.2⟩
    exact .inl (Option.some.inj (found.symm.trans same) ▸ old)
  | @fresh seen listed key _ via found _ _ ih =>
    have widen : ∀ id, id ∈ via :: seen ∨ id ∈ listed → id ∈ seen ∨ id ∈ via :: listed := by
      intro id present
      simp only [List.mem_cons] at present ⊢
      tauto
    have held : ∀ key ∈ next via, ∀ id, find key = some id → id ∈ seen ∨ id ∈ via :: listed :=
      fun key isHeld id foundKey => widen id (ih.1 key (List.mem_append_left _ isHeld) id foundKey)
    refine ⟨List.forall_mem_cons.mpr ⟨fun id same => ?_, fun other onStack id foundOther => ?_⟩,
      List.forall_mem_cons.mpr ⟨held, fun other isListed key isHeld id foundKey => ?_⟩⟩
    · exact .inr (Option.some.inj (found.symm.trans same) ▸ List.mem_cons_self)
    · exact widen id (ih.1 other (List.mem_append_right _ onStack) id foundOther)
    · exact widen id (ih.2 other isListed key isHeld id foundKey)

/-- A search with enough steps lists exactly what its key leads to. -/
theorem mem_searchFrom_iff {fuel : Nat} {start : κ} (outside : ∀ id, size ≤ id → next id = [])
    (enough : 1 + unseenKeys next size [] ≤ fuel) :
    id ∈ searchFrom find next fuel [] [start] ↔ Leads find next start id := by
  have searches := searchFrom_searches find [] [start] outside enough
  constructor
  · intro listed
    obtain ⟨key, member, leads⟩ := searches.sound listed
    rwa [List.mem_singleton.mp member] at leads
  · rintro ⟨key, chain, found⟩
    obtain ⟨ofStack, ofListed⟩ := searches.closed
    induction chain generalizing id with
    | refl => exact (ofStack start List.mem_cons_self id found).resolve_left List.not_mem_nil
    | tail _ step ih =>
      obtain ⟨via, foundVia, held⟩ := step
      exact (ofListed via (ih foundVia) _ held id found).resolve_left List.not_mem_nil

theorem Searches.behind {dead : List κ} (idle : ∀ key ∈ dead, ∀ id, find key = some id → id ∈ seen)
    (searches : Searches find next seen stack listed) :
    Searches find next seen (dead ++ stack) listed := by
  induction dead with
  | nil => exact searches
  | cons key rest ih =>
    obtain ⟨here, others⟩ := List.forall_mem_cons.mp idle
    cases found : find key with
    | none => exact .missing found (ih others)
    | some id => exact .seen found (here id found) (ih others)

def IsLive (find : κ → Option Nat) (known : List Nat) (key : κ) : Bool :=
  (find key).any (· ∉ known)

theorem isLive_iff {key : κ} (found : find key = some id) :
    IsLive find known key = true ↔ id ∉ known := by
  simp [IsLive, found]

/-- A search that also leaves out `known` lists the same entries without those of `known`, if they lead to no others.
The keys that lead into `known` may be missing from its stack. -/
theorem Searches.without {shared : List Nat} {rest : List κ}
    (closed : ∀ via ∈ known, ∀ key ∈ next via, ∀ id, find key = some id → id ∈ known)
    (searches : Searches find next seen stack listed)
    (same : ∀ id, id ∈ shared ↔ id ∈ seen ∨ id ∈ known)
    (live : rest.filter (IsLive find known) = stack.filter (IsLive find known)) :
    Searches find next shared rest (listed.filter (· ∉ known)) := by
  have idle : ∀ {shared : List Nat} {keys : List κ}, (∀ id ∈ known, id ∈ shared) →
      (∀ key ∈ keys, ¬IsLive find known key = true) → ∀ key ∈ keys, ∀ id, find key = some id → id ∈ shared := by
    intro shared keys held dead key member id found
    exact held id (not_not.mp (mt (isLive_iff found).mpr (dead key member)))
  have held : ∀ id ∈ known, id ∈ shared := fun id member => (same id).mpr (.inr member)
  induction searches generalizing shared rest with
  | done =>
    have dead := List.filter_eq_nil_iff.mp live
    simpa using Searches.behind (idle held dead) .done
  | missing none _ ih =>
    rw [List.filter_cons_of_neg (by simp [IsLive, none])] at live
    exact ih same live held
  | @seen seen listed key stack id found old _ ih =>
    by_cases inside : id ∈ known
    · rw [List.filter_cons_of_neg (by simp [isLive_iff found, inside])] at live
      exact ih same live held
    · rw [List.filter_cons_of_pos (by simp [isLive_iff found, inside])] at live
      obtain ⟨front, back, rfl, dead, -, live⟩ := List.filter_eq_cons_iff.mp live
      exact (Searches.seen found ((same id).mpr (.inl old)) (ih same live held)).behind (idle held dead)
  | @fresh seen listed key stack id found new _ ih =>
    by_cases inside : id ∈ known
    · have gone : (next id).filter (IsLive find known) = [] := by
        rw [List.filter_eq_nil_iff]
        intro key isHeld alive
        obtain ⟨other, foundKey⟩ : ∃ other, find key = some other := by
          cases missing : find key with
          | none => simp [IsLive, missing] at alive
          | some other => exact ⟨other, rfl⟩
        exact (isLive_iff foundKey).mp alive (closed id inside key isHeld other foundKey)
      rw [List.filter_cons_of_neg (by simp [isLive_iff found, inside])] at live
      rw [List.filter_cons_of_neg (by simp [inside])]
      refine ih (fun other => ?_) (by rw [live, List.filter_append, gone, List.nil_append]) held
      rw [same, List.mem_cons]
      constructor
      · exact fun either => either.imp_left .inr
      · rintro ((rfl | old) | member)
        · exact .inr inside
        · exact .inl old
        · exact .inr member
    · rw [List.filter_cons_of_pos (by simp [isLive_iff found, inside])] at live
      rw [List.filter_cons_of_pos (by simp [inside])]
      obtain ⟨front, back, rfl, dead, -, live⟩ := List.filter_eq_cons_iff.mp live
      have absent : id ∉ shared := fun member => ((same id).mp member).elim new inside
      refine (Searches.fresh found absent (ih (fun other => ?_) ?_ ?_)).behind (idle held dead)
      · simp only [List.mem_cons, same, or_assoc]
      · rw [List.filter_append, List.filter_append, live]
      · exact fun other member => List.mem_cons_of_mem _ (held other member)

theorem unseenKeys_le (next : Nat → List κ) (size : Nat) (seen : List Nat) :
    unseenKeys next size seen ≤ unseenKeys next size [] := by
  refine Finset.sum_le_sum_of_subset_of_nonneg (fun id member => ?_) fun _ _ _ => Nat.zero_le _
  simp only [Finset.mem_filter, List.not_mem_nil, not_false_eq_true, and_true] at member ⊢
  exact member.1

/-- Where entries lead to no others, a search that starts with them as seen lists what the whole search lists without
them, and with its own they lead to no others either. -/
theorem searchFrom_known {fuel : Nat} (start : κ) (outside : ∀ id, size ≤ id → next id = [])
    (closed : ∀ via ∈ known, ∀ key ∈ next via, ∀ id, find key = some id → id ∈ known)
    (enough : 1 + unseenKeys next size [] ≤ fuel) :
    searchFrom find next fuel known [start] = (searchFrom find next fuel [] [start]).filter (· ∉ known) ∧
      ∀ via ∈ searchFrom find next fuel known [start], ∀ key ∈ next via, ∀ id, find key = some id →
        id ∈ known ∨ id ∈ searchFrom find next fuel known [start] := by
  have room : 1 + unseenKeys next size known ≤ fuel := by
    have := unseenKeys_le next size known
    omega
  have whole := searchFrom_searches find [] [start] outside enough
  have searches := searchFrom_searches find known [start] outside room
  exact ⟨(whole.without closed (by simp) rfl).unique searches, searches.closed.2⟩

theorem sum_weights_eq_sum_range (weight : α → Nat) (values : List α) (fallback : α) :
    (values.map weight).sum = ∑ id ∈ Finset.range values.length, weight (values.getD id fallback) := by
  induction values with
  | nil => rfl
  | cons first rest ih =>
    rw [List.map_cons, List.sum_cons, ih, List.length_cons, Finset.sum_range_succ']
    simp [Nat.add_comm]

end Excerpt
