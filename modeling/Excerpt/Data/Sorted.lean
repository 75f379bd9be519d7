/-!
Stable sorting, and ascending sets of numbers: two sets with the same members are equal.
-/

namespace Excerpt

/-- Inserts `x` before the first element that it is at most. -/
def insertSorted (le : α → α → Bool) (x : α) : List α → List α
  | [] => [x]
  | y :: rest => if le x y then x :: y :: rest else y :: insertSorted le x rest

/-- Sorts by `le`; elements that are equal under it keep their order. -/
def stableSort (le : α → α → Bool) : List α → List α
  | [] => []
  | x :: rest => insertSorted le x (stableSort le rest)

/-- A set of numbers as its ascending list. -/
abbrev IdSet := List Nat

namespace IdSet

def insert (n : Nat) : IdSet → IdSet
  | [] => [n]
  | m :: rest => if n < m then n :: m :: rest else if n = m then m :: rest else m :: insert n rest

def insertAll (set : IdSet) (numbers : List Nat) : IdSet :=
  numbers.foldl (fun set n => set.insert n) set

def ofList (numbers : List Nat) : IdSet :=
  insertAll [] numbers

end IdSet

end Excerpt
