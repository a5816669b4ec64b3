/-! # Bisection

Where something holds from some place on, that place is found by halving. Lists are put in order
for that first.
-/

namespace SymbolicMemory

/-- The first place from `lo` on at which `holds` is true, or `hi` if it is true at none before.
    From that place on it is expected to stay true. -/
def bisect (holds : Nat → Bool) (lo hi : Nat) : Nat :=
  if lo < hi then
    let middle := (lo + hi) / 2
    if holds middle then bisect holds lo middle else bisect holds (middle + 1) hi
  else lo

/-- The place of the first element of a list that has a property which all elements behind it
    have too; the length of the list if no element has it. -/
def firstPlace {α : Type} (p : α → Bool) (xs : List α) : Nat :=
  bisect (fun i => xs[i]?.any p) 0 xs.length

theorem bisect_eq {holds : Nat → Bool} {lo hi place : Nat} (from_ : lo ≤ place) (upTo : place ≤ hi)
    (before : ∀ i, i < place → holds i = false) (after : ∀ i, place ≤ i → i < hi → holds i) :
    bisect holds lo hi = place := by
  fun_induction bisect holds lo hi with
  | case1 lo hi less middle found ih =>
      -- the place is not behind a middle where it holds
      have low : place ≤ middle := Nat.not_lt.mp fun more => by simp [before middle more] at found
      exact ih from_ low fun i le below => after i le (by omega)
  | case2 lo hi less middle missed ih =>
      have high : middle < place := Nat.not_le.mp fun le => missed (after middle le (by omega))
      exact ih high upTo after
  | case3 lo hi done => omega

theorem firstPlace_append {α : Type} {p : α → Bool} {xs ys : List α} (before : ∀ x ∈ xs, p x = false)
    (after : ∀ y ∈ ys, p y) : firstPlace p (xs ++ ys) = xs.length := by
  apply bisect_eq (Nat.zero_le _) (by simp)
  · intro i less
    simp [List.getElem?_append_left less, List.getElem?_eq_getElem less, before]
  · intro i le less
    have inside : i - xs.length < ys.length := by simp at less; omega
    simp [List.getElem?_append_right le, List.getElem?_eq_getElem inside, after]

/-- Of all elements that are sorted by a word, none has a larger word than a later one. -/
theorem pairwise_sorted {α : Type} (word : α → UInt64) (xs : List α) :
    (xs.mergeSort fun a b => word a ≤ word b).Pairwise fun a b => word a ≤ word b := by
  have sorted := @List.pairwise_mergeSort _ (fun a b => decide (word a ≤ word b))
    (by simpa using fun a b c => UInt64.le_trans) (by simpa using fun a b => UInt64.le_total _ _) xs
  exact sorted.imp of_decide_eq_true

end SymbolicMemory
