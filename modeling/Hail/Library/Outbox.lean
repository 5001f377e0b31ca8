import Mathlib.Data.List.Basic
import Mathlib.Tactic

/-!
# A queue of entries written in pieces

Entries are written one after another, in pieces that may end anywhere. Which entries are finished
and what remains of the others is decided by how much has been written in all.
-/
namespace Hail.Library

variable {α : Type*}

/-- What remains of the entries when `n` items have been written. -/
def remaining : List (List α) → Nat → List (List α)
  | [], _ => []
  | e :: es, n => if e.length ≤ n then remaining es (n - e.length) else e.drop n :: es

/-- How many entries are finished when `n` items have been written. -/
def finished : List (List α) → Nat → Nat
  | [], _ => 0
  | e :: es, n => if e.length ≤ n then finished es (n - e.length) + 1 else 0

theorem flatten_remaining (es : List (List α)) (n : Nat) :
    (remaining es n).flatten = es.flatten.drop n := by
  induction es generalizing n with
  | nil => simp [remaining]
  | cons e es ih =>
    unfold remaining
    split
    · next h => rw [ih, List.flatten_cons, List.drop_append, List.drop_eq_nil_of_le h, List.nil_append]
    · next h =>
      rw [List.flatten_cons, List.flatten_cons, List.drop_append_of_le_length (by omega)]

theorem finished_add_remaining (es : List (List α)) (n : Nat) :
    finished es n + (remaining es n).length = es.length := by
  induction es generalizing n with
  | nil => rfl
  | cons e es ih =>
    unfold finished remaining
    split
    · have := ih (n - e.length)
      simp only [List.length_cons]
      omega
    · simp

theorem nil_notMem_remaining {es : List (List α)} (h : [] ∉ es) (n : Nat) :
    [] ∉ remaining es n := by
  induction es generalizing n with
  | nil => simp [remaining]
  | cons e es ih =>
    have hes : [] ∉ es := fun hm => h (List.mem_cons_of_mem e hm)
    unfold remaining
    split
    · exact ih hes _
    · next hlen =>
      refine List.not_mem_cons_of_ne_of_not_mem ?_ hes
      intro hnil
      have := List.drop_eq_nil_iff.mp hnil.symm
      omega

theorem remaining_zero {es : List (List α)} (h : [] ∉ es) : remaining es 0 = es := by
  cases es with
  | nil => rfl
  | cons e es =>
    have he : e ≠ [] := fun he => h (he ▸ List.mem_cons_self)
    simp [remaining, he]

theorem finished_zero {es : List (List α)} (h : [] ∉ es) : finished es 0 = 0 := by
  have := finished_add_remaining es 0
  rw [remaining_zero h] at this
  omega

/-- Entries added to the queue wait behind those in it. -/
theorem remaining_append {es fs : List (List α)} {n : Nat} (hfs : [] ∉ fs)
    (hn : n ≤ es.flatten.length) : remaining (es ++ fs) n = remaining es n ++ fs := by
  induction es generalizing n with
  | nil =>
    obtain rfl : n = 0 := by simpa using hn
    exact remaining_zero hfs
  | cons e es ih =>
    rw [List.cons_append, remaining, remaining]
    split
    · refine ih ?_
      rw [List.flatten_cons, List.length_append] at hn
      omega
    · rfl

theorem finished_append {es fs : List (List α)} {n : Nat} (hfs : [] ∉ fs)
    (hn : n ≤ es.flatten.length) : finished (es ++ fs) n = finished es n := by
  have h1 := finished_add_remaining (es ++ fs) n
  have h2 := finished_add_remaining es n
  rw [remaining_append hfs hn, List.length_append, List.length_append] at h1
  omega

theorem remaining_add (es : List (List α)) (n m : Nat) :
    remaining es (n + m) = remaining (remaining es n) m := by
  induction es generalizing n with
  | nil => rfl
  | cons e es ih =>
    by_cases h : e.length ≤ n
    · rw [remaining, remaining, if_pos h, if_pos (by omega), ← ih]
      congr 1
      omega
    · rw [remaining, remaining, if_neg h, remaining, List.length_drop]
      by_cases h' : e.length ≤ n + m
      · rw [if_pos h', if_pos (by omega)]
        congr 1
        omega
      · rw [if_neg h', if_neg (by omega), List.drop_drop]

theorem finished_add (es : List (List α)) (n m : Nat) :
    finished es (n + m) = finished es n + finished (remaining es n) m := by
  have h1 := finished_add_remaining es (n + m)
  have h2 := finished_add_remaining es n
  have h3 := finished_add_remaining (remaining es n) m
  rw [remaining_add] at h1
  omega

/-- An entry is finished when all up to its end has been written. -/
theorem lt_finished_iff {es : List (List α)} {n i : Nat} (hi : i < es.length) :
    i < finished es n ↔ (es.take (i + 1)).flatten.length ≤ n := by
  induction es generalizing n i with
  | nil => simp at hi
  | cons e es ih =>
    rw [finished, List.take_succ_cons, List.flatten_cons, List.length_append]
    split
    · next h =>
      cases i with
      | zero => simp [h]
      | succ i =>
        rw [Nat.add_lt_add_iff_right, ih (by simpa using hi)]
        omega
    · next h =>
      constructor
      · intro h0
        omega
      · intro h0
        omega

end Hail.Library
