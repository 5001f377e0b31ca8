import Mathlib.Data.List.Count
import Mathlib.Tactic

/-!
# Counted references

Shared entries are counted by those who hold one, each at most one at a time. `Balanced` says that a
change of one holder is matched by the counts; then the counts of all holders stay right, or, where a
holder may forget what it holds, stay large enough.
-/
namespace Hail.Library

variable {κ : Type*} [DecidableEq κ] {r r' r'' : κ → Nat} {a b c : Option κ}

/-- The counts have changed from `r` to `r'` as one holder went from `a` to `b`. -/
def Balanced (r : κ → Nat) (a : Option κ) (r' : κ → Nat) (b : Option κ) : Prop :=
  ∀ k, r' k + (if a = some k then 1 else 0) = r k + (if b = some k then 1 else 0)

theorem Balanced.refl (r : κ → Nat) (a : Option κ) : Balanced r a r a := fun _ => rfl

theorem Balanced.trans (h : Balanced r a r' b) (h' : Balanced r' b r'' c) : Balanced r a r'' c := by
  intro k
  have hk := h k
  have hk' := h' k
  omega

variable {hs : List (Option κ)} {i j : Nat} {k : κ}

/-- The number of holders of each entry changes with one holder. -/
theorem balanced_set (hi : hs[i]? = some a) (b : Option κ) :
    Balanced (fun k => hs.count (some k)) a (fun k => (hs.set i b).count (some k)) b := by
  intro k
  obtain ⟨hlt, hget⟩ := List.getElem?_eq_some_iff.mp hi
  have hpos : a = some k → 0 < hs.count (some k) := by
    rintro rfl
    exact List.count_pos_iff.mpr (hget ▸ List.getElem_mem hlt)
  simp only [List.count, List.countP_set hlt, hget, beq_iff_eq] at hpos ⊢
  grind

/-- Every count is that of the holders. -/
def Counted (r : κ → Nat) (hs : List (Option κ)) : Prop := ∀ k, r k = hs.count (some k)

theorem Counted.pos (h : Counted r hs) (hk : some k ∈ hs) : 1 ≤ r k := by
  rw [h k]
  exact List.count_pos_iff.mpr hk

/-- A holder that holds nothing may join. -/
theorem Counted.join (h : Counted r hs) : Counted r (hs ++ [none]) := by
  intro k
  rw [h k, List.count_append]
  simp

theorem Counted.set (h : Counted r hs) (hi : hs[i]? = some a) (hbal : Balanced r a r' b) :
    Counted r' (hs.set i b) := by
  intro k
  have hset := balanced_set hi b k
  have hk := hbal k
  rw [h k] at hk
  dsimp only at hset
  omega

/-- Every count is at least that of the holders. -/
def Covered (r : κ → Nat) (hs : List (Option κ)) : Prop := ∀ k, hs.count (some k) ≤ r k

theorem Covered.join (h : Covered r hs) : Covered r (hs ++ [none]) := by
  intro k
  have hk := h k
  simpa [List.count_append] using hk

/-- A holder may forget what it holds. -/
theorem Covered.forget (h : Covered r hs) (hi : hs[i]? = some a) : Covered r (hs.set i none) := by
  intro k
  have hset := balanced_set hi none k
  have hk := h k
  grind

theorem Covered.set (h : Covered r hs) (hi : hs[i]? = some a) (hbal : Balanced r a r' b) :
    Covered r' (hs.set i b) := by
  intro k
  have hset := balanced_set hi b k
  have hbal := hbal k
  have hk := h k
  grind

theorem Covered.pos (h : Covered r hs) (hk : some k ∈ hs) : 1 ≤ r k :=
  (List.count_pos_iff.mpr hk).trans_le (h k)

/-- What two hold is counted twice. -/
theorem Covered.two (h : Covered r hs) (hi : hs[i]? = some (some k)) (hj : hs[j]? = some (some k))
    (hij : i ≠ j) : 2 ≤ r k := by
  have hset := balanced_set hi none k
  have hmem : some k ∈ hs.set i none := by
    apply List.mem_of_getElem? (i := j)
    rw [List.getElem?_set_ne hij, hj]
  have hpos := List.count_pos_iff.mpr hmem
  have hk := h k
  grind

end Hail.Library
