import Mathlib.Logic.Basic

/-!
# Runs of a step function

A run applies a step function to a list of inputs. `Meets ok s is` says that every step of the run
meets `ok` in the state it starts from. What such steps preserve holds at the end of every such
run, and, a beginning of such a run being one too, in every state on the way.
-/
namespace Hail.Library

variable {σ ι : Type*}

def run (step : σ → ι → σ) : σ → List ι → σ
  | s, [] => s
  | s, i :: is => run step (step s i) is

def Meets (step : σ → ι → σ) (ok : σ → ι → Prop) : σ → List ι → Prop
  | _, [] => True
  | s, i :: is => ok s i ∧ Meets step ok (step s i) is

variable {step : σ → ι → σ} {ok : σ → ι → Prop} {s : σ}

theorem run_append (is js : List ι) :
    run step s (is ++ js) = run step (run step s is) js := by
  induction is generalizing s with
  | nil => rfl
  | cons i is ih => exact ih

theorem Meets.append {is js : List ι} :
    Meets step ok s (is ++ js) ↔ Meets step ok s is ∧ Meets step ok (run step s is) js := by
  induction is generalizing s with
  | nil => simp [Meets, run]
  | cons i is ih => simp [Meets, run, ih, and_assoc]

theorem Meets.imp {ok' : σ → ι → Prop} {is : List ι} (h : Meets step ok s is)
    (himp : ∀ s, ∀ i ∈ is, ok s i → ok' s i) : Meets step ok' s is := by
  induction is generalizing s with
  | nil => trivial
  | cons i is ih =>
    exact ⟨himp s i (by simp) h.1, ih h.2 fun s j hj => himp s j (List.mem_cons_of_mem i hj)⟩

theorem Meets.and {ok' : σ → ι → Prop} {is : List ι} (h : Meets step ok s is)
    (h' : Meets step ok' s is) : Meets step (fun s i => ok s i ∧ ok' s i) s is := by
  induction is generalizing s with
  | nil => trivial
  | cons i is ih => exact ⟨⟨h.1, h'.1⟩, ih h.2 h'.2⟩

/-- What every step preserves. -/
theorem run_invariant {I : σ → Prop} (h0 : I s) (hstep : ∀ s i, I s → I (step s i)) (is : List ι) :
    I (run step s is) := by
  induction is generalizing s with
  | nil => exact h0
  | cons i is ih => exact ih (hstep s i h0)

/-- The invariant rule. -/
theorem Meets.invariant {I : σ → Prop} {is : List ι} (h : Meets step ok s is) (h0 : I s)
    (hstep : ∀ s i, I s → ok s i → I (step s i)) : I (run step s is) := by
  induction is generalizing s with
  | nil => exact h0
  | cons i is ih => exact ih h.2 (hstep s i h0 h.1)

/-- When `P` can only hold after a step that meets `ok`, it holds in all states of a run if and only if
all steps of the run meet `ok`. -/
theorem Meets.iff_forall {I P : σ → Prop} {is : List ι} (h0 : I s) (hP : ∀ s, I s → P s)
    (hstep : ∀ s i, I s → ok s i → I (step s i)) (hok : ∀ s i, I s → P (step s i) → ok s i) :
    (∀ js, js <+: is → P (run step s js)) ↔ Meets step ok s is := by
  induction is generalizing s with
  | nil =>
    refine iff_of_true ?_ trivial
    intro js hjs
    rw [List.prefix_nil.mp hjs]
    exact hP s h0
  | cons i is ih =>
    constructor
    · intro h
      have hi : ok s i := hok s i h0 (h [i] (by simp))
      refine ⟨hi, (ih (hstep s i h0 hi)).mp fun js hjs => ?_⟩
      exact h (i :: js) (List.cons_prefix_cons.mpr ⟨rfl, hjs⟩)
    · rintro ⟨hi, his⟩ js hjs
      cases js with
      | nil => exact hP s h0
      | cons j js =>
        obtain ⟨rfl, htail⟩ := List.cons_prefix_cons.mp hjs
        exact (ih (hstep s j h0 hi)).mpr his js htail

instance Meets.decidable [∀ s i, Decidable (ok s i)] :
    (s : σ) → (is : List ι) → Decidable (Meets step ok s is)
  | _, [] => .isTrue trivial
  | s, i :: is => @instDecidableAnd _ _ _ (Meets.decidable (step s i) is)

end Hail.Library
