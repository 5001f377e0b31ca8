import Mathlib.Data.List.Basic
import Mathlib.Data.List.Nodup
import Mathlib.Tactic

/-!
# Entries that wait to be settled

Entries wait in the order in which they came until their key is settled, and keys are settled in any
order. As long as no key comes twice, settling one removes one entry at most. Keys can be numbers
that are given one after another, modulo some number.
-/
namespace Hail.Library

section

variable {α κ : Type*} [DecidableEq κ] (key : α → κ)

/-- The entries that wait when the keys `settled` have been settled. -/
def waiting (settled : List κ) (entries : List α) : List α :=
  entries.filter fun a => decide (key a ∉ settled)

variable {key} {settled : List κ} {entries : List α} {k : κ}

theorem mem_waiting {a : α} : a ∈ waiting key settled entries ↔ a ∈ entries ∧ key a ∉ settled := by
  simp [waiting]

/-- New entries wait behind those that do. -/
theorem waiting_append {new : List α} (h : ∀ a ∈ new, key a ∉ settled) :
    waiting key settled (entries ++ new) = waiting key settled entries ++ new := by
  have hnew : new.filter (fun a => decide (key a ∉ settled)) = new := by
    simpa [List.filter_eq_self] using h
  rw [waiting, List.filter_append, hnew]
  rfl

/-- An entry whose key is settled no longer waits. -/
theorem waiting_settle :
    waiting key (settled ++ [k]) entries =
      (waiting key settled entries).filter fun a => decide (key a ≠ k) := by
  rw [waiting, waiting, List.filter_filter]
  refine List.filter_congr fun a _ => ?_
  simp only [List.mem_append, List.mem_singleton, not_or, Bool.decide_and]
  exact Bool.and_comm _ _

/-- Nothing waits for a key that none has. -/
theorem waiting_filter_unknown (h : k ∉ entries.map key ∨ k ∈ settled) :
    (waiting key settled entries).filter (fun a => decide (key a = k)) = [] := by
  simp only [List.filter_eq_nil_iff, mem_waiting, decide_eq_true_eq]
  rintro a ⟨ha, hs⟩ rfl
  rcases h with h | h
  · exact h (List.mem_map_of_mem ha)
  · exact hs h

/-- Without the entries of a key that none has, all remain. -/
theorem waiting_filter_ne (h : k ∉ entries.map key ∨ k ∈ settled) :
    (waiting key settled entries).filter (fun a => decide (key a ≠ k)) =
      waiting key settled entries := by
  simp only [List.filter_eq_self, mem_waiting, decide_eq_true_eq]
  rintro a ⟨ha, hs⟩ rfl
  rcases h with h | h
  · exact h (List.mem_map_of_mem ha)
  · exact hs h

/-- One entry waits for a key that has not been settled. -/
theorem waiting_filter_known (hnodup : (entries.map key).Nodup) (h : k ∈ entries.map key)
    (hs : k ∉ settled) :
    ∃ a ∈ entries, key a = k ∧
      (waiting key settled entries).filter (fun a => decide (key a = k)) = [a] := by
  obtain ⟨a, ha, rfl⟩ := List.mem_map.mp h
  refine ⟨a, ha, rfl, ?_⟩
  have hsub : ∀ b ∈ (waiting key settled entries).filter (fun b => decide (key b = key a)),
      b = a := by
    intro b hb
    obtain ⟨hw, hk⟩ := List.mem_filter.mp hb
    exact List.inj_on_of_nodup_map hnodup (mem_waiting.mp hw).1 ha (of_decide_eq_true hk)
  have hmem : a ∈ (waiting key settled entries).filter (fun b => decide (key b = key a)) := by
    simp [mem_waiting, ha, hs]
  have hone : ((waiting key settled entries).filter fun b => decide (key b = key a)).Nodup :=
    ((hnodup.of_map key).filter _).filter _
  exact List.perm_singleton.mp ((List.perm_ext_iff_of_nodup hone (List.nodup_singleton a)).mpr
    fun b => ⟨fun hb => by simp [hsub b hb], fun hb => by simpa [List.mem_singleton.mp hb] using hmem⟩)

end

/-- `total` numbers that follow one another from `first` on. -/
def numbersFrom (modulus first total : Nat) : List Nat :=
  (List.range total).map fun i => (first + i) % modulus

variable {modulus first total : Nat}

@[simp] theorem length_numbersFrom : (numbersFrom modulus first total).length = total := by
  simp [numbersFrom]

/-- The numbers increase up to where they wrap. -/
theorem numbersFrom_increases (h : first + total ≤ modulus) :
    (numbersFrom modulus first total).Pairwise (· < ·) := by
  refine List.pairwise_map.mpr (List.pairwise_lt_range.imp_of_mem fun hi hj hlt => ?_)
  rw [List.mem_range] at hi hj
  rw [Nat.mod_eq_of_lt (by omega), Nat.mod_eq_of_lt (by omega)]
  omega

theorem numbersFrom_add (modulus first total k : Nat) :
    numbersFrom modulus first (total + k) =
      numbersFrom modulus first total ++ numbersFrom modulus (first + total) k := by
  unfold numbersFrom
  rw [List.range_add, List.map_append, List.map_map]
  simp [Function.comp_def, add_assoc]

theorem numbersFrom_congr {first' : Nat} (h : first % modulus = first' % modulus) :
    numbersFrom modulus first total = numbersFrom modulus first' total := by
  refine List.map_congr_left fun i _ => ?_
  rw [Nat.add_mod, h, ← Nat.add_mod]

theorem nodup_numbersFrom (h : total ≤ modulus) : (numbersFrom modulus first total).Nodup := by
  refine (List.nodup_range).map_on ?_
  intro i hi j hj heq
  rw [List.mem_range] at hi hj
  have hmod : i ≡ j [MOD modulus] := Nat.ModEq.add_left_cancel' first heq
  exact hmod.eq_of_lt_of_lt (hi.trans_le h) (hj.trans_le h)

end Hail.Library
