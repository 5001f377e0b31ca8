import Mathlib.Data.List.Nodup
import Mathlib.Logic.Function.Basic
import Mathlib.Tactic

/-!
# Chained buckets

A table of `n` chains, in which every entry lies in the chain of its hash modulo `n`. To find an entry
only the order among the entries of one hash matters; `ofHash` is that part of their chain.
-/
namespace Hail.Library

section

variable {α : Type*} {l : List Nat} {i : Nat}

theorem flatMap_update (hl : l.Nodup) (hi : i ∈ l) (f : Nat → List α) :
    ∃ pre post, ∀ c, l.flatMap (Function.update f i c) = pre ++ c ++ post := by
  obtain ⟨s, t, rfl⟩ := List.append_of_mem hi
  obtain ⟨-, hcons, hdis⟩ := List.nodup_append.mp hl
  have hs : ∀ j ∈ s, j ≠ i := fun j hj => hdis j hj i List.mem_cons_self
  have ht : ∀ j ∈ t, j ≠ i := fun j hj he => (List.nodup_cons.mp hcons).1 (he ▸ hj)
  refine ⟨s.flatMap f, t.flatMap f, fun c => ?_⟩
  rw [List.flatMap_append, List.flatMap_cons, Function.update_self,
    List.flatMap_congr fun j hj => Function.update_of_ne (hs j hj) c f,
    List.flatMap_congr fun j hj => Function.update_of_ne (ht j hj) c f, List.append_assoc]

theorem flatMap_single (hl : l.Nodup) (hi : i ∈ l) {f : Nat → List α} (hf : ∀ j, j ≠ i → f j = []) :
    l.flatMap f = f i := by
  obtain ⟨s, t, rfl⟩ := List.append_of_mem hi
  obtain ⟨-, hcons, hdis⟩ := List.nodup_append.mp hl
  have hs : s.flatMap f = [] :=
    List.flatMap_eq_nil_iff.mpr fun j hj => hf j (hdis j hj i List.mem_cons_self)
  have ht : t.flatMap f = [] :=
    List.flatMap_eq_nil_iff.mpr fun j hj => hf j fun he => (List.nodup_cons.mp hcons).1 (he ▸ hj)
  rw [List.flatMap_append, List.flatMap_cons, hs, ht, List.nil_append, List.append_nil]

end

namespace Buckets

variable {α : Type*} (hash : α → Nat) (n : Nat) (chain : Nat → List α)

/-- All entries, chain by chain. -/
def all : List α := (List.range n).flatMap chain

def Placed : Prop := ∀ i, ∀ a ∈ chain i, hash a % n = i

/-- The entries with hash `x`, as their chain has them. -/
def ofHash (x : Nat) : List α := (chain (x % n)).filter fun a => hash a = x

/-- The chains with `a` at the head of its own. -/
def push (a : α) : Nat → List α :=
  Function.update chain (hash a % n) (a :: chain (hash a % n))

/-- The chains without the entries of chain `i` that fail `p`. -/
def filterAt (i : Nat) (p : α → Bool) : Nat → List α := Function.update chain i ((chain i).filter p)

/-- The entries of a list, put one after the other at the end of their chains. -/
def spread (as : List α) : Nat → List α :=
  as.foldl (fun chain a => Function.update chain (hash a % n) (chain (hash a % n) ++ [a])) fun _ => []

variable {hash n chain}

/-! ## Adding an entry -/

theorem all_push (hn : 0 < n) (a : α) : (all n (push hash n chain a)).Perm (a :: all n chain) := by
  obtain ⟨pre, post, h⟩ := flatMap_update List.nodup_range (List.mem_range.mpr (Nat.mod_lt (hash a) hn))
    chain
  have hall := h (chain (hash a % n))
  rw [Function.update_eq_self] at hall
  rw [all, push, h, all, hall, List.append_assoc, List.append_assoc]
  exact List.perm_middle

theorem Placed.push (h : Placed hash n chain) (a : α) : Placed hash n (push hash n chain a) := by
  intro i b hb
  by_cases hi : i = hash a % n
  · subst hi
    rw [Buckets.push, Function.update_self] at hb
    rcases List.mem_cons.mp hb with rfl | hb
    · rfl
    · exact h _ b hb
  · rw [Buckets.push, Function.update_of_ne hi] at hb
    exact h i b hb

theorem ofHash_push (a : α) (x : Nat) :
    ofHash hash n (push hash n chain a) x =
      if hash a = x then a :: ofHash hash n chain x else ofHash hash n chain x := by
  unfold ofHash push
  by_cases hx : x % n = hash a % n
  · rw [hx, Function.update_self, List.filter_cons]
    simp only [decide_eq_true_eq]
  · rw [Function.update_of_ne hx, if_neg fun he => hx (by rw [he])]

/-! ## Removing entries of one chain -/

section

variable {i : Nat} {p : α → Bool}

theorem all_filterAt (hp : ∀ j, j ≠ i → ∀ a ∈ chain j, p a = true) :
    all n (filterAt chain i p) = (all n chain).filter p := by
  rw [all, all, List.filter_flatMap]
  refine List.flatMap_congr fun j _ => ?_
  by_cases hj : j = i
  · rw [hj, filterAt, Function.update_self]
  · rw [filterAt, Function.update_of_ne hj, List.filter_eq_self.mpr (hp j hj)]

theorem Placed.filterAt (h : Placed hash n chain) (i : Nat) (p : α → Bool) :
    Placed hash n (filterAt chain i p) := by
  intro j b hb
  by_cases hj : j = i
  · subst hj
    rw [Buckets.filterAt, Function.update_self] at hb
    exact h j b (List.mem_of_mem_filter hb)
  · rw [Buckets.filterAt, Function.update_of_ne hj] at hb
    exact h j b hb

theorem ofHash_filterAt (hp : ∀ j, j ≠ i → ∀ a ∈ chain j, p a = true) (x : Nat) :
    ofHash hash n (filterAt chain i p) x = (ofHash hash n chain x).filter p := by
  unfold ofHash filterAt
  by_cases hx : x % n = i
  · rw [hx, Function.update_self, List.filter_filter, List.filter_filter]
    simp only [Bool.and_comm]
  · rw [Function.update_of_ne hx]
    exact (List.filter_eq_self.mpr fun a ha => hp _ hx a (List.mem_of_mem_filter ha)).symm

/-- Entries that are only found in one chain are found there. -/
theorem filter_all (hi : i < n) (hp : ∀ j, j ≠ i → ∀ a ∈ chain j, p a = false) :
    (all n chain).filter p = (chain i).filter p := by
  rw [all, List.filter_flatMap]
  refine flatMap_single (f := fun j => (chain j).filter p) List.nodup_range (List.mem_range.mpr hi)
    fun j hj => ?_
  exact List.filter_eq_nil_iff.mpr fun a ha => by simp [hp j hj a ha]

end

/-! ## Spreading the entries anew -/

theorem spread_apply (as : List α) (j : Nat) :
    spread hash n as j = as.filter fun a => hash a % n = j := by
  have hgen : ∀ c : Nat → List α, as.foldl (fun chain a =>
      Function.update chain (hash a % n) (chain (hash a % n) ++ [a])) c j =
        c j ++ as.filter fun a => hash a % n = j := by
    induction as with
    | nil => simp
    | cons a as ih =>
      intro c
      rw [List.foldl_cons, ih, List.filter_cons]
      by_cases hj : hash a % n = j
      · subst hj
        simp
      · simp [hj, Function.update_of_ne (Ne.symm hj)]
  exact (hgen fun _ => []).trans (List.nil_append _)

theorem all_spread (hn : 0 < n) (as : List α) : (all n (spread hash n as)).Perm as := by
  induction as with
  | nil => simp [all, spread]
  | cons a as ih =>
    have hpush : spread hash n (a :: as) = push hash n (spread hash n as) a := by
      funext j
      rw [spread_apply, List.filter_cons, push]
      by_cases hj : hash a % n = j
      · subst hj
        simp [spread_apply]
      · simp [hj, Function.update_of_ne (Ne.symm hj), spread_apply]
    rw [hpush]
    exact (all_push hn a).trans (ih.cons a)

theorem placed_spread (as : List α) : Placed hash n (spread hash n as) := by
  intro i a ha
  rw [spread_apply] at ha
  simpa using (List.mem_filter.mp ha).2

theorem ofHash_spread (hn : 0 < n) (h : Placed hash n chain) (m x : Nat) :
    ofHash hash m (spread hash m (all n chain)) x = ofHash hash n chain x := by
  rw [ofHash, spread_apply, List.filter_filter, ofHash,
    ← filter_all (p := fun a => decide (hash a = x)) (Nat.mod_lt x hn)]
  · refine List.filter_congr fun a _ => ?_
    by_cases ha : hash a = x
    · simp [ha]
    · simp [ha]
  · intro j hj a ha
    refine decide_eq_false fun he => hj ?_
    rw [← h j a ha, he]

end Buckets

end Hail.Library
