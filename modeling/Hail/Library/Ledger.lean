import Mathlib.Data.List.Nodup

/-!
# Ledgers

A ledger lists numbered entries, each of which may be settled while it is listed. Entries are taken
off the list at any time, and when a ledger is closed, entries that are not settled may be; what is
entered meanwhile is not listed. In every ledger that steps lead to, no entry has been settled twice.
-/
namespace Hail.Library

/-- The entries listed, with whether they are settled; the history of the entries settled; and the
number of the next entry. -/
structure Ledger where
  entries : List (Nat × Bool)
  settled : List Nat
  next : Nat

namespace Ledger

/-- The entry with number `n` settled. -/
def settleAt (n : Nat) (x : Nat × Bool) : Nat × Bool := if x.1 = n then (x.1, true) else x

/-- The entries that are not settled. -/
def due (l : Ledger) : List Nat := (l.entries.filter fun x => !x.2).map Prod.fst

inductive Step (l : Ledger) : Ledger → Prop where
  | keep : Step l l
  | skip : Step l { l with next := l.next + 1 }
  | enter : Step l { l with entries := (l.next, false) :: l.entries, next := l.next + 1 }
  | settle {n : Nat} (h : n ∈ l.due) :
      Step l { l with entries := l.entries.map (settleAt n), settled := l.settled ++ [n] }
  | purge {kept : List (Nat × Bool)} (h : kept.Sublist l.entries) : Step l { l with entries := kept }
  | close {ns : List Nat} {next : Nat} (h : ns.Sublist l.due) (hn : l.next ≤ next) :
      Step l ⟨[], l.settled ++ ns, next⟩

/-- What steps preserve: an entry that is listed is settled if and only if its flag says so. -/
structure Sound (l : Ledger) : Prop where
  nodup : (l.entries.map Prod.fst).Nodup
  entries_lt : ∀ x ∈ l.entries, x.1 < l.next
  settled_lt : ∀ n ∈ l.settled, n < l.next
  flag : ∀ x ∈ l.entries, x.2 = true ↔ x.1 ∈ l.settled
  once : l.settled.Nodup

theorem mem_due {l : Ledger} {n : Nat} : n ∈ l.due ↔ (n, false) ∈ l.entries := by
  simp [due]

theorem Sound.not_settled {l : Ledger} (h : l.Sound) {n : Nat} (hn : n ∈ l.due) : n ∉ l.settled := by
  intro hs
  have hflag := (h.flag _ (mem_due.mp hn)).mpr hs
  cases hflag

@[simp] theorem settleAt_fst (n : Nat) (x : Nat × Bool) : (settleAt n x).1 = x.1 := by
  unfold settleAt
  split <;> rfl

theorem Sound.settle {l : Ledger} (h : l.Sound) {n : Nat} (hn : n ∈ l.due) :
    Sound { l with entries := l.entries.map (settleAt n), settled := l.settled ++ [n] } where
  nodup := by simpa [Function.comp_def] using h.nodup
  entries_lt x hx := by
    obtain ⟨y, hy, rfl⟩ := List.mem_map.mp hx
    rw [settleAt_fst]
    exact h.entries_lt y hy
  settled_lt m hm := by
    rcases List.mem_append.mp hm with hm | hm
    · exact h.settled_lt m hm
    · rw [List.mem_singleton.mp hm]
      exact h.entries_lt _ (mem_due.mp hn)
  flag x hx := by
    obtain ⟨y, hy, rfl⟩ := List.mem_map.mp hx
    by_cases hk : y.1 = n
    · simp [settleAt, hk]
    · simp [settleAt, hk, h.flag y hy]
  once := by
    rw [List.nodup_append]
    refine ⟨h.once, by simp, fun a ha b hb => ?_⟩
    rintro rfl
    rw [List.mem_singleton.mp hb] at ha
    exact h.not_settled hn ha

theorem Sound.close {l : Ledger} (h : l.Sound) {ns : List Nat} {next : Nat}
    (hns : ns.Sublist l.due) (hn : l.next ≤ next) : Sound ⟨[], l.settled ++ ns, next⟩ where
  nodup := by simp
  entries_lt := by simp
  settled_lt m hm := by
    rcases List.mem_append.mp hm with hm | hm
    · exact Nat.lt_of_lt_of_le (h.settled_lt m hm) hn
    · exact Nat.lt_of_lt_of_le (h.entries_lt _ (mem_due.mp (hns.subset hm))) hn
  flag := by simp
  once := by
    rw [List.nodup_append]
    have hdue : l.due.Nodup := h.nodup.sublist (List.filter_sublist.map Prod.fst)
    refine ⟨h.once, hdue.sublist hns, fun a ha b hb => ?_⟩
    rintro rfl
    exact h.not_settled (hns.subset hb) ha

theorem Step.sound {l l' : Ledger} (hs : Step l l') (h : l.Sound) : l'.Sound := by
  cases hs with
  | keep => exact h
  | skip =>
    exact ⟨h.nodup, fun x hx => Nat.lt_succ_of_lt (h.entries_lt x hx),
      fun n hn => Nat.lt_succ_of_lt (h.settled_lt n hn), h.flag, h.once⟩
  | enter =>
    have hnew : ∀ x ∈ l.entries, x.1 ≠ l.next := fun x hx => Nat.ne_of_lt (h.entries_lt x hx)
    refine ⟨?_, ?_, fun n hn => Nat.lt_succ_of_lt (h.settled_lt n hn), ?_, h.once⟩
    · simp only [List.map_cons, List.nodup_cons]
      refine ⟨fun hm => ?_, h.nodup⟩
      obtain ⟨x, hx, hk⟩ := List.mem_map.mp hm
      exact hnew x hx hk
    · intro x hx
      rcases List.mem_cons.mp hx with rfl | hx
      · exact Nat.lt_succ_self _
      · exact Nat.lt_succ_of_lt (h.entries_lt x hx)
    · intro x hx
      rcases List.mem_cons.mp hx with rfl | hx
      · simp only [Bool.false_eq_true, false_iff]
        exact fun hm => Nat.lt_irrefl _ (h.settled_lt _ hm)
      · exact h.flag x hx
  | settle hn => exact h.settle hn
  | purge hsub =>
    exact ⟨h.nodup.sublist (hsub.map Prod.fst), fun x hx => h.entries_lt x (hsub.subset hx),
      h.settled_lt, fun x hx => h.flag x (hsub.subset hx), h.once⟩
  | close hns hn => exact h.close hns hn

/-! ## Entries that are due -/

/-- The entry is settled, or listed and due. -/
def Holds (l : Ledger) (n : Nat) : Prop := n ∈ l.settled ∨ n ∈ l.due

theorem holds_settle {l : Ledger} {n m : Nat} (h : l.Holds m) :
    Holds { l with entries := l.entries.map (settleAt n), settled := l.settled ++ [n] } m := by
  by_cases hm : m = n
  · exact .inl (by simp [hm])
  · rcases h with h | h
    · exact .inl (List.mem_append_left _ h)
    · refine .inr (mem_due.mpr (List.mem_map.mpr ⟨(m, false), mem_due.mp h, ?_⟩))
      simp [settleAt, hm]

/-- Taking settled entries off the list. -/
theorem holds_purge {l : Ledger} {kept : List (Nat × Bool)} {m : Nat} (h : l.Holds m)
    (hkept : ∀ x ∈ l.entries, x.2 = false → x ∈ kept) : Holds { l with entries := kept } m :=
  h.imp id fun hd => mem_due.mpr (hkept _ (mem_due.mp hd) rfl)

end Ledger
end Hail.Library
