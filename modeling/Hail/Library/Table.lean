import Mathlib.Data.List.Nodup
import Mathlib.Tactic

/-!
# Keyed tables

A table is a list of rows no two of which have the same key. A row is put at the place an ordering
test gives it, in the place of the row with its key if there is one. Everything a client of a
table can observe is decided by which rows it holds (`mem_get`), so the laws below say which rows
an update leaves.
-/
namespace Hail.Library

/-- Put `a` before the first entry that `before` says it precedes. -/
def insertBy {α : Type*} (before : α → α → Bool) (a : α) : List α → List α
  | [] => [a]
  | b :: bs => if before a b then a :: b :: bs else b :: insertBy before a bs

theorem insertBy_perm {α : Type*} (before : α → α → Bool) (a : α) (l : List α) :
    (insertBy before a l).Perm (a :: l) := by
  induction l with
  | nil => exact .refl _
  | cons b bs ih =>
    unfold insertBy
    split
    · exact .refl _
    · exact (ih.cons b).trans (.swap a b bs)

@[simp] theorem mem_insertBy {α : Type*} {before : α → α → Bool} {a x : α} {l : List α} :
    x ∈ insertBy before a l ↔ x = a ∨ x ∈ l := by
  rw [(insertBy_perm before a l).mem_iff, List.mem_cons]

structure Table {α κ : Type*} (key : α → κ) where
  rows : List α
  nodup : (rows.map key).Nodup

namespace Table

variable {α κ : Type*} {key : α → κ}

theorem ext {t u : Table key} (h : t.rows = u.rows) : t = u := by
  cases t; cases u; cases h; rfl

instance [DecidableEq α] : DecidableEq (Table key) := fun t u =>
  decidable_of_iff (t.rows = u.rows) ⟨ext, fun h => h ▸ rfl⟩

def empty : Table key := ⟨[], List.nodup_nil⟩

instance : Inhabited (Table key) := ⟨empty⟩

/-- The rows satisfying `p`. -/
def filter (p : α → Bool) (t : Table key) : Table key :=
  ⟨t.rows.filter p, t.nodup.sublist (List.filter_sublist.map key)⟩

/-- Two rows with one key are one row. -/
theorem eq_of_key {t : Table key} {a b : α} (ha : a ∈ t.rows) (hb : b ∈ t.rows)
    (h : key a = key b) : a = b :=
  List.inj_on_of_nodup_map t.nodup ha hb h

@[simp] theorem mem_filter {t : Table key} {p : α → Bool} {a : α} :
    a ∈ (t.filter p).rows ↔ a ∈ t.rows ∧ p a = true := List.mem_filter

variable [DecidableEq κ]

def get (t : Table key) (k : κ) : Option α := t.rows.find? (fun a => key a = k)

def del (t : Table key) (k : κ) : Table key := t.filter (fun a => key a ≠ k)

/-- Store `a`, replacing the row with its key. -/
def put (before : α → α → Bool) (t : Table key) (a : α) : Table key where
  rows := insertBy before a (t.del (key a)).rows
  nodup := by
    have hp := (insertBy_perm before a (t.del (key a)).rows).map key
    rw [hp.nodup_iff, List.map_cons, List.nodup_cons]
    refine ⟨?_, (t.del (key a)).nodup⟩
    rw [List.mem_map]
    rintro ⟨b, hb, he⟩
    simp [del, he] at hb

@[simp] theorem mem_del {t : Table key} {k : κ} {a : α} :
    a ∈ (t.del k).rows ↔ a ∈ t.rows ∧ key a ≠ k := by simp [del]

@[simp] theorem mem_put {before : α → α → Bool} {t : Table key} {a x : α} :
    x ∈ (t.put before a).rows ↔ x = a ∨ x ∈ t.rows ∧ key x ≠ key a := by simp [put]

theorem mem_get {t : Table key} {k : κ} {a : α} :
    t.get k = some a ↔ a ∈ t.rows ∧ key a = k := by
  constructor
  · intro h
    exact ⟨List.mem_of_find?_eq_some h, by simpa using List.find?_some h⟩
  · rintro ⟨ha, rfl⟩
    cases hg : t.get (key a) with
    | none => simpa using List.find?_eq_none.mp hg a ha
    | some b =>
      have hb : b ∈ t.rows := List.mem_of_find?_eq_some hg
      have hk : key b = key a := by simpa using List.find?_some hg
      rw [eq_of_key hb ha hk]

theorem get_eq_none {t : Table key} {k : κ} : t.get k = none ↔ ∀ a ∈ t.rows, key a ≠ k := by
  simp [get]

theorem get_isSome {t : Table key} {k : κ} :
    (t.get k).isSome = true ↔ ∃ a ∈ t.rows, key a = k := by
  simp [get]

@[simp] theorem get_put_self {before : α → α → Bool} {t : Table key} {a : α} :
    (t.put before a).get (key a) = some a := mem_get.mpr (by simp)

theorem get_congr {t u : Table key} {k : κ}
    (h : ∀ a, key a = k → (a ∈ t.rows ↔ a ∈ u.rows)) : t.get k = u.get k := by
  apply Option.ext
  intro a
  simp only [mem_get]
  exact ⟨fun ⟨hm, hk⟩ => ⟨(h a hk).mp hm, hk⟩, fun ⟨hm, hk⟩ => ⟨(h a hk).mpr hm, hk⟩⟩

theorem get_put {before : α → α → Bool} {t : Table key} {a : α} {k : κ} :
    (t.put before a).get k = if k = key a then some a else t.get k := by
  split
  · next h => rw [h, get_put_self]
  · next h =>
    apply get_congr
    intro b hb
    subst hb
    simp only [mem_put, ne_eq, h, not_false_eq_true, and_true, or_iff_right_iff_imp]
    rintro rfl
    exact absurd rfl h

theorem get_put_of_ne {before : α → α → Bool} {t : Table key} {a : α} {k : κ} (h : k ≠ key a) :
    (t.put before a).get k = t.get k := by rw [get_put, if_neg h]

theorem get_del {t : Table key} {k k' : κ} :
    (t.del k').get k = if k = k' then none else t.get k := by
  split
  · next h =>
    rw [get_eq_none]
    intro a ha
    rw [h]
    exact (mem_del.mp ha).2
  · next h =>
    apply get_congr
    rintro a rfl
    simp [h]

/-- Some row has the key `k`. -/
def Has (t : Table key) (k : κ) : Prop := ∃ a ∈ t.rows, key a = k

theorem has_iff {t : Table key} {k : κ} : t.Has k ↔ ∃ a, t.get k = some a := by
  simp [Has, mem_get]

theorem get_none_iff {t : Table key} {k : κ} : t.get k = none ↔ ¬ t.Has k := by
  simp [Has, get_eq_none]

theorem has_put {before : α → α → Bool} {t : Table key} {a : α} {k : κ} :
    (t.put before a).Has k ↔ k = key a ∨ t.Has k := by
  constructor
  · rintro ⟨b, hb, rfl⟩
    exact (mem_put.mp hb).imp (congrArg key) fun h => ⟨b, h.1, rfl⟩
  · rintro (rfl | ⟨b, hb, rfl⟩)
    · exact ⟨a, by simp, rfl⟩
    · by_cases h : key b = key a
      · exact ⟨a, by simp, h.symm⟩
      · exact ⟨b, mem_put.mpr (.inr ⟨hb, h⟩), rfl⟩

theorem has_del {t : Table key} {k k' : κ} : (t.del k').Has k ↔ t.Has k ∧ k ≠ k' := by
  constructor
  · rintro ⟨b, hb, rfl⟩
    obtain ⟨hb, hk⟩ := mem_del.mp hb
    exact ⟨⟨b, hb, rfl⟩, hk⟩
  · rintro ⟨⟨b, hb, rfl⟩, hk⟩
    exact ⟨b, mem_del.mpr ⟨hb, hk⟩, rfl⟩

end Table
end Hail.Library
