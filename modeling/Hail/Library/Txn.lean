import Mathlib.Logic.Basic
import Mathlib.Tactic.TypeStar

/-!
# Transactions

A transaction works on a state and may stop with an error; what it has done to the state by then
stays in the state it ends in. A successful run of a sequence is a successful run of its parts
(`Txn.bind_ok`), and a preorder that every part keeps is kept by the whole, however it ends
(`Txn.Keeps.bind`).
-/
namespace Hail.Library

universe u

def Txn (σ ε α : Type u) := σ → Except ε α × σ

namespace Txn

variable {σ ε α β : Type u} {s t : σ}

instance : Monad (Txn σ ε) where
  pure a := fun s => (.ok a, s)
  bind x f := fun s =>
    match x s with
    | (.ok a, t) => f a t
    | (.error code, t) => (.error code, t)

def fail (code : ε) : Txn σ ε α := fun s => (.error code, s)

/-- Stop if `c` holds. -/
def failIf (c : Bool) (code : ε) : Txn σ ε PUnit := if c then fail code else pure ⟨⟩

/-- A value that depends on the state. -/
def read (f : σ → α) : Txn σ ε α := fun s => (.ok (f s), s)

def update (f : σ → σ) : Txn σ ε PUnit := fun s => (.ok ⟨⟩, f s)

/-- The same transaction with other error codes. -/
def onErr {ρ : Type u} (x : Txn σ ρ α) (code : ρ → ε) : Txn σ ε α := fun s =>
  match x s with
  | (.ok a, t) => (.ok a, t)
  | (.error rc, t) => (.error (code rc), t)

theorem bind_ok {x : Txn σ ε α} {f : α → Txn σ ε β} {b : β} :
    (x >>= f) s = (.ok b, t) ↔ ∃ a u, x s = (.ok a, u) ∧ f a u = (.ok b, t) := by
  change (match x s with | (.ok a, u) => f a u | (.error code, u) => (.error code, u)) = _ ↔ _
  rcases x s with ⟨_ | a, u⟩
  · simp
  · simp [and_assoc]

theorem bind_run {x : Txn σ ε α} {f : α → Txn σ ε β} {a : α} (h : x s = (.ok a, t)) :
    (x >>= f) s = f a t := by
  change (match x s with | (.ok a, u) => f a u | (.error code, u) => (.error code, u)) = _
  rw [h]

theorem bind_stop {x : Txn σ ε α} {f : α → Txn σ ε β} {code : ε} (h : x s = (.error code, t)) :
    (x >>= f) s = (.error code, t) := by
  change (match x s with | (.ok a, u) => f a u | (.error code, u) => (.error code, u)) = _
  rw [h]

/-- A sequence does not tell apart runs of its first part that end alike. -/
theorem bind_congr_run {x y : Txn σ ε α} {f : α → Txn σ ε β} (h : x s = y t) :
    (x >>= f) s = (y >>= f) t := by
  change (match x s with | (.ok a, u) => f a u | (.error code, u) => (.error code, u)) =
    (match y t with | (.ok a, u) => f a u | (.error code, u) => (.error code, u))
  rw [h]

theorem bind_assoc {γ : Type u} (x : Txn σ ε α) (f : α → Txn σ ε β) (g : β → Txn σ ε γ) :
    x >>= f >>= g = x >>= fun a => f a >>= g := by
  funext s
  rcases h : x s with ⟨code | a, u⟩
  · rw [bind_stop (bind_stop h), bind_stop h]
  · rw [bind_run h]
    exact bind_congr_run (bind_run h)

@[simp] theorem pure_ok {a b : α} : (pure a : Txn σ ε α) s = (.ok b, t) ↔ a = b ∧ s = t := by
  change ((Except.ok a, s) : Except ε α × σ) = _ ↔ _
  simp

@[simp] theorem fail_ok {code : ε} {a : α} : (fail code : Txn σ ε α) s ≠ (.ok a, t) := by
  simp [fail]

@[simp] theorem failIf_ok {c : Bool} {code : ε} {a : PUnit} :
    (failIf c code : Txn σ ε PUnit) s = (.ok a, t) ↔ c = false ∧ s = t := by
  cases c <;> simp [failIf]

@[simp] theorem read_ok {f : σ → α} {a : α} :
    (read f : Txn σ ε α) s = (.ok a, t) ↔ f s = a ∧ s = t := by
  simp [read]

@[simp] theorem update_ok {f : σ → σ} {a : PUnit} :
    (update f : Txn σ ε PUnit) s = (.ok a, t) ↔ f s = t := by
  simp [update]

@[simp] theorem onErr_ok {ρ : Type u} {x : Txn σ ρ α} {code : ρ → ε} {a : α} :
    x.onErr code s = (.ok a, t) ↔ x s = (.ok a, t) := by
  unfold onErr
  rcases x s with ⟨_ | b, u⟩ <;> simp

@[simp] theorem onErr_snd {ρ : Type u} (x : Txn σ ρ α) (code : ρ → ε) (s : σ) :
    (x.onErr code s).2 = (x s).2 := by
  unfold onErr
  rcases x s with ⟨_ | b, u⟩ <;> rfl

/-! ## The state a transaction ends in -/

/-- A sequence ends where its first part fails, or where the second one ends. -/
theorem bind_end {C : σ → Prop} {x : Txn σ ε α} {f : α → Txn σ ε β}
    (hfail : ∀ code u, x s = (.error code, u) → C u)
    (hok : ∀ a u, x s = (.ok a, u) → C (f a u).2) : C ((x >>= f) s).2 := by
  change C (match x s with | (.ok a, u) => f a u | (.error code, u) => (.error code, u)).2
  rcases hx : x s with ⟨code | a, u⟩
  · exact hfail code u hx
  · exact hok a u hx

theorem failIf_end (c : Bool) (code : ε) (s : σ) : (failIf c code s).2 = s := by
  cases c <;> rfl

theorem eq_of_end {x : Txn σ ε α} {r : Except ε α} (h : (x s).2 = s) (hx : x s = (r, t)) :
    t = s := by rwa [hx] at h

/-- The states before and after are related, however the transaction ends. -/
def Keeps (R : σ → σ → Prop) (x : Txn σ ε α) : Prop := ∀ s, R s (x s).2

variable {R : σ → σ → Prop}

theorem Keeps.run {x : Txn σ ε α} {r : Except ε α} (h : Keeps R x) (hx : x s = (r, t)) : R s t := by
  have hs := h s
  rwa [hx] at hs

theorem Keeps.bind (hR : ∀ {a b c}, R a b → R b c → R a c) {x : Txn σ ε α} {f : α → Txn σ ε β}
    (hx : Keeps R x) (hf : ∀ a, Keeps R (f a)) : Keeps R (x >>= f) := by
  intro s
  have h := hx s
  apply bind_end
  · intro code u hu
    rwa [hu] at h
  · intro a u hu
    rw [hu] at h
    exact hR h (hf a u)

theorem Keeps.onErr {ρ : Type u} {x : Txn σ ρ α} (hx : Keeps R x) (code : ρ → ε) :
    Keeps R (x.onErr code) := by
  intro s
  rw [onErr_snd]
  exact hx s

/-! ## What a transaction leaves as it was -/

/-- When the first part of a sequence does not change `f`, the second decides. -/
theorem bind_fixes {γ : Type*} {f : σ → γ} {x : Txn σ ε α} {g : α → Txn σ ε β}
    (hx : Keeps (fun s t => f t = f s) x) :
    f ((x >>= g) s).2 = f s ↔ ∀ a t, x s = (.ok a, t) → f (g a t).2 = f t := by
  change f (match x s with | (.ok a, u) => g a u | (.error code, u) => (.error code, u)).2 = _ ↔ _
  have hs := hx s
  rcases hxs : x s with ⟨code | a, u⟩
  · rw [hxs] at hs
    simpa using hs
  · rw [hxs] at hs
    simp only [← hs, Prod.mk.injEq, Except.ok.injEq, and_imp]
    exact ⟨fun h a t ha ht => ha ▸ ht ▸ h, fun h => h a u rfl rfl⟩

/-! ## The errors of a transaction -/

/-- Every error of the transaction satisfies `Q`. -/
def FailsWith (Q : ε → Prop) (x : Txn σ ε α) : Prop := ∀ s code t, x s = (.error code, t) → Q code

variable {Q : ε → Prop}

theorem FailsWith.bind {x : Txn σ ε α} {f : α → Txn σ ε β} (hx : FailsWith Q x)
    (hf : ∀ a, FailsWith Q (f a)) : FailsWith Q (x >>= f) := by
  intro s code t h
  change (match x s with | (.ok a, u) => f a u | (.error code, u) => (.error code, u)) = _ at h
  rcases hxs : x s with ⟨code' | a, u⟩
  · rw [hxs] at h
    cases h
    exact hx s _ _ hxs
  · rw [hxs] at h
    exact hf a u code t h

theorem FailsWith.onErr {ρ : Type u} (x : Txn σ ρ α) {code : ρ → ε} (h : ∀ rc, Q (code rc)) :
    FailsWith Q (x.onErr code) := by
  intro s c t hc
  unfold Txn.onErr at hc
  rcases hx : x s with ⟨rc | a, u⟩
  · rw [hx] at hc
    cases hc
    exact h rc
  · rw [hx] at hc
    cases hc

theorem FailsWith.failIf {c : Bool} {code : ε} (h : Q code) :
    FailsWith Q (failIf c code : Txn σ ε PUnit) := by
  intro s c' t hc
  cases c
  · cases hc
  · cases hc
    exact h

theorem FailsWith.read (f : σ → α) : FailsWith Q (read f : Txn σ ε α) := by
  intro s code t h
  cases h

theorem FailsWith.pure (a : α) : FailsWith Q (pure a : Txn σ ε α) := by
  intro s code t h
  cases h

end Txn
end Hail.Library
