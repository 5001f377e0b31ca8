import Hail.Library.Changes
import Mathlib.Data.Finset.Piecewise

/-!
# Volumes that differ in some files

`fs.exchange S g` has other files, those of `g`, under the inode numbers in `S`, and the same directory.
An operation on any other file does the same on both volumes, and leaves the files in `S` as they are.
-/
namespace Hail.Library.FileSys

variable {Name : Type*} {fs fs₀ : FileSys Name} {S : Finset ℕ} {g : ℕ → File} {ino : ℕ}

def exchange (fs : FileSys Name) (S : Finset ℕ) (g : ℕ → File) : FileSys Name :=
  { fs with file := S.piecewise g fs.file }

theorem file_exchange (h : ino ∉ S) : (fs.exchange S g).file ino = fs.file ino :=
  S.piecewise_eq_of_notMem _ _ h

theorem file_exchange_of_mem (h : ino ∈ S) : (fs.exchange S g).file ino = g ino :=
  S.piecewise_eq_of_mem _ _ h

theorem read_exchange (h : ino ∉ S) (pos len : ℕ) :
    (fs.exchange S g).read ino pos len = fs.read ino pos len := by
  rw [read, file_exchange h, read]

theorem write_exchange (h : ino ∉ S) (pos : ℕ) (bs : Bytes) (now : ℕ) :
    (fs.exchange S g).write ino pos bs now = (fs.write ino pos bs now).exchange S g := by
  unfold write
  rw [file_exchange h]
  unfold exchange
  dsimp only
  rw [S.update_piecewise_of_notMem _ _ h]

theorem eq_exchange {fs' : FileSys Name} (hdir : fs'.dir = fs.dir) (hnext : fs'.next = fs.next)
    (hfile : ∀ ino ∉ S, fs'.file ino = fs.file ino) : fs' = fs.exchange S fs'.file := by
  cases fs
  cases fs'
  subst hdir hnext
  unfold exchange
  congr 1
  funext ino
  by_cases hino : ino ∈ S
  · rw [S.piecewise_eq_of_mem _ _ hino]
  · rw [S.piecewise_eq_of_notMem _ _ hino]
    exact hfile ino hino

variable [DecidableEq Name] {p : Name}

theorem creat_exchange (h : fs.next ∉ S) (p : Name) (now : ℕ) :
    (fs.exchange S g).creat p now = (fs.creat p now).exchange S g := by
  unfold creat exchange
  dsimp only
  simp only [S.update_piecewise_of_notMem _ _ h]

theorem unlink_exchange (fs : FileSys Name) (S : Finset ℕ) (g : ℕ → File) (p : Name) :
    (fs.exchange S g).unlink p = (fs.unlink p).exchange S g := rfl

@[simp] theorem lookup_exchange (fs : FileSys Name) (S : Finset ℕ) (g : ℕ → File) (p : Name) :
    (fs.exchange S g).lookup p = fs.lookup p := rfl

theorem lookup_lt_next (h : fs.lookup p = some ino) : ino < fs.next := fs.ino_lt _ (mem_of_lookup h)

/-- The files in `S` are as they were, under the names that they had. -/
structure Kept (S : Finset ℕ) (fs₀ fs : FileSys Name) : Prop where
  file : ∀ ino ∈ S, fs.file ino = fs₀.file ino
  lookup : ∀ ino ∈ S, ∀ p, fs.lookup p = some ino ↔ fs₀.lookup p = some ino
  lt_next : ∀ ino ∈ S, ino < fs.next

/-- A name of no file in `S`. -/
def NamesOther (S : Finset ℕ) (fs : FileSys Name) (p : Name) : Prop := ∀ ino ∈ S, fs.lookup p ≠ some ino

namespace Kept

theorem refl (h : ∀ ino ∈ S, ino < fs.next) : Kept S fs fs := ⟨fun _ _ => rfl, fun _ _ _ => Iff.rfl, h⟩

theorem next_notMem (h : Kept S fs₀ fs) : fs.next ∉ S := fun hmem => (h.lt_next _ hmem).false

theorem namesOther_iff (h : Kept S fs₀ fs) : NamesOther S fs p ↔ NamesOther S fs₀ p :=
  forall₂_congr fun ino hino => not_congr (h.lookup ino hino p)

theorem namesOther (h : Kept S fs₀ fs) (hp : fs.lookup p = none) : NamesOther S fs₀ p := by
  refine h.namesOther_iff.mp fun ino _ => ?_
  rw [hp]
  simp

theorem write (h : Kept S fs₀ fs) (hino : ino ∉ S) (pos : ℕ) (bs : Bytes) (now : ℕ) :
    Kept S fs₀ (fs.write ino pos bs now) where
  file j hj := by
    have hne : j ≠ ino := ne_of_mem_of_not_mem hj hino
    exact (Function.update_of_ne hne _ _).trans (h.file j hj)
  lookup := h.lookup
  lt_next := h.lt_next

theorem creat (h : Kept S fs₀ fs) (hp : fs.lookup p = none) (now : ℕ) : Kept S fs₀ (fs.creat p now) where
  file j hj := by
    have hne : j ≠ fs.next := ne_of_mem_of_not_mem hj h.next_notMem
    exact (Function.update_of_ne hne _ _).trans (h.file j hj)
  lookup j hj q := by
    by_cases hq : q = p
    · subst hq
      refine iff_of_false ?_ (h.namesOther hp j hj)
      rw [lookup_creat]
      rintro ⟨⟩
      exact h.next_notMem hj
    · rw [lookup_creat_of_ne hq]
      exact h.lookup j hj q
  lt_next j hj := Nat.lt_succ_of_lt (h.lt_next j hj)

theorem unlink (h : Kept S fs₀ fs) (hp : NamesOther S fs₀ p) : Kept S fs₀ (fs.unlink p) where
  file := h.file
  lookup j hj q := by
    rw [lookup_unlink]
    split
    · next hq =>
      subst hq
      exact iff_of_false (by simp) (hp j hj)
    · exact h.lookup j hj q
  lt_next := h.lt_next

end Kept
end Hail.Library.FileSys
