import Mathlib.Data.Nat.Bitwise
import Mathlib.Data.List.TakeWhile

/-!
# Byte strings

Fixed-width integers as byte strings in either order, the C view of a byte string as the part
before its first zero byte, byte-wise comparison, and bit tests.
-/
namespace Hail.Library

abbrev Bytes := List UInt8

/-- Bytes are looked through one by one, not all values of a byte. -/
instance (bs : Bytes) (p : UInt8 → Prop) [DecidablePred p] : Decidable (∀ b ∈ bs, p b) :=
  List.decidableBAll p bs

/-- The `n` low bytes of `x`, least significant first. -/
def leBytes : Nat → Nat → Bytes
  | 0, _ => []
  | n + 1, x => UInt8.ofNat (x % 256) :: leBytes n (x / 256)

def ofLe : Bytes → Nat
  | [] => 0
  | b :: bs => b.toNat + 256 * ofLe bs

/-- The `n` low bytes of `x`, most significant first. -/
def beBytes (n x : Nat) : Bytes := (leBytes n x).reverse

def ofBe (bs : Bytes) : Nat := ofLe bs.reverse

@[simp] theorem leBytes_length (n x : Nat) : (leBytes n x).length = n := by
  induction n generalizing x with
  | zero => rfl
  | succ n ih => simp [leBytes, ih]

@[simp] theorem beBytes_length (n x : Nat) : (beBytes n x).length = n := by simp [beBytes]

@[simp] theorem ofLe_leBytes (n x : Nat) : ofLe (leBytes n x) = x % 256 ^ n := by
  induction n generalizing x with
  | zero => simp [leBytes, ofLe, Nat.mod_one]
  | succ n ih =>
    have hb : (UInt8.ofNat (x % 256)).toNat = x % 256 := by simp
    rw [leBytes, ofLe, ih, hb, Nat.pow_succ', Nat.mod_mul]

theorem leBytes_ofLe (bs : Bytes) : leBytes bs.length (ofLe bs) = bs := by
  induction bs with
  | nil => rfl
  | cons b bs ih =>
    have hlt := b.toNat_lt
    have hlow : (b.toNat + 256 * ofLe bs) % 256 = b.toNat := by omega
    have hhigh : (b.toNat + 256 * ofLe bs) / 256 = ofLe bs := by omega
    rw [ofLe, List.length_cons, leBytes, hlow, hhigh, ih]
    simp

theorem ofLe_lt (bs : Bytes) : ofLe bs < 256 ^ bs.length := by
  induction bs with
  | nil => simp [ofLe]
  | cons b bs ih =>
    have hlt := b.toNat_lt
    rw [ofLe, List.length_cons, Nat.pow_succ]
    omega

@[simp] theorem ofBe_beBytes (n x : Nat) : ofBe (beBytes n x) = x % 256 ^ n := by
  simp [ofBe, beBytes]

/-- A field of a record. -/
theorem take_drop_field {α : Type*} {pre mid : List α} {n m : Nat} (hn : pre.length = n)
    (hm : mid.length = m) (post : List α) : ((pre ++ mid ++ post).drop n).take m = mid := by
  rw [List.append_assoc, List.drop_left' hn, List.take_left' hm]

/-- What a C string function sees of a byte string. -/
def cstr (bs : Bytes) : Bytes := bs.takeWhile (· ≠ 0)

theorem cstr_length_le (bs : Bytes) : (cstr bs).length ≤ bs.length :=
  (List.takeWhile_sublist _).length_le

theorem cstr_ne_zero {bs : Bytes} {b : UInt8} (h : b ∈ cstr bs) : b ≠ 0 := by
  simpa using List.mem_takeWhile_imp h

theorem cstr_eq_self {bs : Bytes} (h : ∀ b ∈ bs, b ≠ 0) : cstr bs = bs :=
  List.takeWhile_eq_self_iff.mpr (by simpa using h)

theorem cstr_append_zeros {s : Bytes} (h : ∀ b ∈ s, b ≠ 0) (n : Nat) :
    cstr (s ++ List.replicate n 0) = s := by
  rw [cstr, List.takeWhile_append_of_pos (by simpa using h)]
  cases n <;> simp [List.replicate_succ]

/-- The sign of `memcmp` on two strings: the difference of the first bytes that differ. -/
def memcmp : Bytes → Bytes → Int
  | a :: as, b :: bs => if a = b then memcmp as bs else (a.toNat : Int) - b.toNat
  | _, _ => 0

/-- Some bit of `bit` is set in `flags`. -/
def has (flags bit : Nat) : Bool := flags &&& bit != 0

end Hail.Library
