import Hail.Library.Bytes

/-!
# External data representation

The items of XDR that fixed records are made of: 32-bit and 64-bit integers, most significant byte
first, and counted byte strings padded with zeros to a multiple of four. A decoder takes what it
needs from the front of a byte string and fails when too little is there; decoding what was
encoded gives the value back and leaves the bytes behind it.
-/
namespace Hail.Library.Xdr

def putInt (n : Nat) : Bytes := beBytes 4 n

def putHyper (n : Nat) : Bytes := beBytes 8 n

/-- Zero bytes that follow `n` bytes of a counted string. -/
def pad (n : Nat) : Nat := (4 - n % 4) % 4

/-- A string of at most `bound` bytes; a longer one is not encoded. -/
def putVar (bound : Nat) (bs : Bytes) : Option Bytes :=
  if bs.length ≤ bound then some (putInt bs.length ++ bs ++ List.replicate (pad bs.length) 0)
  else none

abbrev Decoder := StateT Bytes Option

theorem pure_apply {α : Type} (a : α) (bs : Bytes) : (pure a : Decoder α) bs = some (a, bs) := rfl

def getBytes (n : Nat) : Decoder Bytes := fun bs =>
  if n ≤ bs.length then some (bs.take n, bs.drop n) else none

def getInt : Decoder Nat := ofBe <$> getBytes 4

def getHyper : Decoder Nat := ofBe <$> getBytes 8

def getVar (bound : Nat) : Decoder Bytes := do
  let n ← getInt
  if bound < n then failure
  let bs ← getBytes n
  let _ ← getBytes (pad n)
  return bs

@[simp] theorem putInt_length (n : Nat) : (putInt n).length = 4 := by simp [putInt]

@[simp] theorem putHyper_length (n : Nat) : (putHyper n).length = 8 := by simp [putHyper]

theorem getBytes_append {n : Nat} (bs rest : Bytes) (h : bs.length = n) :
    getBytes n (bs ++ rest) = some (bs, rest) := by
  subst h
  simp [getBytes]

theorem getInt_putInt (n : Nat) (rest : Bytes) :
    getInt (putInt n ++ rest) = some (n % 2 ^ 32, rest) := by
  have h := getBytes_append (n := 4) (putInt n) rest (by simp)
  simp only [getInt, Functor.map, StateT.map, h]
  simp [putInt]

theorem getHyper_putHyper (n : Nat) (rest : Bytes) :
    getHyper (putHyper n ++ rest) = some (n % 2 ^ 64, rest) := by
  have h := getBytes_append (n := 8) (putHyper n) rest (by simp)
  simp only [getHyper, Functor.map, StateT.map, h]
  simp [putHyper]

theorem putVar_eq_some {bound : Nat} {bs out : Bytes} (h : putVar bound bs = some out) :
    bs.length ≤ bound ∧ out = putInt bs.length ++ bs ++ List.replicate (pad bs.length) 0 := by
  unfold putVar at h
  split at h
  · next hl => exact ⟨hl, (Option.some.inj h).symm⟩
  · cases h

theorem getVar_putVar {bound : Nat} {bs out : Bytes} (hb : bound < 2 ^ 32)
    (h : putVar bound bs = some out) (rest : Bytes) :
    getVar bound (out ++ rest) = some (bs, rest) := by
  obtain ⟨hl, rfl⟩ := putVar_eq_some h
  have hn : bs.length % 2 ^ 32 = bs.length := Nat.mod_eq_of_lt (by omega)
  have h1 := getInt_putInt bs.length (bs ++ (List.replicate (pad bs.length) 0 ++ rest))
  have h2 := getBytes_append (n := bs.length) bs (List.replicate (pad bs.length) 0 ++ rest) rfl
  have h3 := getBytes_append (n := pad bs.length) (List.replicate (pad bs.length) 0) rest (by simp)
  rw [hn] at h1
  simp only [getVar, bind, StateT.bind, List.append_assoc, h1]
  simp [hl.not_gt, bind, StateT.bind, pure_apply, h2, h3]

end Hail.Library.Xdr
