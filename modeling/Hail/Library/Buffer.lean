import Hail.Library.Bytes

/-!
# Fixed buffers

A buffer of fixed size written at offsets, as through a pointer. A write that reaches past the end
changes the bytes inside and is remembered.
-/
namespace Hail.Library

structure Buffer where
  data : Bytes
  overrun : Bool := false

namespace Buffer

/-- `dst` with the bytes from `ofs` on replaced by `src`, as far as `dst` reaches. -/
def splice (dst : Bytes) (ofs : Nat) (src : Bytes) : Bytes :=
  (dst.take ofs ++ src ++ dst.drop (ofs + src.length)).take dst.length

def write (b : Buffer) (ofs : Nat) (src : Bytes) : Buffer where
  data := splice b.data ofs src
  overrun := b.overrun || decide (b.data.length < ofs + src.length)

theorem splice_length (dst src : Bytes) (ofs : Nat) : (splice dst ofs src).length = dst.length := by
  simp [splice]
  omega

/-- What has been written up to the end of a write inside the buffer. -/
theorem take_splice {dst src : Bytes} {ofs : Nat} (h : ofs + src.length ≤ dst.length) :
    (splice dst ofs src).take (ofs + src.length) = dst.take ofs ++ src := by
  have hlen : (dst.take ofs ++ src).length = ofs + src.length := by
    rw [List.length_append, List.length_take]
    omega
  rw [splice, List.take_take, min_eq_left h, ← hlen, List.take_left]

/-- A write over the middle part of a buffer laid out in three parts. -/
theorem splice_middle (pre mid post src : Bytes) (h : mid.length = src.length) :
    splice (pre ++ mid ++ post) pre.length src = pre ++ src ++ post := by
  have hlen : (pre ++ mid ++ post).length = (pre ++ src ++ post).length := by simp [h]
  simp only [splice, hlen]
  have hd : (pre ++ mid ++ post).drop (pre.length + src.length) = post := by
    rw [← h, ← List.length_append]
    exact List.drop_left
  have ht : (pre ++ mid ++ post).take pre.length = pre := by simp
  rw [hd, ht, List.take_length]

end Buffer
end Hail.Library
