import Hail.Library.Frames

/-!
# UBBP frames

On a TCP connection every packet follows a `struct ubbp_header`: a magic number, and the size of
the packet with an operation in the low byte, 1 from client to server and 2 the other way. Both
sides check a header alike.
-/
namespace Hail.Cld

open Library

def cldRawMsgSz : Nat := 4096

/-- `sizeof(struct ubbp_header)` -/
def ubbpLen : Nat := 8

/-- `"CLD1"` -/
def ubbpMagic : Bytes := [0x43, 0x4c, 0x44, 0x31]

def ubbpOp (opSize : Nat) : Nat := opSize % 256

def ubbpSize (opSize : Nat) : Nat := opSize / 256

/-- The header of a packet of `size` bytes. -/
def ubbpHeader (op size : Nat) : Bytes := ubbpMagic ++ leBytes 4 (size * 256 + op)

/-- The size a header announces, if the header is as it should be. -/
def ubbpCheck (op : Nat) (ubbp : Bytes) : Option Nat :=
  let opSize := ofLe (ubbp.drop 4)
  if ubbp.take 4 ≠ ubbpMagic then none
  else if ubbpOp opSize ≠ op then none
  else if cldRawMsgSz < ubbpSize opSize then none
  else some (ubbpSize opSize)

def ubbpFraming (op : Nat) : Framing where
  hdr := ubbpLen
  size := ubbpCheck op
  pos := by decide

/-- A packet as `tcp_tx` and `cldc_tcp_pkt_send` write it. -/
def ubbpFrame (op : Nat) (pkt : Bytes) : Bytes := ubbpHeader op pkt.length ++ pkt

@[simp] theorem ubbpHeader_length (op size : Nat) : (ubbpHeader op size).length = ubbpLen := by
  simp [ubbpHeader, ubbpMagic, ubbpLen]

theorem ubbpHeader_magic (op size : Nat) : (ubbpHeader op size).take 4 = ubbpMagic := rfl

theorem ubbpHeader_op {op : Nat} (hop : op < 256) (size : Nat) :
    ubbpOp (ofLe ((ubbpHeader op size).drop 4)) = op := by
  have hdrop : (ubbpHeader op size).drop 4 = leBytes 4 (size * 256 + op) := rfl
  rw [hdrop, ofLe_leBytes, ubbpOp]
  omega

theorem ubbpHeader_size {op size : Nat} (hop : op < 256) (hsize : size ≤ cldRawMsgSz) :
    ubbpSize (ofLe ((ubbpHeader op size).drop 4)) = size := by
  have hdrop : (ubbpHeader op size).drop 4 = leBytes 4 (size * 256 + op) := rfl
  unfold cldRawMsgSz at hsize
  rw [hdrop, ofLe_leBytes, ubbpSize]
  omega

theorem ubbpCheck_header {op size : Nat} (hop : op < 256) (hsize : size ≤ cldRawMsgSz) :
    ubbpCheck op (ubbpHeader op size) = some size := by
  simp only [ubbpCheck, ubbpHeader_magic, ubbpHeader_op hop, ubbpHeader_size hop hsize,
    hsize.not_gt, ne_eq, not_true, if_false]

end Hail.Cld
