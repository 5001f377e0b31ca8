import Mathlib.Data.List.TakeDrop
import Mathlib.Tactic

/-!
# Data in blocks

A list is cut into blocks of `b` elements, the last of which may be short. The full blocks of a list,
and its tail, follow the list as it grows by pieces that do not cross a boundary.
-/
namespace Hail.Library

variable {α : Type*} {b : Nat}

def blockCount (b n : Nat) : Nat := n / b + if n % b = 0 then 0 else 1

def block (b : Nat) (d : List α) (i : Nat) : List α := (d.drop (i * b)).take b

/-- The blocks of `d`, the last one short if it has to be. -/
def blocks (b : Nat) (d : List α) : List (List α) :=
  (List.range (blockCount b d.length)).map (block b d)

def fullBlocks (b : Nat) (d : List α) : List (List α) :=
  (List.range (d.length / b)).map (block b d)

/-- What comes after the full blocks. -/
def blockTail (b : Nat) (d : List α) : List α := d.drop (d.length / b * b)

theorem blockTail_length (b : Nat) (d : List α) : (blockTail b d).length = d.length % b := by
  rw [blockTail, List.length_drop]
  have h := Nat.div_add_mod d.length b
  rw [Nat.mul_comm] at h
  omega

theorem fullBlocks_length (b : Nat) (d : List α) : (fullBlocks b d).length = d.length / b := by
  simp [fullBlocks]

theorem blocks_length (b : Nat) (d : List α) : (blocks b d).length = blockCount b d.length := by
  simp [blocks]

theorem block_length (b : Nat) (d : List α) (k : Nat) :
    (block b d k).length = min (d.length - k * b) b := by
  rw [block, List.length_take, List.length_drop, min_comm]

/-- A block and what comes after it. -/
theorem block_append_drop (b : Nat) (d : List α) (k : Nat) :
    block b d k ++ d.drop ((k + 1) * b) = d.drop (k * b) := by
  rw [Nat.add_mul, Nat.one_mul, ← List.drop_drop]
  exact List.take_append_drop _ _

theorem blockCount_mul (hb : 0 < b) (k : Nat) : blockCount b (k * b) = k := by
  rw [blockCount, Nat.mul_div_cancel _ hb, Nat.mul_mod_left, if_pos rfl, Nat.add_zero]

theorem blockCount_piece {n : Nat} (hn : 0 < n) (hle : n ≤ b) : blockCount b n = 1 := by
  rcases hle.lt_or_eq with hlt | rfl
  · rw [blockCount, Nat.div_eq_of_lt hlt, Nat.mod_eq_of_lt hlt, if_neg (by omega)]
  · rw [blockCount, Nat.div_self hn, Nat.mod_self, if_pos rfl]

theorem lt_blockCount (hb : 0 < b) {n k : Nat} (h : k * b < n) : k < blockCount b n := by
  have hmod := Nat.div_add_mod n b
  have hlt := Nat.mod_lt n hb
  have hle : k ≤ n / b := (Nat.le_div_iff_mul_le hb).mpr h.le
  rw [blockCount]
  split
  · next hz =>
    -- k is not n / b, which would be the end
    rcases hle.lt_or_eq with hk | rfl
    · omega
    · rw [Nat.mul_comm] at h
      omega
  · omega

theorem blockCount_eq_ceil (hb : 0 < b) (n : Nat) : blockCount b n = (n + (b - 1)) / b := by
  have hmod := Nat.div_add_mod n b
  have hlt := Nat.mod_lt n hb
  rw [blockCount]
  symm
  split
  · refine Nat.div_eq_of_lt_le ?_ ?_
    · rw [Nat.add_zero, Nat.mul_comm]
      omega
    · rw [Nat.add_zero, Nat.succ_mul, Nat.mul_comm]
      omega
  · refine Nat.div_eq_of_lt_le ?_ ?_
    · rw [Nat.succ_mul, Nat.mul_comm]
      omega
    · rw [Nat.succ_mul, Nat.succ_mul, Nat.mul_comm]
      omega

theorem le_blockCount_mul (hb : 0 < b) (n : Nat) : n ≤ blockCount b n * b := by
  have hmod := Nat.div_add_mod n b
  have hlt := Nat.mod_lt n hb
  rw [blockCount, Nat.add_mul, Nat.mul_comm (n / b)]
  split <;> omega

/-- The last block, when it is short, has the length that is left over. -/
theorem last_block_length {d : List α} {k : Nat} (hk : k + 1 = blockCount b d.length)
    (hpart : 0 < d.length % b) : (block b d k).length ≤ d.length % b := by
  rw [blockCount, if_neg (by omega)] at hk
  have hmod := Nat.div_add_mod d.length b
  have hidx : k = d.length / b := by omega
  rw [block_length, hidx, Nat.mul_comm]
  omega

/-- An entry of a table of entries of one size. -/
theorem flatten_entry {m k : Nat} {l : List (List α)} (hm : ∀ x ∈ l, x.length = m)
    (hk : k < l.length) : (l.flatten.drop (k * m)).take m = l[k] := by
  induction l generalizing k with
  | nil => cases hk
  | cons x l ih =>
    have hx : x.length = m := hm x (by simp)
    cases k with
    | zero => simpa using List.take_left' hx
    | succ k =>
      have hdrop : (x ++ l.flatten).drop (m + k * m) = l.flatten.drop (k * m) := by
        rw [← hx, List.drop_append, List.drop_eq_nil_of_le (by omega)]
        simp
      rw [List.flatten_cons, Nat.add_mul, Nat.one_mul, Nat.add_comm, hdrop]
      exact ih (fun y hy => hm y (List.mem_cons_of_mem x hy)) (Nat.lt_of_succ_lt_succ hk)

/-- A full block stays when the list grows. -/
theorem block_append {d c : List α} {i : Nat} (h : (i + 1) * b ≤ d.length) :
    block b (d ++ c) i = block b d i := by
  rw [Nat.add_mul, Nat.one_mul] at h
  rw [block, block, List.drop_append_of_le_length (by omega),
    List.take_append_of_le_length (by rw [List.length_drop]; omega)]

theorem fullBlocks_prefix (d c : List α) :
    (List.range (d.length / b)).map (block b (d ++ c)) = fullBlocks b d := by
  refine List.map_congr_left fun i hi => block_append ?_
  have hlt : i + 1 ≤ d.length / b := List.mem_range.mp hi
  exact (Nat.mul_le_mul_right b hlt).trans (Nat.div_mul_le_self _ _)

theorem flatten_range_blocks (b : Nat) (d : List α) (k : Nat) :
    ((List.range k).map (block b d)).flatten = d.take (k * b) := by
  induction k with
  | zero => simp
  | succ k ih =>
    rw [List.range_succ, List.map_append, List.flatten_append, ih, Nat.add_mul, Nat.one_mul,
      List.take_add]
    simp [block]

/-- The blocks are the whole list. -/
theorem flatten_blocks (hb : 0 < b) (d : List α) : (blocks b d).flatten = d := by
  rw [blocks, flatten_range_blocks]
  exact List.take_of_length_le (le_blockCount_mul hb d.length)

/-- A piece that does not complete a block. -/
theorem blocks_grow {d c : List α} (h : (blockTail b d).length + c.length < b) :
    fullBlocks b (d ++ c) = fullBlocks b d ∧ blockTail b (d ++ c) = blockTail b d ++ c := by
  rw [blockTail_length] at h
  have hdiv : (d.length + c.length) / b = d.length / b := by
    have hmod := Nat.div_add_mod d.length b
    refine Nat.div_eq_of_lt_le ?_ ?_
    · rw [Nat.mul_comm]
      omega
    · rw [Nat.add_mul, Nat.one_mul, Nat.mul_comm]
      omega
  constructor
  · rw [fullBlocks, List.length_append, hdiv, fullBlocks_prefix]
  · rw [blockTail, List.length_append, hdiv,
      List.drop_append_of_le_length (Nat.div_mul_le_self _ _), blockTail]

/-- A piece that completes a block. -/
theorem blocks_complete {d c : List α} (hb : 0 < b) (h : (blockTail b d).length + c.length = b) :
    fullBlocks b (d ++ c) = fullBlocks b d ++ [blockTail b d ++ c] ∧ blockTail b (d ++ c) = [] := by
  have hlen := blockTail_length b d
  have hmod := Nat.div_add_mod d.length b
  have hsum : d.length + c.length = (d.length / b + 1) * b := by
    rw [Nat.add_mul, Nat.one_mul, Nat.mul_comm]
    omega
  have hdiv : (d.length + c.length) / b = d.length / b + 1 := by
    rw [hsum, Nat.mul_div_cancel _ hb]
  have hlast : block b (d ++ c) (d.length / b) = blockTail b d ++ c := by
    rw [block, List.drop_append_of_le_length (Nat.div_mul_le_self _ _)]
    refine List.take_of_length_le ?_
    rw [List.length_append]
    exact h.le
  constructor
  · rw [fullBlocks, List.length_append, hdiv, List.range_succ, List.map_append, fullBlocks_prefix,
      List.map_singleton, hlast]
  · rw [← List.length_eq_zero_iff, blockTail_length, List.length_append, hsum, Nat.mul_mod_left]

/-- The blocks are the full ones, and the tail if there is one. -/
theorem blocks_eq (hb : 0 < b) (d : List α) :
    blocks b d = fullBlocks b d ++ if d.length % b = 0 then [] else [blockTail b d] := by
  unfold blocks blockCount
  split
  · simp [fullBlocks]
  · rw [List.range_succ, List.map_append, List.map_singleton, fullBlocks]
    have htail : block b d (d.length / b) = blockTail b d := by
      have hlen := blockTail_length b d
      refine List.take_of_length_le ?_
      rw [blockTail] at hlen
      rw [hlen]
      exact (Nat.mod_lt _ hb).le
    rw [htail]

end Hail.Library
