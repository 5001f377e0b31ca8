import Hail.Library.Bytes

/-!
# Framed streams

A stream of frames, each a header of fixed length that gives the size of what follows. `frames`
lists the complete frames at the beginning of a stream. A reader that takes the stream piece by
piece keeps track of where it stands with `Reads`: the frames it has seen, and the bytes after
them.
-/
namespace Hail.Library

/-- A header has `hdr` bytes; `size` of a header that is refused is `none`. -/
structure Framing where
  hdr : Nat
  size : Bytes → Option Nat
  pos : 0 < hdr

namespace Framing

variable (f : Framing)

/-- The contents of the complete frames at the beginning of a stream, up to a header that is
refused. -/
def frames (bs : Bytes) : List Bytes :=
  if f.hdr ≤ bs.length then
    match f.size (bs.take f.hdr) with
    | none => []
    | some n =>
      if f.hdr + n ≤ bs.length then (bs.drop f.hdr).take n :: frames (bs.drop (f.hdr + n)) else []
  else []
termination_by bs.length
decreasing_by
  have := f.pos
  simp only [List.length_drop]
  omega

/-- The stream `bs` is a sequence of complete frames with the contents `ps`, and `rest`. -/
inductive Reads : Bytes → List Bytes → Bytes → Prop where
  | nil (rest : Bytes) : Reads rest [] rest
  | cons {hd p bs rest : Bytes} {ps : List Bytes} (hlen : hd.length = f.hdr)
      (hsize : f.size hd = some p.length) (h : Reads bs ps rest) : Reads (hd ++ p ++ bs) (p :: ps) rest

variable {f} {bs rest hd p : Bytes} {ps : List Bytes}

theorem frames_short (h : bs.length < f.hdr) : f.frames bs = [] := by
  rw [frames, if_neg (by omega)]

theorem frames_refused (hlen : hd.length = f.hdr) (hsize : f.size hd = none) (bs : Bytes) :
    f.frames (hd ++ bs) = [] := by
  have htake : (hd ++ bs).take f.hdr = hd := by simp [← hlen]
  rw [frames, htake, hsize]
  split <;> rfl

theorem frames_partial {n : Nat} (hlen : hd.length = f.hdr) (hsize : f.size hd = some n)
    (hp : p.length < n) : f.frames (hd ++ p) = [] := by
  have htake : (hd ++ p).take f.hdr = hd := by simp [← hlen]
  have hshort : ¬ f.hdr + n ≤ (hd ++ p).length := by
    rw [List.length_append]
    omega
  rw [frames, htake, hsize]
  simp only [hshort, if_false, ite_self]

theorem frames_cons (hlen : hd.length = f.hdr) (hsize : f.size hd = some p.length) (bs : Bytes) :
    f.frames (hd ++ p ++ bs) = p :: f.frames bs := by
  have htake : (hd ++ p ++ bs).take f.hdr = hd := by simp [← hlen]
  have hdrop : (hd ++ p ++ bs).drop f.hdr = p ++ bs := by simp [← hlen]
  have hle : f.hdr + p.length ≤ (hd ++ p ++ bs).length := by
    simp only [List.length_append]
    omega
  have hrest : (hd ++ p ++ bs).drop (f.hdr + p.length) = bs := by
    rw [← hlen, ← List.length_append]
    exact List.drop_left
  rw [frames, if_pos (by omega), htake, hsize]
  simp only [hle, if_true, hdrop, hrest, List.take_left]

namespace Reads

theorem frames_eq (h : f.Reads bs ps rest) : f.frames bs = ps ++ f.frames rest := by
  induction h with
  | nil rest => rfl
  | cons hlen hsize _ ih => rw [frames_cons hlen hsize, ih, List.cons_append]

theorem append (h : f.Reads bs ps rest) (more : Bytes) :
    f.Reads (bs ++ more) ps (rest ++ more) := by
  induction h with
  | nil rest => exact .nil _
  | cons hlen hsize _ ih =>
    rw [List.append_assoc]
    exact .cons hlen hsize ih

/-- A frame is complete. -/
theorem snoc (h : f.Reads bs ps (hd ++ p)) (hlen : hd.length = f.hdr)
    (hsize : f.size hd = some p.length) : f.Reads bs (ps ++ [p]) [] := by
  generalize hr : hd ++ p = rest at h
  induction h with
  | nil rest =>
    subst hr
    simpa using cons hlen hsize (.nil [])
  | cons hlen' hsize' _ ih => exact .cons hlen' hsize' (ih hr)

end Reads

/-- The frames of a stream of given contents, with headers made by `header`. -/
theorem reads_flatMap {header : Nat → Bytes}
    (hlen : ∀ p ∈ ps, (header p.length).length = f.hdr)
    (hsize : ∀ p ∈ ps, f.size (header p.length) = some p.length) (rest : Bytes) :
    f.Reads (ps.flatMap (fun p => header p.length ++ p) ++ rest) ps rest := by
  induction ps with
  | nil => exact .nil rest
  | cons p ps ih =>
    rw [List.flatMap_cons, List.append_assoc]
    exact .cons (hlen p (by simp)) (hsize p (by simp))
      (ih (fun q hq => hlen q (by simp [hq])) (fun q hq => hsize q (by simp [hq])))

end Framing
end Hail.Library
