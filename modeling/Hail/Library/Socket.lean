import Hail.Library.Bytes

/-!
# A blocking socket

What a program that waits for its peer sees of a socket: the bytes that are still to come before the
end, and those it has written. A `read` or a `write` may move fewer bytes than it is asked to, so they
are called in loops; a loop that succeeds moves what was asked for, however it is cut.
-/
namespace Hail.Library

/-- A call moves at most so many bytes, or fails. -/
structure Socket where
  inp : Bytes
  out : Bytes := []
  read : Nat → Option Nat
  write : Nat → Option Nat
  nRead : Nat := 0
  nWrite : Nat := 0

namespace Socket

/-- A loop of `read` calls for `n` bytes, of which each gives one byte or is the last. -/
def readLoop : Nat → Nat → Socket → Option Bytes × Socket
  | 0, n, s => (if n = 0 then some [] else none, s)
  | fuel + 1, n, s =>
    if n = 0 then (some [], s)
    else
      match s.read s.nRead with
      | none => (none, { s with nRead := s.nRead + 1 })
      | some bound =>
        let bs := s.inp.take (min n (max 1 bound))
        if bs = [] then (none, { s with nRead := s.nRead + 1 })
        else
          match readLoop fuel (n - bs.length)
              { s with inp := s.inp.drop bs.length, nRead := s.nRead + 1 } with
          | (some rest, s) => (some (bs ++ rest), s)
          | (none, s) => (none, s)

def readExact (n : Nat) (s : Socket) : Option Bytes × Socket := readLoop n n s

/-- A loop of `write` calls, of which each takes one byte or is the last. -/
def writeLoop : Nat → Bytes → Socket → Bool × Socket
  | 0, bs, s => (bs.isEmpty, s)
  | fuel + 1, bs, s =>
    if bs = [] then (true, s)
    else
      match s.write s.nWrite with
      | none => (false, { s with nWrite := s.nWrite + 1 })
      | some bound =>
        writeLoop fuel (bs.drop (max 1 bound))
          { s with out := s.out ++ bs.take (max 1 bound), nWrite := s.nWrite + 1 }

def writeAll (bs : Bytes) (s : Socket) : Bool × Socket := writeLoop bs.length bs s

/-- No call fails. -/
structure Up (s : Socket) : Prop where
  read : ∀ i, (s.read i).isSome = true
  write : ∀ i, (s.write i).isSome = true

/-- `ws` has been written, whatever has been read. -/
structure Puts (s : Socket) (ws : Bytes) (s' : Socket) : Prop where
  out : s'.out = s.out ++ ws
  read : s'.read = s.read
  write : s'.write = s.write

/-- What moves between two states: `bs` has been read and `ws` has been written. -/
structure Moves (s : Socket) (bs ws : Bytes) (s' : Socket) : Prop extends s.Puts ws s' where
  inp : s.inp = bs ++ s'.inp

theorem Puts.refl (s : Socket) : s.Puts [] s := ⟨(List.append_nil _).symm, rfl, rfl⟩

theorem Puts.trans {s s' s'' : Socket} {ws ws' : Bytes} (h : s.Puts ws s') (h' : s'.Puts ws' s'') :
    s.Puts (ws ++ ws') s'' where
  out := by rw [h'.out, h.out, List.append_assoc]
  read := h'.read.trans h.read
  write := h'.write.trans h.write

theorem Moves.refl (s : Socket) : s.Moves [] [] s := ⟨.refl s, rfl⟩

theorem Moves.trans {s s' s'' : Socket} {bs bs' ws ws' : Bytes} (h : s.Moves bs ws s')
    (h' : s'.Moves bs' ws' s'') : s.Moves (bs ++ bs') (ws ++ ws') s'' where
  toPuts := h.toPuts.trans h'.toPuts
  inp := by rw [h.inp, h'.inp, List.append_assoc]

theorem Up.after {s s' : Socket} {ws : Bytes} (h : s.Up) (hm : s.Puts ws s') : s'.Up where
  read i := by
    rw [hm.read]
    exact h.read i
  write i := by
    rw [hm.write]
    exact h.write i

/-- What is read changes nothing of what is written. -/
theorem readLoop_puts (fuel n : Nat) (s : Socket) : s.Puts [] (readLoop fuel n s).2 := by
  induction fuel generalizing n s with
  | zero => exact .refl s
  | succ fuel ih =>
    have hcount : ∀ inp, s.Puts [] { s with inp := inp, nRead := s.nRead + 1 } :=
      fun inp => ⟨(List.append_nil _).symm, rfl, rfl⟩
    rw [readLoop]
    split
    · exact .refl s
    · split
      · exact hcount s.inp
      · dsimp only
        split
        · exact hcount s.inp
        · next bound _ _ =>
          have hrest := (hcount (s.inp.drop (s.inp.take (min n (max 1 bound))).length)).trans
            (ih (n - (s.inp.take (min n (max 1 bound))).length) _)
          split <;> next hloop =>
            rw [hloop] at hrest
            exact hrest

theorem readExact_puts (n : Nat) (s : Socket) : s.Puts [] (readExact n s).2 := readLoop_puts n n s

theorem readLoop_moves {fuel n : Nat} {s : Socket} (h : s.Up) (hfuel : n ≤ fuel)
    (hlen : n ≤ s.inp.length) :
    ∃ s', readLoop fuel n s = (some (s.inp.take n), s') ∧ s.Moves (s.inp.take n) [] s' := by
  induction fuel generalizing n s with
  | zero =>
    obtain rfl : n = 0 := by omega
    exact ⟨s, rfl, .refl s⟩
  | succ fuel ih =>
    by_cases hn : n = 0
    · subst hn
      exact ⟨s, rfl, .refl s⟩
    · obtain ⟨bound, hread⟩ := Option.isSome_iff_exists.mp (h.read s.nRead)
      set k := min n (max 1 bound) with hk
      have hlenk : (s.inp.take k).length = k := by
        rw [List.length_take]
        omega
      have hne : s.inp.take k ≠ [] := by
        rw [← List.length_pos_iff, hlenk]
        omega
      set s₁ : Socket := { s with inp := s.inp.drop k, nRead := s.nRead + 1 } with hs₁
      have hmove : s.Moves (s.inp.take k) [] s₁ :=
        ⟨⟨(List.append_nil _).symm, rfl, rfl⟩, (List.take_append_drop k s.inp).symm⟩
      have hrest : n - k ≤ s₁.inp.length := by
        rw [hs₁, List.length_drop]
        omega
      obtain ⟨s', hloop, hmove'⟩ := ih (n := n - k) (h.after hmove.toPuts) (by omega) hrest
      have hsplit : s.inp.take k ++ s₁.inp.take (n - k) = s.inp.take n := by
        rw [← List.take_add, Nat.add_sub_cancel' (by omega)]
      refine ⟨s', ?_, ?_⟩
      · rw [readLoop, if_neg hn, hread]
        dsimp only
        rw [← hk, if_neg hne, hlenk, ← hs₁, hloop]
        dsimp only
        rw [hsplit]
      · rw [← hsplit]
        exact hmove.trans hmove'

/-- When no call fails and the peer sends enough, what is asked for is read. -/
theorem readExact_moves {n : Nat} {s : Socket} (h : s.Up) {bs rest : Bytes} (hinp : s.inp = bs ++ rest)
    (hn : bs.length = n) : ∃ s', readExact n s = (some bs, s') ∧ s.Moves bs [] s' ∧ s'.inp = rest := by
  have htake : s.inp.take n = bs := by rw [hinp, List.take_left' hn]
  have hlen : n ≤ s.inp.length := by
    rw [hinp, List.length_append]
    omega
  obtain ⟨s', hread, hmove⟩ := readLoop_moves h le_rfl hlen
  rw [htake] at hread hmove
  exact ⟨s', hread, hmove, List.append_cancel_left (hmove.inp.symm.trans hinp)⟩

theorem writeLoop_moves {fuel : Nat} {bs : Bytes} {s : Socket} (h : s.Up) (hfuel : bs.length ≤ fuel) :
    ∃ s', writeLoop fuel bs s = (true, s') ∧ s.Moves [] bs s' := by
  induction fuel generalizing bs s with
  | zero =>
    obtain rfl : bs = [] := List.length_eq_zero_iff.mp (by omega)
    exact ⟨s, rfl, .refl s⟩
  | succ fuel ih =>
    by_cases hbs : bs = []
    · subst hbs
      exact ⟨s, rfl, .refl s⟩
    · obtain ⟨bound, hwrite⟩ := Option.isSome_iff_exists.mp (h.write s.nWrite)
      have hpos : 0 < bs.length := List.length_pos_iff.mpr hbs
      have hmove : s.Moves [] (bs.take (max 1 bound))
          { s with out := s.out ++ bs.take (max 1 bound), nWrite := s.nWrite + 1 } :=
        ⟨⟨rfl, rfl, rfl⟩, rfl⟩
      have hfewer : (bs.drop (max 1 bound)).length ≤ fuel := by
        rw [List.length_drop]
        omega
      obtain ⟨s', hloop, hmove'⟩ := ih (h.after hmove.toPuts) hfewer
      refine ⟨s', ?_, ?_⟩
      · rw [writeLoop, if_neg hbs, hwrite]
        exact hloop
      · have hall := hmove.trans hmove'
        rwa [List.take_append_drop] at hall

/-- When no call fails all is written. -/
theorem writeAll_moves {bs : Bytes} {s : Socket} (h : s.Up) :
    ∃ s', writeAll bs s = (true, s') ∧ s.Moves [] bs s' := writeLoop_moves h le_rfl

end Socket

end Hail.Library
