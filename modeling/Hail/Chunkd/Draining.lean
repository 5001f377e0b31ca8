import Hail.Chunkd.WriteQueue

/-!
# The queue of a plain socket, whatever the socket does

A file that waits behind buffers is handed to `writev` as a null buffer, at which it stops, and a write of
a file that would block drops the queue. In either case what is on the socket is a beginning of what has
been queued, and writing queues nothing.
-/
namespace Hail.Chunkd

open Library

/-- The queue goes on, or has been dropped and the client is to be disposed of. -/
def ClientTx.Kept (tx : ClientTx) : Prop := tx.Sound ∨ tx.Dropped ∧ tx.state = .dispose

theorem ClientTx.Kept.sent_begins {tx : ClientTx} (h : tx.Kept) : tx.sent <+: tx.queued.flatten := by
  rcases h with h | ⟨h, -⟩ <;> exact h.sent_eq ▸ List.take_prefix _ _

theorem ClientTx.Kept.sound {tx : ClientTx} (h : tx.Kept) (hs : tx.state ≠ .dispose) : tx.Sound :=
  h.resolve_right fun hdrop => hs hdrop.2

theorem ClientTx.Sound.setState {tx : ClientTx} (h : tx.Sound) (state : ClientState) :
    { tx with state }.Sound :=
  ⟨h.plain, h.entries, h.sent_eq, h.pending_eq, h.called_eq, h.file, h.one_file, h.buf⟩

/-- The buffers that `writev` takes, up to the first file. -/
def bufsOf (q : List ClientWrite) : List ClientWrite := q.takeWhile fun w => !w.src.isFile

theorem mem_bufsOf {q : List ClientWrite} {w : ClientWrite} (h : w ∈ bufsOf q) : w.src.isFile = false := by
  simpa using List.mem_takeWhile_imp h

theorem memBytes_bufsOf (q : List ClientWrite) : memBytes (bufsOf q) = memBytes q := by
  induction q with
  | nil => rfl
  | cons w q ih =>
    obtain ⟨src, cb⟩ := w
    cases src with
    | buf bs =>
      rw [bufsOf, List.takeWhile_cons_of_pos (by rfl), memBytes, memBytes, ← ih]
      rfl
    | sendfile len =>
      rw [bufsOf, List.takeWhile_cons_of_neg (by simp [WriteSrc.isFile])]
      rfl

section

variable (e : Env) (fs : Vol)

theorem cliWrote_queued {more : More} {rc : Nat} {tx : ClientTx} :
    (cliWrote e fs more rc tx).1.queued =
      (cliWrCompleted e fs more (tx.writeQ.length + rc) rc false tx).1.queued := by
  unfold cliWrote
  generalize cliWrCompleted e fs more (tx.writeQ.length + rc) rc false tx = p
  obtain ⟨tx', mw⟩ := p
  dsimp only
  split <;> rfl

/-- No callback queues anything when buffers have been written. -/
theorem writev_queued (more : More) {tx : ClientTx} (h : tx.Sound) {iov : List ClientWrite}
    (hpre : iov <+: tx.writeQ) (hiov : ∀ w ∈ iov, w.src.isFile = false) {out : Bytes}
    (hout : out <+: memBytes iov) :
    (cliWrote e fs more out.length { tx with sent := tx.sent ++ out.map .mem }).1.queued =
      tx.queued := by
  obtain ⟨rest, hq⟩ := hpre
  have hlen : out.length ≤ (iov.map fun w => tx.octets w.src).flatten.length := by
    rw [← memBytes_eq hiov, List.length_map]
    exact hout.length_le
  have hfuel : iov.length ≤ tx.writeQ.length + out.length := by
    rw [← hq, List.length_append]
    omega
  have hbufs : ∀ w ∈ iov, w.src.isFile = false ∧ w.cb ≠ .getMore ∧ 0 < w.src.len := by
    intro w hw
    have hmem : w ∈ tx.writeQ := hq ▸ List.mem_append_left rest hw
    exact ⟨hiov w hw, h.buf w hmem (hiov w hw), h.len_pos hmem⟩
  rw [cliWrote_queued, @cliWrCompleted_bufs e fs more iov rest]
  · exact hbufs
  · exact hq.symm
  · exact hlen
  · exact hfuel

/-- Nor when a file has. -/
theorem sendfile_queued (more : More) {tx tx' : ClientTx} (h : tx.Sound) {len : Nat} {cb : CliWriteFunc}
    {q : List ClientWrite} (hq : tx.writeQ = ⟨.sendfile len, cb⟩ :: q) {rc : Nat} (hle : rc ≤ tx.inLen)
    (hin : tx'.inLen = tx.inLen - rc) (hq' : tx'.writeQ = tx.writeQ) :
    (cliWrote e fs more rc tx').1.queued = tx'.queued := by
  obtain ⟨hsrc, hcb, -⟩ := h.file _ (hq ▸ List.mem_cons_self) rfl
  dsimp only at hsrc hcb
  obtain rfl : len = tx.inLen := by injection hsrc
  subst hcb
  have hmem : (⟨.sendfile tx.inLen, .getMore⟩ : ClientWrite) ∈ tx.writeQ := hq ▸ List.mem_cons_self
  have hpos : 0 < tx.inLen := h.len_pos hmem
  have hfuel : tx'.writeQ.length + rc = (q.length + rc) + 1 := by
    rw [hq', hq, List.length_cons]
    omega
  rw [cliWrote_queued, hfuel,
    cliWrCompleted_file e fs more tx' (hq'.trans hq) hin hle hpos]
  split <;> rfl

/-- A round keeps the queue or drops it, and queues nothing. -/
theorem cliWriteOnce_kept (r : WrRes) {tx : ClientTx} (h : tx.Sound) :
    ((cliWriteOnce e fs r tx).1.Sound ∨ (cliWriteOnce e fs r tx).1.Dropped ∧
      (cliWriteOnce e fs r tx).1.state = .dispose ∧ (cliWriteOnce e fs r tx).2 = false) ∧
    (cliWriteOnce e fs r tx).1.queued = tx.queued := by
  unfold cliWriteOnce
  split
  · exact ⟨.inl h, rfl⟩
  · next len cb q hq =>
    have hne : tx.writeQ ≠ [] := by simp [hq]
    unfold cliSendfile
    split
    · next n more obj hobj =>
      split
      · exact ⟨.inr ⟨h.writeErr hne, rfl, rfl⟩, rfl⟩
      · next ino ofs rc obj' hsend =>
        have hrc : rc ≤ tx.inLen := (fsObjSendfile_range hsend).1.trans (min_le_left _ _)
        exact ⟨.inl (sendfile_sound e fs more h hq hobj hsend), sendfile_queued e fs more h hq hrc rfl rfl⟩
    · exact ⟨.inr ⟨h.writeErr hne, rfl, rfl⟩, rfl⟩
  · next bs cb q hq =>
    have hne : tx.writeQ ≠ [] := by simp [hq]
    rw [h.plain, if_neg Bool.false_ne_true]
    set iov := cliWrIov cliMaxWrIov 0 tx.writeQ with hiov
    have hsound := h.congr tx.writing tx.evWrite
      (tx.handed ++ [(tx.sent.length, iov.map ClientWrite.src)])
    have hpre : bufsOf iov <+: tx.writeQ :=
      (List.takeWhile_prefix _).trans (cliWrIov_begins cliMaxWrIov 0 tx.writeQ)
    unfold cliWritev
    dsimp only
    rw [← hiov]
    split
    · next n more =>
      have hout : (memBytes iov).take n <+: memBytes (bufsOf iov) := by
        rw [memBytes_bufsOf]
        exact List.take_prefix _ _
      exact ⟨.inl (writev_sound e fs more hsound hpre (fun _ => mem_bufsOf) hout),
        writev_queued e fs more hsound hpre (fun _ => mem_bufsOf) hout⟩
    · exact ⟨.inl hsound, rfl⟩
    · exact ⟨.inl hsound, rfl⟩
    · exact ⟨.inr ⟨hsound.writeErr hne, rfl, rfl⟩, rfl⟩

theorem cliWritable_kept (wr : List WrRes) {tx : ClientTx} (h : tx.Sound) :
    (cliWritable e fs wr tx).Kept ∧ (cliWritable e fs wr tx).queued = tx.queued := by
  induction wr generalizing tx with
  | nil =>
    obtain ⟨hkept, hqueued⟩ := cliWriteOnce_kept e fs .again h
    exact ⟨hkept.imp_right fun h => ⟨h.1, h.2.1⟩, hqueued⟩
  | cons r rs ih =>
    obtain ⟨hkept, hqueued⟩ := cliWriteOnce_kept e fs r h
    rw [cliWritable]
    generalize cliWriteOnce e fs r tx = p at hkept hqueued
    obtain ⟨tx', again⟩ := p
    cases again with
    | false => exact ⟨hkept.imp_right fun h => ⟨h.1, h.2.1⟩, hqueued⟩
    | true =>
      rcases hkept with hsound | ⟨-, -, hstop⟩
      · obtain ⟨hkept', hqueued'⟩ := ih hsound
        exact ⟨hkept', hqueued'.trans hqueued⟩
      · cases hstop

theorem cliWriteStart_kept (wr : List WrRes) {tx : ClientTx} (h : tx.Sound) :
    (cliWriteStart e fs wr tx).Kept ∧ (cliWriteStart e fs wr tx).queued = tx.queued := by
  obtain ⟨hkept, hqueued⟩ := cliWritable_kept e fs wr h
  unfold cliWriteStart
  split
  · exact ⟨.inl h, rfl⟩
  · dsimp only
    split
    · exact ⟨hkept, hqueued⟩
    · next hne =>
      rcases hkept with hsound | ⟨hdrop, -⟩
      · exact ⟨.inl (hsound.congr true true _), hqueued⟩
      · exact absurd hdrop.empty hne

/-- With an empty queue there is nothing to write. -/
theorem cliWritable_empty (wr : List WrRes) {tx : ClientTx} (h : tx.writeQ = []) :
    cliWritable e fs wr tx = tx := by
  have hone : ∀ r, cliWriteOnce e fs r tx = (tx, false) := by
    intro r
    unfold cliWriteOnce
    rw [h]
  cases wr with
  | nil => rw [cliWritable, hone]
  | cons r rs => rw [cliWritable, hone]

theorem ClientTx.Kept.writable (wr : List WrRes) {tx : ClientTx} (h : tx.Kept) :
    (cliWritable e fs wr tx).Kept ∧ (cliWritable e fs wr tx).queued = tx.queued := by
  rcases h with h | ⟨hdrop, hs⟩
  · exact cliWritable_kept e fs wr h
  · rw [cliWritable_empty e fs wr hdrop.empty]
    exact ⟨.inr ⟨hdrop, hs⟩, rfl⟩

end

/-! ## Queueing -/

theorem cliWriteq_push {bs : Bytes} (hbs : bs ≠ []) {tx : ClientTx} (h : tx.Sound) :
    ∃ tx', cliWriteq false bs .cbFree tx = (tx', true) ∧ tx'.Sound ∧
      tx'.queued = tx.queued ++ [bs.map .mem] ∧ tx'.state = tx.state ∧ tx'.filed = tx.filed ∧
      tx'.inObj = tx.inObj ∧ tx'.inLen = tx.inLen := by
  refine ⟨{ tx with writeQ := tx.writeQ ++ [⟨.buf bs, .cbFree⟩], queued := tx.queued ++ [bs.map .mem] },
    ?_, ?_, rfl, rfl, ?_, rfl, rfl⟩
  · rw [cliWriteq, if_neg (by simp [hbs])]
  · refine h.push rfl rfl rfl rfl rfl ⟨rfl, rfl⟩ ?_ (by simp [WriteSrc.isFile]) (fun _ _ => .inr rfl)
      (fun _ => by simp)
    simpa [ClientTx.octets] using hbs
  · simp [ClientTx.filed, WriteSrc.isFile]

theorem cliWrSendfile_push {tx : ClientTx} (h : tx.Sound) (hf : tx.filed = false) (hlen : tx.inLen ≠ 0)
    {obj : FsObj} (hin : tx.inObj = some obj) (hread : obj.readable = true) :
    ∃ tx', cliWrSendfile false .getMore tx = (tx', true) ∧ tx'.Sound ∧
      tx'.queued = tx.queued ++ [obj.range tx.inLen] ∧ tx'.state = tx.state := by
  have hrange := FsObj.range_length hread tx.inLen
  have hobj : tx.inObj.any FsObj.readable = true := by simp [hin, hread]
  refine ⟨{ tx with
    writeQ := tx.writeQ ++ [⟨.sendfile tx.inLen, .getMore⟩]
    queued := tx.queued ++ [obj.range tx.inLen] }, ?_, ?_, rfl, rfl⟩
  · rw [cliWrSendfile, if_neg Bool.false_ne_true]
    simp only [hin]
  · refine h.push rfl ?_ rfl rfl rfl ⟨rfl, rfl⟩ ?_ (fun _ => ⟨rfl, rfl, hobj⟩) ?_
      (by simp [WriteSrc.isFile])
    · simp [ClientTx.octets, hin]
    · intro hnil
      simp only [ClientTx.octets, hin] at hnil
      rw [hnil] at hrange
      exact hlen hrange.symm
    · intro v hv
      have hbufs : ∀ w ∈ tx.writeQ, w.src.isFile = false := by simpa [ClientTx.filed] using hf
      exact .inl (hbufs v hv)

theorem cliInEnd_sound {tx : ClientTx} (h : tx.Sound) (hf : tx.filed = false) : (cliInEnd tx).Sound :=
  h.setObj hf none tx.inLen

end Hail.Chunkd
