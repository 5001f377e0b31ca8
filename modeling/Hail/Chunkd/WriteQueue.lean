import Hail.Chunkd.Client
import Hail.Chunkd.ReadBack
import Hail.Library.Outbox
import Hail.Library.Run

/-!
# What goes out on a plain socket

The entries queued for a client are written in order, and each callback is told the truth about its
entry, in every run in which no file waits behind a buffer when the queue is written and no write of a
file would block. A file that waits so is handed to `writev` with a null buffer, and one that would
block drops the queue.
-/
namespace Hail.Chunkd

open Library

/-- The bytes an entry stands for. -/
def ClientTx.octets (tx : ClientTx) : WriteSrc → List Octet
  | .buf bs => bs.map .mem
  | .sendfile len =>
    match tx.inObj with
    | some obj => obj.range len
    | none => []

/-- What waits to be written, entry by entry. -/
def ClientTx.pending (tx : ClientTx) : List (List Octet) := tx.writeQ.map fun w => tx.octets w.src

def WriteSrc.isFile : WriteSrc → Bool
  | .buf _ => false
  | .sendfile _ => true

/-- A file waits to be written. -/
def ClientTx.filed (tx : ClientTx) : Bool := tx.writeQ.any (·.src.isFile)

/-- What is done to the write queue of a client: an object is opened or closed, a buffer or the open
object is queued, the socket can be written, the client is freed. The callback of a buffer is
`cli_cb_free` or none, since with `sendfile` only files have the other. -/
inductive TxOp where
  | opened (obj : FsObj) (size : Nat)
  | inEnd
  | writeq (fails : Bool) (bs : Bytes) (free : Bool)
  | sendfile (fails : Bool)
  | writable (fs : Vol) (wr : List WrRes)
  | free

/-- Nothing more is done once the queue has been dropped: the client is freed. -/
def txStep (e : Env) (tx : ClientTx) (op : TxOp) : ClientTx :=
  if false ∈ tx.called then tx
  else
    match op with
    | .opened obj size => { tx with inObj := some obj, inLen := size }
    | .inEnd => cliInEnd tx
    | .writeq fails bs free => (cliWriteq fails bs (if free then .cbFree else .none) tx).1
    | .sendfile fails => (cliWrSendfile fails .getMore tx).1
    | .writable fs wr => cliWritable e fs wr tx
    | .free => cliWriteFreeAll tx

/-- A round of `cli_writable` hands no file to `writev`, and a write of a file does not block. -/
def roundOk (r : WrRes) (tx : ClientTx) : Bool :=
  match tx.writeQ with
  | [] => true
  | ⟨.sendfile _, _⟩ :: _ => r != .again && r != .intr
  | ⟨.buf _, _⟩ :: _ => (cliWrIov cliMaxWrIov 0 tx.writeQ).all fun w => !w.src.isFile

def writableOk (e : Env) (fs : Vol) : List WrRes → ClientTx → Bool
  | [], tx => roundOk .again tx
  | r :: rs, tx =>
    roundOk r tx &&
      (!(cliWriteOnce e fs r tx).2 || writableOk e fs rs (cliWriteOnce e fs r tx).1)

/-- A descriptor is open for reading. -/
def FsObj.readable (obj : FsObj) : Bool := obj.inFd.isSome

/-- The object stays while it is queued, and it is queued once. -/
def txOk (e : Env) (tx : ClientTx) : TxOp → Bool
  | .opened obj _ => !tx.filed && obj.readable
  | .inEnd => !tx.filed
  | .sendfile _ => !tx.filed && tx.inLen != 0 && tx.inObj.any FsObj.readable
  | .writable fs wr => writableOk e fs wr tx
  | .writeq _ _ _ | .free => true

/-- The results of a `write` other than failures. -/
def WrRes.temporary : WrRes → Bool
  | .wrote _ _ | .again | .intr => true
  | .wantRead | .fail => false

/-- What does not end the connection. -/
def TxOp.temporary : TxOp → Bool
  | .writable _ wr => wr.all WrRes.temporary
  | .free => false
  | _ => true

/-! ## Entries written -/

/-- The entries with `n` bytes written. -/
def written : List ClientWrite → Nat → List ClientWrite
  | [], _ => []
  | w :: q, n =>
    if w.src.len ≤ n then written q (n - w.src.len) else { w with src := w.src.advance n } :: q

theorem mem_written {q : List ClientWrite} {n : Nat} {w : ClientWrite} (h : w ∈ written q n) :
    ∃ v ∈ q, w.cb = v.cb ∧ w.src.isFile = v.src.isFile := by
  induction q generalizing n with
  | nil => simp [written] at h
  | cons v q ih =>
    rw [written] at h
    split at h
    · obtain ⟨u, hu, h⟩ := ih h
      exact ⟨u, List.mem_cons_of_mem v hu, h⟩
    · rcases List.mem_cons.mp h with rfl | h
      · refine ⟨v, List.mem_cons_self, rfl, ?_⟩
        cases hsrc : v.src <;> rfl
      · exact ⟨w, List.mem_cons_of_mem v h, rfl, rfl⟩

theorem octets_advance {tx : ClientTx} {src : WriteSrc} (h : src.isFile = false) (n : Nat) :
    tx.octets (src.advance n) = (tx.octets src).drop n := by
  cases src with
  | buf bs => exact List.map_drop
  | sendfile len => cases h

theorem octets_length {tx : ClientTx} {src : WriteSrc} (h : src.isFile = false) :
    (tx.octets src).length = src.len := by
  cases src with
  | buf bs => exact List.length_map _
  | sendfile len => cases h

theorem map_octets_written {tx : ClientTx} {q : List ClientWrite}
    (h : ∀ w ∈ q, w.src.isFile = false) (n : Nat) :
    ((written q n).map fun w => tx.octets w.src) = remaining (q.map fun w => tx.octets w.src) n := by
  induction q generalizing n with
  | nil => rfl
  | cons w q ih =>
    have hw := h w List.mem_cons_self
    rw [written, List.map_cons, remaining, octets_length hw]
    split
    · exact ih (fun v hv => h v (List.mem_cons_of_mem w hv)) _
    · rw [List.map_cons, octets_advance hw]

theorem memBytes_eq {tx : ClientTx} {q : List ClientWrite} (h : ∀ w ∈ q, w.src.isFile = false) :
    (memBytes q).map Octet.mem = (q.map fun w => tx.octets w.src).flatten := by
  induction q with
  | nil => rfl
  | cons w q ih =>
    obtain ⟨src, cb⟩ := w
    cases src with
    | buf bs =>
      rw [memBytes, List.map_append, ih fun v hv => h v (List.mem_cons_of_mem _ hv)]
      rfl
    | sendfile len => cases h _ List.mem_cons_self

theorem cliWrIov_begins (n total : Nat) (q : List ClientWrite) : cliWrIov n total q <+: q := by
  induction q generalizing n total with
  | nil => cases n <;> exact List.nil_prefix
  | cons w q ih =>
    cases n with
    | zero => exact List.nil_prefix
    | succ n =>
      rw [cliWrIov]
      split
      · exact List.nil_prefix
      · split
        · exact List.nil_prefix
        · exact List.cons_prefix_cons.mpr ⟨rfl, ih _ _⟩

/-- `cli_wr_completed` for bytes of the buffers at the front. -/
theorem cliWrCompleted_bufs (e : Env) (fs : Vol) (more : More) {iov rest : List ClientWrite}
    (hiov : ∀ w ∈ iov, w.src.isFile = false ∧ w.cb ≠ .getMore ∧ 0 < w.src.len) {fuel rc : Nat}
    {mw : Bool} {tx : ClientTx} (hq : tx.writeQ = iov ++ rest)
    (hrc : rc ≤ (iov.map fun w => tx.octets w.src).flatten.length) (hfuel : iov.length ≤ fuel) :
    cliWrCompleted e fs more fuel rc mw tx =
      ({ tx with
          writeQ := written iov rc ++ rest
          called := tx.called ++
            List.replicate (finished (iov.map fun w => tx.octets w.src) rc) true }, mw) := by
  induction iov generalizing fuel rc tx with
  | nil =>
    obtain rfl : rc = 0 := by simpa using hrc
    obtain rfl : rest = tx.writeQ := hq.symm
    cases fuel <;> simp [cliWrCompleted, written, finished]
  | cons w iov ih =>
    obtain ⟨hfile, hcb, hpos⟩ := hiov w List.mem_cons_self
    have hlen : (tx.octets w.src).length = w.src.len := octets_length hfile
    obtain ⟨fuel, rfl⟩ : ∃ k, fuel = k + 1 :=
      ⟨fuel - 1, by simp only [List.length_cons] at hfuel; omega⟩
    rw [cliWrCompleted, written, List.map_cons, finished, hlen]
    split
    · next h0 =>
      subst h0
      rw [if_neg (by omega), if_neg (by omega)]
      have hadv : { w with src := w.src.advance 0 } = w := by
        obtain ⟨src, cb⟩ := w
        cases src <;> simp [WriteSrc.advance]
      simp only [hadv, List.replicate_zero, List.append_nil]
      rw [← hq]
    · next h0 =>
      rw [hq]
      simp only [List.cons_append]
      by_cases hle : w.src.len ≤ rc
      · have hfree : cliWriteFree e fs more w true { tx with writeQ := iov ++ rest } =
            ({ tx with writeQ := iov ++ rest, called := tx.called ++ [true] }, false) := by
          rw [cliWriteFree]
          cases hcb' : w.cb <;> first | rfl | exact absurd hcb' hcb
        rw [min_eq_left hle, if_pos rfl, hfree, if_pos hle, if_pos hle, Bool.or_false]
        simp only
        rw [ih (fun v hv => hiov v (List.mem_cons_of_mem w hv)) rfl]
        · simp only [List.append_assoc, List.replicate_succ, List.singleton_append]
          rfl
        · rw [List.map_cons, List.flatten_cons, List.length_append, hlen] at hrc
          show rc - w.src.len ≤ (iov.map fun w => tx.octets w.src).flatten.length
          omega
        · simpa using hfuel
      · rw [min_eq_right (by omega), if_neg (by omega), if_neg hle, if_neg hle, Nat.sub_self]
        have hdone : ∀ t : ClientTx, cliWrCompleted e fs more fuel 0 mw t = (t, mw) := by
          intro t
          cases fuel <;> simp [cliWrCompleted]
        rw [hdone]
        simp

/-! ## The queue in order -/

/-- What holds of a queue that has not been dropped. -/
structure ClientTx.Sound (tx : ClientTx) : Prop where
  plain : tx.ssl = false
  entries : [] ∉ tx.queued
  sent_eq : tx.queued.flatten.take tx.sent.length = tx.sent
  pending_eq : tx.pending = remaining tx.queued tx.sent.length
  called_eq : tx.called = List.replicate (finished tx.queued tx.sent.length) true
  file : ∀ w ∈ tx.writeQ, w.src.isFile = true →
    w.src = .sendfile tx.inLen ∧ w.cb = .getMore ∧ tx.inObj.any FsObj.readable = true
  one_file : tx.writeQ.Pairwise fun v w => v.src.isFile = false ∨ w.src.isFile = false
  buf : ∀ w ∈ tx.writeQ, w.src.isFile = false → w.cb ≠ .getMore

/-- What holds when the queue has been dropped. -/
structure ClientTx.Dropped (tx : ClientTx) : Prop where
  entries : [] ∉ tx.queued
  sent_eq : tx.queued.flatten.take tx.sent.length = tx.sent
  empty : tx.writeQ = []
  told : false ∈ tx.called
  called_eq : tx.called = List.replicate (finished tx.queued tx.sent.length) true ++
    List.replicate (remaining tx.queued tx.sent.length).length false

namespace ClientTx.Sound

variable {tx : ClientTx}

theorem sent_length_le (h : tx.Sound) : tx.sent.length ≤ tx.queued.flatten.length := by
  have := congrArg List.length h.sent_eq
  rw [List.length_take] at this
  omega

theorem octets_length (h : tx.Sound) {w : ClientWrite} (hw : w ∈ tx.writeQ) :
    (tx.octets w.src).length = w.src.len := by
  cases hfile : w.src.isFile with
  | false => exact Chunkd.octets_length hfile
  | true =>
    obtain ⟨hsrc, -, hobj⟩ := h.file w hw hfile
    obtain ⟨obj, hin, hread⟩ := Option.any_eq_true _ _ |>.mp hobj
    obtain ⟨fd, hfd⟩ := Option.isSome_iff_exists.mp hread
    simp [hsrc, octets, hin, FsObj.range, hfd, WriteSrc.len]

theorem len_pos (h : tx.Sound) {w : ClientWrite} (hw : w ∈ tx.writeQ) : 0 < w.src.len := by
  rw [← h.octets_length hw, List.length_pos_iff]
  intro hnil
  have hmem : tx.octets w.src ∈ tx.pending := List.mem_map_of_mem hw
  rw [hnil, h.pending_eq] at hmem
  exact nil_notMem_remaining h.entries _ hmem

theorem pending_flatten (h : tx.Sound) :
    tx.pending.flatten = tx.queued.flatten.drop tx.sent.length := by
  rw [h.pending_eq, flatten_remaining]

theorem false_notMem_called (h : tx.Sound) : false ∉ tx.called := by
  rw [h.called_eq]
  simp

/-- Dropping the queue. -/
theorem writeErr (h : tx.Sound) (hq : tx.writeQ ≠ []) : (cliWriteErr tx).Dropped where
  entries := h.entries
  sent_eq := h.sent_eq
  empty := rfl
  told := by
    obtain ⟨w, q, hw⟩ := List.exists_cons_of_ne_nil hq
    simp [cliWriteErr, cliWriteFreeAll, hw]
  called_eq := by
    have hlen : tx.writeQ.length = (remaining tx.queued tx.sent.length).length := by
      rw [← h.pending_eq, pending, List.length_map]
    show tx.called ++ tx.writeQ.map (fun _ => false) = _
    rw [h.called_eq, List.map_const', hlen]
    rfl

/-- What a write of `out`, the next bytes, leaves to be shown. -/
theorem wrote (h : tx.Sound) {tx' : ClientTx} {out : List Octet}
    (hout : out <+: tx.pending.flatten) (hsent : tx'.sent = tx.sent ++ out)
    (hqueued : tx'.queued = tx.queued) (hplain : tx'.ssl = false)
    (hpending : tx'.pending = remaining tx.pending out.length)
    (hcalled : tx'.called = tx.called ++ List.replicate (finished tx.pending out.length) true)
    (hfile : ∀ w ∈ tx'.writeQ, w.src.isFile = true →
      w.src = .sendfile tx'.inLen ∧ w.cb = .getMore ∧ tx'.inObj.any FsObj.readable = true)
    (hone : tx'.writeQ.Pairwise fun v w => v.src.isFile = false ∨ w.src.isFile = false)
    (hbuf : ∀ w ∈ tx'.writeQ, w.src.isFile = false → w.cb ≠ .getMore) : tx'.Sound where
  plain := hplain
  entries := hqueued ▸ h.entries
  sent_eq := by
    rw [h.pending_flatten] at hout
    rw [hqueued, hsent, List.length_append, List.take_add, h.sent_eq,
      List.prefix_iff_eq_take.mp hout |>.symm]
  pending_eq := by
    rw [hpending, hqueued, hsent, List.length_append, remaining_add, h.pending_eq]
  called_eq := by
    rw [hcalled, hqueued, hsent, List.length_append, finished_add, ← h.pending_eq, h.called_eq,
      List.replicate_append_replicate]
  file := hfile
  one_file := hone
  buf := hbuf

/-- The fields that do not say what is written. -/
theorem congr (h : tx.Sound) (writing evWrite : Bool) (handed : List (Nat × List WriteSrc)) :
    { tx with writing, evWrite, handed }.Sound :=
  ⟨h.plain, h.entries, h.sent_eq, h.pending_eq, h.called_eq, h.file, h.one_file, h.buf⟩

end ClientTx.Sound

theorem cliWrote_sound {e : Env} {fs : Vol} {more : More} {rc : Nat} {tx : ClientTx}
    (h : (cliWrCompleted e fs more (tx.writeQ.length + rc) rc false tx).1.Sound) :
    (cliWrote e fs more rc tx).1.Sound := by
  unfold cliWrote
  split
  next tx' mw hc =>
    rw [hc] at h
    split
    · exact h.congr false false _
    · exact h

/-- A round that writes buffers. -/
theorem writev_sound (e : Env) (fs : Vol) (more : More) {tx : ClientTx} (h : tx.Sound)
    {iov : List ClientWrite} (hpre : iov <+: tx.writeQ) (hiov : ∀ w ∈ iov, w.src.isFile = false)
    {out : Bytes} (hout : out <+: memBytes iov) :
    (cliWrote e fs more out.length { tx with sent := tx.sent ++ out.map .mem }).1.Sound := by
  obtain ⟨rest, hq⟩ := hpre
  have hmem : ∀ w ∈ iov, w ∈ tx.writeQ := fun w hw => hq ▸ List.mem_append_left rest hw
  have hpend : tx.pending = (iov.map fun w => tx.octets w.src) ++
      rest.map fun w => tx.octets w.src := by rw [ClientTx.pending, ← hq, List.map_append]
  have hpre' : out.map Octet.mem <+: (iov.map fun w => tx.octets w.src).flatten := by
    rw [← memBytes_eq hiov]
    exact hout.map Octet.mem
  have hlen : out.length ≤ (iov.map fun w => tx.octets w.src).flatten.length := by
    simpa using hpre'.length_le
  have hrest : [] ∉ rest.map fun w => tx.octets w.src := by
    intro hnil
    refine nil_notMem_remaining h.entries tx.sent.length ?_
    rw [← h.pending_eq, hpend]
    exact List.mem_append_right _ hnil
  refine cliWrote_sound ?_
  rw [@cliWrCompleted_bufs e fs more iov rest]
  · refine @ClientTx.Sound.wrote _ h _ (out.map .mem) ?_ rfl rfl h.plain ?_ ?_ ?_ ?_ ?_
    · rw [hpend, List.flatten_append]
      exact hpre'.trans (List.prefix_append _ _)
    · show (written iov out.length ++ rest).map (fun w => tx.octets w.src) = _
      rw [List.map_append, map_octets_written hiov, List.length_map, hpend,
        remaining_append hrest hlen]
    · rw [List.length_map, hpend, finished_append hrest hlen]
      rfl
    · intro w hw hfile
      rcases List.mem_append.mp hw with hw | hw
      · obtain ⟨v, hv, -, heq⟩ := mem_written hw
        rw [heq, hiov v hv] at hfile
        cases hfile
      · exact h.file w (hq ▸ List.mem_append_right iov hw) hfile
    · refine List.pairwise_append.mpr ⟨?_, ?_, ?_⟩
      · refine List.pairwise_of_forall_mem_list fun v hv w _ => .inl ?_
        obtain ⟨u, hu, -, heq⟩ := mem_written hv
        rw [heq, hiov u hu]
      · have := h.one_file
        rw [← hq] at this
        exact (List.pairwise_append.mp this).2.1
      · intro v hv w _
        obtain ⟨u, hu, -, heq⟩ := mem_written hv
        exact .inl (heq ▸ hiov u hu)
    · intro w hw hfile
      rcases List.mem_append.mp hw with hw | hw
      · obtain ⟨v, hv, hcb, -⟩ := mem_written hw
        exact hcb ▸ h.buf v (hmem v hv) (hiov v hv)
      · exact h.buf w (hq ▸ List.mem_append_right iov hw) hfile
  · intro w hw
    exact ⟨hiov w hw, h.buf w (hmem w hw) (hiov w hw), h.len_pos (hmem w hw)⟩
  · exact hq.symm
  · exact hlen
  · show iov.length ≤ tx.writeQ.length + out.length
    rw [← hq, List.length_append]
    omega

theorem FsObj.range_length {obj : FsObj} (h : obj.readable = true) (len : Nat) :
    (obj.range len).length = len := by
  obtain ⟨fd, hfd⟩ := Option.isSome_iff_exists.mp h
  simp [range, hfd]

/-- What `fs_obj_sendfile` sends is the next of the file, and leaves the rest. -/
theorem fsObjSendfile_range {fs : Vol} {obj obj' : FsObj} {bound len ino ofs rc : Nat}
    (h : fsObjSendfile fs obj bound len = some (ino, ofs, rc, obj')) :
    rc ≤ len ∧ obj'.readable = true ∧
      ∀ n, rc ≤ n → obj.range n =
        ((List.range rc).map fun i => Octet.file ino (ofs + i)) ++ obj'.range (n - rc) := by
  unfold fsObjSendfile at h
  cases hfd : obj.inFd with
  | none => simp [hfd] at h
  | some fd =>
    obtain ⟨ino', pos⟩ := fd
    simp only [hfd, Option.some.injEq, Prod.mk.injEq] at h
    obtain ⟨rfl, rfl, rfl, rfl⟩ := h
    refine ⟨by omega, by simp [FsObj.readable], ?_⟩
    intro n hn
    obtain ⟨k, rfl⟩ := Nat.exists_eq_add_of_le hn
    simp only [FsObj.range, hfd, Nat.add_sub_cancel_left]
    rw [List.range_add, List.map_append, List.map_map]
    congr 1
    refine List.map_congr_left fun i _ => ?_
    simp only [Function.comp, Octet.file.injEq, true_and]
    split_ifs <;> omega

/-- `cli_wr_completed` for bytes of the file at the front. -/
theorem cliWrCompleted_file (e : Env) (fs : Vol) (more : More) (tx : ClientTx) {fuel len rc : Nat}
    {q : List ClientWrite} (hq : tx.writeQ = ⟨.sendfile len, .getMore⟩ :: q)
    (hin : tx.inLen = len - rc) (hrc : rc ≤ len) (hlen : 0 < len) :
    (cliWrCompleted e fs more (fuel + 1) rc false tx).1 =
      if rc = len then { tx with writeQ := q, called := tx.called ++ [true], inObj := none }
      else { tx with writeQ := ⟨.sendfile (len - rc), .getMore⟩ :: q } := by
  have hdone : ∀ mw t, cliWrCompleted e fs more fuel 0 mw t = (t, mw) := by
    intro mw t
    cases fuel <;> simp [cliWrCompleted]
  rw [cliWrCompleted]
  by_cases h0 : rc = 0
  · rw [if_pos h0, if_neg (by omega), h0, Nat.sub_zero, ← hq]
  · simp only [if_neg h0, hq, WriteSrc.len, min_eq_right hrc, Nat.sub_self, hdone]
    by_cases hall : rc = len
    · have hin0 : tx.inLen = 0 := by omega
      simp [hall, cliWriteFree, objectGetMore, hin0, cliInEnd]
    · rw [if_neg (Ne.symm hall), if_neg hall]
      rfl

/-- A round that writes the file at the front. -/
theorem sendfile_sound (e : Env) (fs : Vol) (more : More) {tx : ClientTx} (h : tx.Sound)
    {len : Nat} {cb : CliWriteFunc} {q : List ClientWrite} (hq : tx.writeQ = ⟨.sendfile len, cb⟩ :: q)
    {obj obj' : FsObj} (hobj : tx.inObj = some obj) {bound ino ofs rc : Nat}
    (hsend : fsObjSendfile fs obj bound (min tx.inLen cliMaxSendfileSz) = some (ino, ofs, rc, obj')) :
    (cliWrote e fs more rc
      { tx with
        inObj := some obj'
        inLen := tx.inLen - rc
        sent := tx.sent ++ (List.range rc).map fun i => .file ino (ofs + i) }).1.Sound := by
  obtain ⟨hrc, hread, hrange⟩ := fsObjSendfile_range hsend
  have hle : rc ≤ tx.inLen := by omega
  obtain ⟨hsrc, hcb, -⟩ := h.file _ (hq ▸ List.mem_cons_self) rfl
  simp only at hsrc hcb
  obtain rfl : len = tx.inLen := by injection hsrc
  subst hcb
  have hpos : 0 < tx.inLen :=
    h.len_pos (w := ⟨.sendfile tx.inLen, .getMore⟩) (hq ▸ List.mem_cons_self)
  obtain ⟨hfront, htail⟩ := List.pairwise_cons.mp (hq ▸ h.one_file)
  have hbuf : ∀ w ∈ q, w.src.isFile = false :=
    fun w hw => (hfront w hw).resolve_left (by simp [WriteSrc.isFile])
  have hmem : ∀ w ∈ q, w ∈ tx.writeQ := fun w hw => hq ▸ List.mem_cons_of_mem _ hw
  -- the buffers behind the file stand for the same bytes whatever becomes of the object
  have hsame : ∀ tx' : ClientTx,
      (q.map fun w => tx'.octets w.src) = q.map fun w => tx.octets w.src := by
    intro tx'
    refine List.map_congr_left fun w hw => ?_
    have hw' := hbuf w hw
    cases hs : w.src with
    | buf bs => rfl
    | sendfile len => simp [hs, WriteSrc.isFile] at hw'
  have hpend : tx.pending = obj.range tx.inLen :: q.map fun w => tx.octets w.src := by
    rw [ClientTx.pending, hq, List.map_cons]
    simp [ClientTx.octets, hobj]
  have hlen : ((List.range rc).map fun i => Octet.file ino (ofs + i)).length = rc := by simp
  have hobjlen : (obj.range tx.inLen).length = tx.inLen := by
    rw [hrange _ hle, List.length_append, hlen, FsObj.range_length hread]
    omega
  have hpre : ((List.range rc).map fun i => Octet.file ino (ofs + i)) <+: tx.pending.flatten := by
    rw [hpend, List.flatten_cons, hrange _ hle, List.append_assoc]
    exact List.prefix_append _ _
  have hqpos : [] ∉ q.map fun w => tx.octets w.src := by
    have := nil_notMem_remaining h.entries tx.sent.length
    rw [← h.pending_eq, hpend] at this
    exact fun hm => this (List.mem_cons_of_mem _ hm)
  have hcbs : ∀ w ∈ q, w.src.isFile = false → w.cb ≠ .getMore := fun w hw => h.buf w (hmem w hw)
  refine cliWrote_sound ?_
  have hfuel : tx.writeQ.length + rc = (q.length + rc) + 1 := by rw [hq, List.length_cons]; omega
  simp only [hfuel]
  rw [cliWrCompleted_file e fs more { tx with
    inObj := some obj', inLen := tx.inLen - rc
    sent := tx.sent ++ (List.range rc).map fun i => .file ino (ofs + i) } hq rfl hle hpos]
  split
  · next hall =>
    refine h.wrote hpre rfl rfl h.plain ?_ ?_ ?_ htail hcbs
    · show (q.map fun w => _) = _
      rw [hsame, hlen, hpend, remaining, if_pos (by omega), hobjlen, hall, Nat.sub_self,
        remaining_zero hqpos]
    · rw [hlen, hpend, finished, if_pos (by omega), hobjlen, hall, Nat.sub_self,
        finished_zero hqpos]
      rfl
    · intro w hw hf
      exact absurd (hbuf w hw) (by simp [hf])
  · next hpart =>
    have hlt : rc < tx.inLen := by omega
    refine h.wrote hpre rfl rfl h.plain ?_ ?_ ?_ ?_ ?_
    · show obj'.range (tx.inLen - rc) :: (q.map fun w => _) = _
      rw [hsame, hlen, hpend, remaining, if_neg (by omega), hrange _ hle,
        List.drop_left' hlen]
    · rw [hlen, hpend, finished, if_neg (by omega)]
      exact (List.append_nil _).symm
    · intro w hw hf
      rcases List.mem_cons.mp hw with rfl | hw
      · exact ⟨rfl, rfl, by simpa using hread⟩
      · exact absurd (hbuf w hw) (by simp [hf])
    · exact List.pairwise_cons.mpr ⟨fun w hw => .inr (hbuf w hw), htail⟩
    · intro w hw hf
      rcases List.mem_cons.mp hw with rfl | hw
      · cases hf
      · exact hcbs w hw hf

/-- What each `writev` was handed is the next of the buffers queued. -/
def ClientTx.HandedBufs (tx : ClientTx) : Prop :=
  ∀ p ∈ tx.handed, ∃ bufs : List Bytes,
    p.2 = bufs.map .buf ∧ bufs.flatten.map .mem <+: tx.queued.flatten.drop p.1

theorem ClientTx.HandedBufs.grow {tx tx' : ClientTx} (h : tx.HandedBufs)
    (hhanded : tx'.handed = tx.handed) (hqueued : tx.queued <+: tx'.queued) : tx'.HandedBufs := by
  intro p hp
  obtain ⟨bufs, hbufs, hpre⟩ := h p (hhanded ▸ hp)
  obtain ⟨es, hes⟩ := hqueued
  refine ⟨bufs, hbufs, ?_⟩
  rw [← hes, List.flatten_append]
  by_cases hle : p.1 ≤ tx.queued.flatten.length
  · rw [List.drop_append_of_le_length hle]
    exact hpre.trans (List.prefix_append _ _)
  · rw [List.drop_eq_nil_of_le (by omega)] at hpre
    rw [List.prefix_nil.mp hpre]
    exact List.nil_prefix

/-- The sources of buffers are buffers. -/
theorem exists_bufs {q : List ClientWrite} (h : ∀ w ∈ q, w.src.isFile = false) :
    ∃ bufs : List Bytes, q.map ClientWrite.src = bufs.map .buf ∧ bufs.flatten = memBytes q := by
  induction q with
  | nil => exact ⟨[], rfl, rfl⟩
  | cons w q ih =>
    obtain ⟨bufs, hmap, hflat⟩ := ih fun v hv => h v (List.mem_cons_of_mem w hv)
    obtain ⟨src, cb⟩ := w
    cases src with
    | buf bs => exact ⟨bs :: bufs, by simp [hmap], by rw [List.flatten_cons, hflat, memBytes]⟩
    | sendfile len => cases h _ List.mem_cons_self

theorem ClientTx.Sound.handedBufs {tx : ClientTx} (h : tx.Sound) (hb : tx.HandedBufs)
    {iov : List ClientWrite} (hpre : iov <+: tx.writeQ) (hiov : ∀ w ∈ iov, w.src.isFile = false) :
    { tx with
      handed := tx.handed ++ [(tx.sent.length, iov.map ClientWrite.src)] }.HandedBufs := by
  intro p hp
  rcases List.mem_append.mp hp with hp | hp
  · exact hb p hp
  · obtain rfl := List.mem_singleton.mp hp
    obtain ⟨bufs, hmap, hflat⟩ := exists_bufs hiov
    refine ⟨bufs, hmap, ?_⟩
    rw [hflat, @memBytes_eq tx _ hiov, ← h.pending_flatten, ClientTx.pending]
    exact (hpre.map _).flatten

theorem ClientTx.HandedBufs.extends {tx tx' : ClientTx} (h : tx.HandedBufs) (he : tx.Extends tx') :
    tx'.HandedBufs := h.grow he.handed he.queued

/-- What a round comes to: the queue goes on, or it is dropped after a failure. -/
def Ends (res : ClientTx × Bool) (temporary : Bool) : Prop :=
  res.1.HandedBufs ∧ (res.1.Sound ∨ res.1.Dropped ∧ res.2 = false ∧ temporary = false)

theorem cliSendfile_ends (e : Env) (fs : Vol) {r : WrRes} {tx : ClientTx} (h : tx.Sound)
    (hb : tx.HandedBufs) {len : Nat} {cb : CliWriteFunc} {q : List ClientWrite}
    (hq : tx.writeQ = ⟨.sendfile len, cb⟩ :: q) (hok : r ≠ .again ∧ r ≠ .intr) :
    Ends (cliSendfile e fs r tx) r.temporary := by
  obtain ⟨-, -, hobj⟩ := h.file _ (hq ▸ List.mem_cons_self) rfl
  obtain ⟨obj, hin, hread⟩ := Option.any_eq_true _ _ |>.mp hobj
  obtain ⟨fd, hfd⟩ := Option.isSome_iff_exists.mp hread
  have hdrop : (cliWriteErr tx).HandedBufs ∧ (cliWriteErr tx).Dropped :=
    ⟨hb.grow rfl List.prefix_rfl, h.writeErr (by simp [hq])⟩
  cases r with
  | wrote n more =>
    simp only [cliSendfile, hin]
    cases hs : fsObjSendfile fs obj n (min tx.inLen cliMaxSendfileSz) with
    | none => simp [fsObjSendfile, hfd] at hs
    | some p =>
      obtain ⟨ino, ofs, rc, obj'⟩ := p
      refine ⟨?_, .inl (sendfile_sound e fs more h hq hin hs)⟩
      refine ClientTx.HandedBufs.extends ?_ (.wrote e fs more rc _)
      exact hb.grow rfl List.prefix_rfl
  | again => exact absurd rfl hok.1
  | intr => exact absurd rfl hok.2
  | wantRead => exact ⟨hdrop.1, .inr ⟨hdrop.2, rfl, rfl⟩⟩
  | fail => exact ⟨hdrop.1, .inr ⟨hdrop.2, rfl, rfl⟩⟩

theorem cliWritev_ends (e : Env) (fs : Vol) {r : WrRes} {tx : ClientTx} (h : tx.Sound)
    (hb : tx.HandedBufs) (hne : tx.writeQ ≠ [])
    (hok : ∀ w ∈ cliWrIov cliMaxWrIov 0 tx.writeQ, w.src.isFile = false) :
    Ends (cliWritev e fs r tx) r.temporary := by
  have hpre := cliWrIov_begins cliMaxWrIov 0 tx.writeQ
  have hhand := h.handedBufs hb hpre hok
  have hsound := h.congr tx.writing tx.evWrite
    (tx.handed ++ [(tx.sent.length, (cliWrIov cliMaxWrIov 0 tx.writeQ).map ClientWrite.src)])
  cases r with
  | wrote n more =>
    refine ⟨?_, .inl (writev_sound e fs more hsound hpre hok (List.take_prefix n _))⟩
    refine ClientTx.HandedBufs.extends ?_ (.wrote e fs more _ _)
    exact hhand.grow rfl List.prefix_rfl
  | again => exact ⟨hhand, .inl hsound⟩
  | intr => exact ⟨hhand, .inl hsound⟩
  | wantRead => exact ⟨hhand.grow rfl List.prefix_rfl, .inr ⟨hsound.writeErr hne, rfl, rfl⟩⟩
  | fail => exact ⟨hhand.grow rfl List.prefix_rfl, .inr ⟨hsound.writeErr hne, rfl, rfl⟩⟩

theorem cliWriteOnce_ends (e : Env) (fs : Vol) {r : WrRes} {tx : ClientTx} (h : tx.Sound)
    (hb : tx.HandedBufs) (hok : roundOk r tx = true) :
    Ends (cliWriteOnce e fs r tx) r.temporary := by
  unfold roundOk at hok
  unfold cliWriteOnce
  cases hq : tx.writeQ with
  | nil => exact ⟨hb, .inl h⟩
  | cons w rest =>
    obtain ⟨src, cb⟩ := w
    rw [hq] at hok
    cases src with
    | sendfile len => exact cliSendfile_ends e fs h hb hq (by simpa using hok)
    | buf bs =>
      dsimp only
      rw [h.plain, if_neg Bool.false_ne_true]
      exact cliWritev_ends e fs h hb (by simp [hq]) (by simpa [hq] using hok)

theorem cliWritable_sound (e : Env) (fs : Vol) {wr : List WrRes} {tx : ClientTx} (h : tx.Sound)
    (hb : tx.HandedBufs) (hok : writableOk e fs wr tx = true) :
    (cliWritable e fs wr tx).HandedBufs ∧
      ((cliWritable e fs wr tx).Sound ∨
        (cliWritable e fs wr tx).Dropped ∧ wr.all WrRes.temporary = false) := by
  induction wr generalizing tx with
  | nil =>
    obtain ⟨hhand, hsound | ⟨-, -, ht⟩⟩ := cliWriteOnce_ends e fs h hb hok
    · exact ⟨hhand, .inl hsound⟩
    · cases ht
  | cons r rs ih =>
    obtain ⟨hround, hnext⟩ := Bool.and_eq_true_iff.mp hok
    obtain ⟨hhand, hres⟩ := cliWriteOnce_ends e fs h hb hround
    rw [cliWritable]
    generalize hone : cliWriteOnce e fs r tx = one at hnext hhand hres
    obtain ⟨tx', again⟩ := one
    cases again with
    | true =>
      rcases hres with hsound | ⟨-, hstop, -⟩
      · obtain ⟨hhand', hres'⟩ := ih hsound hhand hnext
        refine ⟨hhand', hres'.imp_right fun ⟨hdrop, ht⟩ => ⟨hdrop, ?_⟩⟩
        simp [ht]
      · cases hstop
    | false =>
      refine ⟨hhand, hres.imp_right fun ⟨hdrop, _, ht⟩ => ⟨hdrop, ?_⟩⟩
      simp [ht]

/-! ## Runs -/

/-- A new entry of bytes behind the others. -/
theorem ClientTx.Sound.push {tx : ClientTx} (h : tx.Sound) {tx' : ClientTx} {w : ClientWrite}
    (hq : tx'.writeQ = tx.writeQ ++ [w]) (hqueued : tx'.queued = tx.queued ++ [tx.octets w.src])
    (hsent : tx'.sent = tx.sent) (hcalled : tx'.called = tx.called) (hplain : tx'.ssl = tx.ssl)
    (hin : tx'.inObj = tx.inObj ∧ tx'.inLen = tx.inLen) (hne : tx.octets w.src ≠ [])
    (hfile : w.src.isFile = true →
      w.src = .sendfile tx.inLen ∧ w.cb = .getMore ∧ tx.inObj.any FsObj.readable = true)
    (hone : ∀ v ∈ tx.writeQ, v.src.isFile = false ∨ w.src.isFile = false)
    (hbuf : w.src.isFile = false → w.cb ≠ .getMore) : tx'.Sound where
  plain := hplain.trans h.plain
  entries := by
    rw [hqueued, List.mem_append, List.mem_singleton]
    exact not_or.mpr ⟨h.entries, hne.symm⟩
  sent_eq := by
    rw [hqueued, hsent, List.flatten_append, List.take_append_of_le_length h.sent_length_le, h.sent_eq]
  pending_eq := by
    have hsame : ∀ src, tx'.octets src = tx.octets src := by
      intro src
      cases src <;> simp [octets, hin.1]
    rw [hqueued, hsent, remaining_append (by simpa using hne.symm) h.sent_length_le, ← h.pending_eq,
      pending, pending, hq, List.map_append]
    simp [hsame]
  called_eq := by
    rw [hcalled, hqueued, hsent, finished_append (by simpa using hne.symm) h.sent_length_le,
      h.called_eq]
  file v hv hf := by
    rw [hq, List.mem_append, List.mem_singleton] at hv
    rw [hin.1, hin.2]
    rcases hv with hv | rfl
    · exact h.file v hv hf
    · exact hfile hf
  one_file := by
    rw [hq]
    refine List.pairwise_append.mpr ⟨h.one_file, List.pairwise_singleton _ _, ?_⟩
    intro v hv u hu
    obtain rfl := List.mem_singleton.mp hu
    exact hone v hv
  buf v hv hf := by
    rw [hq, List.mem_append, List.mem_singleton] at hv
    rcases hv with hv | rfl
    · exact h.buf v hv hf
    · exact hbuf hf

/-- The object is changed while no file is queued. -/
theorem ClientTx.Sound.setObj {tx : ClientTx} (h : tx.Sound) (hf : tx.filed = false)
    (obj : Option FsObj) (len : Nat) : { tx with inObj := obj, inLen := len }.Sound := by
  have hbufs : ∀ w ∈ tx.writeQ, w.src.isFile = false := by simpa [filed] using hf
  refine ⟨h.plain, h.entries, h.sent_eq, ?_, h.called_eq, ?_, h.one_file, h.buf⟩
  · rw [← h.pending_eq]
    refine List.map_congr_left fun w hw => ?_
    have hw' := hbufs w hw
    cases hs : w.src with
    | buf bs => rfl
    | sendfile n => simp [hs, WriteSrc.isFile] at hw'
  · intro w hw hw'
    exact absurd (hbufs w hw) (by simp [hw'])

theorem txStep_sound (e : Env) {tx : ClientTx} {op : TxOp} (h : tx.Sound) (hb : tx.HandedBufs)
    (hok : txOk e tx op = true) :
    (txStep e tx op).HandedBufs ∧
      ((txStep e tx op).Sound ∨ (txStep e tx op).Dropped ∧ op.temporary = false) := by
  unfold txStep
  rw [if_neg h.false_notMem_called]
  cases op with
  | opened obj size =>
    have hf : tx.filed = false := by simp only [txOk, Bool.and_eq_true, Bool.not_eq_true'] at hok; exact hok.1
    exact ⟨hb.grow rfl List.prefix_rfl, .inl (h.setObj hf _ _)⟩
  | inEnd =>
    have hf : tx.filed = false := by simpa [txOk] using hok
    exact ⟨hb.grow rfl List.prefix_rfl, .inl (h.setObj hf none tx.inLen)⟩
  | writeq fails bs free =>
    refine ⟨hb.extends (.writeq tx _ _ _), .inl ?_⟩
    dsimp only [cliWriteq]
    split
    · exact h
    · next hne =>
      refine h.push rfl rfl rfl rfl rfl ⟨rfl, rfl⟩ ?_ (by simp [WriteSrc.isFile]) (fun _ _ => .inr rfl) ?_
      · simpa [ClientTx.octets] using (not_or.mp hne).1
      · intro _
        cases free <;> simp
  | sendfile fails =>
    refine ⟨hb.extends (.wrSendfile tx _ _), .inl ?_⟩
    obtain ⟨⟨hf, hlen⟩, hobj⟩ : (tx.filed = false ∧ tx.inLen ≠ 0) ∧
        tx.inObj.any FsObj.readable = true := by simpa [txOk] using hok
    obtain ⟨obj, hin, hread⟩ := Option.any_eq_true _ _ |>.mp hobj
    dsimp only [cliWrSendfile]
    split
    · exact h
    · refine h.push rfl rfl rfl rfl rfl ⟨rfl, rfl⟩ ?_ (fun _ => ⟨rfl, rfl, hobj⟩) ?_ (by simp [WriteSrc.isFile])
      · intro hnil
        have hrange := FsObj.range_length hread tx.inLen
        simp only [ClientTx.octets, hin] at hnil
        rw [hnil] at hrange
        exact hlen hrange.symm
      · intro v hv
        have hbufs : ∀ w ∈ tx.writeQ, w.src.isFile = false := by simpa [ClientTx.filed] using hf
        exact .inl (hbufs v hv)
  | writable fs wr => exact cliWritable_sound e fs h hb hok
  | free =>
    refine ⟨hb.grow rfl List.prefix_rfl, ?_⟩
    by_cases hq : tx.writeQ = []
    · left
      have hsame : cliWriteFreeAll tx = tx := by
        cases tx
        subst hq
        simp [cliWriteFreeAll]
      exact hsame.symm ▸ h
    · right
      have hd := h.writeErr hq
      exact ⟨⟨hd.entries, hd.sent_eq, hd.empty, hd.told, hd.called_eq⟩, rfl⟩

theorem txStep_dropped (e : Env) {tx : ClientTx} (op : TxOp) (h : tx.Dropped) :
    txStep e tx op = tx := by
  unfold txStep
  exact if_pos h.told

/-- What the peer and the callbacks see of the queue. -/
structure ClientTx.InOrder (tx : ClientTx) : Prop where
  sent : tx.sent <+: tx.queued.flatten
  handed : tx.HandedBufs
  once : tx.called.length + tx.writeQ.length = tx.queued.length
  told : ∀ (i : Nat) (hi : i < tx.called.length),
    tx.called[i] = true ↔ (tx.queued.take (i + 1)).flatten.length ≤ tx.sent.length

theorem ClientTx.Sound.inOrder {tx : ClientTx} (h : tx.Sound) (hb : tx.HandedBufs) : tx.InOrder where
  sent := h.sent_eq ▸ List.take_prefix _ _
  handed := hb
  once := by
    have hlen : tx.writeQ.length = (remaining tx.queued tx.sent.length).length := by
      rw [← h.pending_eq, pending, List.length_map]
    rw [h.called_eq, List.length_replicate, hlen, finished_add_remaining]
  told i hi := by
    have hf := finished_add_remaining tx.queued tx.sent.length
    have hi' : i < finished tx.queued tx.sent.length := by
      rw [h.called_eq, List.length_replicate] at hi
      exact hi
    rw [← lt_finished_iff (by omega)]
    simp [h.called_eq, hi']

theorem ClientTx.Dropped.inOrder {tx : ClientTx} (h : tx.Dropped) (hb : tx.HandedBufs) :
    tx.InOrder where
  sent := h.sent_eq ▸ List.take_prefix _ _
  handed := hb
  once := by
    rw [h.called_eq, h.empty, List.length_append, List.length_replicate, List.length_replicate,
      finished_add_remaining]
    rfl
  told i hi := by
    have hf := finished_add_remaining tx.queued tx.sent.length
    have hi' : i < tx.queued.length := by
      rw [h.called_eq, List.length_append, List.length_replicate, List.length_replicate] at hi
      omega
    rw [← lt_finished_iff hi']
    simp only [h.called_eq, List.getElem_append, List.length_replicate, List.getElem_replicate]
    split <;> simp_all

/-- In a run that hands no file to `writev` and in which no write of a file would block, the socket
gets the entries in order, each callback is told once and truly, and nothing is dropped but for a
failure. -/
theorem run_writes_in_order (e : Env) (ops : List TxOp)
    (h : Meets (txStep e) (fun tx op => txOk e tx op = true) ({} : ClientTx) ops) :
    (run (txStep e) {} ops).InOrder ∧
      ((∀ op ∈ ops, op.temporary = true) →
        (run (txStep e) {} ops).sent ++ (run (txStep e) {} ops).pending.flatten =
          (run (txStep e) {} ops).queued.flatten) := by
  have h0 : ({} : ClientTx).Sound :=
    ⟨rfl, by simp, rfl, rfl, rfl, by simp, .nil, by simp⟩
  have hb0 : ({} : ClientTx).HandedBufs := by intro p hp; cases hp
  generalize ({} : ClientTx) = tx at h h0 hb0 ⊢
  induction ops generalizing tx with
  | nil =>
    refine ⟨h0.inOrder hb0, fun _ => ?_⟩
    show tx.sent ++ tx.pending.flatten = tx.queued.flatten
    conv_lhs => rw [h0.pending_flatten, ← h0.sent_eq]
    simp only [List.length_take, min_eq_left h0.sent_length_le, List.take_append_drop]
  | cons op ops ih =>
    obtain ⟨hb, hs | ⟨hd, ht⟩⟩ := txStep_sound e h0 hb0 h.1
    · obtain ⟨hin, hall⟩ := ih _ h.2 hs hb
      exact ⟨hin, fun hops => hall fun o ho => hops o (List.mem_cons_of_mem op ho)⟩
    · have hstay : run (txStep e) (txStep e tx op) ops = txStep e tx op :=
        run_invariant (I := fun t => t = txStep e tx op) rfl
          (fun _ o ht => by rw [ht, txStep_dropped e o hd]) ops
      refine ⟨?_, fun hops => ?_⟩
      · rw [run, hstay]
        exact hd.inOrder hb
      · rw [hops op List.mem_cons_self] at ht
        cases ht

/-- A file of three bytes behind a header of 203. -/
def abcVol : Vol := (emptyVol.creat ⟨1, []⟩ 0).write 0 203 abc 0

def abcObj : FsObj := { size := 3, inFd := some (0, 203), valueOfs := 203 }

theorem run_writes_in_order_abc :
    (run (txStep .sample) {}
      [.opened abcObj 3, .writeq false (List.replicate 56 0) true,
        .writable abcVol [.intr, .wrote 10 ⟨none, false⟩], .writable abcVol [.wrote 56 ⟨none, false⟩],
        .sendfile false, .writable abcVol [.wrote 2 ⟨none, false⟩],
        .writable abcVol [.wrote 2 ⟨none, false⟩]]).InOrder :=
  (run_writes_in_order .sample _ (by decide +kernel)).1

/-- The header and the object of an answer, of which the socket takes the header and no more. -/
def blockedGet : List TxOp :=
  [.opened abcObj 3, .writeq false (List.replicate 56 0) true, .sendfile false,
    .writable abcVol [.wrote 59 ⟨none, false⟩], .writable abcVol [.again]]

/-- The file is handed to `writev`, and dropped when the socket would block. -/
theorem blocked_file_dropped :
    (∀ op ∈ blockedGet, op.temporary = true) ∧
      ¬ (run (txStep .sample) {} blockedGet).InOrder ∧
      (run (txStep .sample) {} blockedGet).sent ++ (run (txStep .sample) {} blockedGet).pending.flatten ≠
        (run (txStep .sample) {} blockedGet).queued.flatten := by
  refine ⟨by decide, fun h => ?_, by decide +kernel⟩
  have hmem : (0, [.buf (List.replicate 56 0), .sendfile 3]) ∈
      (run (txStep .sample) {} blockedGet).handed := by decide +kernel
  obtain ⟨bufs, hbufs, -⟩ := h.handed _ hmem
  have hfile : WriteSrc.sendfile 3 ∈ bufs.map WriteSrc.buf := hbufs ▸ by simp
  simp at hfile

end Hail.Chunkd
