import Hail.Cld.Path
import Hail.Library.Run

/-!
# The write queue of a socket

`atcp.c`: buffers are queued with callbacks and written in pieces. The length of a buffer is an
`unsigned int` for `atcp_writeq` and an `int` in `struct atcp_write`.
-/
namespace Hail.Lib

open Library Cld

def atcpMaxWrIov : Nat := 32

def enomem : Nat := 12

def einval : Nat := 22

/-- `struct atcp_write`. The pointer `buf` is a number of bytes into the buffer that was queued; a
callback is known by its `cb_data`. -/
structure AtcpWrite where
  data : Bytes
  buf : Nat
  togo : Int
  length : Int
  cb : Option Nat
  deriving DecidableEq, Repr

/-- What has been written of the buffer. -/
def AtcpWrite.written (w : AtcpWrite) : Bytes := w.data.take w.buf

/-- `struct atcp_wr_state`, and what has happened: the buffers queued, the bytes on the socket, the
entries freed, with what their callbacks were told, and the calls of callbacks. -/
structure AtcpWrState where
  writing : Bool
  writeCnt : Nat
  writeCntMax : Nat
  writeQ : List AtcpWrite
  writeComplQ : List AtcpWrite
  optWrite : Nat
  queued : List (Bytes × Option Nat)
  sent : Bytes
  freed : List (AtcpWrite × Bool)
  calls : List (Nat × Bool)
  deriving DecidableEq, Repr

def atcpWrInit : AtcpWrState := ⟨false, 0, 0, [], [], 0, [], [], [], []⟩

/-- A `size_t` less an `int`. -/
def sizeSub (n : Nat) (i : Int) : Nat := (((n : Int) - i) % (2 ^ 64 : Nat)).toNat

/-- `atcp_write_free`, of an entry that has been taken off its list. -/
def atcpWriteFree (done : Bool) (s : AtcpWrState) (w : AtcpWrite) : AtcpWrState :=
  { s with
    writeCnt := sizeSub s.writeCnt w.length
    freed := s.freed ++ [(w, done)]
    calls := s.calls ++ (w.cb.map (·, done)).toList }

def atcpWriteRunCompl (s : AtcpWrState) : AtcpWrState :=
  s.writeComplQ.foldl (atcpWriteFree true) { s with writeComplQ := [] }

def atcpWriteFreeAll (s : AtcpWrState) : AtcpWrState :=
  let s := atcpWriteRunCompl s
  s.writeQ.foldl (atcpWriteFree false) { s with writeQ := [] }

/-! ## Writing -/

/-- What `writev` may do. -/
inductive WritevRes where
  | wrote (n : Nat)
  | again | intr | fail
  deriving DecidableEq, Repr

/-- `iov_len`, a `size_t`. -/
def AtcpWrite.iovLen (w : AtcpWrite) : Nat := (w.togo % (2 ^ 64 : Nat)).toNat

/-- The bytes that an `iovec` points to. -/
def AtcpWrite.iovData (w : AtcpWrite) : Bytes := (w.data.drop w.buf).take w.iovLen

def atcpWrIov (s : AtcpWrState) : List AtcpWrite := s.writeQ.take atcpMaxWrIov

/-- `writev`, called again after `EINTR`. It fails if the lengths add up to more than an `ssize_t` holds.
The result is a number of bytes, or `none` for `EAGAIN`. -/
def writev (iov : List AtcpWrite) (res : List WritevRes) : Except Unit (Option Nat) :=
  if 2 ^ 63 ≤ (iov.map AtcpWrite.iovLen).sum then .error ()
  else
    match res.find? (· ≠ .intr) with
    | some (.wrote n) => .ok (some (min n (iov.map AtcpWrite.iovLen).sum))
    | some .fail => .error ()
    | _ => .ok none

/-- `atcp_wr_completed`: the entries that are complete, and the queue. -/
def atcpWrCompleted : Int → List AtcpWrite → List AtcpWrite × List AtcpWrite
  | _, [] => ([], [])
  | rc, w :: q =>
    if rc ≤ 0 then ([], w :: q)
    else
      let sz := if w.togo < rc then w.togo else rc
      let w := { w with togo := w.togo - sz, buf := w.buf + sz.toNat }
      if w.togo = 0 then
        let r := atcpWrCompleted (rc - sz) q
        (w :: r.1, r.2)
      else ([], w :: q)

def atcpWritable (res : List WritevRes) (evDel : Bool) (s : AtcpWrState) : Bool × AtcpWrState :=
  let iov := atcpWrIov s
  match writev iov res with
  | .error _ => (false, atcpWriteFreeAll s)
  | .ok none => (true, s)
  | .ok (some rc) =>
    let r := atcpWrCompleted rc s.writeQ
    let s := { s with
      sent := s.sent ++ (iov.flatMap AtcpWrite.iovData).take rc
      writeComplQ := s.writeComplQ ++ r.1
      writeQ := r.2 }
    if s.writeQ.isEmpty then
      let s := { s with writing := false }
      if evDel then (true, s) else (false, atcpWriteFreeAll s)
    else (true, s)

def atcpWrEvent (res : List WritevRes) (evDel : Bool) (s : AtcpWrState) : AtcpWrState :=
  atcpWriteRunCompl (atcpWritable res evDel s).2

def atcpWriteStart (res : List WritevRes) (evDel evAdd : Bool) (s : AtcpWrState) : Bool × AtcpWrState :=
  if s.writeQ.isEmpty then (true, s)
  else if s.writing then (false, s)
  else
    let s := (atcpWritable res evDel s).2
    if s.writeQ.isEmpty then (true, { s with optWrite := s.optWrite + 1 })
    else if !evAdd then (true, s)
    else (false, { s with writing := true })

/-- A buffer that `atcp_writeq` may be given. Its length is an `unsigned int`. -/
abbrev AtcpBuf := {data : Bytes // data.length < 2 ^ 32}

def atcpWriteq (memory : Bool) (buf : AtcpBuf) (cb : Option Nat) (s : AtcpWrState) :
    Int × AtcpWrState :=
  if buf.1 = [] then (-einval, s)
  else if !memory then (-enomem, s)
  else
    let wr : AtcpWrite := ⟨buf.1, 0, toInt32 buf.1.length, toInt32 buf.1.length, cb⟩
    let cnt := (s.writeCnt + buf.1.length) % 2 ^ 64
    (0, { s with
      writeQ := s.writeQ ++ [wr]
      queued := s.queued ++ [(buf.1, cb)]
      writeCnt := cnt
      writeCntMax := max cnt s.writeCntMax })

def atcpWrExit (s : AtcpWrState) : AtcpWrState := atcpWriteFreeAll s

inductive AtcpOp where
  | writeq (memory : Bool) (buf : AtcpBuf) (cb : Option Nat)
  | event (res : List WritevRes) (evDel : Bool)
  | start (res : List WritevRes) (evDel evAdd : Bool)
  | runCompl | freeAll | exit

def atcpStep (s : AtcpWrState) : AtcpOp → AtcpWrState
  | .writeq memory buf cb => (atcpWriteq memory buf cb s).2
  | .event res evDel => atcpWrEvent res evDel s
  | .start res evDel evAdd => (atcpWriteStart res evDel evAdd s).2
  | .runCompl => atcpWriteRunCompl s
  | .freeAll => atcpWriteFreeAll s
  | .exit => atcpWrExit s

/-! ## The account of a queue -/

/-- What has not been written of the buffer. -/
def AtcpWrite.rest (w : AtcpWrite) : Bytes := w.data.drop w.buf

/-- An entry that waits. -/
structure AtcpWrite.Live (w : AtcpWrite) : Prop where
  buf_lt : w.buf < w.data.length
  togo_eq : w.togo = (w.data.length - w.buf : Nat)
  length_eq : w.length = w.data.length
  short : w.data.length < 2 ^ 31

/-- An entry that is complete. -/
structure AtcpWrite.Done (w : AtcpWrite) : Prop where
  buf_eq : w.buf = w.data.length
  length_eq : w.length = w.data.length

/-- All that have been queued, wherever they are now. -/
def AtcpWrState.entries (s : AtcpWrState) : List AtcpWrite :=
  s.freed.map Prod.fst ++ s.writeComplQ ++ s.writeQ

def totalLength (ws : List AtcpWrite) : Nat := (ws.map fun w => w.data.length).sum

structure AtcpWrState.Sound (s : AtcpWrState) : Prop where
  queue : ∀ w ∈ s.writeQ, w.Live
  fresh : ∀ w ∈ s.writeQ.tail, w.buf = 0
  compl : ∀ w ∈ s.writeComplQ, w.Done
  freed : ∀ p ∈ s.freed, p.1.buf ≤ p.1.data.length ∧ (p.2 = true ↔ p.1.buf = p.1.data.length)
  queued : s.entries.map (fun w => (w.data, w.cb)) = s.queued
  sent : s.sent = s.entries.flatMap AtcpWrite.written
  cnt : s.writeCnt = totalLength (s.writeComplQ ++ s.writeQ)
  cnt_lt : s.writeCnt < 2 ^ 64
  calls : s.calls = s.freed.filterMap fun p => p.1.cb.map (·, p.2)

theorem totalLength_append (ws vs : List AtcpWrite) :
    totalLength (ws ++ vs) = totalLength ws + totalLength vs := by
  rw [totalLength, List.map_append, List.sum_append, totalLength, totalLength]

theorem flatMap_written_fresh {ws : List AtcpWrite} (h : ∀ w ∈ ws, w.buf = 0) :
    ws.flatMap AtcpWrite.written = [] := by
  refine List.flatMap_eq_nil_iff.mpr fun w hw => ?_
  rw [AtcpWrite.written, h w hw, List.take_zero]

theorem AtcpWrite.Live.rest_length {w : AtcpWrite} (h : w.Live) :
    w.togo = (w.rest.length : Nat) := by
  rw [h.togo_eq, AtcpWrite.rest, List.length_drop]

theorem AtcpWrite.Live.iovLen_eq {w : AtcpWrite} (h : w.Live) : w.iovLen = w.rest.length := by
  have hlt := h.short
  have hrest : w.rest.length ≤ w.data.length := (List.drop_sublist ..).length_le
  rw [AtcpWrite.iovLen, h.rest_length, ← Int.natCast_emod, Int.toNat_natCast, Nat.mod_eq_of_lt (by omega)]

theorem AtcpWrite.Live.iovData_eq {w : AtcpWrite} (h : w.Live) : w.iovData = w.rest := by
  rw [AtcpWrite.iovData, h.iovLen_eq, ← AtcpWrite.rest, List.take_length]

/-! ## What each operation keeps -/

/-- A number of entries freed one after another. -/
theorem foldl_atcpWriteFree (done : Bool) (ws : List AtcpWrite) (s : AtcpWrState) :
    ws.foldl (atcpWriteFree done) s =
      { s with
        writeCnt := ws.foldl (fun n w => sizeSub n w.length) s.writeCnt
        freed := s.freed ++ ws.map (·, done)
        calls := s.calls ++ ws.filterMap fun w => w.cb.map (·, done) } := by
  induction ws generalizing s with
  | nil => simp
  | cons w ws ih =>
    rw [List.foldl_cons, ih, atcpWriteFree]
    cases hcb : w.cb <;> simp [hcb]

/-- The counter comes down by the lengths of the entries. -/
theorem foldl_sizeSub {ws : List AtcpWrite} (h : ∀ w ∈ ws, w.length = w.data.length) {n r : Nat}
    (hn : n = totalLength ws + r) (hlt : n < 2 ^ 64) :
    ws.foldl (fun n w => sizeSub n w.length) n = r := by
  induction ws generalizing n with
  | nil => simpa [totalLength] using hn
  | cons w ws ih =>
    have hsum : totalLength (w :: ws) = w.data.length + totalLength ws := by
      simp [totalLength]
    have hsub : sizeSub n w.length = totalLength ws + r := by
      rw [sizeSub, h w List.mem_cons_self, hn, hsum, Int.emod_eq_of_lt (by omega) (by omega)]
      omega
    rw [List.foldl_cons, hsub]
    exact ih (fun v hv => h v (List.mem_cons_of_mem w hv)) rfl (by omega)

variable {s : AtcpWrState}

theorem AtcpWrState.Sound.runCompl (h : s.Sound) :
    (atcpWriteRunCompl s).Sound ∧ (atcpWriteRunCompl s).writeComplQ = [] ∧
      (atcpWriteRunCompl s).writeQ = s.writeQ := by
  have hcnt : s.writeComplQ.foldl (fun n w => sizeSub n w.length) s.writeCnt = totalLength s.writeQ :=
    foldl_sizeSub (fun w hw => (h.compl w hw).length_eq) (h.cnt.trans (totalLength_append ..)) h.cnt_lt
  rw [atcpWriteRunCompl, foldl_atcpWriteFree]
  dsimp only
  rw [hcnt]
  refine ⟨⟨h.queue, h.fresh, fun w hw => absurd hw List.not_mem_nil, ?_, ?_, ?_, rfl, ?_, ?_⟩, rfl, rfl⟩
  · intro p hp
    rcases List.mem_append.mp hp with hp | hp
    · exact h.freed p hp
    · obtain ⟨w, hw, rfl⟩ := List.mem_map.mp hp
      have hbuf := (h.compl w hw).buf_eq
      exact ⟨hbuf.le, fun _ => hbuf, fun _ => rfl⟩
  · have hqueued := h.queued
    simpa [AtcpWrState.entries, Function.comp_def] using hqueued
  · have hsent := h.sent
    simpa [AtcpWrState.entries, Function.comp_def, List.flatMap_append] using hsent
  · have hlt := h.cnt_lt
    rw [h.cnt, totalLength_append] at hlt
    exact Nat.lt_of_le_of_lt (Nat.le_add_left _ _) hlt
  · dsimp only
    rw [h.calls, List.filterMap_append, List.filterMap_map]
    rfl

theorem AtcpWrState.Sound.freeAll (h : s.Sound) : (atcpWriteFreeAll s).Sound := by
  obtain ⟨h, hcompl, -⟩ := h.runCompl
  rw [atcpWriteFreeAll]
  generalize atcpWriteRunCompl s = t at h hcompl
  have hcnt : t.writeQ.foldl (fun n w => sizeSub n w.length) t.writeCnt = 0 := by
    refine foldl_sizeSub (fun w hw => (h.queue w hw).length_eq) ?_ h.cnt_lt
    rw [h.cnt, hcompl, List.nil_append, Nat.add_zero]
  rw [foldl_atcpWriteFree]
  dsimp only
  rw [hcnt]
  refine ⟨fun w hw => absurd hw List.not_mem_nil, fun w hw => absurd hw List.not_mem_nil, h.compl, ?_,
    ?_, ?_, ?_, (by decide : 0 < 2 ^ 64), ?_⟩
  · intro p hp
    rcases List.mem_append.mp hp with hp | hp
    · exact h.freed p hp
    · obtain ⟨w, hw, rfl⟩ := List.mem_map.mp hp
      have hlt := (h.queue w hw).buf_lt
      exact ⟨hlt.le, fun hf => absurd hf Bool.false_ne_true, fun heq => absurd heq hlt.ne⟩
  · have hqueued := h.queued
    simpa [AtcpWrState.entries, Function.comp_def, hcompl] using hqueued
  · have hsent := h.sent
    simpa [AtcpWrState.entries, Function.comp_def, List.flatMap_append, hcompl] using hsent
  · rw [hcompl]
    rfl
  · dsimp only
    rw [h.calls, List.filterMap_append, List.filterMap_map]
    rfl

/-- What `atcp_wr_completed` makes of a queue of which `rc` bytes have been written. -/
structure Completed (q : List AtcpWrite) (rc : Nat) (r : List AtcpWrite × List AtcpWrite) : Prop where
  same : (r.1 ++ r.2).map (fun w => (w.data, w.cb)) = q.map fun w => (w.data, w.cb)
  compl : ∀ w ∈ r.1, w.Done
  queue : ∀ w ∈ r.2, w.Live
  fresh : ∀ w ∈ r.2.tail, w.buf = 0
  written : (r.1 ++ r.2).flatMap AtcpWrite.written =
    q.flatMap AtcpWrite.written ++ (q.flatMap AtcpWrite.rest).take rc

theorem atcpWrCompleted_completed {q : List AtcpWrite} (hlive : ∀ w ∈ q, w.Live)
    (hfresh : ∀ w ∈ q.tail, w.buf = 0) (rc : Nat) : Completed q rc (atcpWrCompleted rc q) := by
  induction q generalizing rc with
  | nil =>
    rw [atcpWrCompleted]
    exact ⟨rfl, fun v hv => absurd hv List.not_mem_nil, hlive, hfresh, by simp⟩
  | cons w q ih =>
    have hw := hlive w List.mem_cons_self
    have hq : ∀ v ∈ q, v.Live := fun v hv => hlive v (List.mem_cons_of_mem w hv)
    have hqnil := flatMap_written_fresh hfresh
    rw [List.tail_cons] at hqnil
    rw [atcpWrCompleted]
    by_cases h0 : rc = 0
    · rw [if_pos (by omega), h0]
      exact ⟨rfl, fun v hv => absurd hv List.not_mem_nil, hlive, hfresh, by simp⟩
    rw [if_neg (by omega)]
    have hlen : w.rest.length = w.data.length - w.buf := List.length_drop
    have hbuf := hw.buf_lt
    by_cases hle : w.rest.length ≤ rc
    · -- The whole entry has been written, and the others have not been begun.
      have hsz : (if w.togo < rc then w.togo else (rc : Int)) = w.rest.length := by
        rw [hw.rest_length]
        split <;> omega
      dsimp only
      rw [hsz, hw.rest_length, sub_self, if_pos rfl, ← Int.ofNat_sub hle]
      have hrec := ih hq (fun v hv => hfresh v (List.mem_of_mem_tail hv)) (rc - w.rest.length)
      have hbuf' : w.buf + ((w.rest.length : Nat) : Int).toNat = w.data.length := by
        rw [Int.toNat_natCast]
        omega
      rw [hbuf']
      refine ⟨?_, ?_, hrec.queue, hrec.fresh, ?_⟩
      · rw [List.cons_append, List.map_cons, List.map_cons, hrec.same]
      · intro v hv
        rcases List.mem_cons.mp hv with rfl | hv
        · exact ⟨rfl, hw.length_eq⟩
        · exact hrec.compl v hv
      · rw [List.cons_append, List.flatMap_cons, hrec.written, hqnil, List.nil_append, List.flatMap_cons,
          List.flatMap_cons, hqnil, List.append_nil, List.take_append, List.take_of_length_le hle,
          ← List.append_assoc]
        simp [AtcpWrite.written, AtcpWrite.rest]
    · -- The entry has been written in part.
      have hsz : (if w.togo < rc then w.togo else (rc : Int)) = rc := by
        rw [hw.rest_length, if_neg (by omega)]
      dsimp only
      rw [hsz, if_neg (by rw [hw.rest_length]; omega), Int.toNat_natCast]
      refine ⟨rfl, fun v hv => absurd hv List.not_mem_nil, ?_, hfresh, ?_⟩
      · intro v hv
        rcases List.mem_cons.mp hv with rfl | hv
        · refine ⟨?_, ?_, hw.length_eq, hw.short⟩
          · dsimp only
            omega
          · dsimp only
            rw [hw.togo_eq]
            omega
        · exact hq v hv
      · rw [List.nil_append, List.flatMap_cons, List.flatMap_cons, List.flatMap_cons, hqnil,
          List.take_append_of_le_length (by omega)]
        simp [AtcpWrite.written, AtcpWrite.rest, List.take_add]

/-- The vectors point to the beginning of what waits. -/
theorem iov_take {q : List AtcpWrite} (hlive : ∀ w ∈ q, w.Live) (n : Nat) :
    ((q.take atcpMaxWrIov).flatMap AtcpWrite.iovData).take
        (min n ((q.take atcpMaxWrIov).map AtcpWrite.iovLen).sum) =
      (q.flatMap AtcpWrite.rest).take (min n ((q.take atcpMaxWrIov).map AtcpWrite.iovLen).sum) := by
  have htake : ∀ w ∈ q.take atcpMaxWrIov, w.Live := fun w hw => hlive w (List.mem_of_mem_take hw)
  have hdata : (q.take atcpMaxWrIov).flatMap AtcpWrite.iovData =
      (q.take atcpMaxWrIov).flatMap AtcpWrite.rest :=
    List.flatMap_congr fun w hw => (htake w hw).iovData_eq
  have hlen : ((q.take atcpMaxWrIov).map AtcpWrite.iovLen).sum =
      ((q.take atcpMaxWrIov).flatMap AtcpWrite.rest).length := by
    rw [List.length_flatMap]
    exact congrArg List.sum (List.map_congr_left fun w hw => (htake w hw).iovLen_eq)
  have hsplit : q.flatMap AtcpWrite.rest = (q.take atcpMaxWrIov).flatMap AtcpWrite.rest ++
      (q.drop atcpMaxWrIov).flatMap AtcpWrite.rest := by
    rw [← List.flatMap_append, List.take_append_drop]
  rw [hdata, hsplit, List.take_append_of_le_length (by omega)]

theorem AtcpWrState.Sound.setWriting (h : s.Sound) (writing : Bool) :
    { s with writing := writing }.Sound :=
  ⟨h.queue, h.fresh, h.compl, h.freed, h.queued, h.sent, h.cnt, h.cnt_lt, h.calls⟩

/-- Some bytes are written and the entries that they complete move to the other queue. -/
theorem AtcpWrState.Sound.completed (h : s.Sound) {rc : Nat} {r : List AtcpWrite × List AtcpWrite}
    (hr : Completed s.writeQ rc r) :
    { s with
      sent := s.sent ++ (s.writeQ.flatMap AtcpWrite.rest).take rc
      writeComplQ := s.writeComplQ ++ r.1
      writeQ := r.2 }.Sound := by
  have hdata : totalLength (r.1 ++ r.2) = totalLength s.writeQ := by
    have hmap := congrArg (List.map fun p : Bytes × Option Nat => p.1.length) hr.same
    rw [List.map_map, List.map_map] at hmap
    exact congrArg List.sum hmap
  refine ⟨hr.queue, hr.fresh, ?_, h.freed, ?_, ?_, ?_, h.cnt_lt, h.calls⟩
  · intro w hw
    exact (List.mem_append.mp hw).elim (h.compl w) (hr.compl w)
  · rw [← h.queued, AtcpWrState.entries, AtcpWrState.entries]
    dsimp only
    rw [← List.append_assoc, List.append_assoc, List.map_append, hr.same, ← List.map_append]
  · rw [h.sent, AtcpWrState.entries, AtcpWrState.entries]
    dsimp only
    have hwritten := hr.written
    rw [List.flatMap_append] at hwritten
    simp only [List.flatMap_append, List.append_assoc, hwritten]
  · dsimp only
    rw [h.cnt, List.append_assoc, totalLength_append, totalLength_append, hdata]

theorem AtcpWrState.Sound.writable (h : s.Sound) (res : List WritevRes) (evDel : Bool) :
    (atcpWritable res evDel s).2.Sound := by
  unfold atcpWritable
  dsimp only
  cases hwr : writev (atcpWrIov s) res with
  | error _ => exact h.freeAll
  | ok rc =>
    cases rc with
    | none => exact h
    | some rc =>
      obtain ⟨n, rfl⟩ : ∃ n, rc = min n ((atcpWrIov s).map AtcpWrite.iovLen).sum := by
        unfold writev at hwr
        split at hwr
        · cases hwr
        · split at hwr
          · next n _ => exact ⟨n, (Option.some.inj (Except.ok.inj hwr)).symm⟩
          · cases hwr
          · cases hwr
      have hnext := h.completed (atcpWrCompleted_completed h.queue h.fresh
        (min n ((atcpWrIov s).map AtcpWrite.iovLen).sum))
      rw [atcpWrIov, ← iov_take h.queue, ← atcpWrIov] at hnext
      dsimp only
      split
      · split
        · exact hnext.setWriting false
        · exact (hnext.setWriting false).freeAll
      · exact hnext

theorem AtcpWrState.Sound.start (h : s.Sound) (res : List WritevRes) (evDel evAdd : Bool) :
    (atcpWriteStart res evDel evAdd s).2.Sound := by
  have hw := h.writable res evDel
  unfold atcpWriteStart
  split
  · exact h
  · split
    · exact h
    · dsimp only
      split
      · exact ⟨hw.queue, hw.fresh, hw.compl, hw.freed, hw.queued, hw.sent, hw.cnt, hw.cnt_lt, hw.calls⟩
      · split
        · exact hw
        · exact hw.setWriting true

/-- A buffer shorter than `2 ^ 31` bytes, with which the queues have less than `2 ^ 64`. -/
def AtcpOp.Short (s : AtcpWrState) : AtcpOp → Prop
  | .writeq _ buf _ => buf.1.length < 2 ^ 31 ∧ s.writeCnt + buf.1.length < 2 ^ 64
  | _ => True

instance (s : AtcpWrState) : (op : AtcpOp) → Decidable (op.Short s)
  | .writeq .. => inferInstanceAs (Decidable (_ ∧ _))
  | .event .. | .start .. | .runCompl | .freeAll | .exit => .isTrue trivial

theorem AtcpWrState.Sound.writeq (h : s.Sound) (memory : Bool) {buf : AtcpBuf} (cb : Option Nat)
    (hbuf : buf.1.length < 2 ^ 31) (hcnt : s.writeCnt + buf.1.length < 2 ^ 64) :
    (atcpWriteq memory buf cb s).2.Sound := by
  unfold atcpWriteq
  split
  · exact h
  · next hne =>
    split
    · exact h
    · have hpos := List.length_pos_iff.mpr hne
      dsimp only
      rw [toInt32_of_lt hbuf, Nat.mod_eq_of_lt hcnt]
      refine ⟨?_, ?_, h.compl, h.freed, ?_, ?_, ?_, hcnt, h.calls⟩
      · intro w hw
        rcases List.mem_append.mp hw with hw | hw
        · exact h.queue w hw
        · rw [List.mem_singleton.mp hw]
          exact ⟨hpos, rfl, rfl, hbuf⟩
      · intro w hw
        dsimp only at hw
        cases hq : s.writeQ with
        | nil =>
          rw [hq] at hw
          cases hw
        | cons v q =>
          have hfresh := h.fresh
          rw [hq] at hw hfresh
          rcases List.mem_append.mp hw with hw | hw
          · exact hfresh w hw
          · rw [List.mem_singleton.mp hw]
      · rw [← h.queued, AtcpWrState.entries, AtcpWrState.entries]
        dsimp only
        rw [← List.append_assoc, List.map_append]
        rfl
      · rw [h.sent, AtcpWrState.entries, AtcpWrState.entries]
        dsimp only
        simp [List.flatMap_append, AtcpWrite.written]
      · dsimp only
        rw [h.cnt, ← List.append_assoc, totalLength_append (s.writeComplQ ++ s.writeQ)]
        simp [totalLength]

theorem atcpStep_sound (h : s.Sound) {op : AtcpOp} (hop : op.Short s) : (atcpStep s op).Sound := by
  cases op with
  | writeq memory buf cb => exact h.writeq memory cb hop.1 hop.2
  | event res evDel => exact (h.writable res evDel).runCompl.1
  | start res evDel evAdd => exact h.start res evDel evAdd
  | runCompl => exact h.runCompl.1
  | freeAll => exact h.freeAll
  | exit => exact h.freeAll

/-! ## Runs -/

/-- What the owner of the queue, the peer and the callbacks see. Each buffer queued is in one place, freed,
complete or waiting, in the order in which they were queued. -/
structure AtcpWrState.Accounted (s : AtcpWrState) : Prop where
  cnt : s.writeCnt = totalLength (s.writeComplQ ++ s.writeQ)
  queued : s.entries.map (fun w => (w.data, w.cb)) = s.queued
  sent : s.sent = s.entries.flatMap AtcpWrite.written
  told : ∀ p ∈ s.freed, p.2 = true ↔ p.1.written = p.1.data
  compl : ∀ w ∈ s.writeComplQ, w.written = w.data
  fresh : ∀ w ∈ s.writeQ.tail, w.written = []
  calls : s.calls = s.freed.filterMap fun p => p.1.cb.map (·, p.2)
  inOrder : (∀ p ∈ s.freed, p.2 = true) →
    s.sent ++ s.writeQ.flatMap AtcpWrite.rest = (s.queued.map Prod.fst).flatten

theorem AtcpWrState.Sound.accounted (h : s.Sound) : s.Accounted where
  cnt := h.cnt
  queued := h.queued
  sent := h.sent
  told p hp := by
    obtain ⟨hle, htold⟩ := h.freed p hp
    rw [htold, AtcpWrite.written, List.take_eq_self_iff]
    omega
  compl w hw := by
    rw [AtcpWrite.written, (h.compl w hw).buf_eq, List.take_length]
  fresh w hw := by
    rw [AtcpWrite.written, h.fresh w hw, List.take_zero]
  calls := h.calls
  inOrder hall := by
    have hwhole : ∀ w ∈ s.freed.map Prod.fst ++ s.writeComplQ, w.written = w.data := by
      intro w hw
      rcases List.mem_append.mp hw with hw | hw
      · obtain ⟨p, hp, rfl⟩ := List.mem_map.mp hw
        rw [AtcpWrite.written, ((h.freed p hp).2.mp (hall p hp)), List.take_length]
      · rw [AtcpWrite.written, (h.compl w hw).buf_eq, List.take_length]
    have hqueue : s.writeQ.flatMap AtcpWrite.written ++ s.writeQ.flatMap AtcpWrite.rest =
        s.writeQ.flatMap AtcpWrite.data := by
      have hfresh := h.fresh
      cases hq : s.writeQ with
      | nil => rfl
      | cons w q =>
        rw [hq, List.tail_cons] at hfresh
        have hrest : q.flatMap AtcpWrite.rest = q.flatMap AtcpWrite.data :=
          List.flatMap_congr fun v hv => by rw [AtcpWrite.rest, hfresh v hv, List.drop_zero]
        rw [List.flatMap_cons, flatMap_written_fresh hfresh, List.append_nil, List.flatMap_cons,
          List.flatMap_cons, hrest, ← List.append_assoc, AtcpWrite.written, AtcpWrite.rest,
          List.take_append_drop]
    rw [h.sent, ← h.queued, AtcpWrState.entries, List.flatMap_append, List.flatMap_congr hwhole,
      List.append_assoc, hqueue, ← List.flatMap_append, List.map_map, List.flatMap_def]
    rfl

/-- In a run in which every buffer has less than `2 ^ 31` bytes, the counter is right, the bytes go out in
order, and each callback is told once and truly. -/
theorem run_atcp_accounted (ops : List AtcpOp)
    (h : Meets atcpStep (fun s op => op.Short s) atcpWrInit ops) :
    (run atcpStep atcpWrInit ops).Accounted := by
  have h0 : atcpWrInit.Sound :=
    ⟨fun w hw => absurd hw List.not_mem_nil, fun w hw => absurd hw List.not_mem_nil,
      fun w hw => absurd hw List.not_mem_nil, fun w hw => absurd hw List.not_mem_nil, rfl, rfl, rfl,
      (by decide : 0 < 2 ^ 64), rfl⟩
  exact (h.invariant h0 fun _ _ hs hop => atcpStep_sound hs hop).accounted

/-- Two buffers, of which the second is written in two pieces and a third is discarded. -/
theorem run_atcp_accounted_abc :
    (run atcpStep atcpWrInit [.writeq true ⟨[0x61], by decide⟩ (some 1),
      .writeq true ⟨[0x62, 0x63], by decide⟩ (some 2), .event [.intr, .wrote 2] true,
      .writeq true ⟨[0x64], by decide⟩ none, .start [.wrote 1] true true,
      .event [.fail] true]).Accounted :=
  run_atcp_accounted _ (by decide +kernel)

/-- The entry of a buffer of `2 ^ 31` bytes. -/
def hugeWrite (n : Nat) : AtcpWrite := ⟨List.replicate n 0, 0, -2 ^ 31, -2 ^ 31, none⟩

/-- A queue of one buffer of `2 ^ 31` bytes. -/
def hugeQueue (n : Nat) : AtcpWrState :=
  { atcpWrInit with
    writeCnt := 2 ^ 31
    writeCntMax := 2 ^ 31
    writeQ := [hugeWrite n]
    queued := [(List.replicate n 0, none)] }

theorem atcpWriteq_huge {n : Nat} (hn : n = 2 ^ 31) (h : (List.replicate n (0 : UInt8)).length < 2 ^ 32) :
    (atcpWriteq true ⟨List.replicate n 0, h⟩ none atcpWrInit).2 = hugeQueue n := by
  have hne : List.replicate n (0 : UInt8) ≠ [] := by
    rw [Ne, List.replicate_eq_nil_iff, hn]
    decide
  have hint : toInt32 n = -2 ^ 31 := by
    rw [hn]
    decide
  have hcnt : (atcpWrInit.writeCnt + n) % 2 ^ 64 = 2 ^ 31 := by
    rw [hn]
    decide
  have hmax : max (2 ^ 31) atcpWrInit.writeCntMax = 2 ^ 31 := by decide
  rw [atcpWriteq, if_neg hne, if_neg (by decide)]
  simp only [List.length_replicate, hint, hcnt, hmax, hugeQueue, hugeWrite]
  simp only [atcpWrInit, List.nil_append]

/-- `writev` refuses the queue, and the counter is not brought down. -/
theorem atcpWrEvent_huge (n : Nat) (res : List WritevRes) (evDel : Bool) :
    (atcpWrEvent res evDel (hugeQueue n)).writeQ = [] ∧
      (atcpWrEvent res evDel (hugeQueue n)).writeComplQ = [] ∧
      (atcpWrEvent res evDel (hugeQueue n)).writeCnt = 2 ^ 32 := by
  have hsum : 2 ^ 63 ≤ ((atcpWrIov (hugeQueue n)).map AtcpWrite.iovLen).sum := by
    change 2 ^ 63 ≤ ([((-2 ^ 31 : Int) % (2 ^ 64 : Nat)).toNat] : List Nat).sum
    decide
  have hcnt : sizeSub (2 ^ 31) (-2 ^ 31) = 2 ^ 32 := by decide
  rw [atcpWrEvent, atcpWritable, writev, if_pos hsum]
  simp only [atcpWriteFreeAll, atcpWriteRunCompl, atcpWriteFree, hugeQueue, hugeWrite, atcpWrInit,
    List.foldl_nil, List.foldl_cons, hcnt, and_self]

/-- A buffer of `2 ^ 31` bytes cannot be written, and leaves the counter at `2 ^ 32` when it is
discarded. -/
theorem hugeBuf_miscounted :
    ∃ ops, (run atcpStep atcpWrInit ops).writeQ = [] ∧ (run atcpStep atcpWrInit ops).writeComplQ = [] ∧
      (run atcpStep atcpWrInit ops).writeCnt = 2 ^ 32 ∧ ¬ (run atcpStep atcpWrInit ops).Accounted := by
  obtain ⟨n, hn⟩ : ∃ n, n = 2 ^ 31 := ⟨2 ^ 31, rfl⟩
  have hlt : (List.replicate n (0 : UInt8)).length < 2 ^ 32 := by
    rw [List.length_replicate, hn]
    decide
  have hrun : run atcpStep atcpWrInit [.writeq true ⟨List.replicate n 0, hlt⟩ none, .event [.fail] true] =
      atcpWrEvent [.fail] true (hugeQueue n) := by
    rw [← atcpWriteq_huge hn hlt]
    rfl
  obtain ⟨hq, hcompl, hcnt⟩ := atcpWrEvent_huge n [.fail] true
  refine ⟨_, by rw [hrun, hq], by rw [hrun, hcompl], by rw [hrun, hcnt], fun h => ?_⟩
  have htotal := h.cnt
  rw [hrun, hq, hcompl, hcnt] at htotal
  exact absurd htotal (by decide)

end Hail.Lib
