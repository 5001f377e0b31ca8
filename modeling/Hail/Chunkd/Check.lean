import Hail.Chunkd.ReadBack
import Hail.Chunkd.Server
import Hail.Library.Run

/-!
# The control of the self-check

The server thread and the checker thread share the state of the self-check, which each of them changes
under a mutex, and a pipe through which the server sends commands. `chk_start` changes the state, then
starts the thread if there is none, and then writes the command. The thread sets the state to idle at
the head of its loop, before it looks at the pipe.
-/
namespace Hail.Chunkd

open Library

/-- Where the server is in `chk_start`: not in it, before `chk_spawn`, or before the `write`. -/
inductive StartAt where
  | out | spawn | write
  deriving DecidableEq, Repr

/-- Where the checker thread is: not there, at the head of the loop, in `poll`, before the `read`, before
the lock of `chk_thread_scan`, or behind it. -/
inductive CheckerAt where
  | none | top | poll | read | lock | scan
  deriving DecidableEq, Repr

/-- The answer to a CHECK_START: the scans that were queued or running when it was decided on, and the
states of the self-check before the request and after the answer. -/
structure StartAnswer where
  code : ChunkErrcode
  scans : Nat
  before : ChkState
  after : ChkState
  deriving DecidableEq, Repr

/-- `chk_state` and the commands in the pipe, with where the two threads are. The last four are a
history: whether the thread has been started or has failed to read, and has begun no scan since; the
scans and the state when the request at hand came; and the answers. -/
structure Check where
  chkState : ChkState := .off
  pipe : Nat := 0
  server : StartAt := .out
  checker : CheckerAt := .none
  fresh : Bool := false
  scans : Nat := 0
  before : ChkState := .off
  answers : List StartAnswer := []
  deriving DecidableEq, Repr

/-- A step: of the server, that a request comes, of a client who is authorized or not, that the thread is
started, or that the command is written, any of which may fail; and of the thread. -/
inductive CheckEvent where
  | checkStart (authorized : Bool)
  | spawn (fails : Bool)
  | write (fails : Bool)
  | checkStatus
  | setIdle
  | polled
  | pollFails
  | read
  | readFails
  | setRunning
  | scanned
  deriving DecidableEq, Repr

/-- The command that the thread has taken from the pipe. -/
def CheckerAt.taken : CheckerAt → Nat
  | .lock | .scan => 1
  | .none | .top | .poll | .read => 0

/-- The scans that are queued or running. -/
def Check.pending (s : Check) : Nat := s.pipe + s.checker.taken

def Check.answer (s : Check) (code : ChunkErrcode) : Check :=
  { s with
    server := .out, answers := s.answers ++ [⟨code, s.scans, s.before, s.chkState⟩] }

/-- The part of `chk_start` up to the unlocking of the mutex. -/
def Check.start (s : Check) (authorized : Bool) : Check :=
  let s := { s with scans := s.pending, before := s.chkState }
  if !authorized then s.answer .accessDenied
  else
    match s.chkState with
    | .off => { s with chkState := .init, server := .spawn }
    | .init | .running => s.answer .busy
    | .idle => { s with chkState := .running, server := .write }

/-- A step that cannot be made where the threads are does nothing. The `write` is not checked. -/
def Check.step (s : Check) : CheckEvent → Check
  | .checkStart authorized => if s.server = .out then s.start authorized else s
  | .spawn fails =>
    if s.server = .spawn then
      if fails then s.answer .internalError
      else { s with server := .write, checker := .top, fresh := true }
    else s
  | .write fails =>
    if s.server = .write then
      { s with pipe := s.pipe + if fails then 0 else 1 }.answer .success
    else s
  | .checkStatus => s
  | .setIdle => if s.checker = .top then { s with chkState := .idle, checker := .poll } else s
  | .polled => if s.checker = .poll ∧ 0 < s.pipe then { s with checker := .read } else s
  | .pollFails => if s.checker = .poll then { s with checker := .none } else s
  | .read => if s.checker = .read then { s with pipe := s.pipe - 1, checker := .lock } else s
  | .readFails => if s.checker = .read then { s with checker := .top, fresh := true } else s
  | .setRunning =>
    if s.checker = .lock then { s with chkState := .running, checker := .scan, fresh := false }
    else s
  | .scanned => if s.checker = .scan then { s with checker := .top } else s

/-! ## One request without steps of the thread -/

/-- The state of the self-check in `srv`, with the server outside `chk_start`. -/
def Srv.check (srv : Srv) (checker : CheckerAt) : Check :=
  { chkState := srv.chkState, pipe := srv.rescans, checker }

/-- `chk_start` is the three steps of the server. -/
theorem chkStart_steps (e : Env) (io : Io) (srv : Srv) (cli : Client) (checker : CheckerAt) :
    let s := run Check.step (srv.check checker) [.checkStart (chkUserAuthorized srv cli.user),
      .spawn (io.sys.fails .chkSpawn), .write false]
    (chkStart e io srv cli).1.chkState = s.chkState ∧ (chkStart e io srv cli).1.rescans = s.pipe ∧
      s.server = .out ∧ ∃ a, s.answers = [a] ∧
        (chkStart e io srv cli).2 = cliErr e io srv.fs cli.req a.code true cli.toClientTx := by
  simp only [run, Check.step, Srv.check, Check.start, Check.answer, chkStart]
  cases chkUserAuthorized srv cli.user with
  | false => simp
  | true => cases hst : srv.chkState <;> cases io.sys.fails .chkSpawn <;> simp [hst]

/-! ## A run -/

/-- The condition on a step: `chk_spawn` does not fail, and no request of an authorized client comes in
the idle state when the thread has been started or has failed to read and has begun no scan since. -/
def Check.Ok (s : Check) : CheckEvent → Prop
  | .checkStart authorized =>
    ¬ (authorized = true ∧ s.server = .out ∧ s.chkState = .idle ∧ s.fresh = true)
  | .spawn fails => ¬ (s.server = .spawn ∧ fails = true)
  | _ => True

instance (s : Check) : (ev : CheckEvent) → Decidable (s.Ok ev)
  | .checkStart _ => inferInstanceAs (Decidable (¬ _))
  | .spawn _ => inferInstanceAs (Decidable (¬ _))
  | .write _ | .checkStatus | .setIdle | .polled | .pollFails | .read | .readFails | .setRunning
  | .scanned => .isTrue trivial

/-- Success is for requests that found no scan queued or running, and an error leaves the state as it
was. -/
def StartAnswer.Right (a : StartAnswer) : Prop :=
  if a.code = .success then a.scans = 0 else a.after = a.before

/-- What holds of the state and the pipe together. -/
structure Check.Inv (s : Check) : Prop where
  one : s.pending + (if s.server = .write then 1 else 0) ≤ 1
  off : s.chkState = .off → s.checker = .none ∧ s.pending = 0 ∧ s.server = .out
  spawn : s.server = .spawn → s.chkState = .init ∧ s.checker = .none ∧ s.pending = 0 ∧ s.scans = 0
  write : s.server = .write → s.scans = 0
  idle : s.chkState = .idle → s.fresh = false → s.pending = 0 ∧ s.server = .out
  top : s.checker = .top → s.fresh = false → s.chkState = .running ∧ s.pending = 0 ∧ s.server = .out
  lock : s.checker = .lock → s.chkState ≠ .off
  scan : s.checker = .scan → s.chkState = .running ∧ s.fresh = false
  read : s.checker = .read → 0 < s.pipe
  answers : ∀ a ∈ s.answers, a.Right

theorem init_checkInv : Check.Inv {} := by
  constructor <;> simp [Check.pending, CheckerAt.taken]

theorem Check.Inv.answer {s : Check} (h : s.Inv) {code : ChunkErrcode} {scans : Nat}
    {before : ChkState} (hcode : (⟨code, scans, before, s.chkState⟩ : StartAnswer).Right) :
    ({ s with scans, before }.answer code).Inv := by
  obtain ⟨one, off, spawn, write, idle, top, lock, scan, read, answers⟩ := h
  constructor <;> grind [Check.pending, Check.answer]

/-- The server decides on a request. -/
theorem Check.Inv.start {s : Check} (h : s.Inv) {authorized : Bool} (hout : s.server = .out)
    (hok : s.Ok (.checkStart authorized)) : (s.start authorized).Inv := by
  have hkeep := h
  obtain ⟨one, off, spawn, write, idle, top, lock, scan, read, answers⟩ := h
  unfold Check.start
  dsimp only
  split
  · exact hkeep.answer (by simp [StartAnswer.Right])
  · next hauth =>
    split
    · constructor <;> simp_all [Check.pending, CheckerAt.taken]
    · next hst => exact hkeep.answer (by simp [StartAnswer.Right, hst])
    · next hst => exact hkeep.answer (by simp [StartAnswer.Right, hst])
    · constructor <;> simp_all [Check.pending, CheckerAt.taken, Check.Ok]

/-- The server goes on with a request that it has decided on. -/
theorem Check.Inv.spawn_write {s : Check} (h : s.Inv) {ev : CheckEvent} (hok : s.Ok ev)
    (hev : (∃ fails, ev = .spawn fails) ∨ ∃ fails, ev = .write fails) : (s.step ev).Inv := by
  have hkeep := h
  obtain ⟨one, off, spawn, write, idle, top, lock, scan, read, answers⟩ := h
  rcases hev with ⟨fails, rfl⟩ | ⟨fails, rfl⟩
  · simp only [Check.step]
    split
    · next hat =>
      split
      · next hfails => exact absurd ⟨hat, hfails⟩ hok
      · constructor <;> simp_all [Check.pending, CheckerAt.taken]
    · exact hkeep
  · simp only [Check.step]
    split
    · next hat => constructor <;> simp_all [Check.pending, Check.answer, StartAnswer.Right] <;> grind
    · exact hkeep

/-- The thread looks at the pipe. -/
theorem Check.Inv.poll {s : Check} (h : s.Inv) {ev : CheckEvent}
    (hev : ev = .setIdle ∨ ev = .polled ∨ ev = .pollFails) : (s.step ev).Inv := by
  have hkeep := h
  have hserver : s.server = .out ∨ s.server = .spawn ∨ s.server = .write := by
    cases s.server <;> simp
  obtain ⟨one, off, spawn, write, idle, top, lock, scan, read, answers⟩ := h
  rcases hev with rfl | rfl | rfl <;> simp only [Check.step] <;> split
  all_goals first | exact hkeep | constructor <;> simp_all [Check.pending, CheckerAt.taken]

/-- The thread takes a command and scans. -/
theorem Check.Inv.scans {s : Check} (h : s.Inv) {ev : CheckEvent}
    (hev : ev = .read ∨ ev = .readFails ∨ ev = .setRunning ∨ ev = .scanned) : (s.step ev).Inv := by
  have hkeep := h
  have hserver : s.server = .out ∨ s.server = .spawn ∨ s.server = .write := by
    cases s.server <;> simp
  obtain ⟨one, off, spawn, write, idle, top, lock, scan, read, answers⟩ := h
  rcases hev with rfl | rfl | rfl | rfl <;> simp only [Check.step] <;> split
  all_goals first | exact hkeep | constructor <;> simp_all [Check.pending, CheckerAt.taken] <;> grind

theorem step_checkInv {s : Check} (h : s.Inv) {ev : CheckEvent} (hok : s.Ok ev) : (s.step ev).Inv := by
  cases ev with
  | checkStart authorized =>
    simp only [Check.step]
    split
    · next hout => exact h.start hout hok
    · exact h
  | spawn fails => exact h.spawn_write hok (.inl ⟨fails, rfl⟩)
  | write fails => exact h.spawn_write hok (.inr ⟨fails, rfl⟩)
  | checkStatus => exact h
  | setIdle | polled | pollFails => exact h.poll (by simp)
  | read | readFails | setRunning | scanned => exact h.scans (by simp)

/-- In every run in which no start of the thread fails, and no request comes between the start of the
thread, or a read that fails, and the scan that follows, one command at most is queued or executed;
success is for requests that find none, and an error leaves the state as it was. -/
theorem run_check (evs : List CheckEvent) (hok : Meets Check.step Check.Ok {} evs) :
    (run Check.step {} evs).pending ≤ 1 ∧
      ∀ a ∈ (run Check.step {} evs).answers,
        (a.code = .success → a.scans = 0) ∧ (a.code ≠ .success → a.after = a.before) := by
  have h := hok.invariant init_checkInv fun s ev hs he => step_checkInv hs he
  have hone := h.one
  refine ⟨by omega, fun a ha => ?_⟩
  have hright := h.answers a ha
  unfold StartAnswer.Right at hright
  constructor
  · intro hcode
    rwa [if_pos hcode] at hright
  · intro hcode
    rwa [if_neg hcode] at hright

/-- A scan that is asked for, made, and asked for again. -/
def calmCheck : List CheckEvent :=
  [.checkStart true, .spawn false, .write false, .checkStart true, .setIdle, .polled, .read,
    .setRunning, .checkStatus, .scanned, .setIdle, .checkStart true, .write false, .polled]

theorem run_check_calm :
    (run Check.step {} calmCheck).answers.map StartAnswer.code = [.success, .busy, .success] ∧
      (run Check.step {} calmCheck).pending ≤ 1 ∧
      ∀ a ∈ (run Check.step {} calmCheck).answers,
        (a.code = .success → a.scans = 0) ∧ (a.code ≠ .success → a.after = a.before) :=
  ⟨by decide, run_check calmCheck (by decide)⟩

/-- The thread is ready before the first command has been taken, and a second request succeeds. A thread
that cannot be started leaves a state in which no request succeeds. -/
theorem check_fails :
    (run Check.step {} [.checkStart true, .spawn false, .write false, .setIdle, .checkStart true,
        .write false]).pending = 2 ∧
      (run Check.step {} [.checkStart true, .spawn true, .checkStart true]).answers =
        [⟨.internalError, 0, .off, .init⟩, ⟨.busy, 0, .init, .init⟩] := by
  decide

end Hail.Chunkd
