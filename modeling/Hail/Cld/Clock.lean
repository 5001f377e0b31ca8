import Hail.Cld.Conn

/-!
# The two clocks of the server

`tcp_rx` notes the time of a contact from `current_time`, which is read off the clock by
`cldb_checkpoint` every five minutes and by `main_loop` when a signal has ended `event_dispatch`.
`session_timeout` compares it with `time(NULL)`. A session is kept for a minute after a contact that
was noted at its own time; one that was noted earlier than it was is the shorter by the difference.
-/
namespace Hail.Cld

open Library

/-- `time_t`, of which the clock uses the nonnegative half. -/
abbrev TimeT := Fin (2 ^ 63)

/-- The server at the time that `time(NULL)` shows. -/
structure Clocked where
  srv : Server
  now : TimeT

inductive ClockEvent where
  | pass (now : TimeT)
  | packet (fd : Nat) (addr raw : Bytes) (ft : Faults)
  | timeout (sid : Sid) (ft : Faults)
  | retry (sid : Sid) (ok : Nat → Bool)
  | refresh

/-- What happens inside `event_dispatch`, and the return from it after a signal, which refreshes
`current_time` as a checkpoint does. Time does not go back. -/
def Clocked.step (e : Env) (c : Clocked) : ClockEvent → Clocked
  | .pass now => if c.now ≤ now then { c with now } else c
  | .packet fd addr raw ft => { c with srv := (cliRdPkt e ft fd addr raw c.srv).2 }
  | .timeout sid ft => { c with srv := sessionTimeout e ft c.now sid c.srv }
  | .retry sid ok => { c with srv := sessionRetry ok sid c.srv }
  | .refresh => { c with srv := { c.srv with currentTime := c.now } }

/-- Packets are accepted only while `current_time` shows the time. -/
def Clocked.Fresh (e : Env) (c : Clocked) : ClockEvent → Prop
  | .packet _ addr raw _ => (admitted e c.srv addr raw).isSome = true → c.srv.currentTime = c.now
  | _ => True

instance (e : Env) (c : Clocked) (ev : ClockEvent) : Decidable (c.Fresh e ev) := by
  cases ev <;> unfold Clocked.Fresh <;> infer_instance

/-! ## Notes of contacts -/

/-- The time of the last contact of a session. -/
def Server.contact (srv : Server) (sid : Sid) : Option Nat :=
  (srv.sessions.get sid).map Session.lastContact

theorem SessFrame.contact {P : Sent → Prop} {s t : Server} (h : SessFrame P s t) (sid : Sid) :
    t.contact sid = s.contact sid := by
  have hcore := congrArg (Option.map Session.lastContact) (h.core sid)
  rw [Option.map_map, Option.map_map] at hcore
  exact hcore

theorem sendmsg_contact (e : Env) (s : Server) (sid : Sid) (msg : ServerMsg) (op : CldMsgOp)
    (doneCb : DoneCb) (k : Sid) : (sessSendmsg e s sid msg op doneCb).2.contact k = s.contact k := by
  rcases sessSendmsg_cases e s sid msg op doneCb with ⟨sess, pkts, hg, -, h⟩ | h
  · rw [h]
    refine map_get_putSess Session.lastContact hg ?_ ?_ k <;> rfl
  · rw [h]

theorem msgAck_contact (sid : Sid) (seqid : Nat) (s : Server) (k : Sid) :
    (msgAck sid seqid s).contact k = s.contact k := by
  unfold msgAck
  split
  · rfl
  · next sess hg =>
    have hack := sess.ack_eq seqid
    exact map_get_putSess Session.lastContact hg (by rw [hack]) (by rw [hack]) k

theorem simpleSendmsg_contact (e : Env) (s : Server) (fd : Nat) (sid : Sid) (user : Bytes)
    (seqid : Nat) (msg : ServerMsg) (op : CldMsgOp) (k : Sid) :
    (simpleSendmsg e s fd sid user seqid msg op).contact k = s.contact k := by
  unfold simpleSendmsg
  split <;> rfl

theorem contact_del {s : Server} {sid k : Sid} {c : Nat}
    (h : (sessionFree sid s).contact k = some c) : s.contact k = some c := by
  rw [Server.contact, sessionFree, Table.get_del] at h
  split at h
  · cases h
  · exact h

theorem arrive_contact {s : Server} {fd : Nat} {info : PktInfo} {chunk : Bytes} {k : Sid} {c : Nat}
    (h : (s.arrive fd info chunk).2.contact k = some c) :
    if k = info.pkt.sid then c = s.currentTime else s.contact k = some c := by
  unfold Server.arrive at h
  split at h
  · next hg =>
    split
    · next hk => simp [Server.contact, hk, hg] at h
    · exact h
  · next sess hg =>
    have hsid := (sess.rx_sid s.currentTime fd info chunk).1.trans (get_sid hg)
    have hlast : (sess.rx s.currentTime fd info chunk).2.lastContact = s.currentTime := by
      unfold Session.rx Session.begin
      dsimp only
      split_ifs <;> rfl
    simp only [Server.contact, Server.putSess, Table.get_put, hsid] at h
    split at h
    · rw [if_pos ‹_›, ← hlast]
      exact (Option.some.inj h).symm
    · rw [if_neg ‹_›]
      exact h

theorem msgNewSess_contact {e : Env} {ft : Faults} {fd : Nat} {addr : Bytes} {sid : Sid} {user : User}
    {seqid xid : Nat} {s : Server} {k : Sid} {c : Nat}
    (h : (msgNewSess e ft fd addr sid user seqid xid s).contact k = some c) :
    c = s.currentTime ∨ s.contact k = some c := by
  unfold msgNewSess at h
  dsimp only at h
  split_ifs at h
  · rw [simpleSendmsg_contact] at h
    exact .inr h
  · rw [simpleSendmsg_contact] at h
    exact .inr (contact_del h)
  · rw [simpleSendmsg_contact] at h
    exact .inr (contact_del h)
  · rw [sendmsg_contact, Server.contact, Server.putSess, Table.get_put] at h
    split at h
    · exact .inl (Option.some.inj h).symm
    · exact .inr h

/-- A message is noted as a contact at `current_time` or not at all. -/
theorem dispatch_contact {e : Env} {ft : Faults} {fd : Nat} {addr : Bytes} {info : PktInfo}
    {s : Server} {k : Sid} {c : Nat} (h : (dispatch e ft fd addr info s).2.contact k = some c) :
    c = s.currentTime ∨ s.contact k = some c := by
  cases hdec : Request.decode info.op with
  | some dec =>
    rw [dispatch_of_decode hdec] at h
    unfold tcpRxHandle at h
    split at h
    · exact .inr h
    · next sess hg =>
      split at h
      · exact .inr h
      · rw [(handle_sessFrame e ft _ (s := s.note _) (get_sid hg ▸ hg)).contact] at h
        exact .inr h
  | none =>
    unfold dispatch at h
    dsimp only at h
    split at h
    · rw [msgAck_contact] at h
      exact .inr h
    · rw [(sessSendrespGeneric_frame ..).contact] at h
      exact .inr h
    · split at h
      · exact .inr h
      · have hnew := msgNewSess_contact h
        exact hnew
    · rw [msgEndSess, sendmsg_contact] at h
      exact .inr h
    · rw [hdec] at h
      exact .inr h

theorem tcpRx_contact {e : Env} {ft : Faults} {fd : Nat} {addr : Bytes} {info : PktInfo}
    {chunk : Bytes} {s : Server} {k : Sid} {c : Nat}
    (h : (tcpRx e ft fd addr info chunk s).2.contact k = some c) :
    c = s.currentTime ∨ k ≠ info.pkt.sid ∧ s.contact k = some c := by
  have harr : ∀ v, (s.arrive fd info chunk).2 = v → v.contact k = some c →
      c = s.currentTime ∨ k ≠ info.pkt.sid ∧ s.contact k = some c := by
    rintro v rfl hv
    have hv := arrive_contact hv
    split at hv
    · exact .inl hv
    · exact .inr ⟨‹_›, hv⟩
  have htime := arrive_time s fd info chunk
  unfold tcpRx at h
  rcases hv : s.arrive fd info chunk with ⟨fits, v⟩
  rw [hv] at h harr htime
  dsimp only at h
  split_ifs at h
  · exact harr v rfl h
  · rw [simpleSendmsg_contact] at h
    exact harr v rfl h
  · rcases dispatch_contact h with hc | h
    · exact .inl (hc.trans htime)
    · exact harr v rfl h

/-- A packet that is accepted is noted as a contact of its session, at `current_time`. -/
theorem cliRdPkt_contact {e : Env} {ft : Faults} {fd : Nat} {addr raw : Bytes} {s : Server} {k : Sid}
    {c : Nat} (h : (cliRdPkt e ft fd addr raw s).2.contact k = some c) :
    match admitted e s addr raw with
    | none => s.contact k = some c
    | some (info, _) => c = s.currentTime ∨ k ≠ info.pkt.sid ∧ s.contact k = some c := by
  cases hadm : admitted e s addr raw with
  | none =>
    obtain ⟨garbage, rnd, tx, heq⟩ := cliRdPkt_refused e ft fd hadm
    rw [heq] at h
    exact h
  | some p =>
    obtain ⟨info, chunk⟩ := p
    rw [cliRdPkt_admitted e ft fd hadm] at h
    have hrx := @tcpRx_contact e ft fd addr info chunk s k c
    generalize tcpRx e ft fd addr info chunk s = r at h hrx
    obtain ⟨code, t⟩ := r
    cases code
    case ok => exact hrx h
    all_goals
      dsimp only [simpleSendresp] at h
      rw [simpleSendmsg_contact] at h
      exact hrx h

theorem sessionTimeout_contact {e : Env} {ft : Faults} {now : Nat} {sid : Sid} {s : Server} {k : Sid}
    {c : Nat} (h : (sessionTimeout e ft now sid s).contact k = some c) : s.contact k = some c := by
  unfold sessionTimeout at h
  split at h
  · exact h
  · next sess hg =>
    dsimp only at h
    split_ifs at h
    · rcases inTxn_end ft .err (sessionDispose e ft sid) s with he | ⟨db, he⟩
      · rwa [he] at h
      · rw [he] at h
        have hfree : (sessionFree sid (sessionRemove e ft sid s).2).contact k = some c := h
        have hrem := contact_del hfree
        rwa [(sessionRemove_keeps e ft sid s).contact] at hrem
    · rw [sendmsg_contact] at h
      have hping : (s.putSess { sess with pingOpen := true }).contact k = s.contact k := by
        refine map_get_putSess Session.lastContact hg ?_ ?_ k <;> rfl
      exact hping.symm.trans h
    · exact h

theorem sessionRetry_contact (ok : Nat → Bool) (sid : Sid) (s : Server) (k : Sid) :
    (sessionRetry ok sid s).contact k = s.contact k := by
  unfold sessionRetry
  split
  · rfl
  · next sess hg => refine map_get_putSess Session.lastContact hg ?_ ?_ k <;> rfl

/-! ## Runs -/

theorem step_now (e : Env) (c : Clocked) (ev : ClockEvent) : c.now ≤ (c.step e ev).now := by
  cases ev with
  | pass now =>
    simp only [Clocked.step]
    split
    · assumption
    · exact le_refl _
  | _ => exact le_refl _

/-- The last contact of the session was not before time `r`, as it was noted. -/
def Clocked.Since (sid : Sid) (r : TimeT) (c : Clocked) : Prop :=
  r ≤ c.now ∧ ∀ t, c.srv.contact sid = some t → r ≤ t ∧ t ≤ c.now

theorem Clocked.Since.step {e : Env} {sid : Sid} {r : TimeT} {c : Clocked} (h : c.Since sid r)
    {ev : ClockEvent} (hok : c.Fresh e ev) : (c.step e ev).Since sid r := by
  have hnow := step_now e c ev
  have hkeep : ∀ t, c.srv.contact sid = some t → r ≤ t ∧ t ≤ (c.step e ev).now := fun t ht =>
    ⟨(h.2 t ht).1, (h.2 t ht).2.trans hnow⟩
  refine ⟨h.1.trans hnow, fun t ht => ?_⟩
  cases ev with
  | pass now =>
    refine hkeep t ?_
    simp only [Clocked.step] at ht
    split at ht <;> exact ht
  | packet fd addr raw ft =>
    have hcon := cliRdPkt_contact ht
    unfold Clocked.Fresh at hok
    split at hcon
    · exact hkeep t hcon
    · next info chunk hadm =>
      rcases hcon with rfl | ⟨-, hcon⟩
      · rw [hok (by simp [hadm])]
        exact ⟨h.1, le_refl _⟩
      · exact hkeep t hcon
  | timeout k ft => exact hkeep t (sessionTimeout_contact ht)
  | retry k ok => exact hkeep t ((sessionRetry_contact ok k c.srv sid).symm.trans ht)
  | refresh => exact hkeep t ht

/-- An accepted packet of a session is noted at its own time. -/
theorem Clocked.Since.packet {e : Env} {c : Clocked} {fd : Nat} {addr raw : Bytes} {ft : Faults}
    {info : PktInfo} {chunk : Bytes} (hok : c.Fresh e (.packet fd addr raw ft))
    (hadm : admitted e c.srv addr raw = some (info, chunk)) :
    (c.step e (.packet fd addr raw ft)).Since info.pkt.sid c.now := by
  refine ⟨le_refl _, fun t ht => ?_⟩
  have hcon := cliRdPkt_contact ht
  rw [hadm] at hcon
  rcases hcon with rfl | ⟨hne, -⟩
  · rw [hok (by simp [hadm])]
    exact ⟨le_refl _, le_refl _⟩
  · exact absurd rfl hne

theorem Clocked.Since.live {sid : Sid} {r : TimeT} {c : Clocked} (h : c.Since sid r) {sess : Session}
    (hsess : c.srv.sessions.get sid = some sess) (hdead : sess.dead = false)
    (hlt : (c.now : Nat) < r + cldSessTimeout) : sess.expired c.now = false := by
  obtain ⟨hr, hnow⟩ := h.2 sess.lastContact (by simp [Server.contact, hsess])
  have hmax := c.now.isLt
  have hexp : (c.now : Nat) < sess.expire := by
    simp only [Session.expire, cldSessTimeout] at hlt ⊢
    omega
  simp [Session.expired, hdead, hexp]

theorem sessionTimeout_live (e : Env) (ft : Faults) {now : Nat} {sid : Sid} {s : Server}
    {sess : Session} (hg : s.sessions.get sid = some sess) (h : sess.expired now = false) :
    (sessionTimeout e ft now sid s).db = s.db ∧
      ∃ sess', (sessionTimeout e ft now sid s).sessions.get sid = some sess' := by
  have hidle := @sessionTimeout_idle e ft now sid s (by simp [hg, h])
  refine ⟨hidle.db, ?_⟩
  have hfh := hidle.nextFh sid
  simp only [Server.nextFh, hg, Option.map_some, Option.map_eq_some_iff] at hfh
  obtain ⟨sess', hg', -⟩ := hfh
  exact ⟨sess', hg'⟩

/-- In a run in which packets are accepted only while `current_time` shows the time, a session that
has not ended is not disposed of less than `CLD_SESS_TIMEOUT` seconds after a packet of it was
accepted. -/
theorem run_live_kept (e : Env) (c : Clocked) (before after : List ClockEvent) (fd : Nat)
    (addr raw : Bytes) (ft : Faults) (info : PktInfo) (chunk : Bytes) (sess : Session) (ft' : Faults)
    (hrun : Meets (Clocked.step e) (Clocked.Fresh e) c (before ++ .packet fd addr raw ft :: after))
    (hadm : admitted e (run (Clocked.step e) c before).srv addr raw = some (info, chunk))
    (hnow : ((run (Clocked.step e) c (before ++ .packet fd addr raw ft :: after)).now : Nat) <
      (run (Clocked.step e) c before).now + cldSessTimeout)
    (hsess : (run (Clocked.step e) c (before ++ .packet fd addr raw ft :: after)).srv.sessions.get
      info.pkt.sid = some sess)
    (hdead : sess.dead = false) :
    let t := run (Clocked.step e) c (before ++ .packet fd addr raw ft :: after)
    (t.step e (.timeout info.pkt.sid ft')).srv.db = t.srv.db ∧
      ∃ sess', (t.step e (.timeout info.pkt.sid ft')).srv.sessions.get info.pkt.sid = some sess' := by
  have hsince : (run (Clocked.step e) c (before ++ .packet fd addr raw ft :: after)).Since
      info.pkt.sid (run (Clocked.step e) c before).now := by
    obtain ⟨-, hpkt, hafter⟩ := Meets.append.mp hrun
    rw [run_append]
    exact hafter.invariant (Clocked.Since.packet hpkt hadm) fun s ev hs hok => hs.step hok
  exact sessionTimeout_live e ft' hsess (hsince.live hsess hdead hnow)

/-- What `newSessPkt` is taken for. -/
def newSessInfo : PktInfo := ⟨pktHdr 1 User.cli.name (.firstLast 7 .newSess), 0, 7, .newSess⟩

/-- `current_time` is refreshed 100 seconds after the start, a session is made, and its timer runs out
half a minute later. -/
theorem run_live_kept_refreshed :
    let t := run (Clocked.step .plain) ⟨Server.init 0, 0⟩
      [.pass 100, .refresh, .packet 5 [] newSessPkt .none, .pass 130]
    t.now = 130 ∧ ∃ sess', (t.step .plain (.timeout 1 .none)).srv.sessions.get 1 = some sess' := by
  have hfresh : Meets (Clocked.step .plain) (Clocked.Fresh .plain) ⟨Server.init 0, 0⟩
      [.pass 100, .refresh, .packet 5 [] newSessPkt .none, .pass 130] := by decide +kernel
  have hadm : admitted .plain (run (Clocked.step .plain) ⟨Server.init 0, 0⟩
      [.pass 100, .refresh]).srv [] newSessPkt = some (newSessInfo, []) := by decide +kernel
  have hlive : ((run (Clocked.step .plain) ⟨Server.init 0, 0⟩
      [.pass 100, .refresh, .packet 5 [] newSessPkt .none, .pass 130]).srv.sessions.get 1).any
        (fun sess => !sess.dead) = true := by decide +kernel
  obtain ⟨sess, hsess, hdead⟩ := (Option.any_eq_true _ _).mp hlive
  refine ⟨by decide, ?_⟩
  exact (run_live_kept .plain ⟨Server.init 0, 0⟩ [.pass 100, .refresh] [.pass 130] 5 [] newSessPkt
    .none newSessInfo [] sess .none hfresh hadm (by decide +kernel) hsess (by simpa using hdead)).2

/-- Without the refresh the new session is taken to be 100 seconds old, and is gone 30 seconds after
its packet. -/
theorem staleClock_disposes :
    let s := run (Clocked.step .plain) ⟨Server.init 0, 0⟩ [.pass 100]
    let t := run (Clocked.step .plain) s [.packet 5 [] newSessPkt .none, .pass 130]
    admitted .plain s.srv [] newSessPkt = some (newSessInfo, []) ∧
      (t.now : Nat) < s.now + cldSessTimeout ∧
      (t.srv.sessions.get 1).any (fun sess => !sess.dead) = true ∧
      (t.step .plain (.timeout 1 .none)).srv.sessions.get 1 = none ∧
      (t.step .plain (.timeout 1 .none)).srv.db.sessions.get 1 = none := by
  decide +kernel

end Hail.Cld
