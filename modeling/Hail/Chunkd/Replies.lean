import Hail.Chunkd.Answers
import Hail.Chunkd.Login

/-!
# The answers of a connection

In a run on a connection without TLS the requests executed are answered one by one, all but the last, and
what goes out on the socket is a beginning of the answers one behind the other. A request is read when all
answers before it are out.
-/
namespace Hail.Chunkd

open Library

/-! ## The invariant -/

/-- The requests that have been answered, with the answers: these are all that has been queued. -/
structure Client.Told (cli : Client) (rs : List Request) (replies : List Reply) : Prop where
  kept : cli.toClientTx.Kept
  queued : cli.queued.flatten = replies.flatMap Reply.octets
  answers : List.Forall₂ (fun r reply => Reply.To r.hdr reply) rs replies

/-- Every request executed has been answered, all but the one that is being served have, or all but one
on a connection that is closed. -/
inductive Client.Talks (cli : Client) : Prop
  | even {replies : List Reply} (h : cli.Told cli.executed replies) (hw : cli.worker = none)
      (hs : cli.state ≠ .dataIn ∧ cli.state ≠ .sslAccept) (hq : cli.state.reads = true → cli.writeQ = [])
  | owes {rs : List Request} {r : Request} {replies : List Reply} (h : cli.Told rs replies)
      (hsound : cli.toClientTx.Sound) (hex : cli.executed = rs ++ [r]) (hhdr : r.hdr = cli.req)
      (hop : cli.req.op.Bare) (hq : cli.writeQ = [])
      (hs : cli.state = .dataIn ∧ cli.worker = none ∨ cli.state = .recycle ∧ cli.worker.isSome = true)
  | closed {rs : List Request} {r : Request} {replies : List Reply} (h : cli.Told rs replies)
      (hex : cli.executed = rs ++ [r]) (hw : cli.worker = none) (hs : cli.state = .dispose)

theorem Client.Talks.init : cliAlloc.Talks := by
  have hsound : cliAlloc.toClientTx.Sound :=
    ⟨rfl, by simp [cliAlloc], rfl, rfl, rfl, by simp [cliAlloc], .nil, by simp [cliAlloc]⟩
  exact .even ⟨.inl hsound, rfl, .nil⟩ rfl ⟨by simp [cliAlloc], by simp [cliAlloc]⟩ fun _ => rfl

/-- What has been queued answers the requests executed, but for the last. -/
theorem Client.Talks.told {cli : Client} (h : cli.Talks) :
    ∃ rs replies, cli.Told rs replies ∧ rs <+: cli.executed ∧ cli.executed.length ≤ rs.length + 1 := by
  cases h with
  | even h _ _ _ => exact ⟨_, _, h, List.prefix_rfl, Nat.le_succ _⟩
  | owes h _ hex _ _ _ _ | closed h hex _ _ =>
    refine ⟨_, _, h, hex ▸ List.prefix_append _ _, ?_⟩
    rw [hex, List.length_append]
    rfl

/-- When a request is read, all before it have been answered, and the answers are on the socket. -/
theorem Client.Talks.reading {cli : Client} (h : cli.Talks) (hs : cli.state.reads = true) :
    ∃ replies, cli.Told cli.executed replies ∧ cli.sent = cli.queued.flatten := by
  cases h with
  | even h _ _ hq =>
    refine ⟨_, h, ?_⟩
    have hsound : cli.toClientTx.Sound := by
      refine h.kept.sound fun hdisp => ?_
      rw [hdisp] at hs
      cases hs
    have hpend := hsound.pending_flatten
    have hnil : cli.toClientTx.pending = [] := by rw [ClientTx.pending, hq hs, List.map_nil]
    rw [hnil, List.flatten_nil] at hpend
    have hle := List.drop_eq_nil_iff.mp hpend.symm
    rw [← hsound.sent_eq, List.take_of_length_le hle]
  | owes _ _ _ _ _ _ hbusy => rcases hbusy with ⟨hst, -⟩ | ⟨hst, -⟩ <;> rw [hst] at hs <;> cases hs
  | closed _ _ _ hst =>
    rw [hst] at hs
    cases hs

theorem ClientTx.Same.sound {tx tx' : ClientTx} (h : tx.Same tx') (hs : tx.Sound) : tx'.Sound where
  plain := h.ssl.trans hs.plain
  entries := h.queued ▸ hs.entries
  sent_eq := by
    rw [h.queued, h.sent]
    exact hs.sent_eq
  pending_eq := by
    rw [h.queued, h.sent, ← hs.pending_eq, pending, pending, h.writeQ]
    refine List.map_congr_left fun w _ => ?_
    unfold octets
    rw [h.inObj]
  called_eq := by
    rw [h.called, h.queued, h.sent]
    exact hs.called_eq
  file := by
    rw [h.writeQ, h.inLen, h.inObj]
    exact hs.file
  one_file := h.writeQ ▸ hs.one_file
  buf := h.writeQ ▸ hs.buf

theorem ClientTx.Same.dropped {tx tx' : ClientTx} (h : tx.Same tx') (hd : tx.Dropped) : tx'.Dropped where
  entries := h.queued ▸ hd.entries
  sent_eq := by
    rw [h.queued, h.sent]
    exact hd.sent_eq
  empty := h.writeQ.trans hd.empty
  told := h.called ▸ hd.told
  called_eq := by
    rw [h.called, h.queued, h.sent]
    exact hd.called_eq

theorem ClientTx.Same.kept {tx tx' : ClientTx} (h : tx.Same tx') (hs : tx'.state = tx.state)
    (hk : tx.Kept) : tx'.Kept :=
  hk.imp h.sound fun hd => ⟨h.dropped hd.1, hs.trans hd.2⟩

/-- The thread of a copy changes the object only. -/
theorem workerCpThr_tx {e : Env} {io : Io} {srv srv' : Srv} {cli cli' : Client} {wi : WorkerInfo}
    (h : workerCpThr e io srv cli wi = some (srv', cli')) :
    ∃ obj len, cli'.toClientTx = { cli.toClientTx with inObj := obj, inLen := len } := by
  unfold workerCpThr at h
  dsimp only at h
  split at h
  · split at h
    · obtain ⟨-, rfl⟩ := Prod.mk.inj (Option.some.inj h)
      exact ⟨_, _, rfl⟩
    · split at h <;> obtain ⟨-, rfl⟩ := Prod.mk.inj (Option.some.inj h) <;> exact ⟨_, _, rfl⟩
  · split at h
    · cases h
    · obtain ⟨-, rfl⟩ := Prod.mk.inj (Option.some.inj h)
      exact ⟨_, _, rfl⟩
  · split at h
    · cases h
    · split at h <;> obtain ⟨-, rfl⟩ := Prod.mk.inj (Option.some.inj h) <;> exact ⟨_, _, rfl⟩
  · split at h
    · obtain ⟨-, rfl⟩ := Prod.mk.inj (Option.some.inj h)
      exact ⟨_, _, rfl⟩
    · split at h
      · cases h
      · split at h
        · obtain ⟨-, rfl⟩ := Prod.mk.inj (Option.some.inj h)
          exact ⟨_, _, rfl⟩
        · split at h <;> obtain ⟨-, rfl⟩ := Prod.mk.inj (Option.some.inj h) <;> exact ⟨_, _, rfl⟩
  · split at h
    · cases h
    · split at h
      · cases h
      · obtain ⟨-, rfl⟩ := Prod.mk.inj (Option.some.inj h)
        exact ⟨_, _, rfl⟩
      · obtain ⟨-, rfl⟩ := Prod.mk.inj (Option.some.inj h)
        exact ⟨_, _, rfl⟩
  · split at h
    · cases h
    · split at h <;> obtain ⟨-, rfl⟩ := Prod.mk.inj (Option.some.inj h) <;> exact ⟨_, _, rfl⟩
  · obtain ⟨-, rfl⟩ := Prod.mk.inj (Option.some.inj h)
    exact ⟨_, _, rfl⟩
  · obtain ⟨-, rfl⟩ := Prod.mk.inj (Option.some.inj h)
    exact ⟨_, _, rfl⟩

section

variable {e : Env} {io : Io} {srv srv' : Srv} {cli cli' : Client}

/-- A state function has answered the request, or waits. -/
theorem Client.Talks.served {rs : List Request} {r : Request} {replies : List Reply}
    (h : cli.Told rs replies) (hserving : cli.Serving cli') (hex : cli'.executed = rs ++ [r])
    (hhdr : r.hdr = cli.req) (hreq : cli'.req = cli.req) : cli'.Talks := by
  cases hserving with
  | told hreplied hw =>
    cases hreplied with
    | told reply hto hkept hq hs =>
      have htold : cli'.Told (rs ++ [r]) (replies ++ [reply]) := by
        refine ⟨hkept, ?_, ?_⟩
        · rw [hq, h.queued, List.flatMap_append, List.flatMap_singleton]
        · exact List.rel_append h.answers (.cons (hhdr ▸ hto) .nil)
      rw [← hex] at htold
      refine .even htold hw ?_ ?_
      · rcases hs with hs | hs <;> simp [hs]
      · intro hreads
        rcases hs with hs | hs <;> simp [hs, ClientState.reads] at hreads
    | closed hkept hq hs =>
      exact .closed ⟨hkept, by rw [hq, h.queued], h.answers⟩ hex hw hs
  | busy hsound hq hqueued hop hs =>
    refine .owes ⟨.inl hsound, by rw [hqueued, h.queued], h.answers⟩ hsound hex (hhdr.trans hreq.symm) ?_ hq hs
    rw [hreq]
    exact hop

/-- Reading, or a change of the flags, of a client to which no answer is due. -/
theorem Client.Talks.listens (h : cli.Talks) (hs : cli.state.reads = true) (hlisten : cli.Listens cli')
    (hex : cli'.executed = cli.executed) (hworker : cli'.worker = cli.worker) : cli'.Talks := by
  cases h with
  | @even replies h hw hst hq =>
    have hsound : cli.toClientTx.Sound := by
      refine h.kept.sound fun hdisp => ?_
      rw [hdisp] at hs
      cases hs
    have htold : cli'.Told cli'.executed replies :=
      ⟨.inl (hlisten.tx.sound hsound), by rw [hlisten.tx.queued, h.queued], hex ▸ h.answers⟩
    refine .even htold (hworker.trans hw) ?_ fun _ => hlisten.tx.writeQ.trans (hq hs)
    rcases hlisten.state hs with hst | hst
    · simp [hst]
    · constructor <;> intro hno <;> rw [hno] at hst <;> cases hst
  | owes _ _ _ _ _ _ hbusy =>
    rcases hbusy with ⟨hst, -⟩ | ⟨hst, -⟩ <;> rw [hst] at hs <;> cases hs
  | closed _ _ _ hst =>
    rw [hst] at hs
    cases hs

/-- The flags of a client are of no account. -/
theorem Client.Talks.flags (h : cli.Talks) (readWantWrite evWrite : Bool) :
    { cli with readWantWrite, evWrite }.Talks := by
  have hsame : cli.toClientTx.Same { cli.toClientTx with readWantWrite, evWrite } :=
    ⟨rfl, rfl, rfl, rfl, rfl, rfl, rfl⟩
  cases h with
  | even h hw hs hq => exact .even ⟨hsame.kept rfl h.kept, h.queued, h.answers⟩ hw hs hq
  | owes h hsound hex hhdr hop hq hs =>
    exact .owes ⟨hsame.kept rfl h.kept, h.queued, h.answers⟩ (hsame.sound hsound) hex hhdr hop hq hs
  | closed h hex hw hs => exact .closed ⟨hsame.kept rfl h.kept, h.queued, h.answers⟩ hex hw hs

/-- While a copy is made an answer is due. -/
theorem Client.Talks.copying (h : cli.Talks) {wi : WorkerInfo} (hw : cli.worker = some wi) :
    ∃ rs r replies, cli.Told rs replies ∧ cli.toClientTx.Sound ∧ cli.executed = rs ++ [r] ∧
      r.hdr = cli.req ∧ cli.req.op.Bare ∧ cli.writeQ = [] ∧ cli.state = .recycle := by
  cases h with
  | even _ hnone _ _ | closed _ _ hnone _ =>
    rw [hw] at hnone
    cases hnone
  | owes h hsound hex hhdr hop hq hs =>
    refine ⟨_, _, _, h, hsound, hex, hhdr, hop, hq, ?_⟩
    rcases hs with ⟨-, hnone⟩ | ⟨hs, -⟩
    · rw [hw] at hnone
      cases hnone
    · exact hs

/-- Entries have been written, and no more has been queued. -/
theorem Client.Talks.writes (h : cli.Talks) {tx : ClientTx} (hkept : tx.Kept)
    (hqueued : tx.queued = cli.queued) (hgoes : cli.toClientTx.Goes tx)
    (hempty : cli.writeQ = [] → tx.writeQ = [] ∧ tx.state = cli.state) :
    { cli with toClientTx := tx }.Talks := by
  have hstate := hgoes.state
  cases h with
  | even h hw hs hq =>
    refine .even ⟨hkept, hqueued ▸ h.queued, h.answers⟩ hw ?_ ?_
    · rcases hstate with hst | hst
      · exact hst ▸ hs
      · simp [hst]
    · intro hreads
      rcases hstate with hst | hst
      · exact (hempty (hq (hst ▸ hreads))).1
      · dsimp only at hreads
        rw [hst] at hreads
        cases hreads
  | owes h _ hex hhdr hop hq hs =>
    obtain ⟨hq', hst⟩ := hempty hq
    have hsound : tx.Sound := by
      refine hkept.sound ?_
      rw [hst]
      rcases hs with ⟨hs, -⟩ | ⟨hs, -⟩ <;> simp [hs]
    exact .owes ⟨hkept, hqueued ▸ h.queued, h.answers⟩ hsound hex hhdr hop hq' (hst.symm ▸ hs)
  | closed h hex hw hs =>
    refine .closed ⟨hkept, hqueued ▸ h.queued, h.answers⟩ hex hw ?_
    rcases hstate with hst | hst
    · exact hst.trans hs
    · exact hst

theorem Client.Talks.writable (h : cli.Talks) (fs : Vol) (wr : List WrRes) (writeWantRead : Bool) :
    { cli with toClientTx := cliWritable e fs wr { cli.toClientTx with writeWantRead } }.Talks := by
  have hkept : ({ cli.toClientTx with writeWantRead } : ClientTx).Kept := by
    have hcli : cli.toClientTx.Kept := by
      obtain ⟨_, _, h, -, -⟩ := h.told
      exact h.kept
    have hsame : cli.toClientTx.Same { cli.toClientTx with writeWantRead } :=
      ⟨rfl, rfl, rfl, rfl, rfl, rfl, rfl⟩
    exact hsame.kept rfl hcli
  obtain ⟨hkept', hqueued⟩ := hkept.writable e fs wr
  have hgoes : cli.toClientTx.Goes (cliWritable e fs wr { cli.toClientTx with writeWantRead }) :=
    (ClientTx.Goes.sent _ _ _ _ _ _).trans (.writable e fs wr _)
  refine h.writes hkept' hqueued hgoes fun hempty => ?_
  rw [cliWritable_empty e fs wr (by exact hempty)]
  exact ⟨hempty, rfl⟩

/-- The condition on a step. -/
def AnswersWhole (e : Env) (c : Option Client) (i : Srv × Io × ConnEv) : Prop :=
  ∀ cli ∈ c, i.2.1.Queues ∧ (cli.state = .execReq → Answerable e i.1 i.2.1 cli)

/-- What a state function keeps. -/
theorem Client.Talks.func {c : Option Client} (h : cli.Talks) (hheard : cli.Heard) (hw : cli.worker = none)
    (hio : io.Queues) (hok : cli.state = .execReq → Answerable e srv io cli)
    (hstep : stateFunc e io srv cli = some (srv', c)) (hcli : cli' ∈ c) : cli'.Talks := by
  have hreq : cli.req.Sized := ChunksrvReq.sized_ofBytes (hheard.sized .creq)
  unfold stateFunc at hstep
  split at hstep
  · next hs =>
    obtain ⟨-, rfl⟩ := Prod.mk.inj (Option.some.inj hstep)
    obtain rfl := Option.some.inj hcli
    have hwaits := cliEvtRead_waits fixedRead_waits io cli.fixedWant cli
    exact h.listens (by rw [hs]; rfl) (cliEvtRead_listens fixedRead_listens io _ cli) hwaits.executed
      hwaits.worker
  · next hs =>
    obtain ⟨-, rfl⟩ := Prod.mk.inj (Option.some.inj hstep)
    obtain rfl := Option.some.inj hcli
    have hwaits := cliEvtRead_waits varRead_waits io cli.varWant cli
    exact h.listens (by rw [hs]; rfl) (cliEvtRead_listens varRead_listens io _ cli) hwaits.executed
      hwaits.worker
  · next hs =>
    obtain ⟨⟨srv₁, cli₁⟩, hexec, heq⟩ := Option.map_eq_some_iff.mp hstep
    obtain ⟨-, rfl⟩ := Prod.mk.inj heq
    obtain rfl := Option.some.inj hcli
    have hcases := cliEvtExecReq_cases hexec
    have hreq' : cli₁.req = cli.req := congrArg ClientRx.req hcases.serves.rx
    cases h with
    | even h _ _ hq =>
      have hsound : cli.toClientTx.Sound := h.kept.sound (by simp [hs])
      have hserving := cliEvtExecReq_serving (hok hs) hio hreq hsound (hq (by rw [hs]; rfl)) hw hexec
      exact Client.Talks.served h hserving (hcases.served hs hw).1 rfl hreq'
    | owes _ _ _ _ _ _ hbusy => rcases hbusy with ⟨hst, -⟩ | ⟨hst, -⟩ <;> rw [hst] at hs <;> cases hs
    | closed _ _ _ hst =>
      rw [hst] at hs
      cases hs
  · next hs =>
    obtain ⟨⟨srv₁, cli₁⟩, hin, heq⟩ := Option.map_eq_some_iff.mp hstep
    obtain ⟨-, rfl⟩ := Prod.mk.inj heq
    obtain rfl := Option.some.inj hcli
    have hcases := cliEvtDataIn_cases hin
    have hreq' : cli₁.req = cli.req := congrArg ClientRx.req (hcases.serves hs).rx
    cases h with
    | even _ _ hst _ => exact absurd hs hst.1
    | owes h hsound hex hhdr hop hq _ =>
      have hserving := cliEvtDataIn_serving hio hreq hop hsound hq hs hw hin
      exact Client.Talks.served h hserving ((hcases.served hs hw).1.trans hex) hhdr hreq'
    | closed _ _ _ hst =>
      rw [hst] at hs
      cases hs
  · split at hstep <;> obtain ⟨-, rfl⟩ := Prod.mk.inj (Option.some.inj hstep)
    · cases hcli
    · obtain rfl := Option.some.inj hcli
      exact h
  · next hs =>
    obtain ⟨-, rfl⟩ := Prod.mk.inj (Option.some.inj hstep)
    obtain rfl := Option.some.inj hcli
    unfold cliEvtRecycle
    split
    · exact h
    · next hempty =>
      cases h with
      | even h _ _ _ =>
        have hsound : cli.toClientTx.Sound := h.kept.sound (by simp [hs])
        exact .even ⟨.inl (hsound.setState .readFixed), h.queued, h.answers⟩ hw ⟨nofun, nofun⟩
          fun _ => not_not.mp hempty
      | owes _ _ _ _ _ _ hbusy =>
        rcases hbusy with ⟨hst, -⟩ | ⟨-, hsome⟩
        · rw [hst] at hs
          cases hs
        · rw [hw] at hsome
          cases hsome
      | closed _ _ _ hst =>
        rw [hst] at hs
        cases hs
  · next hs =>
    cases h with
    | even _ _ hst _ => exact absurd hs hst.2
    | owes _ _ _ _ _ _ hbusy => rcases hbusy with ⟨hst, -⟩ | ⟨hst, -⟩ <;> rw [hst] at hs <;> cases hs
    | closed _ _ _ hst =>
      rw [hst] at hs
      cases hs

/-- What a step of a connection keeps. -/
theorem Client.Talks.step {ev : ConnEv} {c : Option Client} (h : cli.Talks) (hheard : cli.Heard)
    (hio : io.Queues) (hok : cli.state = .execReq → Answerable e srv io cli)
    (hstep : connStep e io srv cli ev = some (srv', c)) (hcli : cli' ∈ c) : cli'.Talks := by
  unfold connStep at hstep
  split at hstep
  · next hw => exact h.func hheard hw hio hok hstep hcli
  · obtain ⟨-, rfl⟩ := Prod.mk.inj (Option.some.inj hstep)
    obtain rfl := Option.some.inj hcli
    exact h
  · obtain ⟨-, rfl⟩ := Prod.mk.inj (Option.some.inj hstep)
    obtain rfl := Option.some.inj hcli
    split
    · unfold tcpCliWrEvent
      split
      · exact h.flags false false
      · exact h.writable srv.fs io.wr cli.writeWantRead
    · exact h
  · obtain ⟨-, rfl⟩ := Prod.mk.inj (Option.some.inj hstep)
    obtain rfl := Option.some.inj hcli
    split
    · exact h.writable srv.fs io.wr false
    · exact h
  · next wi hw =>
    obtain ⟨⟨srv₁, cli₁⟩, hthr, heq⟩ := Option.map_eq_some_iff.mp hstep
    obtain ⟨-, rfl⟩ := Prod.mk.inj heq
    obtain rfl := Option.some.inj hcli
    have hcopies := workerCpThr_copies hw hthr
    obtain ⟨obj, len, htx⟩ := workerCpThr_tx hthr
    obtain ⟨rs, r, replies, htold, hsound, hex, hhdr, hop, hq, hs⟩ := h.copying hw
    have hsound' : cli₁.toClientTx.Sound := by
      rw [htx]
      exact hsound.setObj (by simp [ClientTx.filed, hq]) obj len
    have hreq : cli₁.req = cli.req := congrArg ClientRx.req hcopies.rx
    refine .owes ⟨.inl hsound', hcopies.queued ▸ htold.queued, htold.answers⟩ hsound'
      (hcopies.executed.trans hex) (hhdr.trans hreq.symm) (hreq ▸ hop) ?_
      (.inr ⟨hcopies.state.trans hs, hcopies.worker⟩)
    rw [htx]
    exact hq
  · obtain ⟨-, rfl⟩ := Prod.mk.inj (Option.some.inj hstep)
    obtain rfl := Option.some.inj hcli
    exact h
  · next wi hw =>
    obtain ⟨-, rfl⟩ := Prod.mk.inj (Option.some.inj hstep)
    obtain rfl := Option.some.inj hcli
    split
    · obtain ⟨rs, r, replies, htold, hsound, hex, hhdr, hop, -, -⟩ := h.copying hw
      have hreq : cli.req.Sized := ChunksrvReq.sized_ofBytes (hheard.sized .creq)
      have hserving : cli.Serving (workerCpPipe e io srv.fs cli wi) :=
        .told (cliErr_bare hio srv.fs hreq hop wi.err _ hsound) rfl
      exact Client.Talks.served htold hserving hex hhdr rfl
    · exact h
  · obtain ⟨-, rfl⟩ := Prod.mk.inj (Option.some.inj hstep)
    obtain rfl := Option.some.inj hcli
    exact h

end

/-! ## A run -/

theorem run_talks (e : Env) {is : List (Srv × Io × ConnEv)}
    (hok : Meets (connNext e) (AnswersWhole e) (some cliAlloc) is) :
    ∀ cli ∈ run (connNext e) (some cliAlloc) is, cli.Talks := by
  have hall : ∀ cli ∈ run (connNext e) (some cliAlloc) is, cli.Heard ∧ cli.Talks := by
    refine hok.invariant (I := fun c : Option Client => ∀ cli ∈ c, cli.Heard ∧ cli.Talks) ?_ ?_
    · rintro cli ⟨⟩
      exact ⟨.init, .init⟩
    · intro c i ih hwhole cli' hcli'
      obtain ⟨cli, srv', c', rfl, hnext, hcli'⟩ := connNext_eq_some hcli'
      obtain ⟨hheard, htalks⟩ := ih cli rfl
      obtain ⟨hio, hok⟩ := hwhole cli rfl
      exact ⟨hheard.step (connStep_cases hnext) cli' hcli', htalks.step hheard hio hok hnext hcli'⟩
  exact fun cli hcli => (hall cli hcli).2

/-- The requests answered and the answers, as seen on the socket. -/
theorem Client.Talks.replies {cli : Client} (h : cli.Talks) :
    ∃ rs replies, rs <+: cli.executed ∧ cli.executed.length ≤ rs.length + 1 ∧
      List.Forall₂ (fun r reply => Reply.To r.hdr reply) rs replies ∧
      cli.sent <+: replies.flatMap Reply.octets ∧
      (cli.state.reads = true → rs = cli.executed ∧ cli.sent = replies.flatMap Reply.octets) := by
  by_cases hs : cli.state.reads = true
  · obtain ⟨replies, h, hsent⟩ := h.reading hs
    rw [h.queued] at hsent
    exact ⟨cli.executed, replies, List.prefix_rfl, Nat.le_succ _, h.answers, hsent ▸ List.prefix_rfl,
      fun _ => ⟨rfl, hsent⟩⟩
  · obtain ⟨rs, replies, h, hpre, hlen⟩ := h.told
    exact ⟨rs, replies, hpre, hlen, h.answers, h.queued ▸ h.kept.sent_begins, fun hno => absurd hno hs⟩

/-- Requests may be anything, and be cut in any way. As long as entries for the answers can be queued and
without TLS, all requests executed but the last have been answered, each with one answer of its form, and
what is on the socket is a beginning of these answers. When a request is read, all before it have been
answered and all answers are on the socket. -/
theorem run_replies (e : Env) {is : List (Srv × Io × ConnEv)}
    (hok : Meets (connNext e) (AnswersWhole e) (some cliAlloc) is) {cli : Client}
    (hrun : run (connNext e) (some cliAlloc) is = some cli) :
    ∃ rs replies, rs <+: cli.executed ∧ cli.executed.length ≤ rs.length + 1 ∧
      List.Forall₂ (fun r reply => Reply.To r.hdr reply) rs replies ∧
      cli.sent <+: replies.flatMap Reply.octets ∧
      (cli.state.reads = true → rs = cli.executed ∧ cli.sent = replies.flatMap Reply.octets) :=
  (run_talks e hok cli hrun).replies

/-- A step in which neither a part nor a listing is asked for, nor TLS. -/
theorem AnswersWhole.of_op {e : Env} {c : Option Client} {i : Srv × Io × ConnEv} (hio : i.2.1.Queues)
    (h : ∀ cli ∈ c, cli.req.op ≠ .startTls ∧ cli.req.op ≠ .getPart ∧ cli.req.op ≠ .list) :
    AnswersWhole e c i := by
  intro cli hcli
  obtain ⟨hplain, hpart, hlist⟩ := h cli hcli
  exact ⟨hio, fun _ => ⟨hplain, fun hunread => absurd hunread.1 hpart, fun hop => absurd hop hlist⟩⟩

/-- A request is read and executed, and its answer written. -/
def attends (m : Message) : List (Io × ConnEv) :=
  [reads m.req.creq, reads m.req.key, reads []] ++ m.body.map (fun b => reads [b]) ++
    [writes, writes, reads []]

theorem attends_queues {ms : List Message} {i : Io × ConnEv} (h : i ∈ ms.flatMap attends) :
    i.1.Queues := by
  have hreads : ∀ bs, (reads bs).1.Queues := fun bs => ⟨rfl, rfl, rfl, rfl, fun _ => rfl⟩
  have hwrites : writes.1.Queues := ⟨rfl, rfl, rfl, rfl, fun _ => rfl⟩
  obtain ⟨m, -, h⟩ := List.mem_flatMap.mp h
  rcases List.mem_append.mp h with h | h
  · rcases List.mem_append.mp h with h | h
    · simp only [List.mem_cons, List.not_mem_nil, or_false] at h
      rcases h with rfl | rfl | rfl <;> exact hreads _
    · obtain ⟨b, -, rfl⟩ := List.mem_map.mp h
      exact hreads _
  · simp only [List.mem_cons, List.not_mem_nil, or_false] at h
    rcases h with rfl | rfl | rfl
    · exact hwrites
    · exact hwrites
    · exact hreads _

/-- The client has the server to itself, and asks for no part and no listing. -/
theorem answersWhole_attends {e : Env} {srv : Srv} {c : Option Client} {ms : List Message}
    (h : Meets (connNext e) (fun c _ => ∀ cli ∈ c,
      cli.req.op ≠ .startTls ∧ cli.req.op ≠ .getPart ∧ cli.req.op ≠ .list) c
        (alone e srv c (ms.flatMap attends))) :
    Meets (connNext e) (AnswersWhole e) c (alone e srv c (ms.flatMap attends)) :=
  h.imp fun _ _ hi hops => .of_op (attends_queues (mem_alone hi)) hops

/-- A user logs in, opens a table, stores an object and sends a NOP: all is answered. -/
theorem run_replies_put :
    ∃ cli ∈ storing ([loginMsg, openMsg, putMsg, nopMsg].flatMap attends),
      cli.executed.length = 4 ∧ cli.state.reads = true ∧
      ∃ rs replies, rs <+: cli.executed ∧ cli.executed.length ≤ rs.length + 1 ∧
        List.Forall₂ (fun r reply => Reply.To r.hdr reply) rs replies ∧
        cli.sent <+: replies.flatMap Reply.octets ∧
        (cli.state.reads = true → rs = cli.executed ∧ cli.sent = replies.flatMap Reply.octets) := by
  have hends : ∃ cli ∈ storing ([loginMsg, openMsg, putMsg, nopMsg].flatMap attends),
      cli.executed.length = 4 ∧ cli.state.reads = true := by decide +kernel
  obtain ⟨cli, hcli, hex, hs⟩ := hends
  exact ⟨cli, hcli, hex, hs, run_replies .storing (answersWhole_attends (by decide +kernel)) hcli⟩

end Hail.Chunkd
