import Hail.Chunkd.Parsing

/-!
# The requests of a connection

A peer sends requests one behind the other, a PUT with its body. What is read of a connection is the
requests executed and a beginning of the next, so the requests executed are the first of those sent. A
PUT that `fs_obj_new` refuses breaks this, for the client goes on with the next request and its body has
not been read.
-/
namespace Hail.Chunkd

open Library

/-! ## What is sent -/

/-- A request as it is sent. -/
structure Message where
  req : Request
  body : Bytes
  deriving DecidableEq, Repr

def Message.hdr (m : Message) : ChunksrvReq := .ofBytes m.req.creq

def Message.head (m : Message) : Bytes := m.req.creq ++ m.req.key ++ m.req.second

def Message.wire (m : Message) : Bytes := m.head ++ m.body

/-- The length of the second record. -/
def secondLen (req : ChunksrvReq) : Nat :=
  match req.op with
  | .cp => req.dataLen
  | .getPart => chunksrvReqGetpartSz
  | _ => 0

/-- The records have the lengths that the header announces, and only a PUT has a body. -/
structure Message.WellFormed (m : Message) : Prop where
  creq : m.req.creq.length = chunksrvReqSz
  key : m.req.key.length = m.hdr.keyLen
  second : m.req.second.length = secondLen m.hdr
  source : m.hdr.op = .cp → m.hdr.dataLen ≤ chdKeySz
  keyed : m.hdr.op = .cp ∨ m.hdr.op = .getPart → m.hdr.keyLen ≠ 0
  body : m.body.length = if m.hdr.op = .put then m.hdr.dataLen else 0

/-- A stream that begins with a header begins with a request that has this header. -/
theorem exists_message {ms : List Message} (hms : ∀ m ∈ ms, m.WellFormed) {creq more : Bytes}
    (hcreq : creq.length = chunksrvReqSz) (h : creq ++ more <+: ms.flatMap Message.wire) :
    ∃ m rest, ms = m :: rest ∧ m.WellFormed ∧ m.req.creq = creq ∧
      more <+: m.req.key ++ (m.req.second ++ (m.body ++ rest.flatMap Message.wire)) := by
  cases ms with
  | nil =>
    have hlen := h.length_le
    rw [List.length_append, hcreq] at hlen
    exact absurd hlen (by simp [chunksrvReqSz])
  | cons m rest =>
    have hm := hms m (by simp)
    obtain ⟨after, heq⟩ := h
    simp only [List.flatMap_cons, Message.wire, Message.head, List.append_assoc] at heq
    obtain ⟨hhead, htail⟩ := List.append_inj heq (hcreq.trans hm.creq.symm)
    exact ⟨m, rest, rfl, hm, hhead.symm, after, htail⟩

/-! ## What has been read -/

/-- What has been read of the next request. -/
def Client.pending (cli : Client) : Bytes :=
  match cli.state with
  | .readFixed => cli.creq.data.take cli.reqUsed
  | .readVar =>
    cli.creq.data ++ ((if cli.secondVar then cli.keyBytes else []) ++
      (cli.buf cli.reqPtr.1).data.take cli.reqUsed)
  | .execReq =>
    cli.creq.data ++ if cli.keyLen = 0 then [] else cli.keyBytes ++ cli.request.second
  | _ => []

theorem ClientRx.store_same {rx : ClientRx} {bs : Bytes}
    (h : rx.reqPtr.2 + bs.length ≤ (rx.buf rx.reqPtr.1).data.length) :
    ((rx.store bs).buf rx.reqPtr.1).data.take (rx.reqPtr.2 + bs.length) =
      (rx.buf rx.reqPtr.1).data.take rx.reqPtr.2 ++ bs := by
  unfold store
  dsimp only
  split <;> next hptr => rw [hptr] at h ⊢; exact Buffer.take_splice h

theorem ClientRx.store_other {rx : ClientRx} {dst : RxBuf} (h : rx.reqPtr.1 ≠ dst) (bs : Bytes) :
    (rx.store bs).buf dst = rx.buf dst := by
  unfold store
  dsimp only
  split <;> cases dst <;> first | rfl | simp_all

/-- A client that is reading a request, or about to execute it. -/
def ClientState.reads : ClientState → Bool
  | .readFixed | .readVar | .execReq => true
  | _ => false

/-- What is taken from the socket is of the next request, or the client is disposed of. -/
structure Client.Takes (cli cli' : Client) : Prop where
  executed : cli'.executed = cli.executed
  worker : cli'.worker = cli.worker
  pending : ∃ bs, cli'.taken = cli.taken ++ bs ∧
    (cli'.state = .dispose ∨ cli'.state.reads = true ∧ cli'.pending = cli.pending ++ bs)

theorem Client.Takes.closed (cli : Client) : cli.Takes { cli with state := .dispose } :=
  ⟨rfl, rfl, [], (List.append_nil _).symm, .inl rfl⟩

theorem fixedRead_pending {cli : Client} (h : cli.Sized) (hs : cli.state = .readFixed) :
    (fixedRead cli).executed = cli.executed ∧ (fixedRead cli).worker = cli.worker ∧
    (fixedRead cli).taken = cli.taken ∧ ((fixedRead cli).state = .dispose ∨
      (fixedRead cli).state.reads = true ∧
      (fixedRead cli).pending = cli.creq.data.take cli.reqUsed) := by
  have hlen : cli.creq.data.length = chunksrvReqSz := h .creq
  unfold fixedRead
  split
  · refine ⟨rfl, rfl, rfl, .inr ⟨?_, ?_⟩⟩
    · rw [hs]
      rfl
    · unfold Client.pending
      rw [hs]
  · next hend =>
    have hall : cli.creq.data.take cli.reqUsed = cli.creq.data :=
      List.take_of_length_le (hlen.le.trans (not_lt.mp hend))
    rw [hall]
    dsimp only
    split
    · next hzero =>
      refine ⟨rfl, rfl, rfl, .inr ⟨rfl, ?_⟩⟩
      unfold Client.pending
      dsimp only
      rw [if_pos hzero, List.append_nil]
    · split
      · exact ⟨rfl, rfl, rfl, .inl rfl⟩
      · exact ⟨rfl, rfl, rfl, .inr ⟨rfl, List.append_nil _⟩⟩

theorem readFixed_takes (io : Io) {cli : Client} (h : cli.Placed) (hs : cli.state = .readFixed) :
    cli.Takes (cliEvtReadFixed io cli) := by
  obtain ⟨hptr, -⟩ := h.fixed hs
  rcases readFixed_cases io h hs with heq | ⟨bs, taken, rww, evw, htaken, hnow, hfit, heq⟩
  · rw [heq]
    exact .closed cli
  · rw [heq]
    have hroom : cli.reqPtr.2 + bs.length ≤ (cli.buf cli.reqPtr.1).data.length := by
      rw [h.sized, hptr]
      exact hfit
    have hsame := ClientRx.store_same hroom
    rw [hptr] at hsame
    obtain ⟨hex, hw, htk, hst⟩ := @fixedRead_pending { cli with
      toClientRx := cli.toClientRx.store bs, taken, readWantWrite := rww, evWrite := evw }
      (h.sized.store bs) hs
    refine ⟨hex, hw, bs, htk.trans htaken, hst.imp_right fun hst => ⟨hst.1, hst.2.trans ?_⟩⟩
    unfold Client.pending
    rw [hs, hnow]
    exact hsame

theorem Client.InRecord.ne_key {cli : Client} (h : cli.InRecord) (hsecond : cli.secondVar = true) :
    cli.reqPtr.1 ≠ .key := by
  cases h with
  | key hfirst _ _ =>
    rw [hsecond] at hfirst
    cases hfirst
  | source _ _ hptr _ => simp [hptr]
  | part _ _ hptr _ => simp [hptr]

/-- The second record of a request that is executed is what has been read for it. -/
theorem Client.InRecord.second {cli : Client} (h : cli.InRecord) (hsized : cli.Sized)
    (hused : cli.reqUsed ≤ cli.varLen) (hlen : cli.varLen ≤ cli.reqPtr.1.size)
    (hend : cli.varLen ≤ cli.reqUsed) (hsecond : cli.secondVar = true) :
    cli.request.second = (cli.buf cli.reqPtr.1).data.take cli.reqUsed := by
  have hall : cli.reqUsed = cli.varLen := le_antisymm hused hend
  unfold ClientRx.request
  cases h with
  | key hfirst _ _ =>
    rw [hsecond] at hfirst
    cases hfirst
  | source _ hop hptr _ =>
    have hle : cli.varLen ≤ cli.key2.data.length := by
      have hsize : cli.key2.data.length = chdKeySz := hsized .key2
      rw [hsize]
      rw [hptr] at hlen
      exact hlen
    rw [hop, hptr, hall]
    exact List.take_append_of_le_length hle
  | part _ hop hptr hpart =>
    have hsize : cli.creqGetpart.data.length = chunksrvReqGetpartSz := hsized .creqGetpart
    rw [hop, hptr, hall, hpart]
    exact (List.take_of_length_le hsize.le).symm

/-- A record of which all that was missing has come. -/
theorem varRead_pending {cli : Client} (h : cli.Heard) (hs : cli.state = .readVar)
    (hused : cli.reqUsed ≤ cli.varLen) (hlen : cli.varLen ≤ cli.reqPtr.1.size) :
    (varRead cli).executed = cli.executed ∧ (varRead cli).worker = cli.worker ∧
    (varRead cli).taken = cli.taken ∧ (varRead cli).state.reads = true ∧
    (varRead cli).pending = cli.pending := by
  have hpos := h.keyLen_pos hs
  have hrec := h.record hs
  have hfirst : cli.secondVar = false → cli.varLen ≤ cli.reqUsed →
      (cli.buf cli.reqPtr.1).data.take cli.reqUsed = cli.keyBytes := by
    intro hno hend
    cases hrec with
    | key _ hptr hlen =>
      have hall : cli.reqUsed = cli.keyLen := (le_antisymm hused hend).trans hlen
      rw [hptr, hall]
      rfl
    | source hsecond _ _ _ | part hsecond _ _ _ =>
      rw [hsecond] at hno
      cases hno
  have hold : cli.pending = cli.creq.data ++ ((if cli.secondVar then cli.keyBytes else []) ++
      (cli.buf cli.reqPtr.1).data.take cli.reqUsed) := by
    unfold Client.pending
    rw [hs]
  rw [hold]
  unfold varRead
  split
  · refine ⟨rfl, rfl, rfl, ?_, hold⟩
    rw [hs]
    rfl
  · next hend =>
    have hend' := not_lt.mp hend
    split
    · next hop =>
      have hno : cli.secondVar = false := by simpa using hop.2
      refine ⟨rfl, rfl, rfl, rfl, ?_⟩
      rw [hno, hfirst hno hend']
      exact congrArg (cli.creq.data ++ ·) (List.append_nil cli.keyBytes)
    · next hcp =>
      split
      · next hop =>
        have hno : cli.secondVar = false := by simpa using hop.2
        refine ⟨rfl, rfl, rfl, rfl, ?_⟩
        rw [hno, hfirst hno hend']
        exact congrArg (cli.creq.data ++ ·) (List.append_nil cli.keyBytes)
      · next hpart =>
        refine ⟨rfl, rfl, rfl, rfl, ?_⟩
        unfold Client.pending
        dsimp only
        rw [if_neg hpos.ne']
        cases hsecond : cli.secondVar with
        | true =>
          have heq := hrec.second h.sized hused hlen hend' hsecond
          rw [← heq]
          rfl
        | false =>
          have hnone : cli.request.second = [] := by
            unfold ClientRx.request
            dsimp only
            split
            · next hop => exact absurd ⟨hop, by simp [hsecond]⟩ hcp
            · next hop => exact absurd ⟨hop, by simp [hsecond]⟩ hpart
            · rfl
          rw [hfirst hsecond hend']
          refine congrArg (cli.creq.data ++ ·) ?_
          exact (congrArg (cli.keyBytes ++ ·) hnone).trans (List.append_nil _)

theorem readVar_takes (io : Io) {cli : Client} (h : cli.Heard) (hplaced : cli.Placed)
    (hs : cli.state = .readVar) : cli.Takes (cliEvtReadVar io cli) := by
  obtain ⟨hne, hptr, hused, hlen⟩ := hplaced.var hs
  rcases readVar_cases io hplaced hs with ⟨-, heq⟩ | ⟨bs, taken, rww, evw, -, htaken, hnow, hfit, heq⟩
  · rw [heq]
    exact .closed cli
  · rw [heq]
    have hroom : cli.reqPtr.2 + bs.length ≤ (cli.buf cli.reqPtr.1).data.length := by
      rw [h.sized, hptr]
      exact hfit.trans hlen
    have hsame := ClientRx.store_same hroom
    have hto : (cli.toClientRx.store bs).reqPtr.1 = cli.reqPtr.1 := by
      rw [ClientRx.store_reqPtr]
    have hheard := h.store hs bs taken rww evw
    obtain ⟨hex, hw, htk, hst, hpend⟩ := varRead_pending hheard hs
      (by rw [hnow, ClientRx.store_varLen]; exact hfit)
      (by rw [ClientRx.store_varLen, hto]; exact hlen)
    refine ⟨hex, hw, bs, htk.trans htaken, .inr ⟨hst, hpend.trans ?_⟩⟩
    unfold Client.pending
    dsimp only
    rw [hs]
    dsimp only
    rw [ClientRx.store_creq hne, ClientRx.store_secondVar, hto, hnow, ← hptr, hsame]
    cases hsecond : cli.secondVar with
    | false => simp only [Bool.false_eq_true, if_false, List.nil_append, List.append_assoc]
    | true =>
      have hkey : (cli.toClientRx.store bs).keyBytes = cli.keyBytes := by
        have hbuf := ClientRx.store_other ((h.record hs).ne_key hsecond) bs
        unfold ClientRx.keyBytes
        rw [ClientRx.store_keyLen]
        exact congrArg (fun b : Buffer => b.data.take cli.keyLen) hbuf
      rw [hkey]
      simp only [if_true, List.append_assoc]

/-! ## What is executed -/

/-- `fs_obj_new` refuses an object. -/
def NewRefused (e : Env) (io : Io) (srv : Srv) (cli : Client) : Prop :=
  (objcacheGet (io.sys.fails .cacheEntry) srv.actives cli.keyBytes true).isSome = true ∧
    ∃ err fs, fsObjNew e io.sys srv.fs cli.tableId cli.keyBytes cli.req.dataLen = (.error err, fs)

/-- `fs_obj_new` refuses the object of a PUT. -/
def Client.PutRefused (e : Env) (io : Io) (srv : Srv) (cli : Client) : Prop :=
  (cli.worker = none ∧ cli.state = .execReq ∧ cli.req.op = .put) ∧
    (validReqHdr cli.req = true ∧ cli.loggedIn = true ∧ cli.verifies e cli.user = true ∧
      cli.tableLen ≠ 0) ∧
    (objcacheGet (io.sys.fails .cacheEntry) srv.actives cli.keyBytes true).isSome = true ∧
    ∃ err fs, fsObjNew e io.sys srv.fs cli.tableId cli.keyBytes cli.req.dataLen = (.error err, fs)

/-- How a request has been executed. -/
inductive Client.Served (cli cli' : Client) : Prop
  | closed (hs : cli'.state = .dispose) (hw : cli'.worker = none)
  | goesOn (hs : cli'.state = .recycle ∨ cli'.state = .sslAccept)
      (hput : cli.req.op = .put → cli.req.dataLen = 0)
  | body (hs : cli'.state = .dataIn) (hw : cli'.worker = none) (hput : cli.req.op = .put)
      (hlen : cli'.outLen = cli.req.dataLen)

section

variable {e : Env} {io : Io}

theorem ClientTx.Answered.served {tx tx' : ClientTx} {cli : Client} (h : tx.Answered tx')
    {cli' : Client} (hs : cli'.state = tx'.state) (hw : cli'.worker = none)
    (hput : cli.req.op = .put → cli.req.dataLen = 0) : cli.Served cli' := by
  rcases h.state with h | h
  · exact .goesOn (.inl (hs.trans h)) hput
  · exact .closed (hs.trans h) hw

theorem PutEnd.served {srv srv' : Srv} {cli cli' : Client} (h : PutEnd e io srv cli srv' cli')
    (hw : cli.worker = none) (hlen : cli.req.dataLen = 0) :
    cli'.executed = cli.executed ∧ cli'.taken = cli.taken ∧ cli.Served cli' := by
  cases h with
  | noMem => exact ⟨rfl, rfl, .closed rfl hw⟩
  | ended _ _ _ htx => exact ⟨rfl, rfl, htx.served rfl hw fun _ => hlen⟩

theorem PutBegin.served {srv srv' : Srv} {cli cli' : Client} (h : PutBegin e io srv cli srv' cli')
    (hw : cli.worker = none) (hop : cli.req.op = .put) :
    cli'.executed = cli.executed ∧ cli'.taken = cli.taken ∧
      (cli.Served cli' ∨ cli.req.dataLen ≠ 0 ∧ NewRefused e io srv cli) := by
  cases h with
  | refused hget hnew htx =>
    refine ⟨rfl, rfl, ?_⟩
    by_cases hlen : cli.req.dataLen = 0
    · exact .inl (htx.served rfl hw fun _ => hlen)
    · exact .inr ⟨hlen, Option.isSome_of_eq_some hget, _, _, hnew⟩
  | started _ _ _ _ => exact ⟨rfl, rfl, .inl (.body rfl hw hop rfl)⟩
  | empty _ _ _ hlen hend =>
    obtain ⟨hex, htk, hserved⟩ := hend.served hw hlen
    refine ⟨hex, htk, .inl ?_⟩
    cases hserved with
    | closed hs hw => exact .closed hs hw
    | goesOn hs hput => exact .goesOn hs hput
    | body hs hw hput hlen => exact .body hs hw hput hlen

theorem ExecOp.served {srv srv' : Srv} {cli cli' : Client} (h : ExecOp e io srv cli srv' cli')
    (hs : cli.state = .recycle) (hw : cli.worker = none) :
    cli'.executed = cli.executed ∧ cli'.taken = cli.taken ∧
      (cli.Served cli' ∨ cli.req.op = .put ∧ cli.req.dataLen ≠ 0 ∧ NewRefused e io srv cli) := by
  cases h with
  | answered _ hput htx => exact ⟨rfl, rfl, .inl (htx.served rfl hw fun h => absurd h hput)⟩
  | login hop =>
    obtain ⟨user, tx, heq, htx, -⟩ := @loginUser_tx e io srv.fs cli
    rw [heq]
    exact ⟨rfl, rfl, .inl (htx.served rfl hw fun h => by simp [hop] at h)⟩
  | put hop h =>
    obtain ⟨hex, htk, hserved⟩ := h.served hw hop
    exact ⟨hex, htk, hserved.imp id fun hrefused => ⟨hop, hrefused⟩⟩
  | del hop =>
    obtain ⟨tx, heq, htx⟩ := @objectDel_tx e io srv cli hs
    rw [heq]
    exact ⟨rfl, rfl, .inl (htx.served rfl hw fun h => by simp [hop] at h)⟩
  | copies hop => exact ⟨rfl, rfl, .inl (.goesOn (.inl hs) fun h => by simp [hop] at h)⟩
  | tableOpen hop =>
    obtain ⟨table, tableLen, tableId, tx, heq, htx⟩ := @volumeOpen_tx e io srv cli
    rw [heq]
    exact ⟨rfl, rfl, .inl (htx.served rfl hw fun h => by simp [hop] at h)⟩
  | checkStart hop =>
    exact ⟨rfl, rfl, .inl ((chkStart_answered srv cli).served rfl hw fun h => by simp [hop] at h)⟩
  | startTls hop hend =>
    rcases hend with rfl | rfl
    · exact ⟨rfl, rfl, .inl (.closed rfl hw)⟩
    · exact ⟨rfl, rfl, .inl (.goesOn (.inr rfl) fun h => by simp [hop] at h)⟩

theorem ExecReq.served {srv srv' : Srv} {cli cli' : Client} (h : ExecReq e io srv cli srv' cli')
    (hs : cli.state = .execReq) (hw : cli.worker = none) :
    cli'.executed = cli.executed ++ [cli.request] ∧ cli'.taken = cli.taken ∧
      (cli.Served cli' ∨ cli.req.dataLen ≠ 0 ∧ cli.PutRefused e io srv) := by
  cases h with
  | refused _ hs => exact ⟨rfl, rfl, .inl (.closed hs hw)⟩
  | passed hhdr hauth hgate _ htable hop =>
    obtain ⟨hex, htk, hserved⟩ := hop.served rfl hw
    refine ⟨hex, htk, ?_⟩
    rcases hserved with hserved | hrefused
    · cases hserved with
      | closed hs hw => exact .inl (.closed hs hw)
      | goesOn hs hput => exact .inl (.goesOn hs hput)
      | body hs hw hput hlen => exact .inl (.body hs hw hput hlen)
    · obtain ⟨hput, hlen, hget, hnew⟩ := hrefused
      have hop : cli.req.op = .put := hput
      have hlogged : cli.loggedIn = true := hgate.resolve_right (by simp [hop])
      have htable : cli.tableLen ≠ 0 := htable (by rw [hop]; rfl)
      exact .inr ⟨hlen, ⟨hw, hs, hop⟩, ⟨hhdr, hlogged, hauth hlogged, htable⟩, hget, hnew⟩

/-- A call for the body of an upload takes no more than is missing of it, and ends the upload when all has
come. -/
theorem DataIn.served {srv srv' : Srv} {cli cli' : Client} (h : DataIn e io srv cli srv' cli')
    (hs : cli.state = .dataIn) (hw : cli.worker = none) :
    cli'.executed = cli.executed ∧ cli'.worker = none ∧
      ∃ bs, cli'.taken = cli.taken ++ bs ∧ (cli'.state = .dispose ∨
        cli'.state = .dataIn ∧ bs.length + cli'.outLen = cli.outLen ∨
        cli'.state = .recycle ∧ bs.length = cli.outLen) := by
  have hnone : cli.taken = cli.taken ++ [] := (List.append_nil _).symm
  cases h with
  | idle => exact ⟨rfl, hw, [], hnone, .inr (.inl ⟨hs, Nat.zero_add _⟩)⟩
  | eof => exact ⟨rfl, hw, [], hnone, .inl rfl⟩
  | sslFailed _ hs => exact ⟨rfl, hw, [], hnone, .inl hs⟩
  | readFailed _ hs => exact ⟨rfl, hw, [], hnone, .inl hs⟩
  | writeFailed _ _ _ _ hs => exact ⟨rfl, hw, _, rfl, .inl hs⟩
  | wrote _ _ hlen => exact ⟨rfl, hw, _, rfl, .inr (.inl ⟨hs, Nat.add_sub_cancel' hlen.le⟩)⟩
  | @wroteAll bs _ _ _ _ _ _ _ hlen hend =>
    cases hend with
    | noMem => exact ⟨rfl, hw, bs, rfl, .inl rfl⟩
    | ended _ _ _ htx =>
      refine ⟨rfl, hw, bs, rfl, ?_⟩
      rcases htx.state with hs | hs
      · exact .inr (.inr ⟨hs, hlen⟩)
      · exact .inl hs
  | ended hlen hend =>
    cases hend with
    | noMem => exact ⟨rfl, hw, [], hnone, .inl rfl⟩
    | ended _ _ _ htx =>
      refine ⟨rfl, hw, [], hnone, ?_⟩
      rcases htx.state with hs | hs
      · exact .inr (.inr ⟨hs, hlen.symm⟩)
      · exact .inl hs

end

/-! ## The invariant -/

/-- The first `k` requests have been executed. What has been taken is these, and what has been read of
the next. -/
inductive Framed (ms : List Message) (cli : Client) : Prop
  | between (k : Nat) (hs : cli.state = .recycle ∨ cli.state = .sslAccept ∨ cli.state = .dispose)
      (hex : cli.executed = (ms.take k).map Message.req)
      (htk : cli.taken = (ms.take k).flatMap Message.wire)
  | reading (k : Nat) (hs : cli.state.reads = true) (hw : cli.worker = none)
      (hex : cli.executed = (ms.take k).map Message.req)
      (htk : cli.taken = (ms.take k).flatMap Message.wire ++ cli.pending)
  | body (k : Nat) (m : Message) (got : Bytes) (hs : cli.state = .dataIn) (hw : cli.worker = none)
      (hm : ms[k]? = some m) (hex : cli.executed = (ms.take (k + 1)).map Message.req)
      (htk : cli.taken = (ms.take k).flatMap Message.wire ++ (m.head ++ got))
      (hlen : got.length + cli.outLen = m.body.length)
  | closing (k : Nat) (hs : cli.state = .dispose) (hw : cli.worker = none)
      (hex : cli.executed = (ms.take k).map Message.req)

theorem Framed.init (ms : List Message) : Framed ms cliAlloc := .reading 0 rfl rfl rfl rfl

theorem Framed.executed_begins {ms : List Message} {cli : Client} (h : Framed ms cli) :
    cli.executed <+: ms.map Message.req := by
  cases h with
  | between k _ hex _ | reading k _ _ hex _ | closing k _ _ hex =>
    rw [hex]
    exact (List.take_prefix k ms).map _
  | body k _ _ _ _ _ hex _ _ =>
    rw [hex]
    exact (List.take_prefix (k + 1) ms).map _

/-- What has been read of the next request follows the requests that have been executed. -/
theorem Framed.aligned {ms : List Message} {cli : Client} (h : Framed ms cli)
    (hreads : cli.state.reads = true) :
    ∃ k, cli.executed = (ms.take k).map Message.req ∧
      cli.taken = (ms.take k).flatMap Message.wire ++ cli.pending := by
  cases h with
  | reading k _ _ hex htk => exact ⟨k, hex, htk⟩
  | between k hs _ _ => rcases hs with hs | hs | hs <;> simp [hs, ClientState.reads] at hreads
  | body _ _ _ hs _ _ _ _ _ | closing _ hs _ _ => simp [hs, ClientState.reads] at hreads

/-- What follows the first `k` requests in the stream. -/
theorem prefix_rest {ms : List Message} {k : Nat} {bs : Bytes}
    (h : (ms.take k).flatMap Message.wire ++ bs <+: ms.flatMap Message.wire) :
    bs <+: (ms.drop k).flatMap Message.wire := by
  have hsplit : ms.flatMap Message.wire =
      (ms.take k).flatMap Message.wire ++ (ms.drop k).flatMap Message.wire := by
    rw [← List.flatMap_append, List.take_append_drop]
  rw [hsplit] at h
  exact (List.prefix_append_right_inj _).mp h

theorem take_succ_wire {ms : List Message} {k : Nat} {m : Message} (h : ms[k]? = some m) :
    (ms.take (k + 1)).flatMap Message.wire = (ms.take k).flatMap Message.wire ++ m.wire := by
  rw [List.take_add_one, h, List.flatMap_append]
  simp

theorem take_succ_req {ms : List Message} {k : Nat} {m : Message} (h : ms[k]? = some m) :
    (ms.take (k + 1)).map Message.req = (ms.take k).map Message.req ++ [m.req] := by
  rw [List.take_add_one, h, List.map_append]
  simp

theorem get_of_drop {ms rest : List Message} {k : Nat} {m : Message} (h : ms.drop k = m :: rest) :
    ms[k]? = some m := by
  rw [← List.head?_drop, h]
  rfl

/-- The header that has been read is that of the next request. -/
theorem next_header {ms : List Message} (hms : ∀ m ∈ ms, m.WellFormed) {k : Nat} {creq more : Bytes}
    (hcreq : creq.length = chunksrvReqSz)
    (h : (ms.take k).flatMap Message.wire ++ (creq ++ more) <+: ms.flatMap Message.wire) :
    ∃ m, ms[k]? = some m ∧ m.WellFormed ∧ m.req.creq = creq ∧
      more <+: m.req.key ++ (m.req.second ++ (m.body ++
        (ms.drop (k + 1)).flatMap Message.wire)) := by
  have hdrop : ∀ m ∈ ms.drop k, m.WellFormed := fun m hm => hms m (List.mem_of_mem_drop hm)
  obtain ⟨m, rest, heq, hm, hhdr, hmore⟩ := exists_message hdrop hcreq (prefix_rest h)
  have hrest : ms.drop (k + 1) = rest := by
    rw [← List.drop_drop, heq]
    rfl
  rw [hrest]
  exact ⟨m, get_of_drop heq, hm, hhdr, hmore⟩

theorem mod_source {n : Nat} (h : n ≤ chdKeySz) : n % 2 ^ 32 = n := by
  have hsz : chdKeySz = 1024 := rfl
  omega

theorem ClientRx.key2Bytes_length (rx : ClientRx) (h : rx.key2.data.length = chdKeySz) :
    rx.key2Bytes.length = rx.varLen := by
  rw [key2Bytes, List.length_take, List.length_append, List.length_replicate, h]
  omega

theorem ClientRx.second_none {rx : ClientRx} (hop : ¬ (rx.req.op = .cp ∨ rx.req.op = .getPart)) :
    rx.request.second = [] ∧ secondLen rx.req = 0 := by
  push Not at hop
  constructor
  · unfold ClientRx.request
    dsimp only
    split
    · next hcp => exact absurd hcp hop.1
    · next hpart => exact absurd hpart hop.2
    · rfl
  · unfold secondLen
    split
    · next hcp => exact absurd hcp hop.1
    · next hpart => exact absurd hpart hop.2
    · rfl

theorem Client.Heard.second_length {cli : Client} (h : cli.Heard) (hs : cli.state = .execReq)
    (hkey : cli.keyLen ≠ 0) (hsource : cli.req.op = .cp → cli.req.dataLen ≤ chdKeySz) :
    cli.request.second.length = secondLen cli.req := by
  by_cases hop : cli.req.op = .cp ∨ cli.req.op = .getPart
  · unfold ClientRx.request secondLen
    rcases hop with hop | hop
    · rw [hop]
      dsimp only
      rw [ClientRx.key2Bytes_length _ (h.sized .key2), h.source hs hkey hop, mod_source (hsource hop)]
    · rw [hop]
      exact h.sized .creqGetpart
  · obtain ⟨hnone, hlen⟩ := ClientRx.second_none hop
    rw [hnone, hlen]
    rfl

theorem Message.hdr_eq {m : Message} {rx : ClientRx} (h : m.req.creq = rx.creq.data) :
    m.hdr = rx.req := by
  unfold hdr ClientRx.req
  rw [h]

/-- The records that have been read are those of the request with this header. -/
theorem Message.WellFormed.records {m : Message} (hwf : m.WellFormed) {cli : Client} (h : cli.Heard)
    (hs : cli.state = .execReq) (hhdr : m.hdr = cli.req) {rest : Bytes}
    (hmore : (if cli.keyLen = 0 then [] else cli.keyBytes ++ cli.request.second) <+:
      m.req.key ++ (m.req.second ++ rest)) :
    m.req.key = cli.keyBytes ∧ m.req.second = cli.request.second := by
  have hkeyLen := (h.keyed (.inr hs)).1
  have hbytes : cli.keyBytes.length = m.req.key.length := by
    rw [h.keyBytes_length hs, hwf.key, hhdr]
  split at hmore
  · next hzero =>
    have hop : ¬ (cli.req.op = .cp ∨ cli.req.op = .getPart) := by
      rw [← hhdr]
      intro hop
      exact hwf.keyed hop (by rw [hhdr, ← hkeyLen, hzero])
    obtain ⟨hnone, hlen⟩ := ClientRx.second_none hop
    have hnoKey : cli.keyBytes = [] := by
      rw [ClientRx.keyBytes, hzero]
      rfl
    constructor
    · rw [hnoKey, ← List.length_eq_zero_iff, ← hbytes, hnoKey]
      rfl
    · rw [hnone, ← List.length_eq_zero_iff, hwf.second, hhdr, hlen]
  · next hkey =>
    obtain ⟨after, heq⟩ := hmore
    rw [List.append_assoc] at heq
    obtain ⟨hfst, hrest⟩ := List.append_inj heq hbytes
    have hlen : cli.request.second.length = m.req.second.length := by
      rw [h.second_length hs hkey (hhdr ▸ hwf.source), hwf.second, hhdr]
    exact ⟨hfst.symm, (List.append_inj hrest hlen).1.symm⟩

/-- The request that is to be executed is the next one sent. -/
theorem next_request {ms : List Message} (hms : ∀ m ∈ ms, m.WellFormed) {k : Nat} {cli : Client}
    (h : cli.Heard) (hs : cli.state = .execReq)
    (hpre : (ms.take k).flatMap Message.wire ++ cli.pending <+: ms.flatMap Message.wire) :
    ∃ m, ms[k]? = some m ∧ m.WellFormed ∧ m.req = cli.request ∧ cli.pending = m.head := by
  have hcreq : cli.creq.data.length = chunksrvReqSz := h.sized .creq
  have hpending : cli.pending =
      cli.creq.data ++ if cli.keyLen = 0 then [] else cli.keyBytes ++ cli.request.second := by
    unfold Client.pending
    rw [hs]
  rw [hpending] at hpre ⊢
  obtain ⟨m, hm, hwf, hhdr, hmore⟩ := next_header hms hcreq hpre
  have hreq := Message.hdr_eq hhdr
  obtain ⟨hkey, hsecond⟩ := hwf.records h hs hreq hmore
  have hall : m.req = cli.request := by
    have heta : m.req = ⟨m.req.creq, m.req.key, m.req.second⟩ := rfl
    rw [heta, hhdr, hkey, hsecond]
    rfl
  refine ⟨m, hm, hwf, hall, ?_⟩
  unfold Message.head
  rw [hhdr, hkey, hsecond]
  split
  · next hzero =>
    have hkeyLen := (h.keyed (.inr hs)).1
    have hop : ¬ (cli.req.op = .cp ∨ cli.req.op = .getPart) := by
      rw [← hreq]
      intro hop
      exact hwf.keyed hop (by rw [hreq, ← hkeyLen, hzero])
    have hnoKey : cli.keyBytes = [] := by
      rw [ClientRx.keyBytes, hzero]
      rfl
    rw [(ClientRx.second_none hop).1, hnoKey, List.append_nil, List.append_nil]
  · rw [List.append_assoc]

/-- The source key of a copy that is being read fits in `key2`. -/
theorem Framed.secondFits {ms : List Message} (hms : ∀ m ∈ ms, m.WellFormed) {cli : Client}
    (h : Framed ms cli) (hsized : cli.Sized) (hpre : cli.taken <+: ms.flatMap Message.wire)
    (i : Srv × Io × ConnEv) : SecondFits (some cli) i := by
  rintro cli ⟨⟩ hw - hs hop - -
  cases h with
  | between _ hst _ _ => simp [hs] at hst
  | body _ _ _ hst _ _ _ _ _ | closing _ hst _ _ =>
    rw [hs] at hst
    cases hst
  | reading k _ _ _ htk =>
    have hpending : cli.pending = cli.creq.data ++ ((if cli.secondVar then cli.keyBytes else []) ++
        (cli.buf cli.reqPtr.1).data.take cli.reqUsed) := by
      unfold Client.pending
      rw [hs]
    rw [htk, hpending] at hpre
    have hcreq : cli.creq.data.length = chunksrvReqSz := hsized .creq
    obtain ⟨m, -, hwf, hhdr, -⟩ := next_header hms hcreq hpre
    rw [← Message.hdr_eq hhdr] at hop ⊢
    exact (Nat.mod_le _ _).trans (hwf.source hop)

/-! ## Steps -/

/-- The condition on a step: no PUT with a body is refused by `fs_obj_new`. -/
def NoPutRefused (e : Env) (c : Option Client) (i : Srv × Io × ConnEv) : Prop :=
  ∀ cli ∈ c, i.2.2 = .func → cli.req.dataLen ≠ 0 → ¬ cli.PutRefused e i.2.1 i.1

theorem fixedRead_taken (cli : Client) : (fixedRead cli).taken = cli.taken := by
  unfold fixedRead
  split
  · rfl
  · dsimp only
    split
    · rfl
    · split <;> rfl

theorem varRead_taken (cli : Client) : (varRead cli).taken = cli.taken := by
  unfold varRead
  split
  · rfl
  · split
    · rfl
    · split <;> rfl

theorem cliEvtRead_taken {goOn : Client → Client} (h : ∀ cli, (goOn cli).taken = cli.taken) (io : Io)
    (buflen : Nat) (cli : Client) :
    cli.taken <+: (cliEvtRead goOn (cliReadData io buflen cli)).taken := by
  have hread := cliReadData_cases io buflen cli
  generalize cliReadData io buflen cli = p at hread ⊢
  obtain ⟨bs, cli'⟩ := p
  cases hread with
  | got _ htaken =>
    rw [cliEvtRead, h]
    exact ⟨_, htaken.symm⟩
  | failed _ => exact List.prefix_rfl

theorem ConnStep.taken_grows {e : Env} {io : Io} {srv srv' : Srv} {cli cli' : Client} {ev : ConnEv}
    (hstep : ConnStep e io srv cli ev srv' (some cli')) : cli.taken <+: cli'.taken := by
  generalize hc : some cli' = c at hstep
  cases hstep with
  | idle | writes _ | waits | recycled _ _ | accepted _ _ _ | copied _ _ =>
    cases hc
    exact List.prefix_rfl
  | readFixed _ _ _ =>
    cases hc
    exact cliEvtRead_taken fixedRead_taken io _ cli
  | readVar _ _ _ =>
    cases hc
    exact cliEvtRead_taken varRead_taken io _ cli
  | exec _ hs hw hexec =>
    cases hc
    rw [(hexec.served hs hw).2.1]
  | dataIn _ hs hw hin =>
    cases hc
    obtain ⟨-, -, bs, htk, -⟩ := hin.served hs hw
    rw [htk]
    exact List.prefix_append _ _
  | freed _ _ => cases hc
  | copies _ hw hthr =>
    cases hc
    rw [(workerCpThr_copies hw hthr).taken]

section

variable {ms : List Message} {cli cli' : Client}

/-- What has been read of the next request may grow. -/
theorem Framed.takes (h : Framed ms cli) (hs : cli.state.reads = true) (ht : cli.Takes cli') :
    Framed ms cli' := by
  cases h with
  | between _ hst _ _ => rcases hst with hst | hst | hst <;> simp [hst, ClientState.reads] at hs
  | body _ _ _ hst _ _ _ _ _ | closing _ hst _ _ => simp [hst, ClientState.reads] at hs
  | reading k _ hw hex htk =>
    obtain ⟨hex', hw', bs, htk', hst⟩ := ht
    rcases hst with hst | ⟨hst, hpend⟩
    · exact .closing k hst (hw'.trans hw) (hex'.trans hex)
    · refine .reading k hst (hw'.trans hw) (hex'.trans hex) ?_
      rw [htk', htk, hpend, List.append_assoc]

/-- The next request is executed. -/
theorem Framed.exec (hms : ∀ m ∈ ms, m.WellFormed) (h : Framed ms cli) (hheard : cli.Heard)
    (hs : cli.state = .execReq) (hpre : cli.taken <+: ms.flatMap Message.wire)
    (hex : cli'.executed = cli.executed ++ [cli.request]) (htk : cli'.taken = cli.taken)
    (hserved : cli.Served cli') : Framed ms cli' := by
  cases h with
  | between _ hst _ _ => simp [hs] at hst
  | body _ _ _ hst _ _ _ _ _ | closing _ hst _ _ => simp [hs] at hst
  | reading k _ _ hdone htaken =>
    rw [htaken] at hpre
    obtain ⟨m, hm, hwf, hreq, hhead⟩ := next_request hms hheard hs hpre
    have hhdr : m.hdr = cli.req := Message.hdr_eq (congrArg Request.creq hreq)
    have hall : cli'.executed = (ms.take (k + 1)).map Message.req := by
      rw [hex, hdone, take_succ_req hm, hreq]
    have hnow : cli'.taken = (ms.take k).flatMap Message.wire ++ m.head := by
      rw [htk, htaken, hhead]
    cases hserved with
    | closed hst hw => exact .closing (k + 1) hst hw hall
    | goesOn hst hput =>
      refine .between (k + 1) (hst.imp_right .inl) hall ?_
      have hbody : m.body = [] := by
        rw [← List.length_eq_zero_iff, hwf.body, hhdr]
        split
        · next hop => exact hput hop
        · rfl
      rw [hnow, take_succ_wire hm, Message.wire, hbody, List.append_nil]
    | body hst hw hput hlen =>
      refine .body k m [] hst hw hm hall ?_ ?_
      · rw [hnow, List.append_nil]
      · rw [hwf.body, hhdr, if_pos hput, hlen]
        exact Nat.zero_add _

/-- A part of the body of an upload is taken. -/
theorem Framed.dataIn (h : Framed ms cli) (hs : cli.state = .dataIn)
    (hpre : cli'.taken <+: ms.flatMap Message.wire) (hex : cli'.executed = cli.executed)
    (hw : cli'.worker = none) {bs : Bytes} (htk : cli'.taken = cli.taken ++ bs)
    (hend : cli'.state = .dispose ∨ cli'.state = .dataIn ∧ bs.length + cli'.outLen = cli.outLen ∨
      cli'.state = .recycle ∧ bs.length = cli.outLen) : Framed ms cli' := by
  cases h with
  | between _ hst _ _ => simp [hs] at hst
  | reading _ hst _ _ _ => simp [hs, ClientState.reads] at hst
  | closing _ hst _ _ => simp [hs] at hst
  | body k m got _ _ hm hdone htaken hlen =>
    have hall : cli'.executed = (ms.take (k + 1)).map Message.req := hex.trans hdone
    have hnow : cli'.taken = (ms.take k).flatMap Message.wire ++ (m.head ++ (got ++ bs)) := by
      rw [htk, htaken, List.append_assoc, List.append_assoc]
    rcases hend with hst | ⟨hst, hmore⟩ | ⟨hst, hmore⟩
    · exact .closing (k + 1) hst hw hall
    · refine .body k m (got ++ bs) hst hw hm hall hnow ?_
      rw [List.length_append, add_assoc, hmore, hlen]
    · refine .between (k + 1) (.inl hst) hall ?_
      -- all of the body has come, so it is the body that was sent
      have hbody : got ++ bs = m.body := by
        have hrest : ms.drop k = m :: ms.drop (k + 1) :=
          List.drop_eq_getElem_cons (List.getElem?_eq_some_iff.mp hm).1 ▸ by
            rw [(List.getElem?_eq_some_iff.mp hm).2]
        rw [hnow] at hpre
        obtain ⟨after, heq⟩ := prefix_rest hpre
        have hboth : m.head ++ (got ++ bs ++ after) =
            m.head ++ (m.body ++ (ms.drop (k + 1)).flatMap Message.wire) := by
          rw [hrest, List.flatMap_cons, Message.wire] at heq
          simpa only [List.append_assoc] using heq
        refine (List.append_inj (List.append_cancel_left hboth) ?_).1
        rw [List.length_append, hmore, hlen]
      rw [hnow, hbody, take_succ_wire hm, Message.wire]

/-- Nothing is read, executed or taken; if the client is to be disposed of, it may have been busy. -/
theorem Framed.keeps (h : Framed ms cli) (hrx : cli'.toClientRx = cli.toClientRx)
    (hout : cli'.outLen = cli.outLen) (hw : cli'.worker = cli.worker)
    (hex : cli'.executed = cli.executed) (htk : cli'.taken = cli.taken)
    (hs : cli'.state = cli.state ∨ cli'.state = .dispose) : Framed ms cli' := by
  rcases hs with hs | hs
  · cases h with
    | between k hst hdone htaken => exact .between k (hs ▸ hst) (hex.trans hdone) (htk.trans htaken)
    | reading k hst hnone hdone htaken =>
      refine .reading k (hs ▸ hst) (hw.trans hnone) (hex.trans hdone) (htk.trans (htaken.trans ?_))
      unfold Client.pending
      rw [hs, hrx]
    | body k m got hst hnone hm hdone htaken hlen =>
      exact .body k m got (hs.trans hst) (hw.trans hnone) hm (hex.trans hdone) (htk.trans htaken)
        (by rw [hout, hlen])
    | closing k hst hnone hdone => exact .closing k (hs.trans hst) (hw.trans hnone) (hex.trans hdone)
  · cases h with
    | between k _ hdone htaken =>
      exact .between k (.inr (.inr hs)) (hex.trans hdone) (htk.trans htaken)
    | reading k _ hnone hdone _ => exact .closing k hs (hw.trans hnone) (hex.trans hdone)
    | body k _ _ _ hnone _ hdone _ _ => exact .closing (k + 1) hs (hw.trans hnone) (hex.trans hdone)
    | closing k _ hnone hdone => exact .closing k hs (hw.trans hnone) (hex.trans hdone)

/-- A client that executes nothing, reads nothing and is not being disposed of is between two requests. -/
theorem Framed.of_between (h : Framed ms cli)
    (hs : cli.state = .recycle ∨ cli.state = .sslAccept ∨ cli.worker ≠ none)
    (hs' : cli'.state = .recycle ∨ cli'.state = .sslAccept ∨ cli'.state = .dispose)
    (hex : cli'.executed = cli.executed) (htk : cli'.taken = cli.taken) : Framed ms cli' := by
  cases h with
  | between k _ hdone htaken => exact .between k hs' (hex.trans hdone) (htk.trans htaken)
  | reading k hst hnone _ _ =>
    rcases hs with hs | hs | hs
    · simp [hs, ClientState.reads] at hst
    · simp [hs, ClientState.reads] at hst
    · exact absurd hnone hs
  | body k m got hst hnone _ _ _ _ =>
    rcases hs with hs | hs | hs
    · simp [hs] at hst
    · simp [hs] at hst
    · exact absurd hnone hs
  | closing k hst hnone _ =>
    rcases hs with hs | hs | hs
    · simp [hs] at hst
    · simp [hs] at hst
    · exact absurd hnone hs

/-- The next request is begun. -/
theorem Framed.recycled (h : Framed ms cli) (hs : cli.state = .recycle) (hw : cli.worker = none) :
    Framed ms { cli with reqPtr := (.creq, 0), reqUsed := 0, state := .readFixed } := by
  cases h with
  | between k _ hdone htaken =>
    exact .reading k rfl hw hdone (htaken.trans (List.append_nil _).symm)
  | reading _ hst _ _ _ => simp [hs, ClientState.reads] at hst
  | body _ _ _ hst _ _ _ _ _ | closing _ hst _ _ => simp [hs] at hst

theorem Framed.copies (h : Framed ms cli) {wi : WorkerInfo} (hw : cli.worker = some wi)
    (hcopy : cli.Copies cli') : Framed ms cli' := by
  cases h with
  | between k hst hdone htaken =>
    exact .between k (hcopy.state ▸ hst) (hcopy.executed.trans hdone) (hcopy.taken.trans htaken)
  | reading _ _ hnone _ _ | body _ _ _ _ hnone _ _ _ _ | closing _ _ hnone _ =>
    rw [hw] at hnone
    cases hnone

theorem Framed.step {e : Env} {io : Io} {srv srv' : Srv} {ev : ConnEv} {c : Option Client}
    (hms : ∀ m ∈ ms, m.WellFormed) (h : Framed ms cli) (hheard : cli.Heard) (hplaced : cli.Placed)
    (hstep : ConnStep e io srv cli ev srv' c) (hok : NoPutRefused e (some cli) (srv, io, ev))
    (hc : c = some cli') (hpre : cli'.taken <+: ms.flatMap Message.wire) : Framed ms cli' := by
  have hgrows : cli.taken <+: cli'.taken := (hc ▸ hstep).taken_grows
  cases hstep with
  | idle =>
    cases hc
    exact h
  | writes htx =>
    cases hc
    exact h.keeps rfl rfl rfl rfl rfl htx.state
  | waits =>
    cases hc
    exact h.keeps rfl rfl rfl rfl rfl (.inl rfl)
  | readFixed _ hs _ =>
    cases hc
    exact h.takes (by simp [hs, ClientState.reads]) (readFixed_takes io hplaced hs)
  | readVar _ hs _ =>
    cases hc
    exact h.takes (by simp [hs, ClientState.reads]) (readVar_takes io hheard hplaced hs)
  | exec hev hs hw hexec =>
    cases hc
    obtain ⟨hex, htk, hserved⟩ := hexec.served hs hw
    rcases hserved with hserved | ⟨hlen, hrefused⟩
    · exact h.exec hms hheard hs (hgrows.trans hpre) hex htk hserved
    · exact absurd hrefused (hok cli rfl hev hlen)
  | dataIn _ hs hw hin =>
    cases hc
    obtain ⟨hex, hnone, bs, htk, hend⟩ := hin.served hs hw
    exact h.dataIn hs hpre hex hnone htk hend
  | freed _ _ => cases hc
  | recycled hs hw =>
    cases hc
    exact h.recycled hs hw
  | accepted hs _ hend =>
    cases hc
    exact h.of_between (.inr (.inl hs)) (hend.imp_right .inr) rfl rfl
  | copies _ hw hthr =>
    cases hc
    exact h.copies hw (workerCpThr_copies hw hthr)
  | @copied wi hw _ =>
    cases hc
    have htx := ClientTx.Answered.err e io srv.fs cli.req wi.err (wi.err = .success) cli.toClientTx
    exact h.of_between (.inr (.inr (by simp [hw]))) (htx.state.imp_right .inr) rfl rfl

end

/-! ## A run -/

theorem run_framed (e : Env) {ms : List Message} (hms : ∀ m ∈ ms, m.WellFormed)
    {is : List (Srv × Io × ConnEv)} (hok : Meets (connNext e) (NoPutRefused e) (some cliAlloc) is)
    {cli : Client} (hrun : run (connNext e) (some cliAlloc) is = some cli)
    (hsent : cli.taken <+: ms.flatMap Message.wire) : Framed ms cli := by
  have hall : ∀ cli ∈ run (connNext e) (some cliAlloc) is,
      cli.taken <+: ms.flatMap Message.wire → cli.Heard ∧ cli.Placed ∧ Framed ms cli := by
    refine hok.invariant (I := fun c : Option Client => ∀ cli ∈ c,
      cli.taken <+: ms.flatMap Message.wire → cli.Heard ∧ cli.Placed ∧ Framed ms cli) ?_ ?_
    · rintro cli ⟨⟩ -
      exact ⟨.init, init_placed, .init ms⟩
    · intro c i ih hstep cli' hcli' hpre
      obtain ⟨cli, srv', c', rfl, hnext, hcli'⟩ := connNext_eq_some hcli'
      have hcases := connStep_cases hnext
      have hgrows : cli.taken <+: cli'.taken := (hcli' ▸ hcases).taken_grows
      obtain ⟨hheard, hplaced, hframed⟩ := ih cli rfl (hgrows.trans hpre)
      refine ⟨hheard.step hcases cli' hcli', ?_, ?_⟩
      · exact hcases.placed hplaced
          (hframed.secondFits hms hheard.sized (hgrows.trans hpre) _) cli' hcli'
      · exact hframed.step hms hheard hplaced hcases hstep hcli' hpre
  exact (hall cli hrun hsent).2.2

/-- Well-formed requests are sent one behind the other, and no PUT with a body is refused. Then, however
the stream is cut, the requests that are executed are the first of those sent, in their order, and
whenever the client reads a request, what it has read of it are the bytes that follow theirs. -/
theorem run_executes_sent (e : Env) {ms : List Message} (hms : ∀ m ∈ ms, m.WellFormed)
    {is : List (Srv × Io × ConnEv)} (hok : Meets (connNext e) (NoPutRefused e) (some cliAlloc) is)
    {cli : Client} (hrun : run (connNext e) (some cliAlloc) is = some cli)
    (hsent : cli.taken <+: ms.flatMap Message.wire) :
    cli.executed <+: ms.map Message.req ∧
      (cli.state.reads = true → ∃ k, cli.executed = (ms.take k).map Message.req ∧
        cli.taken = (ms.take k).flatMap Message.wire ++ cli.pending) := by
  have hframed := run_framed e hms hok hrun hsent
  exact ⟨hframed.executed_begins, hframed.aligned⟩

/-! ## A client that stores -/

/-- The connection has the server to itself. -/
def alone (e : Env) : Srv → Option Client → List (Io × ConnEv) → List (Srv × Io × ConnEv)
  | srv, some cli, (io, ev) :: is =>
    (srv, io, ev) ::
      match connStep e io srv cli ev with
      | none => []
      | some (srv, c) => alone e srv c is
  | _, _, _ => []

theorem mem_alone {e : Env} {srv : Srv} {c : Option Client} {is : List (Io × ConnEv)}
    {i : Srv × Io × ConnEv} (h : i ∈ alone e srv c is) : i.2 ∈ is := by
  induction is generalizing srv c with
  | nil => cases c <;> cases h
  | cons i' is ih =>
    cases c with
    | none => cases h
    | some cli =>
      rcases List.mem_cons.mp h with rfl | h
      · exact List.mem_cons_self
      · split at h
        · cases h
        · exact List.mem_cons_of_mem _ (ih h)

/-- With the signatures of the requests below, all but one under the key `u`. -/
def Env.storing : Env :=
  { Env.sample with
    b64hmac := fun key bs =>
      match key, (bs.drop 12).head? with
      | [0x75], some 7 => ascii "7Fdt3gIuj97cWhQEaySM4fGgJBI="
      | [0x75], some 8 => ascii "2uZlpOf+jzVjljTCpP4RIYRaiUU="
      | [0x75], some 9 => ascii "CUtWVCUz9fLV9aBIxq8LuHusKRk="
      | [0x75], some 10 => ascii "IqG0i87h1mKyAr1mbn/9adPpqZI="
      | [0x75], some 11 => ascii "npZ2aAHQZexwBvEKY10e/VtdEuA="
      | [0x75], some 12 => ascii "cmTflExtvVt/RLkmzwfU06YPSUA="
      | [], some 13 => ascii "QCFsCoLd4+g3MKZPArkBnJLsQK0="
      | _, _ => [] }

instance (m : Message) : Decidable m.WellFormed :=
  decidable_of_iff
    (m.req.creq.length = chunksrvReqSz ∧ m.req.key.length = m.hdr.keyLen ∧
      m.req.second.length = secondLen m.hdr ∧ (m.hdr.op = .cp → m.hdr.dataLen ≤ chdKeySz) ∧
      (m.hdr.op = .cp ∨ m.hdr.op = .getPart → m.hdr.keyLen ≠ 0) ∧
      m.body.length = if m.hdr.op = .put then m.hdr.dataLen else 0)
    ⟨fun ⟨h₁, h₂, h₃, h₄, h₅, h₆⟩ => ⟨h₁, h₂, h₃, h₄, h₅, h₆⟩,
      fun h => ⟨h.creq, h.key, h.second, h.source, h.keyed, h.body⟩⟩

/-- The header of a signed request. -/
def signedHdr (op : ChunksrvOps) (flags nonce keyLen dataLen : Nat) (sig : String) : Bytes :=
  ChunksrvReq.encode
    ⟨chunkdMagic, op, flags, keyLen, nonce, dataLen,
      ascii sig ++ List.replicate (chdSigSz - (ascii sig).length) 0⟩

def signedMsg (op : ChunksrvOps) (flags nonce : Nat) (key body : Bytes) (sig : String) : Message where
  req := ⟨signedHdr op flags nonce key.length body.length sig, key, []⟩
  body

def loginMsg : Message := signedMsg .login 0 7 [0x75] [] "7Fdt3gIuj97cWhQEaySM4fGgJBI="

def openMsg : Message := signedMsg .tableOpen chfTblCreat 8 [0x74] [] "2uZlpOf+jzVjljTCpP4RIYRaiUU="

def putMsg : Message := signedMsg .put 0 9 [0x6b] abc "CUtWVCUz9fLV9aBIxq8LuHusKRk="

def nopMsg : Message := signedMsg .nop 0 12 [] [] "cmTflExtvVt/RLkmzwfU06YPSUA="

/-- What has been put in the place of an object is a request. -/
def putNopMsg : Message := signedMsg .put 0 10 [0x6b] nopMsg.wire "IqG0i87h1mKyAr1mbn/9adPpqZI="

/-- A read that gives these bytes. -/
def reads (bs : Bytes) : Io × ConnEv := (gives (bs.headD 0) bs.tail).2

/-- The socket takes what is written. -/
def writes : Io × ConnEv := ({ (reads []).1 with wr := [.wrote 100 ⟨none, false⟩] }, .writable)

/-- A request is executed, its answer written, and the client goes on. -/
def serves : List (Io × ConnEv) := [reads [], writes, reads []]

/-- The client logs in, opens a table and asks to store an object. -/
def putReads : List (Io × ConnEv) :=
  [reads loginMsg.req.creq, reads [0x75]] ++ serves ++ [reads openMsg.req.creq, reads [0x74]] ++ serves ++
    [reads putMsg.req.creq, reads [0x6b], reads []]

/-- The object comes in two pieces, and the answer is written. -/
def bodyReads : List (Io × ConnEv) := [reads [0x61, 0x62], reads [0x63]] ++ serves.tail

/-- The client after such steps. -/
def storing (is : List (Io × ConnEv)) : Option Client :=
  run (connNext .storing) (some cliAlloc) (alone .storing bareSrv (some cliAlloc) is)

instance (e : Env) (io : Io) (srv : Srv) (cli : Client) : Decidable (cli.PutRefused e io srv) :=
  have : Decidable (∃ err fs,
      fsObjNew e io.sys srv.fs cli.tableId cli.keyBytes cli.req.dataLen = (.error err, fs)) :=
    match h : fsObjNew e io.sys srv.fs cli.tableId cli.keyBytes cli.req.dataLen with
    | (.error err, fs) => .isTrue ⟨err, fs, rfl⟩
    | (.ok _, _) => .isFalse (by simp)
  inferInstanceAs (Decidable (_ ∧ _))

instance (e : Env) (c : Option Client) (i : Srv × Io × ConnEv) : Decidable (NoPutRefused e c i) :=
  inferInstanceAs (Decidable (∀ cli ∈ c, _))

/-- A request after an object has been stored: four are executed, and nothing of the object is taken
for one. -/
theorem run_executes_sent_put :
    ∃ cli ∈ storing (putReads ++ bodyReads ++ [reads nopMsg.req.creq] ++ serves),
      cli.executed = [loginMsg, openMsg, putMsg, nopMsg].map Message.req ∧
      (cli.executed <+: [loginMsg, openMsg, putMsg, nopMsg].map Message.req ∧
        (cli.state.reads = true → ∃ k,
          cli.executed = ([loginMsg, openMsg, putMsg, nopMsg].take k).map Message.req ∧
          cli.taken = ([loginMsg, openMsg, putMsg, nopMsg].take k).flatMap Message.wire ++
            cli.pending)) := by
  have hends : ∃ cli ∈ storing (putReads ++ bodyReads ++ [reads nopMsg.req.creq] ++ serves),
      cli.executed = [loginMsg, openMsg, putMsg, nopMsg].map Message.req ∧
        cli.taken <+: [loginMsg, openMsg, putMsg, nopMsg].flatMap Message.wire := by decide +kernel
  obtain ⟨cli, hcli, hex, htk⟩ := hends
  exact ⟨cli, hcli, hex,
    run_executes_sent .storing (by decide +kernel) (by decide +kernel) hcli htk⟩

/-- The object that is to be put in the place of another is refused, and executed. -/
theorem putNop_executed :
    ∃ cli ∈ storing (putReads ++ bodyReads ++ [reads putNopMsg.req.creq, reads [0x6b]] ++ serves ++
        [reads nopMsg.wire, reads []]),
      (∀ m ∈ [loginMsg, openMsg, putMsg, putNopMsg], m.WellFormed) ∧
      cli.taken <+: [loginMsg, openMsg, putMsg, putNopMsg].flatMap Message.wire ∧
      cli.executed = [loginMsg, openMsg, putMsg, putNopMsg, nopMsg].map Message.req ∧
      ¬ cli.executed <+: [loginMsg, openMsg, putMsg, putNopMsg].map Message.req := by
  decide +kernel

end Hail.Chunkd
