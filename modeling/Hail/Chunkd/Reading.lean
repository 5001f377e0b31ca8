import Hail.Chunkd.Steps
import Hail.Chunkd.TableIds
import Hail.Library.Run

/-!
# Where a connection reads

While a request is read `req_ptr` stands `req_used` bytes into its destination. The length of a key is
checked before the key is read; that of the second key of a copy is not, so a copy can announce more than
`key2` holds.
-/
namespace Hail.Chunkd

open Library

def ClientRx.buf (rx : ClientRx) : RxBuf → Buffer
  | .creq => rx.creq
  | .creqGetpart => rx.creqGetpart
  | .key => rx.key
  | .key2 => rx.key2

/-- What remains of the destination from `req_ptr` on. -/
def ClientRx.room (rx : ClientRx) : Nat := (rx.buf rx.reqPtr.1).data.length - rx.reqPtr.2

/-- The size of `netbuf`. -/
def netbufSz : Nat := cliDataBufSz

/-- The next read asks for no more than remains of its destination, and `var_len - req_used` does not
wrap. -/
def Client.ReadsInside (cli : Client) : Prop :=
  match cli.state with
  | .readFixed => cli.fixedWant ≤ cli.room
  | .readVar => cli.reqUsed ≤ cli.varLen ∧ cli.varWant ≤ cli.room
  | .dataIn => min cli.outLen cliDataBufSz ≤ netbufSz
  | _ => True

/-! ## What one read gives -/

/-- How many bytes a read of at most so many gives. -/
def Io.got (io : Io) (buflen : Nat) : Nat :=
  match io.rd with
  | .data _ bs => min (bs.length + 1) buflen
  | _ => 0

/-- What `cli_read_data` does. -/
inductive ReadData (io : Io) (buflen : Nat) (cli : Client) : Option Bytes → Client → Prop
  | got {bs taken : Bytes} {readWantWrite evWrite : Bool} (hlen : bs.length = io.got buflen)
      (htaken : taken = cli.taken ++ bs) :
      ReadData io buflen cli (some bs) { cli with taken, readWantWrite, evWrite }
  | failed (hlen : io.got buflen = 0) : ReadData io buflen cli none cli

theorem ReadData.waits {io : Io} {buflen : Nat} {cli : Client} {readWantWrite evWrite : Bool}
    (hlen : io.got buflen = 0) :
    ReadData io buflen cli (some []) { cli with readWantWrite, evWrite } :=
  .got hlen.symm (List.append_nil _).symm

theorem Io.got_le (io : Io) (buflen : Nat) : io.got buflen ≤ buflen := by
  unfold got
  split <;> omega

theorem cliReadData_cases (io : Io) (buflen : Nat) (cli : Client) :
    ReadData io buflen cli (cliReadData io buflen cli).1 (cliReadData io buflen cli).2 := by
  unfold cliReadData
  split
  · next hbuf =>
    have hgot : io.got buflen = 0 := Nat.le_zero.mp (hbuf ▸ io.got_le buflen)
    exact .waits hgot
  · split
    · next b bs hrd =>
      have hgot : io.got buflen = min (bs.length + 1) buflen := by
        unfold Io.got
        rw [hrd]
      refine .got ?_ rfl
      rw [hgot, List.length_take, List.length_cons, Nat.min_comm]
    · next hrd => exact .waits (by simp [Io.got, hrd])
    · next hrd => split <;> exact .waits (by simp [Io.got, hrd])
    · next hrd => exact .failed (by simp [Io.got, hrd])
    · next hrd => exact .failed (by simp [Io.got, hrd])

/-! ## The invariant -/

/-- The sizes of the buffers. -/
def RxBuf.size : RxBuf → Nat
  | .creq => chunksrvReqSz
  | .creqGetpart => chunksrvReqGetpartSz
  | .key | .key2 => chdKeySz

def ClientRx.Sized (rx : ClientRx) : Prop := ∀ dst, (rx.buf dst).data.length = dst.size

@[simp]
theorem Buffer.write_length (b : Buffer) (ofs : Nat) (src : Bytes) :
    (b.write ofs src).data.length = b.data.length := Buffer.splice_length b.data src ofs

theorem ClientRx.Sized.store {rx : ClientRx} (h : rx.Sized) (bs : Bytes) : (rx.store bs).Sized := by
  intro dst
  have hdst := h dst
  unfold ClientRx.store
  dsimp only
  split <;> cases dst <;> simp_all only [ClientRx.buf, Buffer.write_length]

theorem ClientRx.Sized.room {rx : ClientRx} (h : rx.Sized) :
    rx.room = rx.reqPtr.1.size - rx.reqPtr.2 := by
  unfold ClientRx.room
  rw [h]

theorem ClientRx.store_reqPtr (rx : ClientRx) (bs : Bytes) :
    (rx.store bs).reqPtr = (rx.reqPtr.1, rx.reqPtr.2 + bs.length) := by
  unfold store
  dsimp only
  split <;> rfl

theorem ClientRx.store_reqUsed (rx : ClientRx) (bs : Bytes) :
    (rx.store bs).reqUsed = (rx.reqUsed + bs.length) % 2 ^ 32 := by
  unfold store
  dsimp only
  split <;> rfl

theorem ClientRx.store_varLen (rx : ClientRx) (bs : Bytes) : (rx.store bs).varLen = rx.varLen := by
  unfold store
  dsimp only
  split <;> rfl

theorem ClientRx.store_secondVar (rx : ClientRx) (bs : Bytes) :
    (rx.store bs).secondVar = rx.secondVar := by
  unfold store
  dsimp only
  split <;> rfl

/-- What is read after the header leaves the header alone. -/
theorem ClientRx.store_creq {rx : ClientRx} (h : rx.reqPtr.1 ≠ .creq) (bs : Bytes) :
    (rx.store bs).creq = rx.creq := by
  unfold store
  dsimp only
  split <;> simp_all

/-- `req_ptr` stands `req_used` bytes into a destination that what is read fits in. -/
structure Client.Placed (cli : Client) : Prop where
  sized : cli.Sized
  fixed : cli.state = .readFixed → cli.reqPtr = (.creq, cli.reqUsed) ∧ cli.reqUsed < chunksrvReqSz
  var : cli.state = .readVar → cli.reqPtr.1 ≠ .creq ∧ cli.reqPtr.2 = cli.reqUsed ∧
    cli.reqUsed ≤ cli.varLen ∧ cli.varLen ≤ cli.reqPtr.1.size
  first : cli.state = .readVar → cli.secondVar = false → cli.reqUsed < cli.varLen

theorem RxBuf.size_le (dst : RxBuf) : dst.size ≤ 1024 := by
  cases dst <;> decide

theorem ClientRx.fixedWant_eq {rx : ClientRx} (h : rx.reqUsed < chunksrvReqSz) :
    rx.fixedWant = chunksrvReqSz - rx.reqUsed := by
  have hsz : chunksrvReqSz = 88 := rfl
  unfold fixedWant
  omega

theorem ClientRx.varWant_eq {rx : ClientRx} (h : rx.reqUsed ≤ rx.varLen) (hlen : rx.varLen < 2 ^ 32) :
    rx.varWant = rx.varLen - rx.reqUsed := by
  unfold varWant
  omega

theorem Client.Placed.varLen_lt {cli : Client} (h : cli.Placed) (hs : cli.state = .readVar) :
    cli.varLen < 2 ^ 32 := by
  have hle := (h.var hs).2.2.2
  have hsz := cli.reqPtr.1.size_le
  omega

theorem Client.Placed.readsInside {cli : Client} (h : cli.Placed) : cli.ReadsInside := by
  unfold ReadsInside
  split
  · next hs =>
    obtain ⟨hptr, hused⟩ := h.fixed hs
    rw [ClientRx.fixedWant_eq hused, h.sized.room, hptr]
    rfl
  · next hs =>
    obtain ⟨-, hptr, hused, hlen⟩ := h.var hs
    refine ⟨hused, ?_⟩
    rw [ClientRx.varWant_eq hused (h.varLen_lt hs), h.sized.room, hptr]
    omega
  · exact min_le_right _ _
  · trivial

/-- A client that reads no request. -/
theorem Client.Placed.of_serves {cli cli' : Client} (h : cli.Sized) (hs : cli.Serves cli') :
    cli'.Placed := by
  have hsized : cli'.Sized := by
    rw [hs.rx]
    exact h
  refine ⟨hsized, ?_, ?_, ?_⟩ <;> intro hst <;> rcases hs.state with h | h | h | h <;>
    simp [h] at hst

/-- A client whose buffers are as they were, and which is in the state it was in or reads no request. -/
theorem Client.Placed.of_rx {cli cli' : Client} (h : cli.Placed)
    (hrx : cli'.toClientRx = cli.toClientRx) (hs : cli'.state = cli.state ∨ cli'.state = .dispose) :
    cli'.Placed := by
  obtain ⟨sized, fixed, var, first⟩ := h
  rcases hs with hs | hs
  · refine ⟨?_, ?_, ?_, ?_⟩ <;> rw [hrx] <;> simpa only [hs]
  · exact .of_serves sized ⟨hrx, .inr (.inl hs)⟩

theorem init_placed : cliAlloc.Placed := by
  refine ⟨fun dst => ?_, fun _ => ⟨rfl, by decide⟩, ?_, ?_⟩
  · cases dst <;> exact List.length_replicate
  · intro hs
    cases hs
  · intro hs
    cases hs

/-! ## Steps -/

/-- The condition on a step: a copy whose key has been read in full announces a source key that `key2`
has room for. -/
def SecondFits (c : Option Client) (i : Srv × Io × ConnEv) : Prop :=
  ∀ cli ∈ c, cli.worker = none → i.2.2 = .func → cli.state = .readVar → cli.req.op = .cp →
    cli.secondVar = false → cli.varLen ≤ cli.reqUsed + i.2.1.got cli.varWant →
    cli.req.dataLen % 2 ^ 32 ≤ chdKeySz

theorem fixedRead_placed {cli : Client} (h : cli.Sized) (hptr : cli.reqPtr = (.creq, cli.reqUsed))
    (hs : cli.state = .readFixed) : (fixedRead cli).Placed := by
  unfold fixedRead
  split
  · next hused =>
    refine ⟨h, fun _ => ⟨hptr, hused⟩, fun hv => ?_, fun hv => ?_⟩ <;> rw [hs] at hv <;> cases hv
  · dsimp only
    split
    · refine ⟨h, ?_, ?_, ?_⟩ <;> intro hv <;> cases hv
    · next hkey =>
      split
      · refine ⟨h, ?_, ?_, ?_⟩ <;> intro hv <;> cases hv
      · next hle =>
        refine ⟨h, fun hv => (by cases hv), fun _ => ⟨by simp, rfl, by simp, ?_⟩, fun _ _ => ?_⟩
        · exact not_lt.mp hle
        · exact Nat.pos_of_ne_zero hkey

/-- A read for the header: what has come is behind what there was. -/
theorem readFixed_cases (io : Io) {cli : Client} (h : cli.Placed) (hs : cli.state = .readFixed) :
    cliEvtReadFixed io cli = { cli with state := .dispose } ∨
    ∃ bs taken readWantWrite evWrite, taken = cli.taken ++ bs ∧
      (cli.toClientRx.store bs).reqUsed = cli.reqUsed + bs.length ∧
      cli.reqUsed + bs.length ≤ chunksrvReqSz ∧
      cliEvtReadFixed io cli =
        fixedRead { cli with toClientRx := cli.toClientRx.store bs, taken, readWantWrite, evWrite } := by
  obtain ⟨-, hused⟩ := h.fixed hs
  have hread := cliReadData_cases io cli.fixedWant cli
  have hgot := io.got_le cli.fixedWant
  have hwant := ClientRx.fixedWant_eq hused
  unfold cliEvtReadFixed
  generalize cli.fixedWant = want at hread hgot hwant ⊢
  generalize cliReadData io want cli = p at hread ⊢
  obtain ⟨bs, cli'⟩ := p
  cases hread with
  | @got bs taken readWantWrite evWrite hbs htaken =>
    have hfit : cli.reqUsed + bs.length ≤ chunksrvReqSz :=
      Nat.add_le_of_le_sub' hused.le (hbs.le.trans (hgot.trans hwant.le))
    have hnow : (cli.toClientRx.store bs).reqUsed = cli.reqUsed + bs.length :=
      (ClientRx.store_reqUsed _ bs).trans (Nat.mod_eq_of_lt (hfit.trans_lt (by decide)))
    exact .inr ⟨bs, taken, readWantWrite, evWrite, htaken, hnow, hfit, rfl⟩
  | failed _ => exact .inl rfl

theorem readFixed_placed (io : Io) {cli : Client} (h : cli.Placed) (hs : cli.state = .readFixed) :
    (cliEvtReadFixed io cli).Placed := by
  obtain ⟨hptr, -⟩ := h.fixed hs
  rcases readFixed_cases io h hs with heq | ⟨bs, taken, rww, evw, -, hnow, -, heq⟩
  · rw [heq]
    exact h.of_rx rfl (.inr rfl)
  · rw [heq]
    refine fixedRead_placed (h.sized.store bs) ?_ hs
    rw [ClientRx.store_reqPtr, hnow, hptr]

theorem varRead_second {cli : Client} (hend : ¬ cli.reqUsed < cli.varLen) (hop : cli.req.op = .cp)
    (hfirst : cli.secondVar = false) : varRead cli =
      { cli with
        reqPtr := (.key2, 0), varLen := cli.req.dataLen % 2 ^ 32, reqUsed := 0, state := .readVar
        secondVar := true } := by
  unfold varRead
  rw [if_neg hend, if_pos ⟨hop, by simp [hfirst]⟩]

/-- If the next read for a source key stays inside `key2`, the key fits in. -/
theorem second_fits {cli : Client} (h : cli.Sized) (hend : ¬ cli.reqUsed < cli.varLen)
    (hop : cli.req.op = .cp) (hfirst : cli.secondVar = false) (hin : (varRead cli).ReadsInside) :
    cli.req.dataLen % 2 ^ 32 ≤ chdKeySz := by
  rw [varRead_second hend hop hfirst] at hin
  have hwant := hin.2
  rw [ClientRx.varWant_eq (Nat.zero_le _) (Nat.mod_lt _ (by decide))] at hwant
  have hle : cli.req.dataLen % 2 ^ 32 ≤ cli.key2.data.length := hwant
  exact hle.trans (h .key2).le

theorem varRead_placed {cli : Client} (h : cli.Sized) (hs : cli.state = .readVar)
    (hne : cli.reqPtr.1 ≠ .creq) (hptr : cli.reqPtr.2 = cli.reqUsed)
    (hused : cli.reqUsed ≤ cli.varLen) (hlen : cli.varLen ≤ cli.reqPtr.1.size)
    (hfits : cli.req.op = .cp → cli.secondVar = false → cli.varLen ≤ cli.reqUsed →
      cli.req.dataLen % 2 ^ 32 ≤ chdKeySz) : (varRead cli).Placed := by
  unfold varRead
  split
  · next hmore =>
    refine ⟨h, fun hv => ?_, fun _ => ⟨hne, hptr, hused, hlen⟩, fun _ _ => hmore⟩
    rw [hs] at hv
    cases hv
  · next hend =>
    split
    · next hcp =>
      have hle := hfits hcp.1 (by simpa using hcp.2) (not_lt.mp hend)
      exact ⟨h, fun hv => (by cases hv), fun _ => ⟨by simp, rfl, by simp, hle⟩, fun _ hv => (by cases hv)⟩
    · split
      · exact ⟨h, fun hv => (by cases hv), fun _ => ⟨by simp, rfl, by simp, le_rfl⟩,
          fun _ hv => (by cases hv)⟩
      · refine ⟨h, ?_, ?_, ?_⟩ <;> intro hv <;> cases hv

/-- A read for a record: what has come is behind what there was. -/
theorem readVar_cases (io : Io) {cli : Client} (h : cli.Placed) (hs : cli.state = .readVar) :
    (io.got cli.varWant = 0 ∧ cliEvtReadVar io cli = { cli with state := .dispose }) ∨
    ∃ bs taken readWantWrite evWrite,
      bs.length = io.got cli.varWant ∧ taken = cli.taken ++ bs ∧
      (cli.toClientRx.store bs).reqUsed = cli.reqUsed + bs.length ∧
      cli.reqUsed + bs.length ≤ cli.varLen ∧
      cliEvtReadVar io cli =
        varRead { cli with toClientRx := cli.toClientRx.store bs, taken, readWantWrite, evWrite } := by
  obtain ⟨hne, hptr, hused, hlen⟩ := h.var hs
  have hlt := h.varLen_lt hs
  have hread := cliReadData_cases io cli.varWant cli
  have hgot := io.got_le cli.varWant
  have hwant := ClientRx.varWant_eq hused hlt
  unfold cliEvtReadVar
  generalize cli.varWant = want at hread hgot hwant ⊢
  generalize cliReadData io want cli = p at hread ⊢
  obtain ⟨bs, cli'⟩ := p
  cases hread with
  | @got bs taken readWantWrite evWrite hbs htaken =>
    have hfit : cli.reqUsed + bs.length ≤ cli.varLen :=
      Nat.add_le_of_le_sub' hused (hbs.le.trans (hgot.trans hwant.le))
    have hnow : (cli.toClientRx.store bs).reqUsed = cli.reqUsed + bs.length :=
      (ClientRx.store_reqUsed _ bs).trans (Nat.mod_eq_of_lt (hfit.trans_lt hlt))
    exact .inr ⟨bs, taken, readWantWrite, evWrite, hbs, htaken, hnow, hfit, rfl⟩
  | failed hbs => exact .inl ⟨hbs, rfl⟩

theorem readVar_placed (io : Io) {cli : Client} (h : cli.Placed) (hs : cli.state = .readVar)
    (hfits : cli.req.op = .cp → cli.secondVar = false →
      cli.varLen ≤ cli.reqUsed + io.got cli.varWant → cli.req.dataLen % 2 ^ 32 ≤ chdKeySz) :
    (cliEvtReadVar io cli).Placed := by
  obtain ⟨hne, hptr, hused, hlen⟩ := h.var hs
  rcases readVar_cases io h hs with ⟨-, heq⟩ | ⟨bs, taken, rww, evw, hbs, -, hnow, hfit, heq⟩
  · rw [heq]
    exact h.of_rx rfl (.inr rfl)
  · rw [heq]
    refine varRead_placed (h.sized.store bs) hs ?_ ?_ ?_ ?_ ?_
    · rw [ClientRx.store_reqPtr]
      exact hne
    · rw [ClientRx.store_reqPtr, hnow, hptr]
    · rw [hnow, ClientRx.store_varLen]
      exact hfit
    · rw [ClientRx.store_varLen, ClientRx.store_reqPtr]
      exact hlen
    · rw [ClientRx.req, ClientRx.store_creq hne, ClientRx.store_secondVar, ClientRx.store_varLen, hnow,
        hbs]
      exact hfits

theorem ConnStep.placed {e : Env} {io : Io} {srv srv' : Srv} {cli : Client} {ev : ConnEv}
    {c : Option Client} (hstep : ConnStep e io srv cli ev srv' c) (h : cli.Placed)
    (hfits : SecondFits (some cli) (srv, io, ev)) : ∀ cli' ∈ c, cli'.Placed := by
  rintro cli' rfl
  cases hstep with
  | idle => exact h
  | writes htx => exact h.of_rx rfl htx.state
  | waits => exact h.of_rx rfl (.inl rfl)
  | readFixed _ hs _ => exact readFixed_placed io h hs
  | readVar hev hs hw => exact readVar_placed io h hs (hfits cli rfl hw hev hs)
  | exec _ _ _ hexec => exact .of_serves h.sized hexec.serves
  | dataIn _ hs _ hin => exact .of_serves h.sized (hin.serves hs)
  | recycled hs _ =>
    refine ⟨fun dst => ?_, fun _ => ⟨rfl, Nat.zero_lt_succ 87⟩, fun hv => ?_, fun hv => ?_⟩
    · have hdst := h.sized dst
      cases dst <;> exact hdst
    · cases hv
    · cases hv
  | accepted _ _ hend =>
    refine .of_serves h.sized ⟨rfl, ?_⟩
    rcases hend with rfl | rfl
    · exact .inl rfl
    · exact .inr (.inl rfl)
  | copies _ hw hthr =>
    have hc := workerCpThr_copies hw hthr
    exact h.of_rx hc.rx (.inl hc.state)
  | copied _ _ =>
    exact .of_serves h.sized ⟨rfl, (ClientTx.Answered.err e io srv.fs _ _ _ _).serves⟩

theorem connNext_placed {e : Env} {c : Option Client} {i : Srv × Io × ConnEv}
    (h : ∀ cli ∈ c, cli.Placed) (hfits : SecondFits c i) : ∀ cli ∈ connNext e c i, cli.Placed := by
  intro cli' hcli'
  obtain ⟨cli, srv', c', rfl, hstep, hcli'⟩ := connNext_eq_some hcli'
  exact (connStep_cases hstep).placed (h cli rfl) hfits cli' hcli'

/-- If the source key of a copy has no room, the read that follows asks for too much. -/
theorem secondFits_of_readsInside {e : Env} {c : Option Client} {i : Srv × Io × ConnEv}
    (h : ∀ cli ∈ c, cli.Placed) (hnext : ∀ cli ∈ connNext e c i, cli.ReadsInside) :
    SecondFits c i := by
  rintro cli rfl hw hev hs hcp hfirst hend
  obtain ⟨srv, io, ev⟩ := i
  obtain rfl : ev = .func := hev
  have hplaced := h cli rfl
  have hnow : connNext e (some cli) (srv, io, .func) = some (cliEvtReadVar io cli) := by
    simp only [connNext, connStep, hw, stateFunc, hs]
  have hinside := hnext (cliEvtReadVar io cli) hnow
  rcases readVar_cases io hplaced hs with ⟨hgot, -⟩ | ⟨bs, taken, rww, evw, hbs, -, hused, hfit, heq⟩
  · have hlt := hplaced.first hs hfirst
    rw [hgot] at hend
    exact absurd hend (not_le.mpr hlt)
  · have hne := (hplaced.var hs).1
    rw [heq] at hinside
    have hle := second_fits (hplaced.sized.store bs) ?_ ?_ ?_ hinside
    · rwa [ClientRx.req, ClientRx.store_creq hne] at hle
    · rw [hused, ClientRx.store_varLen, hbs]
      exact not_lt.mpr hend
    · rw [ClientRx.req, ClientRx.store_creq hne]
      exact hcp
    · rw [ClientRx.store_secondVar]
      exact hfirst

/-- In a run of a connection every read stays inside its destination, in every state, if and only if
no copy announces a source key longer than `key2`. -/
theorem run_readsInside_iff (e : Env) (is : List (Srv × Io × ConnEv)) :
    (∀ js, js <+: is → ∀ cli ∈ run (connNext e) (some cliAlloc) js, cli.ReadsInside) ↔
      Meets (connNext e) SecondFits (some cliAlloc) is := by
  refine Meets.iff_forall (I := fun c : Option Client => ∀ cli ∈ c, cli.Placed)
    (P := fun c : Option Client => ∀ cli ∈ c, cli.ReadsInside) ?_ ?_ ?_ ?_
  · rintro cli ⟨⟩
    exact init_placed
  · intro c h cli hcli
    exact (h cli hcli).readsInside
  · intro c i h hfits
    exact connNext_placed h hfits
  · intro c i h hnext
    exact secondFits_of_readsInside h hnext

/-- The socket gives so many bytes. -/
def gives (b : UInt8) (bs : Bytes) : Srv × Io × ConnEv :=
  (bareSrv,
    { sys := .calm, rd := .data b bs, wr := []
      list := ⟨true, [], fun _ => false, fun _ => false, fun _ => false⟩, listFails := fun _ => false },
    .func)

/-- The steps that read a request to copy an object whose key has so many bytes. -/
def longReads (dataLen : Nat) : List (Srv × Io × ConnEv) :=
  [gives 0x43 (ChunksrvReq.encode
    ⟨chunkdMagic, .cp, 0, 1, 7, dataLen, List.replicate chdSigSz 0⟩).tail, gives 0x6b []]

/-- The next read asks for more than `key2` has room for. -/
theorem longReads_overrun :
    ∃ cli ∈ run (connNext .sample) (some cliAlloc) (longReads 2000),
      cli.varWant = 2000 ∧ cli.room = chdKeySz ∧ ¬ cli.ReadsInside := by
  have hends : ∃ cli ∈ run (connNext .sample) (some cliAlloc) (longReads 2000),
      cli.state = .readVar ∧ cli.varWant = 2000 ∧ cli.room = chdKeySz := by decide +kernel
  obtain ⟨cli, hcli, hs, hwant, hroom⟩ := hends
  refine ⟨cli, hcli, hwant, hroom, fun hinside => ?_⟩
  rw [Client.ReadsInside, hs] at hinside
  have hle : cli.varWant ≤ cli.room := hinside.2
  rw [hwant, hroom] at hle
  exact absurd hle (by decide)

end Hail.Chunkd
