import Hail.Chunkd.Reading
import Hail.Chunkd.TableIds

/-!
# What a request in the buffers is

While a request is read, the header says which record comes next and how long it is; when it is executed
its records are those that the header announces. What is signed of it determines all but the source key
of a copy.
-/
namespace Hail.Chunkd

open Library

/-- The record that is being read after the header: the key, then for a copy or a part a second one. -/
inductive Client.InRecord (cli : Client) : Prop
  | key (hfirst : cli.secondVar = false) (hptr : cli.reqPtr.1 = .key) (hlen : cli.varLen = cli.keyLen)
  | source (hsecond : cli.secondVar = true) (hop : cli.req.op = .cp) (hptr : cli.reqPtr.1 = .key2)
      (hlen : cli.varLen = cli.req.dataLen % 2 ^ 32)
  | part (hsecond : cli.secondVar = true) (hop : cli.req.op = .getPart)
      (hptr : cli.reqPtr.1 = .creqGetpart) (hlen : cli.varLen = chunksrvReqGetpartSz)

/-- The records in the buffers are those of the header. -/
structure Client.Heard (cli : Client) : Prop where
  sized : cli.Sized
  keyed : cli.state = .readVar ∨ cli.state = .execReq →
    cli.keyLen = cli.req.keyLen ∧ cli.keyLen ≤ chdKeySz
  keyLen_pos : cli.state = .readVar → 0 < cli.keyLen
  record : cli.state = .readVar → cli.InRecord
  source : cli.state = .execReq → cli.keyLen ≠ 0 → cli.req.op = .cp →
    cli.varLen = cli.req.dataLen % 2 ^ 32

theorem Client.InRecord.ne_creq {cli : Client} (h : cli.InRecord) : cli.reqPtr.1 ≠ .creq := by
  cases h with
  | key _ hptr _ => simp [hptr]
  | source _ _ hptr _ => simp [hptr]
  | part _ _ hptr _ => simp [hptr]

theorem ClientRx.store_keyLen (rx : ClientRx) (bs : Bytes) : (rx.store bs).keyLen = rx.keyLen := by
  unfold store
  dsimp only
  split <;> rfl

namespace Client.Heard

variable {cli cli' : Client}

/-- A client that reads no request. -/
theorem of_sized (h : cli.Sized) (hvar : cli.state ≠ .readVar) (hexec : cli.state ≠ .execReq) :
    cli.Heard :=
  ⟨h, fun hs => absurd hs (by simp [hvar, hexec]), fun hs => absurd hs hvar,
    fun hs => absurd hs hvar, fun hs => absurd hs hexec⟩

theorem of_serves (h : cli.Sized) (hs : cli.Serves cli') : cli'.Heard := by
  have hsized : cli'.Sized := by
    rw [hs.rx]
    exact h
  rcases hs.state with h | h | h | h <;> exact of_sized hsized (by simp [h]) (by simp [h])

/-- A client whose buffers are as they were, and which is in the state it was in or reads no request. -/
theorem of_rx (h : cli.Heard) (hrx : cli'.toClientRx = cli.toClientRx)
    (hs : cli'.state = cli.state ∨ cli'.state = .dispose) : cli'.Heard := by
  obtain ⟨sized, keyed, pos, record, source⟩ := h
  have hsized : cli'.Sized := by
    rw [hrx]
    exact sized
  rcases hs with hs | hs
  · refine ⟨hsized, ?_, ?_, ?_, ?_⟩
    · rw [hs, hrx]
      exact keyed
    · rw [hs, hrx]
      exact pos
    · intro hv
      cases record (hs ▸ hv) with
      | key h1 h2 h3 => exact .key (hrx ▸ h1) (hrx ▸ h2) (hrx ▸ h3)
      | source h1 h2 h3 h4 => exact .source (hrx ▸ h1) (hrx ▸ h2) (hrx ▸ h3) (hrx ▸ h4)
      | part h1 h2 h3 h4 => exact .part (hrx ▸ h1) (hrx ▸ h2) (hrx ▸ h3) (hrx ▸ h4)
    · rw [hs, hrx]
      exact source
  · exact of_sized hsized (by simp [hs]) (by simp [hs])

/-- The header is read, or is on the way. -/
theorem fixedRead (h : cli.Sized) (hs : cli.state = .readFixed) : (fixedRead cli).Heard := by
  unfold Chunkd.fixedRead
  split
  · exact of_sized h (by simp [hs]) (by simp [hs])
  · dsimp only
    split
    · next hzero =>
      refine ⟨h, fun _ => ⟨rfl, ?_⟩, fun hv => ?_, fun hv => ?_, fun _ hne => absurd hzero hne⟩
      · exact hzero.le.trans (Nat.zero_le _)
      · cases hv
      · cases hv
    · next hne =>
      split
      · exact of_sized h (by simp) (by simp)
      · next hle =>
        refine ⟨h, fun _ => ⟨rfl, not_lt.mp hle⟩, fun _ => Nat.pos_of_ne_zero hne, fun _ => ?_,
          fun hv => ?_⟩
        · exact .key rfl rfl rfl
        · cases hv

/-- A record is read, or is on the way. -/
theorem varRead (h : cli.Heard) (hs : cli.state = .readVar) : (varRead cli).Heard := by
  have hkeyed := h.keyed (.inl hs)
  have hpos := h.keyLen_pos hs
  unfold Chunkd.varRead
  split
  · exact h
  · split
    · next hop =>
      refine ⟨h.sized, fun _ => hkeyed, fun _ => hpos, fun _ => .source rfl hop.1 rfl rfl, fun hv => ?_⟩
      cases hv
    · next hcp =>
      split
      · next hop =>
        refine ⟨h.sized, fun _ => hkeyed, fun _ => hpos, fun _ => .part rfl hop.1 rfl rfl, fun hv => ?_⟩
        cases hv
      · refine ⟨h.sized, fun _ => hkeyed, fun hv => ?_, fun hv => ?_, fun _ _ hop => ?_⟩
        · cases hv
        · cases hv
        · cases h.record hs with
          | key hfirst _ _ => exact absurd ⟨hop, by simp [hfirst]⟩ hcp
          | source _ _ _ hlen => exact hlen
          | part _ hpart _ _ =>
            rw [hpart] at hop
            cases hop

theorem store (h : cli.Heard) (hs : cli.state = .readVar) (bs taken : Bytes)
    (readWantWrite evWrite : Bool) :
    ({ cli with toClientRx := cli.toClientRx.store bs, taken, readWantWrite, evWrite } :
      Client).Heard := by
  have hne := (h.record hs).ne_creq
  have hreq : (cli.toClientRx.store bs).req = cli.req := by
    rw [ClientRx.req, ClientRx.store_creq hne]
    rfl
  have hptr := congrArg Prod.fst (ClientRx.store_reqPtr cli.toClientRx bs)
  refine ⟨h.sized.store bs, fun hv => ?_, fun hv => ?_, fun hv => ?_, fun hv => ?_⟩
  · rw [hreq, ClientRx.store_keyLen]
    exact h.keyed hv
  · rw [ClientRx.store_keyLen]
    exact h.keyLen_pos hv
  · have hfirst := ClientRx.store_secondVar cli.toClientRx bs
    have hlen := ClientRx.store_varLen cli.toClientRx bs
    have hkey := ClientRx.store_keyLen cli.toClientRx bs
    cases h.record hs with
    | key h1 h2 h3 => exact .key (hfirst.trans h1) (hptr.trans h2) (hlen.trans (h3.trans hkey.symm))
    | source h1 h2 h3 h4 =>
      refine .source (hfirst.trans h1) ?_ (hptr.trans h3) ?_
      · rw [hreq]
        exact h2
      · rw [hreq, hlen]
        exact h4
    | part h1 h2 h3 h4 =>
      refine .part (hfirst.trans h1) ?_ (hptr.trans h3) (hlen.trans h4)
      rw [hreq]
      exact h2
  · rw [hs] at hv
    cases hv

theorem init : cliAlloc.Heard := of_sized init_placed.sized (by decide) (by decide)

theorem readFixed (io : Io) (h : cli.Heard) (hs : cli.state = .readFixed) :
    (cliEvtReadFixed io cli).Heard := by
  have hread := cliReadData_cases io cli.fixedWant cli
  unfold cliEvtReadFixed
  generalize cliReadData io cli.fixedWant cli = p at hread ⊢
  obtain ⟨bs, cli'⟩ := p
  cases hread with
  | got _ _ => exact fixedRead (h.sized.store _) hs
  | failed _ => exact h.of_rx rfl (.inr rfl)

theorem readVar (io : Io) (h : cli.Heard) (hs : cli.state = .readVar) :
    (cliEvtReadVar io cli).Heard := by
  have hread := cliReadData_cases io cli.varWant cli
  unfold cliEvtReadVar
  generalize cliReadData io cli.varWant cli = p at hread ⊢
  obtain ⟨bs, cli'⟩ := p
  cases hread with
  | got _ _ => exact (h.store hs _ _ _ _).varRead hs
  | failed _ => exact h.of_rx rfl (.inr rfl)

theorem step {e : Env} {io : Io} {srv srv' : Srv} {ev : ConnEv} {c : Option Client}
    (h : cli.Heard) (hstep : ConnStep e io srv cli ev srv' c) : ∀ cli' ∈ c, cli'.Heard := by
  rintro cli' rfl
  cases hstep with
  | idle => exact h
  | writes htx => exact h.of_rx rfl htx.state
  | waits => exact h.of_rx rfl (.inl rfl)
  | readFixed _ hs _ => exact h.readFixed io hs
  | readVar _ hs _ => exact h.readVar io hs
  | exec _ _ _ hexec => exact of_serves h.sized hexec.serves
  | dataIn _ hs _ hin => exact of_serves h.sized (hin.serves hs)
  | recycled _ _ =>
    refine of_sized (fun dst => ?_) (by simp) (by simp)
    have hdst := h.sized dst
    cases dst <;> exact hdst
  | accepted _ _ hend =>
    refine of_serves h.sized ⟨rfl, ?_⟩
    rcases hend with rfl | rfl
    · exact .inl rfl
    · exact .inr (.inl rfl)
  | copies _ hw hthr =>
    have hc := workerCpThr_copies hw hthr
    exact h.of_rx hc.rx (.inl hc.state)
  | copied _ _ =>
    exact of_serves h.sized ⟨rfl, (ClientTx.Answered.err e io srv.fs _ _ _ _).serves⟩

end Client.Heard

theorem connNext_heard {e : Env} {c : Option Client} {i : Srv × Io × ConnEv}
    (h : ∀ cli ∈ c, cli.Heard) : ∀ cli ∈ connNext e c i, cli.Heard := by
  intro cli' hcli'
  obtain ⟨cli, srv', c', rfl, hstep, hcli'⟩ := connNext_eq_some hcli'
  exact (h cli rfl).step (connStep_cases hstep) cli' hcli'

theorem run_heard (e : Env) (is : List (Srv × Io × ConnEv)) :
    ∀ cli ∈ run (connNext e) (some cliAlloc) is, cli.Heard := by
  refine run_invariant (I := fun c : Option Client => ∀ cli ∈ c, cli.Heard) ?_ ?_ is
  · rintro cli ⟨⟩
    exact .init
  · intro c i h
    exact connNext_heard h

/-! ## What is signed -/

/-- What a request asks for, but for the source key of a copy. -/
structure Operation where
  magic : Bytes
  op : ChunksrvOps
  flags : Nat
  nonce : Nat
  dataLen : Nat
  key : Bytes
  /-- The offset of a part. -/
  part : Bytes
  deriving DecidableEq, Repr

def ClientRx.operation (rx : ClientRx) : Operation where
  magic := rx.req.magic
  op := rx.req.op
  flags := rx.req.flags
  nonce := rx.req.nonce
  dataLen := rx.req.dataLen
  key := rx.keyBytes
  part := if rx.req.op = .getPart then rx.creqGetpart.data else []

/-- What `authcheck` has signed of the request in the buffers. -/
def ClientRx.signed (rx : ClientRx) : Bytes :=
  signedBytes rx.creq.data rx.creqGetpart.data rx.keyBytes

/-- The fields before the signature, as they lie in the header. -/
def ChunksrvReq.fields (req : ChunksrvReq) : Bytes :=
  req.magic ++ leBytes 1 req.op.toNat ++ leBytes 1 req.flags ++ leBytes 2 req.keyLen ++
    leBytes 4 req.nonce ++ leBytes 8 req.dataLen

theorem ChunksrvOps.toNat_ofNat (n : Nat) : (ChunksrvOps.ofNat n).toNat = n := by
  unfold ofNat
  split <;> rfl

/-- A field of a header that is long enough. -/
theorem leBytes_field {creq : Bytes} {ofs n : Nat} (h : ofs + n ≤ creq.length) :
    leBytes n (ofLe ((creq.drop ofs).take n)) = (creq.drop ofs).take n := by
  have hlen : ((creq.drop ofs).take n).length = n := by
    rw [List.length_take, List.length_drop]
    omega
  conv_lhs => rw [← hlen]
  rw [hlen]
  simpa only [hlen] using leBytes_ofLe ((creq.drop ofs).take n)

theorem fields_ofBytes {creq : Bytes} (h : creq.length = chunksrvReqSz) :
    (ChunksrvReq.ofBytes creq).fields = creq.take 24 := by
  have hlen : creq.length = 88 := h
  have hsplit : creq.take 24 = creq.take 8 ++ (creq.drop 8).take 1 ++ (creq.drop 9).take 1 ++
      (creq.drop 10).take 2 ++ (creq.drop 12).take 4 ++ (creq.drop 16).take 8 := by
    simp only [← List.take_add]
  rw [hsplit]
  unfold ChunksrvReq.fields ChunksrvReq.ofBytes
  rw [ChunksrvOps.toNat_ofNat, leBytes_field (by omega), leBytes_field (by omega),
    leBytes_field (by omega), leBytes_field (by omega), leBytes_field (by omega)]
  rfl

/-- The fields are of their sizes. -/
structure ChunksrvReq.Sized (req : ChunksrvReq) : Prop where
  magic : req.magic.length = chdMagicSz
  op : ChunksrvOps.ofNat req.op.toNat = req.op
  op_lt : req.op.toNat < 256
  flags : req.flags < 256
  keyLen : req.keyLen < 2 ^ 16
  nonce : req.nonce < 2 ^ 32
  dataLen : req.dataLen < 2 ^ 64
  sig : req.sig.length = chdSigSz

theorem ofLe_field {n x : Nat} {pre : Bytes} {ofs : Nat} (hx : x < 256 ^ n) (hofs : pre.length = ofs)
    (post : Bytes) : ofLe (((pre ++ leBytes n x ++ post).drop ofs).take n) = x := by
  rw [take_drop_field hofs (leBytes_length n x), ofLe_leBytes, Nat.mod_eq_of_lt hx]

theorem ChunksrvReq.ofBytes_encode {req : ChunksrvReq} (h : req.Sized) :
    ChunksrvReq.ofBytes req.encode = req := by
  obtain ⟨magic, op, flags, keyLen, nonce, dataLen, sig⟩ := req
  obtain ⟨hmagic, hop, hoplt, hflags, hkeyLen, hnonce, hdataLen, hsig⟩ := h
  dsimp only at *
  have hm : magic.length = 8 := hmagic
  simp only [ChunksrvReq.ofBytes, ChunksrvReq.encode, ChunksrvReq.mk.injEq]
  refine ⟨?_, ?_, ?_, ?_, ?_, ?_, ?_⟩
  · simp only [List.append_assoc]
    exact List.take_left' hmagic
  · have hf := @ofLe_field 1 op.toNat magic 8 hoplt hm
      (leBytes 1 flags ++ leBytes 2 keyLen ++ leBytes 4 nonce ++ leBytes 8 dataLen ++ sig)
    simp only [List.append_assoc] at hf ⊢
    rw [hf, hop]
  · have hf := @ofLe_field 1 flags (magic ++ leBytes 1 op.toNat) 9 hflags (by simp [hm])
      (leBytes 2 keyLen ++ leBytes 4 nonce ++ leBytes 8 dataLen ++ sig)
    simp only [List.append_assoc] at hf ⊢
    exact hf
  · have hf := @ofLe_field 2 keyLen (magic ++ leBytes 1 op.toNat ++ leBytes 1 flags) 10 hkeyLen
      (by simp [hm]) (leBytes 4 nonce ++ leBytes 8 dataLen ++ sig)
    simp only [List.append_assoc] at hf ⊢
    exact hf
  · have hf := @ofLe_field 4 nonce (magic ++ leBytes 1 op.toNat ++ leBytes 1 flags ++
      leBytes 2 keyLen) 12 hnonce (by simp [hm]) (leBytes 8 dataLen ++ sig)
    simp only [List.append_assoc] at hf ⊢
    exact hf
  · have hf := @ofLe_field 8 dataLen (magic ++ leBytes 1 op.toNat ++ leBytes 1 flags ++
      leBytes 2 keyLen ++ leBytes 4 nonce) 16 hdataLen (by simp [hm]) sig
    exact hf
  · rw [List.drop_left' (by simp [hm])]
    exact List.take_of_length_le hsig.le

/-- The header in a buffer of its length is of its sizes. -/
theorem ChunksrvReq.sized_ofBytes {creq : Bytes} (h : creq.length = chunksrvReqSz) :
    (ChunksrvReq.ofBytes creq).Sized := by
  have hlen : creq.length = 88 := h
  have hfield : ∀ ofs n : Nat, ofLe ((creq.drop ofs).take n) < 256 ^ n := fun ofs n =>
    (ofLe_lt _).trans_le (Nat.pow_le_pow_right (by decide) (List.length_take_le _ _))
  refine ⟨?_, ?_, ?_, hfield 9 1, hfield 10 2, hfield 12 4, hfield 16 8, ?_⟩
  · rw [ChunksrvReq.ofBytes, List.length_take, hlen]
    rfl
  · exact congrArg ChunksrvOps.ofNat (ChunksrvOps.toNat_ofNat _)
  · have hop : (ChunksrvReq.ofBytes creq).op.toNat = _ := ChunksrvOps.toNat_ofNat _
    rw [hop]
    exact hfield 8 1
  · rw [ChunksrvReq.ofBytes, List.length_take, List.length_drop, hlen]
    rfl

/-- The fields are those of the bytes before the signature. -/
theorem ofBytes_take {creq creq' : Bytes} (h : creq.take 24 = creq'.take 24) :
    { ChunksrvReq.ofBytes creq with sig := [] } = { ChunksrvReq.ofBytes creq' with sig := [] } := by
  have hfield : ∀ {ofs n : Nat}, ofs + n ≤ 24 →
      (creq.drop ofs).take n = (creq'.drop ofs).take n := by
    intro ofs n hle
    have hcut : ∀ bs : Bytes, (bs.drop ofs).take n = ((bs.take 24).drop ofs).take n := by
      intro bs
      rw [List.drop_take, List.take_take, min_eq_left (by omega)]
    rw [hcut creq, hcut creq', h]
  have hmagic : creq.take chdMagicSz = creq'.take chdMagicSz := by
    have h0 := @hfield 0 8 (by omega)
    rwa [List.drop_zero, List.drop_zero] at h0
  simp only [ChunksrvReq.ofBytes, hmagic, @hfield 8 1 (by omega), @hfield 9 1 (by omega),
    @hfield 10 2 (by omega), @hfield 12 4 (by omega), @hfield 16 8 (by omega)]

theorem Client.Heard.keyBytes_length {cli : Client} (h : cli.Heard) (hs : cli.state = .execReq) :
    cli.keyBytes.length = cli.req.keyLen := by
  obtain ⟨hkey, hle⟩ := h.keyed (.inr hs)
  have hbuf : cli.key.data.length = chdKeySz := h.sized .key
  rw [ClientRx.keyBytes, List.length_take, hbuf, min_eq_left hle, hkey]

theorem reqLen_eq (req : ChunksrvReq) : reqLen req =
    chunksrvReqSz + req.keyLen + if req.op = .getPart then chunksrvReqGetpartSz else 0 := by
  unfold reqLen
  split
  · next hop => rw [if_pos hop]
  · next hop => rw [if_neg hop]

/-- What is signed of a request whose records are those of its header. -/
theorem Client.Heard.signed_eq {cli : Client} (h : cli.Heard) (hs : cli.state = .execReq) :
    cli.signed = cli.req.fields ++ List.replicate chdSigSz 0 ++ cli.keyBytes ++ cli.operation.part := by
  have hcreq : cli.creq.data.length = chunksrvReqSz := h.sized .creq
  have hgpr : cli.creqGetpart.data.length = chunksrvReqGetpartSz := h.sized .creqGetpart
  have hkeyLen := h.keyBytes_length hs
  have hfields : cli.req.fields = cli.creq.data.take (chunksrvReqSz - chdSigSz) := fields_ofBytes hcreq
  have hhead : (cli.creq.data.take (chunksrvReqSz - chdSigSz) ++ List.replicate chdSigSz (0 : UInt8) ++
      cli.keyBytes).length = chunksrvReqSz + cli.req.keyLen := by
    rw [List.length_append, List.length_append, List.length_take, hcreq, List.length_replicate, hkeyLen]
    rfl
  rw [hfields]
  unfold ClientRx.signed signedBytes ClientRx.operation
  rw [reqLen_eq]
  change List.take (chunksrvReqSz + cli.req.keyLen +
    if cli.req.op = .getPart then chunksrvReqGetpartSz else 0) _ = _
  by_cases hop : cli.req.op = .getPart
  · rw [if_pos hop, if_pos hop, List.take_of_length_le]
    rw [List.length_append, hhead, hgpr]
  · rw [if_neg hop, if_neg hop, Nat.add_zero, ← hhead, List.take_left, List.append_nil]

theorem fields_length {creq : Bytes} (h : creq.length = chunksrvReqSz) :
    (ChunksrvReq.ofBytes creq).fields.length = 24 := by
  rw [fields_ofBytes h, List.length_take, h]
  rfl

/-- What is signed of a request determines what it asks for, but for the source key of a copy, and is
determined by it. -/
theorem Client.Heard.signed_iff {cli cli' : Client} (h : cli.Heard) (h' : cli'.Heard)
    (hs : cli.state = .execReq) (hs' : cli'.state = .execReq) :
    cli.signed = cli'.signed ↔ cli.operation = cli'.operation := by
  have hcreq : cli.creq.data.length = chunksrvReqSz := h.sized .creq
  have hcreq' : cli'.creq.data.length = chunksrvReqSz := h'.sized .creq
  have hkey := h.keyBytes_length hs
  have hkey' := h'.keyBytes_length hs'
  have hfields : cli.req.fields.length = cli'.req.fields.length :=
    (fields_length hcreq).trans (fields_length hcreq').symm
  rw [h.signed_eq hs, h'.signed_eq hs']
  constructor
  · intro hsigned
    rw [List.append_assoc, List.append_assoc, List.append_assoc, List.append_assoc] at hsigned
    obtain ⟨heq, hrest⟩ := List.append_inj hsigned hfields
    have hreq : ({ cli.req with sig := [] } : ChunksrvReq) = { cli'.req with sig := [] } := by
      apply ofBytes_take
      rw [← fields_ofBytes hcreq, ← fields_ofBytes hcreq']
      exact heq
    obtain ⟨hmagic, hop, hflags, hlen, hnonce, hdata, -⟩ := ChunksrvReq.mk.inj hreq
    obtain ⟨hbytes, hpart⟩ := List.append_inj (List.append_cancel_left hrest)
      (hkey.trans (hlen.trans hkey'.symm))
    have hoperation : cli.operation =
        { cli'.operation with part := cli.operation.part, key := cli.keyBytes } := by
      unfold ClientRx.operation
      rw [hmagic, hop, hflags, hnonce, hdata]
    rw [hoperation, hpart, hbytes]
    rfl
  · intro hoperation
    obtain ⟨hmagic, hop, hflags, hnonce, hdata, hbytes, hpart⟩ := Operation.mk.inj hoperation
    have hlen : cli.req.keyLen = cli'.req.keyLen := by
      rw [← hkey, ← hkey', hbytes]
    have hsame : cli.req.fields = cli'.req.fields := by
      unfold ChunksrvReq.fields
      rw [hmagic, hop, hflags, hlen, hnonce, hdata]
    have hrest : cli.operation.part = cli'.operation.part := hpart
    rw [hsame, hbytes, hrest]

/-- The same of the requests that two connections execute. -/
theorem run_signed_iff (e : Env) {is is' : List (Srv × Io × ConnEv)} {cli cli' : Client}
    (hrun : run (connNext e) (some cliAlloc) is = some cli)
    (hrun' : run (connNext e) (some cliAlloc) is' = some cli')
    (hs : cli.state = .execReq) (hs' : cli'.state = .execReq) :
    cli.signed = cli'.signed ↔ cli.operation = cli'.operation :=
  (run_heard e is cli hrun).signed_iff (run_heard e is' cli' hrun') hs hs'

/-- The client after a request to copy an object to `k`. -/
def copyFrom (src : UInt8) : Client :=
  (run (connNext .sample) (some cliAlloc)
    [gives 0x43 (ChunksrvReq.encode
        ⟨chunkdMagic, .cp, 0, 1, 7, 1, List.replicate chdSigSz 0⟩).tail,
      gives 0x6b [], gives src []]).getD cliAlloc

/-- Two copies from different sources have the same bytes signed. -/
theorem run_signed_iff_copies :
    (copyFrom 0x73).signed = (copyFrom 0x74).signed ∧
      (copyFrom 0x73).key2Bytes ≠ (copyFrom 0x74).key2Bytes := by
  have hrun : ∀ {is : List (Srv × Io × ConnEv)},
      (run (connNext .sample) (some cliAlloc) is).isSome = true →
      run (connNext .sample) (some cliAlloc) is =
        some ((run (connNext .sample) (some cliAlloc) is).getD cliAlloc) := by
    intro is h
    obtain ⟨cli, hcli⟩ := Option.isSome_iff_exists.mp h
    rw [hcli]
    rfl
  exact ⟨(run_signed_iff .sample (hrun (by decide +kernel)) (hrun (by decide +kernel))
    (by decide +kernel) (by decide +kernel)).mpr (by decide +kernel), by decide +kernel⟩

end Hail.Chunkd
