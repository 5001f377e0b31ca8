import Hail.Chunkdc.Stc
import Hail.Chunkd.Replies

/-!
# What the client library sends

Each function writes a request, and a PUT its body, that the server takes apart into the same request;
its signature verifies under a user who signs with his own name.
-/
namespace Hail.Chunkdc

open Library Chunkd

/-! ## Calls -/

/-- A call of the library. -/
inductive Call where
  | login
  | tableOpen (key : Bytes) (flags : Nat)
  | get (key : Bytes)
  | getPart (key : Bytes) (offset maxLen : Nat)
  | put (key data : Bytes) (flags : Nat)
  | del (key : Bytes)
  | keys | ping | checkStart | checkStatus
  | cp (destKey srcKey : Bytes)
  deriving DecidableEq

def Call.op : Call → ChunksrvOps
  | .login => .login
  | .tableOpen .. => .tableOpen
  | .get _ => .get
  | .getPart .. => .getPart
  | .put .. => .put
  | .del _ => .del
  | .keys => .list
  | .ping => .nop
  | .checkStart => .checkStart
  | .checkStatus => .checkStatus
  | .cp .. => .cp

/-- The key that is sent. -/
def Call.key (stc : StClient) : Call → Bytes
  | .login => stc.user ++ [0]
  | .tableOpen key _ | .get key | .getPart key _ _ | .put key _ _ | .del key | .cp key _ => key
  | .keys | .ping | .checkStart | .checkStatus => []

/-- What follows the key in the request. -/
def Call.second : Call → Bytes
  | .getPart _ offset _ => leBytes 8 offset
  | .cp _ srcKey => srcKey
  | _ => []

def Call.flags : Call → Nat
  | .tableOpen _ flags => flags &&& (chfTblCreat ||| chfTblExcl)
  | .put _ _ flags => flags &&& chfSync
  | _ => 0

def Call.dataLen : Call → Nat
  | .getPart _ _ maxLen => maxLen
  | .put _ data _ => data.length
  | .cp _ srcKey => srcKey.length
  | _ => 0

def Call.body : Call → Bytes
  | .put _ data _ => data
  | _ => []

/-- The function is called: whether it succeeds and, if it asks for data, what it returns. -/
def Call.run (e : Env) (stc : StClient) (nonce : Nat) (s : Socket) : Call → Option Bytes × Socket
  | .login => told (stcLogin e stc nonce s)
  | .tableOpen key flags => told (stcTableOpen e stc nonce key flags s)
  | .get key => stcGet e stc nonce key s
  | .getPart key offset maxLen => stcGetPart e stc nonce key offset maxLen s
  | .put key data flags => told (stcPutInline e stc nonce key data flags s)
  | .del key => told (stcDel e stc nonce key s)
  | .keys => stcKeys e stc nonce s
  | .ping => told (stcPing e stc nonce s)
  | .checkStart => told (stcCheckStart e stc nonce s)
  | .checkStatus => stcCheckStatus e stc nonce s
  | .cp destKey srcKey => told (stcCp e stc nonce destKey srcKey s)
where
  told (r : Bool × Socket) : Option Bytes × Socket := (if r.1 then some [] else none, r.2)

/-- What the functions take for granted of their arguments, or check: only a copy is sent whatever its
keys are. -/
structure Call.Valid (stc : StClient) (c : Call) : Prop where
  login : c = .login → stc.user.length < chdUserSz
  key : c.op = .tableOpen ∨ c.op = .get ∨ c.op = .getPart ∨ c.op = .put ∨ c.op = .del ∨ c.op = .cp →
    keyValid (c.key stc) = true
  source : c.op = .cp → c.second.length ≤ chdKeySz
  dataLen : c.dataLen < 2 ^ 64

/-- The header that is signed. -/
def Call.req (stc : StClient) (nonce : Nat) (c : Call) : ChunksrvReq :=
  reqInit c.op c.flags nonce c.dataLen (c.key stc)

/-- The header with its signature. -/
def Call.hdr (e : Env) (stc : StClient) (nonce : Nat) (c : Call) : ChunksrvReq :=
  { c.req stc nonce with
    sig := sigField (chreqSign e stc.key (c.req stc nonce)
      ((c.req stc nonce).encode ++ c.key stc ++ c.second)) }

/-- What a call sends. -/
def Call.message (e : Env) (stc : StClient) (nonce : Nat) (c : Call) : Message where
  req := ⟨(c.hdr e stc nonce).encode, c.key stc, c.second⟩
  body := c.body

/-! ## What is written -/

/-- What a call that is no PUT does with what `stcCall` returns. -/
def Call.finish (c : Call) (r : Option ChunksrvResp × Socket) : Option Bytes × Socket :=
  match c with
  | .get _ | .getPart .. => readAll (readRest r)
  | .keys => readAll (r.1.map (·.dataLen), r.2)
  | .checkStatus => readStatus r
  | _ => Call.run.told (went r)

theorem respRead_puts (s : Socket) : s.Puts [] (respRead s).2 := by
  have h := s.readExact_puts chunksrvRespSz
  unfold respRead
  split <;> next hread =>
    rw [hread] at h
    exact h

theorem stcCall_puts {s : Socket} (h : s.Up) (bs : Bytes) : s.Puts bs (stcCall bs s).2 := by
  obtain ⟨s₁, hwrite, hmove⟩ := @Socket.writeAll_moves bs s h
  have hread := hmove.toPuts.trans (respRead_puts s₁)
  rw [List.append_nil] at hread
  unfold stcCall
  rw [hwrite]
  dsimp only
  split <;> next hresp =>
    rw [hresp] at hread
    exact hread

theorem readContent_puts (fuel n : Nat) (s : Socket) : s.Puts [] (readContent fuel n s).2 := by
  induction fuel generalizing n s with
  | zero => exact .refl s
  | succ fuel ih =>
    have hpiece := s.readExact_puts (min n netbufSz)
    rw [readContent]
    split
    · exact .refl s
    · split
      · next hread =>
        rw [hread] at hpiece
        exact hpiece
      · next bs s₁ hread =>
        rw [hread] at hpiece
        have hall := hpiece.trans (ih (n - bs.length) s₁)
        split <;> next hrest =>
          rw [hrest] at hall
          exact hall

/-- The pieces of the data are written one behind the other. -/
theorem writeContent_moves {data : Bytes} {fuel i n : Nat} {s : Socket} (h : s.Up) (hfuel : n ≤ fuel)
    (hlen : (data.drop (i * netbufSz)).length = n) :
    ∃ s', writeContent (readInlineCb data) fuel i n s = (true, s') ∧
      s.Moves [] (data.drop (i * netbufSz)) s' := by
  induction fuel generalizing i n s with
  | zero =>
    obtain rfl : n = 0 := by omega
    rw [List.length_eq_zero_iff.mp hlen]
    exact ⟨s, rfl, .refl s⟩
  | succ fuel ih =>
    by_cases hn : n = 0
    · subst hn
      rw [List.length_eq_zero_iff.mp hlen]
      exact ⟨s, rfl, .refl s⟩
    · set bs := (readInlineCb data i).take (min n netbufSz) with hbs
      have hpiece : bs = (data.drop (i * netbufSz)).take netbufSz := by
        rw [hbs, readInlineCb, List.take_take, ← List.take_length (l := data.drop (i * netbufSz)),
          List.take_take, List.take_take, hlen]
        congr 1
        omega
      have hpos : 0 < netbufSz := by decide
      have hne : bs ≠ [] := by
        rw [← List.length_pos_iff, hpiece, List.length_take, hlen]
        omega
      have hnext : data.drop ((i + 1) * netbufSz) = (data.drop (i * netbufSz)).drop netbufSz := by
        rw [List.drop_drop, Nat.succ_mul]
      have hjoin : bs ++ data.drop ((i + 1) * netbufSz) = data.drop (i * netbufSz) := by
        rw [hpiece, hnext, List.take_append_drop]
      have hrest : (data.drop ((i + 1) * netbufSz)).length = n - bs.length := by
        rw [hnext, hpiece, List.length_drop, List.length_take, hlen]
        omega
      have hfewer : n - bs.length ≤ fuel := by
        have hlt := List.length_pos_iff.mpr hne
        omega
      obtain ⟨s₁, hwrite, hmove⟩ := @Socket.writeAll_moves bs s h
      obtain ⟨s', hloop, hmove'⟩ := ih (h.after hmove.toPuts) hfewer hrest
      refine ⟨s', ?_, ?_⟩
      · rw [writeContent, if_neg hn]
        dsimp only
        rw [← hbs, if_neg hne, hwrite]
        exact hloop
      · rw [← hjoin]
        exact hmove.trans hmove'

theorem readAll_puts (r : Option Nat × Socket) : r.2.Puts [] (readAll r).2 := by
  unfold readAll
  split
  · exact .refl _
  · exact readContent_puts _ _ _

theorem readRest_puts (r : Option ChunksrvResp × Socket) : r.2.Puts [] (readRest r).2 := by
  unfold readRest
  split
  · exact .refl _
  · next resp s =>
    have h := s.readExact_puts 8
    split <;> next hread =>
      rw [hread] at h
      exact h

theorem readStatus_puts (r : Option ChunksrvResp × Socket) : r.2.Puts [] (readStatus r).2 := by
  unfold readStatus
  split
  · exact .refl _
  · split
    · exact .refl _
    · exact Socket.readExact_puts _ _

theorem Call.finish_puts (c : Call) (r : Option ChunksrvResp × Socket) :
    r.2.Puts [] (c.finish r).2 := by
  cases c with
  | get | getPart => exact (readRest_puts r).trans (readAll_puts (readRest r))
  | keys => exact readAll_puts (r.1.map (·.dataLen), r.2)
  | checkStatus => exact readStatus_puts r
  | _ => exact .refl _

theorem keyValid_iff (key : Bytes) : keyValid key = true ↔ 1 ≤ key.length ∧ key.length ≤ chdKeySz := by
  simp [keyValid]

section

variable {e : Env} {stc : StClient} {nonce : Nat} {c : Call}

theorem Call.Valid.key_length (h : c.Valid stc) : (c.key stc).length ≤ chdKeySz := by
  have hkeyed := h.key
  cases c with
  | login =>
    have hshort : stc.user.length < 64 := h.login rfl
    rw [Call.key, List.length_append, List.length_singleton]
    exact hshort.trans_le (by decide)
  | keys | ping | checkStart | checkStatus => exact Nat.zero_le _
  | _ => exact ((keyValid_iff _).mp (hkeyed (by simp [Call.op]))).2

theorem Call.Valid.keyLen (h : c.Valid stc) (nonce : Nat) :
    (c.req stc nonce).keyLen = (c.key stc).length :=
  Nat.mod_eq_of_lt (h.key_length.trans_lt (by decide))

theorem Call.Valid.reqLen (h : c.Valid stc) (nonce : Nat) : reqLen (c.req stc nonce) =
    chunksrvReqSz + (c.key stc).length + if c.op = .getPart then chunksrvReqGetpartSz else 0 := by
  rw [reqLen_eq, h.keyLen]
  rfl

/-- What follows the key is of the length that `req_len` adds, but for a copy. -/
theorem Call.second_length (hop : c.op ≠ .cp) :
    c.second.length = if c.op = .getPart then chunksrvReqGetpartSz else 0 := by
  cases c with
  | cp => exact absurd rfl hop
  | getPart => exact leBytes_length 8 _
  | _ => rfl

theorem sigField_length {sig : Bytes} (h : sig.length < chdSigSz) : (sigField sig).length = chdSigSz := by
  rw [sigField, List.length_append, List.length_replicate]
  omega

variable (hsigs : ∀ key bs, (e.b64hmac key bs).length < chdSigSz)

include hsigs

theorem Call.sig_length (nonce : Nat) : (c.hdr e stc nonce).sig.length = chdSigSz :=
  sigField_length (hsigs _ _)

theorem Call.hdr_length (nonce : Nat) : (c.hdr e stc nonce).encode.length = chunksrvReqSz := by
  have hmagic : (c.hdr e stc nonce).magic.length = 8 := rfl
  simp only [ChunksrvReq.encode, List.length_append, leBytes_length, hmagic, Call.sig_length hsigs]
  rfl

/-- All of the buffer is sent, also where it is cut off at the length of the request. -/
theorem Call.head_taken (h : c.Valid stc) (hop : c.op ≠ .cp) (nonce : Nat) :
    (signedReq e stc (c.req stc nonce) (c.key stc) c.second).take (reqLen (c.req stc nonce)) =
      (c.message e stc nonce).head := by
  have hhead : signedReq e stc (c.req stc nonce) (c.key stc) c.second =
    (c.message e stc nonce).head := rfl
  rw [hhead]
  refine List.take_of_length_le ?_
  have hlen : (c.message e stc nonce).head.length =
      (c.hdr e stc nonce).encode.length + (c.key stc).length + c.second.length := by
    rw [Message.head, List.length_append, List.length_append]
    rfl
  rw [hlen, h.reqLen, Call.hdr_length hsigs, Call.second_length hop]

/-- A call that is no PUT sends its request and goes on with what `stcCall` returns. -/
theorem Call.run_eq (h : c.Valid stc) (hop : c.op ≠ .put) (nonce : Nat) (s : Socket) :
    c.run e stc nonce s = c.finish (stcCall (c.message e stc nonce).head s) := by
  have hhead := Call.head_taken hsigs h
  have hkey := h.key
  have hkeyed : ∀ key, keyValid key = true → ¬ (!keyValid key) = true := by simp
  cases c with
  | put => exact absurd rfl hop
  | cp destKey srcKey => rfl
  | login => exact congrArg (fun bs => Call.finish .login (stcCall bs s)) (hhead (by simp [Call.op]) nonce)
  | ping => exact congrArg (fun bs => Call.finish .ping (stcCall bs s)) (hhead (by simp [Call.op]) nonce)
  | keys => exact congrArg (fun bs => Call.finish .keys (stcCall bs s)) (hhead (by simp [Call.op]) nonce)
  | checkStart =>
    exact congrArg (fun bs => Call.finish .checkStart (stcCall bs s)) (hhead (by simp [Call.op]) nonce)
  | checkStatus =>
    exact congrArg (fun bs => Call.finish .checkStatus (stcCall bs s)) (hhead (by simp [Call.op]) nonce)
  | tableOpen key flags =>
    rw [Call.run, stcTableOpen, if_neg (hkeyed key (hkey (by simp [Call.op])))]
    exact congrArg (fun bs => Call.finish (.tableOpen key flags) (stcCall bs s))
      (hhead (by simp [Call.op]) nonce)
  | del key =>
    rw [Call.run, stcDel, if_neg (hkeyed key (hkey (by simp [Call.op])))]
    exact congrArg (fun bs => Call.finish (.del key) (stcCall bs s)) (hhead (by simp [Call.op]) nonce)
  | get key =>
    rw [Call.run, stcGet, stcGetReq, stcGetHdr, if_neg (hkeyed key (hkey (by simp [Call.op])))]
    exact congrArg (fun bs => Call.finish (.get key) (stcCall bs s)) (hhead (by simp [Call.op]) nonce)
  | getPart key offset maxLen =>
    rw [Call.run, stcGetPart, stcGetPartReq, stcGetHdr,
      if_neg (hkeyed key (hkey (by simp [Call.op])))]
    exact congrArg (fun bs => Call.finish (.getPart key offset maxLen) (stcCall bs s))
      (hhead (by simp [Call.op]) nonce)

/-- A PUT sends its request and the data, and reads the header of the answer. -/
theorem Call.put_eq (h : c.Valid stc) (hop : c.op = .put) (nonce : Nat) {s : Socket} (hup : s.Up) :
    ∃ s', s.Moves [] (c.message e stc nonce).wire s' ∧
      c.run e stc nonce s = run.told
        ((respRead s').1.any fun resp => resp.respCode = 0, (respRead s').2) := by
  cases c with
  | put key data flags =>
    have hhead := Call.head_taken hsigs h (by simp [Call.op]) nonce
    have hkey : keyValid key = true := h.key (by simp [Call.op])
    obtain ⟨s₁, hwrite, hmove⟩ :=
      @Socket.writeAll_moves ((Call.put key data flags).message e stc nonce).head s hup
    obtain ⟨s₂, hcontent, hmove'⟩ := @writeContent_moves data data.length 0 data.length s₁
      (hup.after hmove.toPuts) le_rfl (by rw [Nat.zero_mul, List.drop_zero])
    rw [Nat.zero_mul, List.drop_zero] at hmove'
    refine ⟨s₂, hmove.trans hmove', ?_⟩
    set req := reqInit .put (flags &&& chfSync) nonce data.length key with hreq
    have hsent : Socket.writeAll ((signedReq e stc req key []).take (reqLen req)) s = (true, s₁) :=
      (congrArg (fun bs => Socket.writeAll bs s) hhead).trans hwrite
    have hput : stcPutInline e stc nonce key data flags s =
        ((respRead s₂).1.any fun resp => resp.respCode = 0, (respRead s₂).2) := by
      unfold stcPutInline stcPut
      rw [if_neg (by simp [hkey])]
      dsimp only
      rw [← hreq, hsent]
      dsimp only
      rw [hcontent]
    rw [Call.run, hput]
  | _ => cases hop

/-- Whatever the answers are, a call writes its request and, for a PUT, the data. -/
theorem Call.run_puts (h : c.Valid stc) {s : Socket} (hup : s.Up) :
    s.Puts (c.message e stc nonce).wire (c.run e stc nonce s).2 := by
  by_cases hop : c.op = .put
  · obtain ⟨s', hmove, hrun⟩ := Call.put_eq hsigs h hop nonce hup
    have hall := hmove.toPuts.trans (respRead_puts s')
    rw [List.append_nil] at hall
    rw [hrun]
    exact hall
  · have hall := (stcCall_puts hup (c.message e stc nonce).head).trans (c.finish_puts _)
    have hbody : c.body = [] := by cases c <;> first | rfl | exact absurd rfl hop
    rw [Call.run_eq hsigs h hop, Message.wire, Call.message]
    dsimp only
    rw [hbody]
    exact hall

/-! ## What the server makes of it -/

omit hsigs in
theorem Call.op_toNat (c : Call) : ChunksrvOps.ofNat c.op.toNat = c.op ∧ c.op.toNat < 256 := by
  cases c <;> simp [Call.op, ChunksrvOps.toNat, ChunksrvOps.ofNat]

omit hsigs in
theorem Call.flags_lt (c : Call) : c.flags < 256 := by
  cases c with
  | tableOpen key flags => exact Nat.and_le_right.trans_lt (by decide)
  | put key data flags => exact Nat.and_le_right.trans_lt (by decide)
  | _ => exact (by decide : 0 < 256)

theorem Call.hdr_sized (h : c.Valid stc) (hnonce : nonce < 2 ^ 32) : (c.hdr e stc nonce).Sized where
  magic := rfl
  op := c.op_toNat.1
  op_lt := c.op_toNat.2
  flags := c.flags_lt
  keyLen := Nat.mod_lt _ (by decide)
  nonce := hnonce
  dataLen := h.dataLen
  sig := Call.sig_length hsigs nonce

theorem Call.message_hdr (h : c.Valid stc) (hnonce : nonce < 2 ^ 32) :
    (c.message e stc nonce).hdr = c.hdr e stc nonce :=
  ChunksrvReq.ofBytes_encode (Call.hdr_sized hsigs h hnonce)

theorem Call.message_wellFormed (h : c.Valid stc) (hnonce : nonce < 2 ^ 32) :
    (c.message e stc nonce).WellFormed := by
  have hhdr := Call.message_hdr (e := e) hsigs h hnonce
  have hkeyLen : (c.hdr e stc nonce).keyLen = (c.key stc).length := h.keyLen nonce
  have hop : (c.hdr e stc nonce).op = c.op := rfl
  have hdata : (c.hdr e stc nonce).dataLen = c.dataLen := rfl
  refine ⟨Call.hdr_length hsigs nonce, ?_, ?_, ?_, ?_, ?_⟩
  · rw [hhdr, hkeyLen]
    rfl
  · rw [hhdr]
    cases c with
    | getPart => exact leBytes_length 8 _
    | _ => rfl
  · rw [hhdr, hop, hdata]
    intro hcp
    have hsource := h.source hcp
    cases c with
    | cp => exact hsource
    | _ => cases hcp
  · rw [hhdr, hop, hkeyLen]
    intro hkeyed
    have hvalid := (keyValid_iff _).mp (h.key (by tauto))
    omega
  · rw [hhdr, hop, hdata]
    cases c <;> rfl

/-- What the server takes to be signed is what has been signed. -/
theorem Call.signedBytes_eq (h : c.Valid stc) (hnonce : nonce < 2 ^ 32) :
    signedBytes (c.hdr e stc nonce).encode (if c.op = .getPart then c.second else []) (c.key stc) =
      ((c.req stc nonce).encode ++ c.key stc ++ c.second).take (reqLen (c.req stc nonce)) := by
  have hfields : (c.hdr e stc nonce).encode.take (chunksrvReqSz - chdSigSz) ++
      List.replicate chdSigSz 0 = (c.req stc nonce).encode := by
    have hsplit : (c.hdr e stc nonce).encode = (c.hdr e stc nonce).fields ++ (c.hdr e stc nonce).sig := rfl
    have hlen : (c.hdr e stc nonce).fields.length = chunksrvReqSz - chdSigSz := by
      have hall : (c.hdr e stc nonce).encode.length = chunksrvReqSz := Call.hdr_length hsigs nonce
      rw [hsplit, List.length_append, Call.sig_length hsigs] at hall
      omega
    rw [hsplit, List.take_left' hlen]
    rfl
  have hreq : reqLen (c.hdr e stc nonce) = reqLen (c.req stc nonce) := rfl
  have hlen : (c.req stc nonce).encode.length = chunksrvReqSz := by
    simp [ChunksrvReq.encode, Call.req, reqInit, chunkdMagic, chdSigSz, chunksrvReqSz]
  rw [signedBytes, hfields, ChunksrvReq.ofBytes_encode (Call.hdr_sized hsigs h hnonce), hreq, h.reqLen]
  by_cases hop : c.op = .getPart
  · rw [if_pos hop, if_pos hop]
  · rw [if_neg hop, if_neg hop, List.append_nil, ← hlen, Nat.add_zero, ← List.length_append,
      List.take_left, List.take_length]

/-- A user who signs with his name, as a server expects that takes the name for the key; signatures are
texts for which there is room in the field. -/
structure StClient.Signs (e : Env) (stc : StClient) : Prop where
  own : stc.key = stc.user
  name : ∀ b ∈ stc.user, b ≠ 0
  text : ∀ key bs, ∀ b ∈ e.b64hmac key bs, b ≠ 0
  sigs : ∀ key bs, e.b64hmac key bs ≠ [] ∧ (e.b64hmac key bs).length < chdSigSz

theorem Call.verifies (hs : stc.Signs e) (h : c.Valid stc) (hnonce : nonce < 2 ^ 32) {user : Bytes}
    (huser : cstr user = cstr stc.user) :
    validReqHdr (c.message e stc nonce).req.hdr = true ∧
      (c.message e stc nonce).req.verifies e user = true := by
  have hhdr : (c.message e stc nonce).req.hdr = c.hdr e stc nonce :=
    Call.message_hdr hsigs h hnonce
  set sig := chreqSign e stc.key (c.req stc nonce) ((c.req stc nonce).encode ++ c.key stc ++ c.second)
    with hsig
  have hfield : cstr (c.hdr e stc nonce).sig = sig := cstr_append_zeros (hs.text _ _) _
  have hlen : sig.length < chdSigSz := hsigs _ _
  have hne : sig ≠ [] := (hs.sigs _ _).1
  rw [hhdr]
  refine ⟨?_, ?_⟩
  · have hmagic : (c.hdr e stc nonce).magic = chunkdMagic := rfl
    rw [validReqHdr, hfield]
    simp [hmagic, hlen, List.length_pos_iff.mpr hne, Nat.succ_le_iff]
  · rw [Request.verifies, hhdr]
    have hcheck : authcheck e (c.hdr e stc nonce).encode (if c.op = .getPart then c.second else [])
        (c.key stc) user = true := by
      rw [authcheck, ChunksrvReq.ofBytes_encode (Call.hdr_sized hsigs h hnonce),
        Call.signedBytes_eq hsigs h hnonce, hfield, huser, ← hs.own, cstr_eq_self (hs.text _ _), hsig]
      exact decide_eq_true rfl
    exact hcheck

end

/-! ## A session -/

/-- Calls with the numbers that `rand` gives for them. All are made, whatever they return. -/
def session (e : Env) (stc : StClient) : List (Call × Nat) → Socket → List (Option Bytes) × Socket
  | [], s => ([], s)
  | (c, nonce) :: cs, s =>
    let (r, s) := c.run e stc nonce s
    let (rs, s) := session e stc cs s
    (r :: rs, s)

/-- What the calls of a session send. -/
def sent (e : Env) (stc : StClient) (cs : List (Call × Nat)) : List Message :=
  cs.map fun c => c.1.message e stc c.2

section

variable {e : Env} {stc : StClient}

theorem session_puts (hs : stc.Signs e) {cs : List (Call × Nat)} (hcs : ∀ c ∈ cs, c.1.Valid stc)
    {s : Socket} (hup : s.Up) :
    s.Puts ((sent e stc cs).flatMap Message.wire) (session e stc cs s).2 := by
  induction cs generalizing s with
  | nil => exact .refl s
  | cons c cs ih =>
    have hfirst : s.Puts (c.1.message e stc c.2).wire (c.1.run e stc c.2 s).2 :=
      Call.run_puts (fun key bs => (hs.sigs key bs).2) (hcs c (by simp)) hup
    have hrest := ih (fun c hc => hcs c (by simp [hc])) (hup.after hfirst)
    exact hfirst.trans hrest

theorem sent_wellFormed (hs : stc.Signs e) {cs : List (Call × Nat)}
    (hcs : ∀ c ∈ cs, c.1.Valid stc ∧ c.2 < 2 ^ 32) : ∀ m ∈ sent e stc cs, m.WellFormed := by
  intro m hm
  obtain ⟨c, hc, rfl⟩ := List.mem_map.mp hm
  exact Call.message_wellFormed (fun key bs => (hs.sigs key bs).2) (hcs c hc).1 (hcs c hc).2

/-- A LOGIN of a session names its user. -/
theorem sent_userName (hs : stc.Signs e) {cs : List (Call × Nat)}
    (hcs : ∀ c ∈ cs, c.1.Valid stc ∧ c.2 < 2 ^ 32) {m : Message} (hm : m ∈ sent e stc cs)
    (hop : m.req.hdr.op = .login) : cstr m.req.userName = stc.user := by
  obtain ⟨c, hc, rfl⟩ := List.mem_map.mp hm
  have hhdr := Call.message_hdr (e := e) (fun key bs => (hs.sigs key bs).2) (hcs c hc).1 (hcs c hc).2
  have hlogin : c.1.op = .login := by
    have hop' : (c.1.message e stc c.2).hdr.op = .login := hop
    rw [hhdr] at hop'
    exact hop'
  have hkey : (c.1.message e stc c.2).req.key = stc.user ++ [0] := by
    have hcall : c.1 = .login := by
      cases hc : c.1 <;> first | rfl | (rw [hc] at hlogin; cases hlogin)
    rw [hcall]
    rfl
  rw [Request.userName, hkey, List.append_assoc, List.singleton_append, ← List.replicate_succ]
  exact cstr_append_zeros hs.name _

/-- What the server executes of what a session writes are the first of its requests. -/
theorem session_executed (hs : stc.Signs e) {cs : List (Call × Nat)}
    (hcs : ∀ c ∈ cs, c.1.Valid stc ∧ c.2 < 2 ^ 32) {s : Socket} (hup : s.Up) (hout : s.out = [])
    {is : List (Srv × Io × ConnEv)} (hok : Meets (connNext e) (NoPutRefused e) (some cliAlloc) is)
    {cli : Client} (hrun : run (connNext e) (some cliAlloc) is = some cli)
    (htaken : cli.taken <+: (session e stc cs s).2.out) :
    cli.executed <+: (sent e stc cs).map Message.req := by
  have hwire : (session e stc cs s).2.out = (sent e stc cs).flatMap Message.wire := by
    rw [(session_puts hs (fun c hc => (hcs c hc).1) hup).out, hout, List.nil_append]
  rw [hwire] at htaken
  exact (run_framed e (sent_wellFormed hs hcs) hok hrun htaken).executed_begins

/-- The requests that are executed on a connection on which a session writes are the first of its calls',
each of them verifies, and whom the server has let in is the session's user. -/
theorem run_executes_calls (hs : stc.Signs e) {cs : List (Call × Nat)}
    (hcs : ∀ c ∈ cs, c.1.Valid stc ∧ c.2 < 2 ^ 32) {s : Socket} (hup : s.Up) (hout : s.out = [])
    {is : List (Srv × Io × ConnEv)} (hok : Meets (connNext e) (NoPutRefused e) (some cliAlloc) is)
    {cli : Client} (hrun : run (connNext e) (some cliAlloc) is = some cli)
    (htaken : cli.taken <+: (session e stc cs s).2.out) :
    cli.executed <+: (sent e stc cs).map Message.req ∧
      (∀ r ∈ cli.executed, validReqHdr r.hdr = true ∧ r.verifies e stc.user = true) ∧
      (cli.loggedIn = true → cli.state ≠ .dispose → cstr cli.user = stc.user) := by
  have hpre := session_executed hs hcs hup hout hok hrun htaken
  have hof : ∀ r ∈ cli.executed, ∃ m ∈ sent e stc cs, m.req = r := fun r hr =>
    List.mem_map.mp (hpre.subset hr)
  refine ⟨hpre, fun r hr => ?_, fun hlogged hopen => ?_⟩
  · obtain ⟨m, hm, rfl⟩ := hof r hr
    obtain ⟨c, hc, rfl⟩ := List.mem_map.mp hm
    exact Call.verifies (fun key bs => (hs.sigs key bs).2) hs (hcs c hc).1 (hcs c hc).2 rfl
  · cases (run_gated e is cli hrun).2 with
    | nobody _ hname _ => exact absurd hlogged (by simp [hname])
    | closedOut hs _ _ | closedIn hs _ _ => exact absurd hs hopen
    | user h =>
      obtain ⟨r, hr, hlogs, huser⟩ := h.exists_logsIn
      obtain ⟨m, hm, rfl⟩ := hof r hr
      rw [huser]
      exact sent_userName hs hcs hm hlogs.1

end

/-- With the signatures of the requests below under the key `u`. -/
def storeEnv : Env :=
  { Env.sample with
    b64hmac := fun _ bs =>
      match (bs.drop 12).head? with
      | some 7 => ascii "tlxKanuqgJB3WVFUNSWvjq7GE4s="
      | some 8 => ascii "2uZlpOf+jzVjljTCpP4RIYRaiUU="
      | some 9 => ascii "CUtWVCUz9fLV9aBIxq8LuHusKRk="
      | _ => ascii "/2N4TzwN/Gb9jDdh4MnOk9qJSdo=" }

def storeStc : StClient := ⟨[0x75], [0x75]⟩

theorem storeStc_signs : storeStc.Signs storeEnv where
  own := rfl
  name := by decide
  text key bs := by
    unfold storeEnv
    dsimp only
    split <;> decide
  sigs key bs := by
    unfold storeEnv
    dsimp only
    split <;> exact ⟨by decide, by decide⟩

/-- The user `u` logs in, opens a table, stores an object and gets it. -/
def storeCalls : List (Call × Nat) :=
  [(.login, 7), (.tableOpen [0x74] chfTblCreat, 8), (.put [0x6b] abc 0, 9), (.get [0x6b], 10)]

theorem storeCalls_valid : ∀ c ∈ storeCalls, c.1.Valid storeStc ∧ c.2 < 2 ^ 32 := by
  intro c hc
  simp only [storeCalls, List.mem_cons, List.not_mem_nil, or_false] at hc
  rcases hc with rfl | rfl | rfl | rfl
  · exact ⟨⟨fun _ => by decide, by decide, by decide, by decide⟩, by decide⟩
  all_goals exact ⟨⟨nofun, by decide, by decide, by decide⟩, by decide⟩

/-- What the server does meanwhile. -/
def storeReads : List (Srv × Io × ConnEv) :=
  alone storeEnv bareSrv (some cliAlloc) ((sent storeEnv storeStc storeCalls).flatMap attends)

/-- A socket to which this is sent, and on which every call moves a byte. -/
def byteSocket (inp : Bytes) : Socket := { inp, read := fun _ => some 1, write := fun _ => some 1 }

theorem run_executes_calls_store :
    ∃ cli ∈ run (connNext storeEnv) (some cliAlloc) storeReads,
      cli.executed.length = 4 ∧
      cli.executed <+: (sent storeEnv storeStc storeCalls).map Message.req ∧
      (∀ r ∈ cli.executed, validReqHdr r.hdr = true ∧ r.verifies storeEnv storeStc.user = true) ∧
      (cli.loggedIn = true → cli.state ≠ .dispose → cstr cli.user = storeStc.user) := by
  have hends : ∃ cli ∈ run (connNext storeEnv) (some cliAlloc) storeReads, cli.executed.length = 4 ∧
      cli.taken <+: (session storeEnv storeStc storeCalls (byteSocket [])).2.out := by decide +kernel
  obtain ⟨cli, hcli, hex, htaken⟩ := hends
  exact ⟨cli, hcli, hex, run_executes_calls storeStc_signs storeCalls_valid ⟨fun _ => rfl, fun _ => rfl⟩
    (show (byteSocket []).out = [] from rfl) (by decide +kernel) hcli htaken⟩

end Hail.Chunkdc
