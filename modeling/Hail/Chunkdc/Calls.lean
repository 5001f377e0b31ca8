import Hail.Chunkdc.Requests

/-!
# What the calls of a session return

A call reads the answer to its request, all of it and no more, whatever the code of the answer is. So on a
connection to a server that answers every request, each call returns what the server has answered to its
own request.
-/
namespace Hail.Chunkdc

open Library Chunkd

/-! ## Headers -/

theorem resp_encode_length {resp : ChunksrvResp} (h : resp.Sized) :
    resp.encode.length = chunksrvRespSz := by
  have hm : resp.magic.length = 8 := h.magic
  have hh : resp.hash.length = 20 := h.hash
  simp [ChunksrvResp.encode, hm, hh, chunksrvRespSz]

theorem respOfBytes_encode {resp : ChunksrvResp} (h : resp.Sized) : respOfBytes resp.encode = resp := by
  obtain ⟨magic, respCode, flags, nonce, dataLen, hash⟩ := resp
  obtain ⟨hmagic, hcode, hflags, hnonce, hdataLen, hhash⟩ := h
  dsimp only at *
  have hm : magic.length = 8 := hmagic
  simp only [respOfBytes, ChunksrvResp.encode, ChunksrvResp.mk.injEq]
  refine ⟨?_, ?_, ?_, ?_, ?_, ?_⟩
  · simp only [List.append_assoc]
    exact List.take_left' hmagic
  · have hf := @ofLe_field 1 respCode magic 8 hcode hm
      (leBytes 1 flags ++ [0, 0] ++ leBytes 4 nonce ++ leBytes 8 dataLen ++ hash ++ [0, 0, 0, 0])
    simp only [List.append_assoc] at hf ⊢
    exact hf
  · have hf := @ofLe_field 1 flags (magic ++ leBytes 1 respCode) 9 hflags (by simp [hm])
      ([0, 0] ++ leBytes 4 nonce ++ leBytes 8 dataLen ++ hash ++ [0, 0, 0, 0])
    simp only [List.append_assoc] at hf ⊢
    exact hf
  · have hf := @ofLe_field 4 nonce (magic ++ leBytes 1 respCode ++ leBytes 1 flags ++ [0, 0]) 12 hnonce
      (by simp [hm]) (leBytes 8 dataLen ++ hash ++ [0, 0, 0, 0])
    simp only [List.append_assoc] at hf ⊢
    exact hf
  · have hf := @ofLe_field 8 dataLen (magic ++ leBytes 1 respCode ++ leBytes 1 flags ++ [0, 0] ++
      leBytes 4 nonce) 16 hdataLen (by simp [hm]) (hash ++ [0, 0, 0, 0])
    simp only [List.append_assoc] at hf ⊢
    exact hf
  · exact take_drop_field (by simp [hm]) hhash [0, 0, 0, 0]

/-! ## Reading -/

/-- The header of an answer that is there is read. -/
theorem respRead_moves {s : Socket} (hup : s.Up) {resp : ChunksrvResp} (h : resp.Sized)
    (hmagic : resp.magic = chunkdMagic) {rest : Bytes} (hinp : s.inp = resp.encode ++ rest) :
    ∃ s', respRead s = (some resp, s') ∧ s.Moves resp.encode [] s' ∧ s'.inp = rest := by
  obtain ⟨s', hread, hmove, hrest⟩ := Socket.readExact_moves hup hinp (resp_encode_length h)
  refine ⟨s', ?_, hmove, hrest⟩
  unfold respRead
  rw [hread]
  dsimp only
  rw [respOfBytes_encode h, respValid, hmagic]
  simp

/-- Data that are there are read, in pieces of the size of the buffer. -/
theorem readContent_moves {fuel n : Nat} {s : Socket} (hup : s.Up) (hfuel : n ≤ fuel) {bs rest : Bytes}
    (hinp : s.inp = bs ++ rest) (hlen : bs.length = n) :
    ∃ s', readContent fuel n s = (some bs, s') ∧ s.Moves bs [] s' ∧ s'.inp = rest := by
  induction fuel generalizing n s bs with
  | zero =>
    obtain rfl : n = 0 := by omega
    obtain rfl := List.length_eq_zero_iff.mp hlen
    exact ⟨s, rfl, .refl s, hinp⟩
  | succ fuel ih =>
    by_cases hn : n = 0
    · subst hn
      obtain rfl := List.length_eq_zero_iff.mp hlen
      exact ⟨s, rfl, .refl s, hinp⟩
    · have hpos : 0 < netbufSz := by decide
      have hsplit : s.inp = bs.take (min n netbufSz) ++ (bs.drop (min n netbufSz) ++ rest) := by
        rw [hinp, ← List.append_assoc, List.take_append_drop]
      have hpiece : (bs.take (min n netbufSz)).length = min n netbufSz := by
        rw [List.length_take, hlen]
        omega
      obtain ⟨s₁, hread, hmove, hrest⟩ := Socket.readExact_moves hup hsplit hpiece
      have hmore : (bs.drop (min n netbufSz)).length = n - min n netbufSz := by
        rw [List.length_drop, hlen]
      obtain ⟨s₂, hloop, hmove', hrest'⟩ := ih (hup.after hmove.toPuts) (by omega) hrest hmore
      have hall := hmove.trans hmove'
      rw [List.take_append_drop] at hall
      refine ⟨s₂, ?_, hall, hrest'⟩
      rw [readContent, if_neg hn, hread]
      dsimp only
      rw [hpiece, hloop]
      dsimp only
      rw [List.take_append_drop]

/-- A request is written and the header of its answer read. -/
theorem stcCall_moves {s : Socket} (hup : s.Up) (bs : Bytes) {resp : ChunksrvResp} (h : resp.Sized)
    (hmagic : resp.magic = chunkdMagic) {rest : Bytes} (hinp : s.inp = resp.encode ++ rest) :
    ∃ s', stcCall bs s = (if resp.respCode = 0 then some resp else none, s') ∧ s'.inp = rest ∧ s'.Up := by
  obtain ⟨s₁, hwrite, hmove⟩ := @Socket.writeAll_moves bs s hup
  have hinp₁ : s₁.inp = resp.encode ++ rest := hmove.inp.symm.trans hinp
  obtain ⟨s₂, hread, hmove', hrest⟩ := respRead_moves (hup.after hmove.toPuts) h hmagic hinp₁
  refine ⟨s₂, ?_, hrest, (hup.after hmove.toPuts).after hmove'.toPuts⟩
  unfold stcCall
  rw [hwrite]
  dsimp only
  rw [hread]

/-! ## Answers -/

/-- What a call makes of an answer: of a success the data, of which there may be none. What a file gives
at its offsets is a parameter. -/
def resultOf (val : Octet → UInt8) (reply : Reply) : Option Bytes :=
  if reply.resp.respCode = 0 then some (reply.body.map val) else none

section

variable {e : Env} {stc : StClient} {nonce : Nat} {c : Call} {val : Octet → UInt8}

/-- What a call that is no PUT does when it has read the header of a success. -/
theorem Call.finish_success (hput : c.op ≠ .put) {reply : Reply}
    (hto : Reply.To (c.hdr e stc nonce) reply) (hzero : reply.resp.respCode = 0) {s : Socket} (hup : s.Up)
    {rest : Bytes} (hinp : s.inp = reply.mtime.elim [] (leBytes 8) ++ (reply.body.map val ++ rest)) :
    (c.finish (some reply.resp, s)).1 = some (reply.body.map val) ∧
      (c.finish (some reply.resp, s)).2.inp = rest := by
  have hop : (c.hdr e stc nonce).op = c.op := rfl
  have hmtime : c.op.timed = false → reply.mtime = none := by
    intro htimed
    by_contra hsome
    have hboth := hto.mtime.mp (Option.isSome_iff_ne_none.mpr hsome)
    rw [hop, htimed] at hboth
    cases hboth.2
  have hlen : c.op.carries = true → (reply.body.map val).length = reply.resp.dataLen := by
    intro hcarries
    rw [List.length_map, hto.body, if_pos ⟨hzero, hop ▸ hcarries⟩]
  have hbare : c.op.Bare → (some [], s).1 = some (reply.body.map val) ∧ (some ([] : Bytes), s).2.inp = rest := by
    intro hbare
    obtain ⟨hnone, hbody⟩ := hto.header_only fun _ => hop ▸ hbare
    rw [hnone, hbody] at hinp
    rw [hbody]
    exact ⟨rfl, hinp⟩
  have hobject : c.op.timed = true → c.op.carries = true →
      (readAll (readRest (some reply.resp, s))).1 = some (reply.body.map val) ∧
        (readAll (readRest (some reply.resp, s))).2.inp = rest := by
    intro htimed hcarries
    obtain ⟨mtime, hsome⟩ := Option.isSome_iff_exists.mp (hto.mtime.mpr ⟨hzero, hop ▸ htimed⟩)
    rw [hsome] at hinp
    obtain ⟨s₁, hread, hmove, hinp₁⟩ := Socket.readExact_moves hup hinp (leBytes_length 8 mtime)
    obtain ⟨s₂, hcontent, -, hrest⟩ :=
      readContent_moves (hup.after hmove.toPuts) le_rfl hinp₁ (hlen hcarries)
    have heq : readAll (readRest (some reply.resp, s)) = (some (reply.body.map val), s₂) := by
      rw [readRest, hread]
      exact hcontent
    rw [heq]
    exact ⟨rfl, hrest⟩
  cases c with
  | put => exact absurd rfl hput
  | get | getPart => exact hobject rfl rfl
  | keys =>
    rw [hmtime rfl, Option.elim_none, List.nil_append] at hinp
    obtain ⟨s₁, hcontent, -, hrest⟩ := readContent_moves hup le_rfl hinp (hlen rfl)
    have heq : Call.keys.finish (some reply.resp, s) = (some (reply.body.map val), s₁) := hcontent
    rw [heq]
    exact ⟨rfl, hrest⟩
  | checkStatus =>
    rw [hmtime rfl, Option.elim_none, List.nil_append] at hinp
    have hsize : reply.resp.dataLen = chunkCheckStatusSz := hto.status rfl hzero
    obtain ⟨s₁, hread, -, hrest⟩ := Socket.readExact_moves hup hinp (hlen rfl)
    have heq : Call.checkStatus.finish (some reply.resp, s) = (some (reply.body.map val), s₁) := by
      rw [Call.finish, readStatus, if_neg (not_not.mpr hsize)]
      exact hread
    rw [heq]
    exact ⟨rfl, hrest⟩
  | _ => exact hbare ⟨rfl, rfl⟩

/-- A call reads the answer to its request, all of it and no more. -/
theorem Call.run_reply (hsigs : ∀ key bs, (e.b64hmac key bs).length < chdSigSz) (h : c.Valid stc)
    (hval : ∀ b, val (.mem b) = b) {reply : Reply} (hto : Reply.To (c.hdr e stc nonce) reply) {s : Socket}
    (hup : s.Up) {rest : Bytes} (hinp : s.inp = reply.octets.map val ++ rest) :
    (c.run e stc nonce s).1 = resultOf val reply ∧ (c.run e stc nonce s).2.inp = rest := by
  have hmagic : reply.resp.magic = chunkdMagic := hto.magic
  rw [Reply.bytes_eq hval, List.append_assoc, List.append_assoc] at hinp
  by_cases hput : c.op = .put
  · have hbare : (c.hdr e stc nonce).op.Bare := by
      change c.op.Bare
      rw [hput]
      exact ⟨rfl, rfl⟩
    obtain ⟨hmtime, hbody⟩ := hto.header_only fun _ => hbare
    obtain ⟨s₁, hmove, hrun⟩ := Call.put_eq hsigs h hput nonce hup
    have hinp₁ : s₁.inp = reply.resp.encode ++ rest := by
      rw [hmtime, hbody] at hinp
      exact hmove.inp.symm.trans hinp
    obtain ⟨s₂, hread, -, hrest⟩ := respRead_moves (hup.after hmove.toPuts) hto.sized hmagic hinp₁
    rw [hrun, hread, resultOf, hbody]
    refine ⟨?_, hrest⟩
    by_cases hzero : reply.resp.respCode = 0 <;> simp [Call.run.told, hzero]
  · obtain ⟨s₁, hcall, hinp₁, hup₁⟩ := stcCall_moves hup (c.message e stc nonce).head hto.sized hmagic hinp
    rw [Call.run_eq hsigs h hput, hcall]
    by_cases hzero : reply.resp.respCode = 0
    · rw [if_pos hzero, resultOf, if_pos hzero]
      exact Call.finish_success hput hto hzero hup₁ hinp₁
    · obtain ⟨hmtime, hbody⟩ := hto.header_only fun hz => absurd hz hzero
      rw [hmtime, hbody] at hinp₁
      rw [if_neg hzero, resultOf, if_neg hzero]
      cases c <;> exact ⟨rfl, hinp₁⟩

end

/-! ## Sessions -/

section

variable {e : Env} {stc : StClient} {val : Octet → UInt8}

/-- Each call of a session to which the answers have come returns what is in its own. -/
theorem session_replies (hs : stc.Signs e) (hval : ∀ b, val (.mem b) = b) {cs : List (Call × Nat)}
    (hcs : ∀ c ∈ cs, c.1.Valid stc) {k : Nat} {replies : List Reply}
    (hto : List.Forall₂ (fun c reply => Reply.To (c.1.hdr e stc c.2) reply) (cs.take k) replies)
    {s : Socket} (hup : s.Up) {rest : Bytes}
    (hinp : s.inp = (replies.flatMap Reply.octets).map val ++ rest) :
    (session e stc cs s).1.take k = replies.map (resultOf val) := by
  induction cs generalizing k replies s with
  | nil =>
    rw [List.take_nil] at hto
    cases hto
    exact List.take_nil
  | cons c cs ih =>
    cases k with
    | zero =>
      rw [List.take_zero] at hto
      cases hto
      rfl
    | succ k =>
      rw [List.take_succ_cons] at hto
      cases hto with
      | @cons _ reply _ replies hhead htail =>
        have hsigs := fun key bs => (hs.sigs key bs).2
        have hvalid := hcs c (by simp)
        rw [List.flatMap_cons, List.map_append, List.append_assoc] at hinp
        obtain ⟨hres, hinp₁⟩ := Call.run_reply hsigs hvalid hval hhead hup hinp
        have hputs : s.Puts (c.1.message e stc c.2).wire (c.1.run e stc c.2 s).2 :=
          Call.run_puts hsigs hvalid hup
        have hup₁ := hup.after hputs
        have hrest := ih (fun c hc => hcs c (by simp [hc])) htail hup₁ hinp₁
        rw [session]
        dsimp only
        rw [List.take_succ_cons, List.map_cons, hres, hrest]

/-- A session on one side of a connection and a run of the server on the other: the server takes what the
session writes, and what comes in at the session is of what the server sends. Then the answers are to the
calls in their order, and each call whose answer has come in returns it. -/
theorem session_answered (hs : stc.Signs e) (hval : ∀ b, val (.mem b) = b) {cs : List (Call × Nat)}
    (hcs : ∀ c ∈ cs, c.1.Valid stc ∧ c.2 < 2 ^ 32) {s : Socket} (hup : s.Up) (hout : s.out = [])
    {is : List (Srv × Io × ConnEv)}
    (hput : Meets (connNext e) (NoPutRefused e) (some cliAlloc) is)
    (hwhole : Meets (connNext e) (AnswersWhole e) (some cliAlloc) is)
    {cli : Client} (hrun : run (connNext e) (some cliAlloc) is = some cli)
    (htaken : cli.taken <+: (session e stc cs s).2.out) (hinp : s.inp <+: cli.sent.map val) :
    ∃ replies, cli.executed.length ≤ replies.length + 1 ∧ cli.sent <+: replies.flatMap Reply.octets ∧
      List.Forall₂ (fun c reply => Reply.To (c.1.hdr e stc c.2) reply) (cs.take replies.length) replies ∧
      ∀ k ≤ replies.length, ((replies.take k).flatMap Reply.octets).length ≤ s.inp.length →
        (session e stc cs s).1.take k = (replies.take k).map (resultOf val) := by
  obtain ⟨rs, replies, hrs, hlen, hto, hsent, -⟩ := (run_talks e hwhole cli hrun).replies
  have hpre : rs <+: (sent e stc cs).map Message.req :=
    hrs.trans (session_executed hs hcs hup hout hput hrun htaken)
  have hsame : rs.length = replies.length := hto.length_eq
  -- the headers of the requests answered are those of the first calls
  have hhdrs : rs.map Request.hdr = (cs.take replies.length).map fun c => c.1.hdr e stc c.2 := by
    rw [List.prefix_iff_eq_take.mp hpre, ← hsame, List.map_take, List.map_take, sent, List.map_map,
      List.map_map]
    congr 1
    refine List.map_congr_left fun c hc => ?_
    exact Call.message_hdr (fun key bs => (hs.sigs key bs).2) (hcs c hc).1 (hcs c hc).2
  have hcalls : List.Forall₂ (fun c reply => Reply.To (c.1.hdr e stc c.2) reply)
      (cs.take replies.length) replies := by
    rw [← List.forall₂_map_left_iff (f := Request.hdr), hhdrs] at hto
    exact List.forall₂_map_left_iff.mp hto
  refine ⟨replies, hsame ▸ hlen, hsent, hcalls, fun k hk hcome => ?_⟩
  have hfirst : List.Forall₂ (fun c reply => Reply.To (c.1.hdr e stc c.2) reply) (cs.take k)
      (replies.take k) := by
    have htake := List.forall₂_take k hcalls
    rwa [List.take_take, min_eq_left hk] at htake
  have hbegin : ((replies.take k).flatMap Reply.octets).map val <+: s.inp := by
    refine List.prefix_of_prefix_length_le ?_ (hinp.trans (hsent.map val)) ?_
    · refine List.IsPrefix.map val ?_
      conv_rhs => rw [← List.take_append_drop k replies, List.flatMap_append]
      exact List.prefix_append _ _
    · rw [List.length_map]
      exact hcome
  obtain ⟨rest, hrest⟩ := hbegin
  exact session_replies hs hval (fun c hc => (hcs c hc).1) hfirst hup hrest.symm

end

/-- The bytes of the one file there is, in which the object follows a header of 201 bytes. -/
def storeVal : Octet → UInt8
  | .mem b => b
  | .file _ ofs => (abc.drop (ofs - 201)).headD 0

/-- What has been stored is what is got. -/
theorem session_answered_store :
    ∃ cli ∈ run (connNext storeEnv) (some cliAlloc) storeReads,
      (session storeEnv storeStc storeCalls (byteSocket (cli.sent.map storeVal))).1 =
        [some [], some [], some [], some abc] ∧
      ∃ replies, cli.executed.length ≤ replies.length + 1 ∧
        cli.sent <+: replies.flatMap Reply.octets ∧
        List.Forall₂ (fun c reply => Reply.To (c.1.hdr storeEnv storeStc c.2) reply)
          (storeCalls.take replies.length) replies ∧
        ∀ k ≤ replies.length,
          ((replies.take k).flatMap Reply.octets).length ≤ (byteSocket (cli.sent.map storeVal)).inp.length →
          (session storeEnv storeStc storeCalls (byteSocket (cli.sent.map storeVal))).1.take k =
            (replies.take k).map (resultOf storeVal) := by
  have hends : ∃ cli ∈ run (connNext storeEnv) (some cliAlloc) storeReads,
      (session storeEnv storeStc storeCalls (byteSocket (cli.sent.map storeVal))).1 =
        [some [], some [], some [], some abc] ∧
      cli.taken <+: (session storeEnv storeStc storeCalls (byteSocket (cli.sent.map storeVal))).2.out := by
    decide +kernel
  obtain ⟨cli, hcli, hres, htaken⟩ := hends
  have hput : Meets (connNext storeEnv) (NoPutRefused storeEnv) (some cliAlloc) storeReads := by
    decide +kernel
  have hwhole : Meets (connNext storeEnv) (AnswersWhole storeEnv) (some cliAlloc) storeReads :=
    answersWhole_attends (by decide +kernel)
  exact ⟨cli, hcli, hres, session_answered storeStc_signs (fun _ => rfl) storeCalls_valid
    ⟨fun _ => rfl, fun _ => rfl⟩ rfl hput hwhole hcli htaken List.prefix_rfl⟩

end Hail.Chunkdc
