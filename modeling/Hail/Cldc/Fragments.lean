import Hail.Cldc.Assembly

/-!
# Cutting messages into packets

`sess_sendmsg` of the server and `cldc_new_msg` of the client cut a message into packets in two ways.
Both make the same pieces (`Pieces`), and a client that gets the packets of the server once and in
their order puts the message together and completes it once.
-/
namespace Hail.Cldc

open Library Cld

/-- The rest `msg` of a message in packets: every packet but the last one takes as much as a packet
can, and the first one of the message carries its operation. -/
inductive Pieces (xid : Nat) (op : CldMsgOp) : Bool → Bytes → List (CldPktMsgInfo × Bytes) → Prop where
  | last {first : Bool} {msg : Bytes} (hlen : msg.length ≤ cldMaxPktMsgSz) :
      Pieces xid op first msg [(pktMi xid op first true, msg)]
  | cons {first : Bool} {chunk msg : Bytes} {parts : List (CldPktMsgInfo × Bytes)}
      (hlen : chunk.length = cldMaxPktMsgSz) (hparts : Pieces xid op false msg parts) :
      Pieces xid op first (chunk ++ msg) ((pktMi xid op first false, chunk) :: parts)

section

variable {xid : Nat} {op : CldMsgOp} {first : Bool} {msg : Bytes} {parts : List (CldPktMsgInfo × Bytes)}

theorem msgParts_pieces (xid : Nat) (op : CldMsgOp) (first : Bool) {fuel : Nat} {msg : Bytes}
    (h : msg.length ≤ fuel) : Pieces xid op first msg (msgParts xid op fuel first msg) := by
  induction fuel generalizing first msg with
  | zero => exact .last (by omega)
  | succ fuel ih =>
    unfold msgParts
    split
    · next hshort => exact .last hshort
    · next hlong =>
      have hpos : 0 < cldMaxPktMsgSz := by decide
      have hrest := @ih false (msg.drop cldMaxPktMsgSz) (by rw [List.length_drop]; omega)
      have hcons : Pieces xid op first (msg.take cldMaxPktMsgSz ++ msg.drop cldMaxPktMsgSz) _ := .cons
        (by rw [List.length_take]; omega) hrest
      rwa [List.take_append_drop] at hcons

theorem Pieces.length_pos (h : Pieces xid op first msg parts) : 0 < parts.length := by
  cases h <;> simp

/-- The first packet of the message, and no other one, says that it is. -/
theorem Pieces.infos (h : Pieces xid op first msg parts) {i : Nat} {p : CldPktMsgInfo × Bytes}
    (hi : parts[i]? = some p) :
    p.1.infos = if first ∧ i = 0 then some (xid, op) else none := by
  induction h generalizing i with
  | last hlen =>
    cases i with
    | zero =>
      cases hi
      simp [pktMi_infos]
    | succ i => simp at hi
  | cons hlen hparts ih =>
    cases i with
    | zero =>
      cases hi
      simp [pktMi_infos]
    | succ i => simpa using ih (by simpa using hi)

/-- The last packet, and no other one, says that it is. -/
theorem Pieces.isLast (h : Pieces xid op first msg parts) {i : Nat} {p : CldPktMsgInfo × Bytes}
    (hi : parts[i]? = some p) : p.1.isLast = decide (i + 1 = parts.length) := by
  induction h generalizing i with
  | last hlen =>
    cases i with
    | zero =>
      cases hi
      simp [pktMi_isLast]
    | succ i => simp at hi
  | cons hlen hparts ih =>
    cases i with
    | zero =>
      cases hi
      have hne := List.length_pos_iff.mp hparts.length_pos
      simp [pktMi_isLast, hne]
    | succ i => simpa using ih (by simpa using hi)

theorem Pieces.chunk_le (h : Pieces xid op first msg parts) {p : CldPktMsgInfo × Bytes}
    (hp : p ∈ parts) : p.2.length ≤ cldMaxPktMsgSz := by
  induction h with
  | last hlen =>
    rw [List.mem_singleton] at hp
    rwa [hp]
  | cons hlen hparts ih =>
    rcases List.mem_cons.mp hp with rfl | hp
    · exact hlen.le
    · exact ih hp

theorem Pieces.flatten (h : Pieces xid op first msg parts) : (parts.map Prod.snd).flatten = msg := by
  induction h with
  | last hlen => simp
  | cons hlen hparts ih => simp [ih]

end

/-- The number of the message makes no difference but in its first packet. -/
theorem msgParts_order (xid xid' : Nat) (op : CldMsgOp) (fuel : Nat) (first : Bool) (msg : Bytes) :
    (msgParts xid op fuel first msg).map (fun p => (p.1.order, p.2)) =
      (msgParts xid' op fuel first msg).map fun p => (p.1.order, p.2) := by
  have horder : ∀ f l, (pktMi xid op f l).order = (pktMi xid' op f l).order := by
    intro f l
    cases f <;> cases l <;> rfl
  induction fuel generalizing first msg with
  | zero => simp [msgParts, horder]
  | succ fuel ih =>
    unfold msgParts
    split
    · simp [horder]
    · simp [horder, ih]

/-! ## The packets -/

/-- The packets carry these pieces, with consecutive numbers from `seqid` on, and none was written
past its end. -/
def Carry (e : Env) (key : Bytes) (u : User) (sid seqid : Nat) (pkts : List (Buffer × Nat))
    (parts : List (CldPktMsgInfo × Bytes)) : Prop :=
  pkts.length = parts.length ∧ ∀ (i : Nat) (p : Buffer × Nat) (q : CldPktMsgInfo × Bytes),
    pkts[i]? = some p → parts[i]? = some q →
      p.2 % 2 ^ 64 = (seqid + i) % 2 ^ 64 ∧ p.1.overrun = false ∧
      p.1.data = rawPkt e key (hdrBytes sid u q.1) q.2 p.2

theorem signedPkts_carry (e : Env) (key : Bytes) (u : User) (sid seqid : Nat)
    (parts : List (CldPktMsgInfo × Bytes)) :
    Carry e key u sid seqid (signedPkts e key u sid seqid parts) parts := by
  induction parts generalizing seqid with
  | nil => exact ⟨rfl, by simp [signedPkts]⟩
  | cons part parts ih =>
    obtain ⟨hlen, hget⟩ := ih ((seqid + 1) % 2 ^ 64)
    refine ⟨by rw [signedPkts, List.length_cons, hlen, List.length_cons], fun i p q hp hq => ?_⟩
    cases i with
    | zero =>
      cases hp
      cases hq
      exact ⟨rfl, rfl, rfl⟩
    | succ i =>
      obtain ⟨hn, hov, hd⟩ := hget i p q hp hq
      exact ⟨by omega, hov, hd⟩

/-! ## Receiving them -/

/-- Every delivery brings the next packet. -/
def InOrder (ds : List Delivery) : Prop := ∀ d ∈ ds, ∃ now ok stray, d = .next now ok stray

/-- The client takes a packet of this operation with this number for the next one. -/
def CldcSession.expects (sess : CldcSession) (op : CldMsgOp) (seqid : Nat) : Prop :=
  op = .newSess ∨ op = .notMaster ∨ op = .ackFrag ∨ sess.nextSeqidIn = seqid % 2 ^ 64

theorem expects_accept {sess : CldcSession} {op : CldMsgOp} {seqid : Nat}
    (h : sess.expects op seqid) :
    ∃ w, sess.window.accept (seqid % 2 ^ 64) op = some w ∧
      (op = .newSess ∨ op = .notMaster ∨ op = .ackFrag ∨ w.next = (seqid + 1) % 2 ^ 64) := by
  rcases h with rfl | rfl | rfl | h
  · exact ⟨_, rfl, .inl rfl⟩
  · exact ⟨_, rfl, .inr (.inl rfl)⟩
  · exact ⟨_, rfl, .inr (.inr (.inl rfl))⟩
  · have hnext : sess.window.next = seqid % 2 ^ 64 := h
    unfold SeqWindow.accept
    split
    · exact ⟨_, rfl, .inl rfl⟩
    · exact ⟨_, rfl, .inr (.inl rfl)⟩
    · exact ⟨_, rfl, .inr (.inr (.inl rfl))⟩
    · rw [if_pos hnext.symm]
      exact ⟨_, rfl, .inr (.inr (.inr (by dsimp only; omega)))⟩

/-- A message with its number, in 64 bits, and an operation that a packet can carry. -/
structure Sendable (xid : Nat) (op : CldMsgOp) : Prop where
  xid_lt : xid < 2 ^ 64
  wire : op.Wire

/-- A piece of a message is added to what there is of it. -/
theorem receive_piece (e : Env) {xid : Nat} {op : CldMsgOp} (hs : Sendable xid op) (f : Feed)
    {p : SrvPkt} {first last : Bool} (hmi : p.mi = pktMi xid op first last)
    (hexp : f.sess.expects op p.seqid) (hst : first = false → f.sess.msgBufOp = op)
    (hlen : ((if first then [] else f.sess.msgBuf) ++ p.chunk).length ≤ cldMaxMsgSz)
    (now : Nat) (ok : Bool) (stray : Nat → Nat → Nat) :
    (f.receive e now ok stray p).sess.assembled =
        (op, (if first then [] else f.sess.msgBuf) ++ p.chunk) ∧
      (f.receive e now ok stray p).sess.expects op (p.seqid + 1) ∧
      (f.receive e now ok stray p).done.map Prod.snd = f.done.map Prod.snd ++
        if last then [(op, (if first then [] else f.sess.msgBuf) ++ p.chunk)] else [] := by
  have hasm : p.assemble f.sess.assembled =
      (op, (if first then [] else f.sess.msgBuf) ++ p.chunk) := by
    rw [SrvPkt.assemble, hmi, pktMi_infos]
    cases first with
    | true => rfl
    | false => exact Prod.ext (hst rfl) rfl
  have hwire : p.Wire := by
    intro xid' op' hi
    rw [hmi, pktMi_infos] at hi
    cases first with
    | true =>
      cases hi
      exact ⟨hs.xid_lt, hs.wire⟩
    | false => cases hi
  obtain ⟨w, hacc, hw⟩ := expects_accept hexp
  rw [show op = f.sess.opOf p.mi by rw [opOf_eq, hasm]] at hacc
  obtain ⟨hstate, hwin, hdone⟩ := rxPkt_assembled e now ok stray hacc (by rw [hasm]; exact hlen)
  have hsess : (f.receive e now ok stray p).sess =
      (f.sess.rxPkt e now ok stray p.mi p.chunk (p.seqid % 2 ^ 64)).2 := by
    rw [Feed.receive, receive_raw e now ok stray hwire]
  refine ⟨by rw [hsess, hstate, hasm], ?_, ?_⟩
  · rw [hsess]
    refine hw.imp id (.imp id (.imp id fun hnext => ?_))
    rw [← hwin] at hnext
    exact hnext
  · have hlast : p.mi.isLast = last := by rw [hmi, pktMi_isLast]
    rw [hasm, hlast] at hdone
    simp only [Feed.receive, hdone]
    cases last <;> simp

/-- The packets of a message, delivered in their order, complete it and nothing else. -/
theorem run_pieces (e : Env) {xid : Nat} {op : CldMsgOp} {body : Bytes} (hs : Sendable xid op)
    (hfits : body.length ≤ cldMaxMsgSz) {first : Bool} {msg : Bytes}
    {parts : List (CldPktMsgInfo × Bytes)} (h : Pieces xid op first msg parts) (f : Feed) {seqid : Nat}
    (htodo : f.todo = number (op, body) seqid parts) (hexp : f.sess.expects op seqid)
    (hst : first = false → f.sess.msgBufOp = op)
    (hbody : (if first then [] else f.sess.msgBuf) ++ msg = body) {ds : List Delivery}
    (hds : InOrder ds) (hlen : ds.length = parts.length) :
    (run (Feed.step e) f ds).seen = f.seen ++ f.todo ∧ (run (Feed.step e) f ds).todo = [] ∧
      (run (Feed.step e) f ds).done.map Prod.snd = f.done.map Prod.snd ++ [(op, body)] := by
  induction h generalizing f seqid ds with
  | @last first msg hshort =>
    obtain ⟨d, rfl⟩ := List.length_eq_one_iff.mp hlen
    obtain ⟨now, ok, stray, rfl⟩ := hds d (by simp)
    set p : SrvPkt := ⟨pktMi xid op first true, msg, seqid, (op, body)⟩ with hp
    obtain ⟨-, -, hdone⟩ := receive_piece e hs { f with seen := f.seen ++ [p], todo := [] }
      (p := p) rfl hexp hst (by rw [hbody]; exact hfits) now ok stray
    have hstep : f.step e (.next now ok stray) =
        { f with seen := f.seen ++ [p], todo := [] }.receive e now ok stray p := by
      simp only [Feed.step, htodo, number]
      rfl
    simp only [run, hstep]
    refine ⟨by rw [htodo]; rfl, rfl, ?_⟩
    rw [hdone, if_pos rfl, hbody]
  | @cons first chunk msg parts hchunk hparts ih =>
    obtain ⟨d, ds, rfl⟩ := List.exists_cons_of_length_eq_add_one hlen
    obtain ⟨now, ok, stray, rfl⟩ := hds d (by simp)
    set p : SrvPkt := ⟨pktMi xid op first false, chunk, seqid, (op, body)⟩ with hp
    set todo := number (op, body) ((seqid + 1) % 2 ^ 64) parts with htail
    have hsplit : (if first then [] else f.sess.msgBuf) ++ chunk ++ msg = body := by
      rw [List.append_assoc, hbody]
    have hroom : ((if first then [] else f.sess.msgBuf) ++ chunk).length ≤ cldMaxMsgSz := by
      rw [← hsplit, List.length_append] at hfits
      omega
    obtain ⟨hasm, hnext, hdone⟩ := receive_piece e hs { f with seen := f.seen ++ [p], todo := todo }
      (p := p) rfl hexp hst hroom now ok stray
    have hstep : f.step e (.next now ok stray) =
        { f with seen := f.seen ++ [p], todo := todo }.receive e now ok stray p := by
      simp only [Feed.step, htodo, number]
      rfl
    rw [run, hstep]
    set f' := ({ f with seen := f.seen ++ [p], todo := todo }.receive e now ok stray p) with hf'
    have hbuf : f'.sess.msgBuf = (if first then [] else f.sess.msgBuf) ++ chunk :=
      congrArg Prod.snd hasm
    obtain ⟨hseen, htodo', hdone'⟩ := @ih f' ((seqid + 1) % 2 ^ 64) htail
      (hnext.imp id (.imp id (.imp id fun h => by rw [h]; exact (Nat.mod_mod _ _).symm)))
      (fun _ => congrArg Prod.fst hasm) (by rw [hbuf]; exact hsplit) _
      (fun d hd => hds d (List.mem_cons_of_mem _ hd)) (by simpa using hlen)
    refine ⟨?_, htodo', ?_⟩
    · rw [hseen, htodo]
      change f.seen ++ [p] ++ todo = f.seen ++ p :: todo
      simp
    · rw [hdone', hdone]
      simp

/-! ## Both senders and the client -/

/-- The packets of a message: they begin with the only first one, which carries operation and number,
end with the only last one, and hold the message in pieces that fit. -/
structure Fragments (xid : Nat) (op : CldMsgOp) (body : Bytes) (parts : List (CldPktMsgInfo × Bytes)) :
    Prop where
  pos : 0 < parts.length
  infos : ∀ i p, parts[i]? = some p → p.1.infos = if i = 0 then some (xid, op) else none
  isLast : ∀ i p, parts[i]? = some p → p.1.isLast = decide (i + 1 = parts.length)
  size : ∀ p ∈ parts, p.2.length ≤ cldMaxPktMsgSz
  body : (parts.map Prod.snd).flatten = body

theorem Pieces.fragments {xid : Nat} {op : CldMsgOp} {body : Bytes}
    {parts : List (CldPktMsgInfo × Bytes)} (h : Pieces xid op true body parts) :
    Fragments xid op body parts where
  pos := h.length_pos
  infos i p hi := by simpa using h.infos hi
  isLast i p hi := h.isLast hi
  size p hp := h.chunk_le hp
  body := h.flatten

/-- `sess_sendmsg` and `cldc_new_msg` with `sess_send` cut every message alike, into packets with
consecutive numbers. A client of the session that gets the packets of the server in their order, and
expects the first one next, passes the message to `rx_complete` once, and nothing else. -/
theorem fragments_agree (e : Env) (sid seqid seqid' xid xid' : Nat) (u : User) {secretKey : Bytes}
    (hkey : secretKey ≠ []) (op : CldMsgOp) {body : Bytes} (hbody : body.length ≤ cldMaxMsgSz) :
    ∃ srv cli pkts pkts',
      sessPkts e sid u.name seqid xid op body = some pkts ∧
      sessSendPkts e sid u.name secretKey seqid' xid' op body = some pkts' ∧
      Carry e u.name u sid seqid pkts srv ∧ Carry e secretKey u sid seqid' pkts' cli ∧
      Fragments xid op body srv ∧ Fragments xid' op body cli ∧
      srv.map (fun p => (p.1.order, p.2)) = cli.map (fun p => (p.1.order, p.2)) ∧
      ∀ sess : CldcSession, sess.sid = sid → sess.user = u → sess.secretKey = u.name →
        xid < 2 ^ 64 → op.Wire → sess.expects op seqid → ∀ ds, InOrder ds → ds.length = pkts.length →
          let f := run (Feed.step e) ⟨sess, [], number (op, body) seqid srv, []⟩ ds
          f.seen.map (SrvPkt.raw e sess) = pkts.map (fun p => p.1.data) ∧
            f.done.map Prod.snd = [(op, body)] := by
  have hpieces : ∀ xid, Pieces xid op true body (msgParts xid op body.length true body) :=
    fun xid => msgParts_pieces xid op true le_rfl
  refine ⟨msgParts xid op body.length true body, msgParts xid' op body.length true body, _, _,
    sessPkts_eq e sid u seqid xid op hbody, ?_, signedPkts_carry .., signedPkts_carry ..,
    (hpieces xid).fragments, (hpieces xid').fragments, msgParts_order .., ?_⟩
  · rw [sessSendPkts_eq e sid u hkey, cldcParts_eq]
  · rintro sess rfl rfl hsk hxid hwire hexp ds hds hlen
    rw [(signedPkts_carry ..).1] at hlen
    obtain ⟨hseen, -, hdone⟩ := run_pieces e ⟨hxid, hwire⟩ hbody (hpieces xid)
      ⟨sess, [], number (op, body) seqid _, []⟩ rfl hexp nofun rfl hds hlen
    refine ⟨?_, hdone⟩
    rw [hseen, List.nil_append, number_raw, hsk]

/-- A message of two packets is delivered to the client of `newLink`. -/
theorem fragments_agree_long :
    ∃ srv cli pkts pkts',
      sessPkts .plain newLink.sess.sid newLink.sess.user.name 100 7 .newSess (List.replicate 1025 9) =
        some pkts ∧
      sessSendPkts .plain newLink.sess.sid newLink.sess.user.name newLink.sess.secretKey 200 8 .newSess
        (List.replicate 1025 9) = some pkts' ∧
      srv.map (fun p => (p.1.order, p.2)) = cli.map (fun p => (p.1.order, p.2)) ∧
      Fragments 7 .newSess (List.replicate 1025 9) srv ∧
      Fragments 8 .newSess (List.replicate 1025 9) cli ∧
      (run (Feed.step .plain) ⟨newLink.sess, [], number (.newSess, List.replicate 1025 9) 100 srv, []⟩
        [onward, onward]).done.map Prod.snd = [(.newSess, List.replicate 1025 9)] := by
  have hlen : (List.replicate 1025 (9 : UInt8)).length ≤ cldMaxMsgSz := by
    rw [List.length_replicate, cldMaxMsgSz]
    omega
  obtain ⟨srv, cli, pkts, pkts', hsrv, hcli, hcarry, -, hfrag, hfrag', horder, hrun⟩ :=
    fragments_agree .plain newLink.sess.sid 100 200 7 8 newLink.sess.user newLink.sess.key_ne_nil
      .newSess hlen
  have htwo : pkts.length = 2 := by
    have hpkts : (sessPkts .plain newLink.sess.sid newLink.sess.user.name 100 7 .newSess
        (List.replicate 1025 9)).map List.length = some 2 := by decide +kernel
    rw [hsrv] at hpkts
    simpa using hpkts
  refine ⟨srv, cli, pkts, pkts', hsrv, hcli, horder, hfrag, hfrag', ?_⟩
  refine (hrun newLink.sess rfl rfl (by decide +kernel) (by decide) (by decide) (.inl rfl)
    [onward, onward] ?_ htwo.symm).2
  intro d hd
  simp only [List.mem_cons, List.not_mem_nil, or_false, or_self] at hd
  exact ⟨1, true, fun _ _ => 0, hd⟩

end Hail.Cldc
