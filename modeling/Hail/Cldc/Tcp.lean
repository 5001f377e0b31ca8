import Hail.Cld.Ubbp
import Hail.Library.Run

/-!
# Receiving over TCP in the client library

`cldc_tcp_receive_pkt_data` takes the packets out of the stream that the server's `tcp_tx` writes.
It keeps where it stands between calls: how much of a header it has, how much of a packet, and the
size of the packet. The size is not forgotten when the packet is handed over, so that a call that
gets a part of the next header goes on to hand over the old packet again.
-/
namespace Hail.Cldc

open Library Cld

def eio : Nat := 5

def eagain : Nat := 11

/-- What the socket does when it is read: an error, or at most so many bytes, none when the other side
has closed it. -/
inductive ReadRes where
  | error (errno : Nat)
  | upTo (n : Nat)
  deriving DecidableEq, Repr

/-- `read` on a socket that holds `input`: the error number or the bytes read. -/
def read (r : ReadRes) (want : Nat) (input : Bytes) : Except Nat Bytes :=
  if want = 0 then .ok []
  else
    match r with
    | .error errno => .error errno
    | .upTo n => if input = [] ∧ n ≠ 0 then .error eagain else .ok (input.take (min n want))

/-- `struct cldc_tcp`; `ubbp` holds the `ubbp_read` bytes of the header and `raw` the `raw_read` bytes
of the packet so far. In the source these lie in a buffer that all `cldc_tcp` share: no other one is read
while a packet is incomplete. The socket holds `input`. `got` and `handed` are the history of the bytes
read and of the packets handed to `cldc_receive_pkt`. -/
structure CldcTcp where
  ubbp : Bytes
  raw : Bytes
  rawSize : Nat
  input : Bytes
  got : Bytes
  handed : List Bytes
  deriving DecidableEq, Repr

def retErrno (errno : Nat) : Int := if errno ≠ eagain then -errno else 0

def CldcTcp.take (tcp : CldcTcp) (bs : Bytes) : CldcTcp :=
  { tcp with input := tcp.input.drop bs.length, got := tcp.got ++ bs }

/-- The header, as far as it is not there yet, and the value that is returned at once if any. -/
def CldcTcp.readUbbp (r : ReadRes) (tcp : CldcTcp) : Option Int × CldcTcp :=
  if tcp.ubbp.length < ubbpLen then
    match read r (ubbpLen - tcp.ubbp.length) tcp.input with
    | .error errno => (some (retErrno errno), tcp)
    | .ok bs =>
      let tcp := { tcp.take bs with ubbp := tcp.ubbp ++ bs }
      if tcp.ubbp.length = ubbpLen then
        let opSize := ofLe (tcp.ubbp.drop 4)
        if tcp.ubbp.take 4 ≠ ubbpMagic then (some (-eio), tcp)
        else if ubbpOp opSize ≠ 2 then (some (-eio), tcp)
        else
          let tcp := { tcp with raw := [], rawSize := ubbpSize opSize }
          if cldRawMsgSz < tcp.rawSize then (some (-eio), tcp) else (none, tcp)
      else (none, tcp)
  else (none, tcp)

/-- The packet; `recv` gives the value of `cldc_receive_pkt`. -/
def CldcTcp.readRaw (recv : Bytes → Int) (r : ReadRes) (tcp : CldcTcp) : Int × CldcTcp :=
  if tcp.rawSize = 0 then (0, tcp)
  else
    match read r (tcp.rawSize - tcp.raw.length) tcp.input with
    | .error errno => (retErrno errno, tcp)
    | .ok bs =>
      let tcp := { tcp.take bs with raw := tcp.raw ++ bs }
      if tcp.raw.length < tcp.rawSize then (0, tcp)
      else (recv tcp.raw, { tcp with ubbp := [], handed := tcp.handed ++ [tcp.raw] })

/-- A call whose reads of the header and of the packet come out as `r.1` and `r.2`. -/
def cldcTcpReceivePktData (recv : Bytes → Int) (tcp : CldcTcp) (r : ReadRes × ReadRes) :
    Int × CldcTcp :=
  match tcp.readUbbp r.1 with
  | (some code, tcp) => (code, tcp)
  | (none, tcp) => tcp.readRaw recv r.2

def CldcTcp.receive (recv : Bytes → Int) (tcp : CldcTcp) (r : ReadRes × ReadRes) : CldcTcp :=
  (cldcTcpReceivePktData recv tcp r).2

/-- What the server's `tcp_tx` writes for some packets. -/
def txStream (ps : List Bytes) : Bytes := ps.flatMap (ubbpFrame 2)

/-- A new connection on which `input` is to come. -/
def CldcTcp.new (input : Bytes) : CldcTcp := ⟨[], [], 0, input, [], []⟩

/-! ## One call -/

theorem read_ok {r : ReadRes} {want : Nat} {input bs : Bytes} (h : read r want input = .ok bs) :
    input = bs ++ input.drop bs.length ∧ bs.length ≤ want := by
  unfold read at h
  split at h
  · cases h
    simp
  · split at h
    · cases h
    · next n =>
      split at h
      · cases h
      · cases h
        have hle : (input.take (min n want)).length ≤ min n want := List.length_take_le ..
        refine ⟨?_, by omega⟩
        nth_rewrite 1 [← List.take_append_drop (min n want) input]
        rw [List.length_take]
        congr 1
        by_cases hm : min n want ≤ input.length
        · rw [min_eq_left hm]
        · rw [List.drop_of_length_le (by omega), List.drop_of_length_le (by omega)]

/-- Where the reader stands in the stream, with the packets that are to come: in a header, or in the
first of these packets. -/
inductive CldcTcp.At (tcp : CldcTcp) : List Bytes → Prop where
  | hdr {todo : List Bytes} (hubbp : tcp.ubbp.length < ubbpLen) (hraw : tcp.raw.length = tcp.rawSize)
      (hin : tcp.ubbp ++ tcp.input = txStream todo)
      (hgot : tcp.got = txStream tcp.handed ++ tcp.ubbp) : tcp.At todo
  | body {p : Bytes} {todo : List Bytes} (hubbp : tcp.ubbp = ubbpHeader 2 p.length)
      (hsize : tcp.rawSize = p.length) (hraw : tcp.raw.length < p.length)
      (hin : tcp.raw ++ tcp.input = p ++ txStream todo)
      (hgot : tcp.got = txStream tcp.handed ++ (tcp.ubbp ++ tcp.raw)) : tcp.At (p :: todo)

/-- The packets of `ps` before some place have been handed over. -/
def CldcTcp.Synced (ps : List Bytes) (tcp : CldcTcp) : Prop :=
  ∃ todo, ps = tcp.handed ++ todo ∧ tcp.At todo

/-- What has been handed over is what has been read completely, and all the packets when all of the
stream has been read. -/
structure CldcTcp.HandsOver (ps : List Bytes) (tcp : CldcTcp) : Prop where
  complete : tcp.handed = (ubbpFraming 2).frames tcp.got
  all : tcp.input = [] → tcp.handed = ps

/-- If this is not the first packet, its header is read at once. -/
def CldcTcp.whole (tcp : CldcTcp) (r : ReadRes × ReadRes) : Bool :=
  tcp.rawSize = 0 || ubbpLen ≤ tcp.ubbp.length ||
    match read r.1 (ubbpLen - tcp.ubbp.length) tcp.input with
    | .error _ => true
    | .ok bs => tcp.ubbp.length + bs.length = ubbpLen

section

variable {ps : List Bytes} {tcp : CldcTcp}

theorem frames_txStream (hps : ∀ p ∈ ps, p.length ≤ cldRawMsgSz) (rest : Bytes) :
    (ubbpFraming 2).frames (txStream ps ++ rest) = ps ++ (ubbpFraming 2).frames rest := by
  have hreads : (ubbpFraming 2).Reads (ps.flatMap (fun p => ubbpHeader 2 p.length ++ p) ++ rest)
      ps rest :=
    Framing.reads_flatMap (fun p _ => ubbpHeader_length 2 p.length)
      (fun p hp => ubbpCheck_header (by decide) (hps p hp)) rest
  exact hreads.frames_eq

theorem txStream_cons (p : Bytes) (ps : List Bytes) :
    txStream (p :: ps) = ubbpHeader 2 p.length ++ (p ++ txStream ps) := by
  simp [txStream, ubbpFrame]

theorem CldcTcp.Synced.handsOver (h : tcp.Synced ps) (hps : ∀ p ∈ ps, p.length ≤ cldRawMsgSz) :
    tcp.HandsOver ps := by
  obtain ⟨todo, rfl, hat⟩ := h
  have hhanded : ∀ p ∈ tcp.handed, p.length ≤ cldRawMsgSz := fun p hp =>
    hps p (List.mem_append_left _ hp)
  cases hat with
  | hdr hubbp hraw hin hgot =>
    constructor
    · rw [hgot, frames_txStream hhanded, Framing.frames_short hubbp, List.append_nil]
    · intro hnil
      cases todo with
      | nil => simp
      | cons p todo =>
        have hlen := congrArg List.length hin
        simp only [hnil, txStream_cons, List.length_append, ubbpHeader_length, List.length_nil] at hlen
        omega
  | body hubbp hsize hraw hin hgot =>
    rename_i p todo
    have hp : p.length ≤ cldRawMsgSz := hps p (by simp)
    constructor
    · have hcheck : ubbpCheck 2 tcp.ubbp = some p.length := by
        rw [hubbp]
        exact ubbpCheck_header (by decide) hp
      have hlen : tcp.ubbp.length = ubbpLen := by rw [hubbp, ubbpHeader_length]
      rw [hgot, frames_txStream hhanded, Framing.frames_partial hlen hcheck hraw, List.append_nil]
    · intro hnil
      have hlen := congrArg List.length hin
      simp only [hnil, List.length_append, List.length_nil] at hlen
      omega

/-- The packet is read, in part or to its end. -/
theorem readRaw_body (recv : Bytes → Int) (r : ReadRes) {todo : List Bytes} {p : Bytes}
    (hps : ps = tcp.handed ++ p :: todo) (hubbp : tcp.ubbp = ubbpHeader 2 p.length)
    (hsize : tcp.rawSize = p.length) (hraw : tcp.raw.length < p.length)
    (hin : tcp.raw ++ tcp.input = p ++ txStream todo)
    (hgot : tcp.got = txStream tcp.handed ++ (tcp.ubbp ++ tcp.raw)) :
    (tcp.readRaw recv r).2.Synced ps := by
  unfold CldcTcp.readRaw
  rw [if_neg (by omega)]
  cases hr : read r (tcp.rawSize - tcp.raw.length) tcp.input with
  | error errno => exact ⟨p :: todo, hps, .body hubbp hsize hraw hin hgot⟩
  | ok bs =>
    obtain ⟨hsplit, hle⟩ := read_ok hr
    have hin' : tcp.raw ++ bs ++ tcp.input.drop bs.length = p ++ txStream todo := by
      rw [List.append_assoc, ← hsplit, hin]
    dsimp only
    split
    · next hpart =>
      refine ⟨p :: todo, hps, .body hubbp hsize (by rw [← hsize]; exact hpart) hin' ?_⟩
      simp [CldcTcp.take, hgot]
    · next hfull =>
      -- the sizes are equal, so what has been read is the packet
      have hlen : (tcp.raw ++ bs).length = p.length := by
        simp only [CldcTcp.take, List.length_append] at hfull ⊢
        omega
      obtain ⟨hp, hrest⟩ := List.append_inj hin' hlen
      refine ⟨todo, ?_, .hdr (by simp [ubbpLen]) (hlen.trans hsize.symm) hrest ?_⟩
      · simp [CldcTcp.take, hps, hp]
      · simp [CldcTcp.take, hgot, hp, hubbp, txStream, ubbpFrame]

theorem readUbbp_whole {r : ReadRes} {todo : List Bytes} (hps : ∀ p ∈ todo, p.length ≤ cldRawMsgSz)
    {bs : Bytes} (hubbp : tcp.ubbp.length < ubbpLen)
    (hr : read r (ubbpLen - tcp.ubbp.length) tcp.input = .ok bs)
    (hlen : tcp.ubbp.length + bs.length = ubbpLen)
    (hin : tcp.ubbp ++ tcp.input = txStream todo) :
    ∃ p todo', todo = p :: todo' ∧ tcp.input = bs ++ (p ++ txStream todo') ∧
      tcp.readUbbp r = (none, { tcp.take bs with
        ubbp := ubbpHeader 2 p.length, raw := [], rawSize := p.length }) := by
  obtain ⟨hsplit, -⟩ := read_ok hr
  cases todo with
  | nil =>
    have h0 := congrArg List.length hin
    rw [hsplit] at h0
    simp only [txStream, List.flatMap_nil, List.length_append, List.length_nil] at h0
    unfold ubbpLen at hlen
    omega
  | cons p todo =>
    rw [hsplit, ← List.append_assoc, txStream_cons] at hin
    obtain ⟨hhdr, hrest⟩ := List.append_inj hin (by rw [List.length_append, hlen, ubbpHeader_length])
    refine ⟨p, todo, rfl, by rw [← hrest, ← hsplit], ?_⟩
    have hmax : p.length ≤ cldRawMsgSz := hps p (by simp)
    have hfull : (ubbpHeader 2 p.length).length = ubbpLen := ubbpHeader_length 2 p.length
    simp only [CldcTcp.readUbbp, hubbp, if_true, hr, hhdr, hfull, ubbpHeader_magic,
      ubbpHeader_op (show 2 < 256 by decide), ubbpHeader_size (show 2 < 256 by decide) hmax,
      hmax.not_gt, ne_eq, not_true, if_false]

theorem readUbbp_part {r : ReadRes} {bs : Bytes} (hubbp : tcp.ubbp.length < ubbpLen)
    (hr : read r (ubbpLen - tcp.ubbp.length) tcp.input = .ok bs)
    (hlen : tcp.ubbp.length + bs.length ≠ ubbpLen) :
    tcp.readUbbp r = (none, { tcp.take bs with ubbp := tcp.ubbp ++ bs }) := by
  simp only [CldcTcp.readUbbp, hubbp, if_true, hr, List.length_append, hlen, if_false]

/-- A packet that has been handed over is handed over again. -/
theorem readRaw_again (recv : Bytes → Int) (r : ReadRes) (t : CldcTcp)
    (hraw : t.raw.length = t.rawSize) (hsize : t.rawSize ≠ 0) :
    (t.readRaw recv r).2.handed = t.handed ++ [t.raw] ∧ (t.readRaw recv r).2.got = t.got := by
  have hread : read r 0 t.input = .ok [] := by simp [read]
  simp [CldcTcp.readRaw, hsize, hread, CldcTcp.take, hraw]

/-- A call keeps to the stream if and only if the header of a later packet is read at once. -/
theorem receive_cases (recv : Bytes → Int) (r : ReadRes × ReadRes) (h : tcp.Synced ps)
    (hps : ∀ p ∈ ps, 0 < p.length ∧ p.length ≤ cldRawMsgSz) :
    tcp.whole r = true ∧ (tcp.receive recv r).Synced ps ∨
      tcp.whole r = false ∧ ¬ (tcp.receive recv r).HandsOver ps := by
  obtain ⟨todo, hsplit, hat⟩ := h
  have hpos : ∀ p ∈ todo, 0 < p.length ∧ p.length ≤ cldRawMsgSz := by
    intro p hp
    exact hps p (by rw [hsplit]; exact List.mem_append_right _ hp)
  cases hat with
  | body hubbp hsize hraw hin hgot =>
    have hlen : ubbpLen ≤ tcp.ubbp.length := by rw [hubbp, ubbpHeader_length]
    have hcall : tcp.receive recv r = (tcp.readRaw recv r.2).2 := by
      simp only [CldcTcp.receive, cldcTcpReceivePktData, CldcTcp.readUbbp, hlen.not_gt, if_false]
    rw [hcall]
    exact .inl ⟨by simp [CldcTcp.whole, hlen],
      readRaw_body recv r.2 hsplit hubbp hsize hraw hin hgot⟩
  | hdr hubbp hraw hin hgot =>
    cases hr : read r.1 (ubbpLen - tcp.ubbp.length) tcp.input with
    | error errno =>
      have hcall : tcp.receive recv r = tcp := by
        simp only [CldcTcp.receive, cldcTcpReceivePktData, CldcTcp.readUbbp, hubbp, if_true, hr]
      rw [hcall]
      exact .inl ⟨by simp [CldcTcp.whole, hr], todo, hsplit, .hdr hubbp hraw hin hgot⟩
    | ok bs =>
      by_cases hlen : tcp.ubbp.length + bs.length = ubbpLen
      · obtain ⟨p, todo', rfl, hinput, heq⟩ :=
          readUbbp_whole (fun p hp => (hpos p hp).2) hubbp hr hlen hin
        refine .inl ⟨by simp [CldcTcp.whole, hr, hlen], ?_⟩
        simp only [CldcTcp.receive, cldcTcpReceivePktData, heq]
        refine readRaw_body recv r.2 hsplit rfl rfl (hpos p (by simp)).1 ?_ ?_
        · simp [CldcTcp.take, hinput]
        · have hhdr : tcp.ubbp ++ bs = ubbpHeader 2 p.length := by
            rw [hinput, ← List.append_assoc, txStream_cons] at hin
            exact (List.append_inj hin (by rw [List.length_append, hlen, ubbpHeader_length])).1
          simp [CldcTcp.take, hgot, ← hhdr]
      · obtain ⟨hinput, hle⟩ := read_ok hr
        have hshort : (tcp.ubbp ++ bs).length < ubbpLen := by
          rw [List.length_append]
          omega
        have hin' : tcp.ubbp ++ bs ++ tcp.input.drop bs.length = txStream todo := by
          rw [List.append_assoc, ← hinput, hin]
        have hgot' : tcp.got ++ bs = txStream tcp.handed ++ (tcp.ubbp ++ bs) := by
          rw [hgot, List.append_assoc]
        simp only [CldcTcp.receive, cldcTcpReceivePktData, readUbbp_part hubbp hr hlen]
        by_cases hsize : tcp.rawSize = 0
        · refine .inl ⟨by simp [CldcTcp.whole, hsize], ?_⟩
          have hzero : (tcp.take bs).rawSize = 0 := hsize
          simp only [CldcTcp.readRaw, hzero, if_true]
          exact ⟨todo, hsplit, .hdr hshort (hraw.trans hsize) hin' hgot'⟩
        · refine .inr ⟨by simp [CldcTcp.whole, hsize, hubbp, hr, hlen], fun hover => ?_⟩
          have hagain := readRaw_again recv r.2 { tcp.take bs with ubbp := tcp.ubbp ++ bs } hraw hsize
          have hframes : (ubbpFraming 2).frames (tcp.got ++ bs) = tcp.handed := by
            rw [hgot', frames_txStream, Framing.frames_short hshort, List.append_nil]
            intro p hp
            exact (hps p (by rw [hsplit]; exact List.mem_append_left _ hp)).2
          have hcomplete := hover.complete
          rw [hagain.1, hagain.2] at hcomplete
          have hlength := congrArg List.length (hcomplete.trans hframes)
          simp [CldcTcp.take] at hlength

/-- However the stream is cut, the packets are handed over as they were sent, each when it is
complete, if and only if no header but the first is read in part. -/
theorem receive_handsOver_iff (recv : Bytes → Int)
    (hps : ∀ p ∈ ps, 0 < p.length ∧ p.length ≤ cldRawMsgSz) (calls : List (ReadRes × ReadRes)) :
    (∀ pre, pre <+: calls →
      (run (CldcTcp.receive recv) (.new (txStream ps)) pre).HandsOver ps) ↔
      Meets (CldcTcp.receive recv) (fun tcp r => tcp.whole r = true) (.new (txStream ps)) calls := by
  refine Meets.iff_forall (I := CldcTcp.Synced ps) ?_ ?_ ?_ ?_
  · exact ⟨ps, rfl, .hdr (by simp [CldcTcp.new, ubbpLen]) rfl rfl rfl⟩
  · exact fun tcp h => h.handsOver fun p hp => (hps p hp).2
  · intro tcp r h hw
    rcases receive_cases recv r h hps with ⟨-, hs⟩ | ⟨hno, -⟩
    · exact hs
    · rw [hno] at hw
      cases hw
  · intro tcp r h hs
    rcases receive_cases recv r h hps with ⟨hw, -⟩ | ⟨-, hno⟩
    · exact hw
    · exact absurd hs hno

end

/-- Two packets, the first of them cut in its header and in its content. -/
def fewCuts : List (ReadRes × ReadRes) :=
  [(.upTo 3, .upTo 9), (.error eagain, .upTo 9), (.upTo 9, .upTo 1), (.upTo 9, .upTo 9),
    (.upTo 9, .error eagain), (.upTo 9, .upTo 9)]

theorem receive_handsOver_iff_fewCuts :
    (run (CldcTcp.receive fun _ => 0) (.new (txStream [[7, 8], [9]])) fewCuts).HandsOver
      [[7, 8], [9]] :=
  (receive_handsOver_iff (fun _ => 0) (by decide) fewCuts).mpr (by decide) fewCuts
    (List.prefix_refl fewCuts)

/-- The header of the second packet is cut. -/
def lateCut : List (ReadRes × ReadRes) :=
  [(.upTo 9, .upTo 9), (.upTo 4, .upTo 9), (.upTo 9, .upTo 9)]

/-- The first packet is handed over three times, and the second one never. -/
theorem lateCut_stale :
    ¬ ∀ pre, pre <+: lateCut → (run (CldcTcp.receive fun _ => 0)
      (.new (txStream [[7, 8], [9]])) pre).HandsOver [[7, 8], [9]] := by
  intro h
  have hall := (h lateCut (List.prefix_refl _)).all (by decide)
  exact absurd hall (by decide)

end Hail.Cldc
