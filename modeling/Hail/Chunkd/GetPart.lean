import Hail.Chunkd.Server
import Hail.Chunkd.Verify

/-!
# Parts of objects

`object_get_part` reads the blocks that a part touches, of which it returns the bytes asked for. For an
empty part at the end of an object it reads nothing, and yet hashes what lies between the last block
boundary and the end, at a null pointer.
-/
namespace Hail.Chunkd

open Library

/-! ## The range -/

section

variable {size offset dataLen : Nat}

/-- The length of the part of an object of `size` bytes from `offset` on, when `dataLen` bytes are
asked for, or with 0 all. -/
def partLen (size offset dataLen : Nat) : Nat :=
  min (min (if dataLen = 0 then size - offset else dataLen) (size - offset)) 262144

theorem partRange_length (size offset dataLen : Nat) :
    (partRange size offset dataLen).length = partLen size offset dataLen := by
  have hmax : chunkMaxGetpart * chunkBlkSz = 262144 := rfl
  simp only [partRange, partLen, hmax]
  split_ifs <;> omega

theorem partLen_eq_zero : partLen size offset dataLen = 0 ↔ size ≤ offset := by
  unfold partLen
  split_ifs <;> omega

/-- A length rounded up to whole blocks, as `object_get_part` does it. -/
def blockUp (n : Nat) : Nat :=
  if n % chunkBlkSz ≠ 0 then n + (chunkBlkSz - n % chunkBlkSz) else n

theorem blockUp_spec (n : Nat) :
    blockUp n % chunkBlkSz = 0 ∧ n ≤ blockUp n ∧ blockUp n < n + chunkBlkSz := by
  by_cases h : n % chunkBlkSz = 0
  · rw [blockUp, if_neg (not_not.mpr h)]
    exact ⟨h, le_rfl, Nat.lt_add_of_pos_right chunkBlkSz_pos⟩
  · rw [blockUp, if_pos h]
    simp only [chunkBlkSz] at *
    omega

theorem partRange_eq (size offset dataLen : Nat) :
    partRange size offset dataLen =
      ⟨partLen size offset dataLen, offset / chunkBlkSz * chunkBlkSz,
        min (blockUp (partLen size offset dataLen + (offset - offset / chunkBlkSz * chunkBlkSz)))
          (size - offset / chunkBlkSz * chunkBlkSz)⟩ := by
  rw [← partRange_length]
  rfl

/-- The blocks that are read are those of the object that the part touches. -/
theorem partRange_blocks {r : PartRange} (h : partRange size offset dataLen = r)
    (hlt : offset < size) :
    r.alignedOfs % chunkBlkSz = 0 ∧ r.alignedOfs ≤ offset ∧ 0 < r.length ∧
      offset + r.length ≤ r.alignedOfs + r.alignedLen ∧ r.alignedOfs + r.alignedLen ≤ size ∧
      ((r.alignedOfs + r.alignedLen) % chunkBlkSz = 0 ∨ r.alignedOfs + r.alignedLen = size) ∧
      r.alignedLen ≤ 5 * chunkBlkSz := by
  have hpos := (@partLen_eq_zero size offset dataLen).not.mpr (by omega)
  have hend : partLen size offset dataLen ≤ size - offset ∧ partLen size offset dataLen ≤ 262144 := by
    unfold partLen
    omega
  obtain ⟨hup, hle, hnear⟩ :=
    blockUp_spec (partLen size offset dataLen + (offset - offset / chunkBlkSz * chunkBlkSz))
  rw [partRange_eq] at h
  subst h
  simp only [chunkBlkSz] at *
  omega

/-- At the end of an object nothing is read, and the bytes behind the last block boundary are
hashed. -/
theorem partRange_end (size dataLen : Nat) :
    (partRange size size dataLen).alignedLen = size % chunkBlkSz := by
  obtain ⟨-, hle, -⟩ := blockUp_spec (0 + (size - size / chunkBlkSz * chunkBlkSz))
  rw [partRange_eq, partLen_eq_zero.mpr le_rfl]
  simp only [chunkBlkSz] at *
  omega

end

/-! ## The bytes -/

section

variable {e : Env} {hdr : BeFsObjHdr} {key d : Bytes}

theorem opened_csumEntry {ino mtime k : Nat} (h : hdr.Describes key d)
    (hk : k < blockCount chunkBlkSz d.length) :
    (FsObj.opened hdr ino key ((blocks chunkBlkSz d).map e.sha1).flatten mtime).csumEntry k =
      e.sha1 (block chunkBlkSz d k) := table_entry h hk

theorem opened_blocked {ino mtime : Nat} {csums : Bytes} (h : hdr.Describes key d) :
    (FsObj.opened hdr ino key csums mtime).Blocked where
  tailPos := rfl
  tailLen := rfl
  nBlk := by
    change hdr.nBlk = blockCount chunkBlkSz hdr.valueLen
    rw [h.nBlk, h.valueLen]
  small := h.sized.nBlk

/-- The blocks of a range of blocks are blocks of the whole. -/
theorem block_range {d : Bytes} {p n i : Nat} (hp : p % chunkBlkSz = 0)
    (hend : (p + n) % chunkBlkSz = 0 ∨ p + n = d.length) (hi : i < blockCount chunkBlkSz n) :
    block chunkBlkSz ((d.drop p).take n) i = block chunkBlkSz d (p / chunkBlkSz + i) := by
  have hmul : (p / chunkBlkSz + i) * chunkBlkSz = p + i * chunkBlkSz := by
    rw [Nat.add_mul, Nat.div_mul_cancel (Nat.dvd_of_mod_eq_zero hp)]
  rw [blockCount_eq_ceil chunkBlkSz_pos] at hi
  rw [block, block, List.drop_take, List.drop_drop, List.take_take, hmul]
  rcases hend with hend | hend
  · congr 1
    simp only [chunkBlkSz] at *
    omega
  · have hlen : (d.drop (p + i * chunkBlkSz)).length = n - i * chunkBlkSz := by
      rw [List.length_drop]
      omega
    rw [← hlen, ← List.take_eq_take_min]

/-- The blocks of a part are read and found good. -/
theorem partRead_objFile {io : Io} {fs : Vol} {ino mtime bound : Nat} {extra : Bytes} {r : PartRange}
    (hcalm : ∀ s, io.sys.fails s = false) (hread : io.sys.reads 0 = some bound)
    (hfile : (fs.file ino).data = objFile e hdr key d ++ extra) (h : hdr.Describes key d)
    (hsize : (objFile e hdr key d).length < 2 ^ 63) (hlen : 0 < r.length)
    (hp : r.alignedOfs % chunkBlkSz = 0) (hn : 0 < r.alignedLen)
    (hle : r.alignedOfs + r.alignedLen ≤ d.length)
    (hend : (r.alignedOfs + r.alignedLen) % chunkBlkSz = 0 ∨
      r.alignedOfs + r.alignedLen = d.length) (hbound : r.alignedLen ≤ bound) :
    let obj := FsObj.opened hdr ino key ((blocks chunkBlkSz d).map e.sha1).flatten mtime
    partRead e io fs obj r =
      (.ok ((d.drop r.alignedOfs).take r.alignedLen), obj.at ino (r.alignedOfs + r.alignedLen)) := by
  intro obj
  set bs := (d.drop r.alignedOfs).take r.alignedLen with hbs
  have hbsLen : bs.length = r.alignedLen := by
    rw [hbs, List.length_take, List.length_drop]
    omega
  have hofs : obj.valueOfs = beFsObjHdrSz + key.length + csumBytes hdr.nBlk := rfl
  have hwhole := objFile_length (e := e) h
  have hsz : obj.size = d.length := h.valueLen
  have hseek : fsObjSeek io.sys obj r.alignedOfs = some (obj.at ino r.alignedOfs) := by
    have habs : (obj.valueOfs + r.alignedOfs) % 2 ^ 64 = obj.valueOfs + r.alignedOfs :=
      Nat.mod_eq_of_lt (by omega)
    have hfd : obj.inFd = some (ino, obj.valueOfs) := rfl
    simp only [fsObjSeek, hfd, habs, hcalm, Bool.false_eq_true, false_or]
    rw [if_neg (by omega), Nat.add_sub_cancel_left]
    rfl
  have hdata : fs.read ino (obj.valueOfs + r.alignedOfs) (min r.alignedLen (max 1 bound)) = bs := by
    have hmin : min r.alignedLen (max 1 bound) = r.alignedLen := by omega
    have hdrop : (objFile e hdr key d ++ extra).drop obj.valueOfs = d ++ extra := by
      rw [List.drop_append_of_le_length (by omega), hofs, objFile_drop h]
    rw [FileSys.read, hfile, hmin, ← List.drop_drop, hdrop,
      List.drop_append_of_le_length (by omega), List.take_append_of_le_length ?_]
    rw [List.length_drop]
    omega
  have hblocked : obj.Blocked := opened_blocked h
  obtain ⟨-, hgood, -⟩ := hblocked.read hp hn (hsz ▸ hle) (hsz ▸ hend) hdata hbsLen
  have hidx := hblocked.blkIdx (n := r.alignedLen) hp (hsz ▸ hle)
  obtain ⟨-, hres⟩ := hgood fun i hi => by
    rw [hbs, block_range hp hend hi, opened_csumEntry h]
    have hnBlk := hblocked.nBlk
    rw [hsz] at hnBlk
    omega
  rw [partRead, if_neg (by omega), hseek]
  simp only [hcalm, Bool.false_eq_true, if_false, hread, hres, hbsLen, if_true]

end

/-! ## The answer -/

/-- What answers a request for a part of `d`: a header with the length of the part, whose hash is one
of bytes that have been read, and the bytes of the part. None are read for an empty part. -/
def PartAnswer (e : Env) (creq : ChunksrvReq) (mtime offset : Nat) (d : Bytes)
    (answer : List Bytes) : Prop :=
  let n := partLen d.length offset creq.dataLen
  ∃ p m, p + m ≤ d.length ∧ (n = 0 → m = 0) ∧
    answer =
      { respInitReq creq with
        flags := if offset + n = d.length then chfGetPartLast else 0
        dataLen := n
        hash := e.sha1 ((d.drop p).take m) }.encodeGet mtime ::
      if n = 0 then [] else [(d.drop offset).take n]

/-- The call queues an answer, and writes. -/
def Responds (e : Env) (io : Io) (fs : Vol) (tx : ClientTx) (res : Option ClientTx)
    (answer : List Bytes) : Prop :=
  ∃ tx', res = some (cliWriteStart e fs io.wr tx') ∧
    tx'.queued = tx.queued ++ answer.map fun bs => bs.map Octet.mem

theorem cliWriteq_calm {bs : Bytes} (hne : bs ≠ []) (cb : CliWriteFunc) (tx : ClientTx) :
    cliWriteq false bs cb tx =
      ({ tx with
          writeQ := tx.writeQ ++ [⟨.buf bs, cb⟩], queued := tx.queued ++ [bs.map .mem] }, true) := by
  simp [cliWriteq, hne]

theorem encode_ne_nil (resp : ChunksrvResp) : resp.encode ≠ [] := by
  intro h
  have hlen := congrArg List.length h
  simp [ChunksrvResp.encode] at hlen

theorem encodeGet_ne_nil (resp : ChunksrvResp) (mtime : Nat) : resp.encodeGet mtime ≠ [] :=
  List.append_ne_nil_of_left_ne_nil (encode_ne_nil resp) _

theorem cliErr_responds {e : Env} {io : Io} {fs : Vol} (hcalm : ∀ s, io.sys.fails s = false)
    (creq : ChunksrvReq) (code : ChunkErrcode) (recycleOk : Bool) {tx tx' : ClientTx}
    (hq : tx'.queued = tx.queued) :
    Responds e io fs tx (some (cliErr e io fs creq code recycleOk tx'))
      [{ respInitReq creq with respCode := code.toNat }.encode] := by
  rw [cliErr, if_neg (by simp [hcalm]), cliRespond, hcalm, cliWriteq_calm (encode_ne_nil _)]
  exact ⟨_, rfl, by rw [← hq]; rfl⟩

section

variable {e : Env} {io : Io} {fs : Vol} {cli : Client} {obj : FsObj}

theorem getPart_behind (hcalm : ∀ s, io.sys.fails s = false)
    (hopen : fsObjOpen e io.sys fs cli.tableId cli.user cli.keyBytes = .ok obj)
    (hlt : obj.size < ofLe cli.creqGetpart.data) :
    Responds e io fs cli.toClientTx (objectGetPart e io fs cli)
      [{ respInitReq cli.req with respCode := ChunkErrcode.invalidSeek.toNat }.encode] := by
  rw [objectGetPart, if_neg (by simp [hcalm]), hopen]
  dsimp only
  rw [if_pos hlt]
  exact cliErr_responds hcalm cli.req .invalidSeek true rfl

/-- At the end of an object the process dies unless a block ends there. -/
theorem getPart_atEnd (hcalm : ∀ s, io.sys.fails s = false)
    (hopen : fsObjOpen e io.sys fs cli.tableId cli.user cli.keyBytes = .ok obj)
    (hend : ofLe cli.creqGetpart.data = obj.size) :
    (obj.size % chunkBlkSz ≠ 0 → objectGetPart e io fs cli = none) ∧
      (obj.size % chunkBlkSz = 0 →
        Responds e io fs cli.toClientTx (objectGetPart e io fs cli)
          [{ respInitReq cli.req with
              flags := chfGetPartLast, dataLen := 0, hash := e.sha1 [] }.encodeGet obj.mtime]) := by
  have hlen : (partRange obj.size obj.size cli.req.dataLen).length = 0 := by
    rw [partRange_length, partLen_eq_zero]
  have hread : partRead e io fs obj (partRange obj.size obj.size cli.req.dataLen) = (.ok [], obj) := by
    rw [partRead, if_pos hlen]
  rw [objectGetPart, if_neg (by simp [hcalm]), hopen]
  dsimp only
  rw [hend, if_neg (lt_irrefl _), hread]
  dsimp only
  rw [hlen, partRange_end]
  constructor
  · intro hne
    rw [if_pos ⟨rfl, hne⟩]
  · intro hzero
    rw [if_neg (by simp [hzero]), hcalm, cliWriteq_calm (encodeGet_ne_nil _ _)]
    dsimp only
    rw [if_pos (Nat.sub_self _).symm, if_pos rfl]
    exact ⟨_, rfl, rfl⟩

theorem getPart_inside (hcalm : ∀ s, io.sys.fails s = false)
    (hopen : fsObjOpen e io.sys fs cli.tableId cli.user cli.keyBytes = .ok obj) {r : PartRange}
    (hr : partRange obj.size (ofLe cli.creqGetpart.data) cli.req.dataLen = r)
    (hlt : ofLe cli.creqGetpart.data < obj.size) {mem : Bytes} {ino pos : Nat}
    (hread : partRead e io fs obj r = (.ok mem, obj.at ino pos)) (hmem : mem.length = r.alignedLen) :
    Responds e io fs cli.toClientTx (objectGetPart e io fs cli)
      [{ respInitReq cli.req with
          flags := if r.length = obj.size - ofLe cli.creqGetpart.data then chfGetPartLast else 0
          dataLen := r.length
          hash := e.sha1 mem }.encodeGet obj.mtime,
        (mem.drop (ofLe cli.creqGetpart.data - r.alignedOfs)).take r.length] := by
  obtain ⟨-, hofs, hpos, hle, -⟩ := partRange_blocks hr hlt
  have hbody : (mem.drop (ofLe cli.creqGetpart.data - r.alignedOfs)).take r.length ≠ [] := by
    rw [← List.length_pos_iff, List.length_take, List.length_drop]
    omega
  rw [objectGetPart, if_neg (by simp [hcalm]), hopen]
  dsimp only
  rw [if_neg (by omega), hr, hread]
  dsimp only
  rw [if_neg (by omega), hcalm, cliWriteq_calm (encodeGet_ne_nil _ _)]
  dsimp only
  rw [if_neg (by omega), hcalm, cliWriteq_calm hbody]
  exact ⟨_, rfl, List.append_assoc _ _ _⟩

end

/-- A request for a part of a committed object of the user is answered with the part, and with
`che_InvalidSeek` if the offset is behind the end, except at the end of an object that does not end
where a block does: there the process dies. -/
theorem getPart_answers_iff (e : Env) (io : Io) (fs : Vol) (cli : Client) (fn : Path)
    (ino bound : Nat) (hdr : BeFsObjHdr) (d : Bytes)
    (hcalm : ∀ s, io.sys.fails s = false) (hread : io.sys.reads 0 = some bound)
    (hbound : 5 * chunkBlkSz ≤ bound) (hkey : keyValid cli.keyBytes = true)
    (hfn : fsObjPathname e false cli.tableId cli.keyBytes = some fn)
    (hlook : fs.lookup fn = some ino)
    (hfile : (fs.file ino).data = objFile e hdr cli.keyBytes d) (h : hdr.Describes cli.keyBytes d)
    (howner : cstr hdr.owner = cstr cli.user)
    (hsize : (objFile e hdr cli.keyBytes d).length < 2 ^ 63) :
    let offset := ofLe cli.creqGetpart.data
    ((offset ≤ d.length → ∃ answer,
        Responds e io fs cli.toClientTx (objectGetPart e io fs cli) answer ∧
        PartAnswer e cli.req (fs.file ino).mtime offset d answer) ∧
      (d.length < offset → Responds e io fs cli.toClientTx (objectGetPart e io fs cli)
        [{ respInitReq cli.req with respCode := ChunkErrcode.invalidSeek.toNat }.encode])) ↔
    ¬ (offset = d.length ∧ d.length % chunkBlkSz ≠ 0) := by
  have hopen := fsObjOpen_objFile hcalm hkey hfn hlook (hfile.trans (List.append_nil _).symm) h howner
    (hsize.trans (by decide))
  generalize hoffset : ofLe cli.creqGetpart.data = offset
  set obj := FsObj.opened hdr ino cli.keyBytes ((blocks chunkBlkSz d).map e.sha1).flatten
    (fs.file ino).mtime with hobj
  have hsz : obj.size = d.length := h.valueLen
  rcases Nat.lt_trichotomy offset d.length with hlt | heq | hgt
  · refine iff_of_true ⟨fun _ => ?_, fun hgt => absurd hgt hlt.asymm⟩ (fun hend => hlt.ne hend.1)
    obtain ⟨r, hr⟩ : ∃ r, partRange d.length offset cli.req.dataLen = r := ⟨_, rfl⟩
    obtain ⟨hp, hofs, hpos, hin, hle, hends, hmax⟩ := partRange_blocks hr hlt
    have hlen : r.length = partLen d.length offset cli.req.dataLen := hr ▸ partRange_length ..
    have hread : partRead e io fs obj r = _ :=
      partRead_objFile hcalm hread (hfile.trans (List.append_nil _).symm) h hsize hpos hp
        (by omega) hle hends (hmax.trans hbound)
    have hmem : ((d.drop r.alignedOfs).take r.alignedLen).length = r.alignedLen := by
      rw [List.length_take, List.length_drop]
      omega
    have hres := getPart_inside hcalm hopen (hoffset.symm ▸ hsz.symm ▸ hr) (by omega) hread hmem
    refine ⟨_, hres, r.alignedOfs, r.alignedLen, hle, by omega, ?_⟩
    have hlast : (r.length = obj.size - offset) = (offset + r.length = d.length) := by
      rw [hsz, eq_iff_iff]
      omega
    have hbody : (((d.drop r.alignedOfs).take r.alignedLen).drop (offset - r.alignedOfs)).take r.length =
        (d.drop offset).take r.length := by
      rw [List.drop_take, List.drop_drop, List.take_take, min_eq_left (by omega),
        Nat.add_sub_cancel' hofs]
    rw [hoffset, hbody, ← hlen, if_neg hpos.ne']
    simp only [hlast]
    rfl
  · obtain ⟨hbad, hgood⟩ := getPart_atEnd hcalm hopen (hoffset.trans (heq.trans hsz.symm))
    rw [hsz] at hbad hgood
    by_cases hzero : d.length % chunkBlkSz = 0
    · refine iff_of_true ⟨fun _ => ⟨_, hgood hzero, 0, 0, Nat.zero_le _, fun _ => rfl, ?_⟩,
        fun hgt => absurd heq hgt.ne'⟩ (fun hend => hend.2 hzero)
      have hnone := (@partLen_eq_zero d.length offset cli.req.dataLen).mpr heq.ge
      rw [hnone, if_pos rfl, if_pos (by omega)]
      rfl
    · refine iff_of_false ?_ (fun hend => hend ⟨heq, hzero⟩)
      rintro ⟨hans, -⟩
      obtain ⟨answer, ⟨tx, htx, -⟩, -⟩ := hans heq.le
      rw [hbad hzero] at htx
      cases htx
  · exact iff_of_true ⟨fun hle => absurd hgt hle.not_gt, fun _ =>
      getPart_behind hcalm hopen (by omega)⟩ (fun hend => hgt.ne' hend.1)

/-- The user `u` asks for a part of the object under the key `k`. -/
def abcPart (offset dataLen : Nat) : Client where
  creq := ⟨ChunksrvReq.encode ⟨chunkdMagic, .getPart, 0, 1, 7, dataLen, List.replicate chdSigSz 0⟩,
    false⟩
  creqGetpart := ⟨leBytes chunksrvReqGetpartSz offset, false⟩
  key := ⟨0x6b :: List.replicate (chdKeySz - 1) 0, false⟩
  keyLen := 1
  user := [0x75]
  tableId := 1

/-- All calls succeed, and reads are in full. -/
def calmIo : Io where
  sys := { Sys.calm with reads := fun _ => some (5 * chunkBlkSz) }
  rd := .again
  wr := []
  list := ⟨true, [], fun _ => false, fun _ => false, fun _ => false⟩
  listFails _ := false

theorem getPart_answers_iff_abc :
    (1 ≤ abc.length → ∃ answer,
        Responds .sample calmIo (abcDisk []) (abcPart 1 1).toClientTx
          (objectGetPart .sample calmIo (abcDisk []) (abcPart 1 1)) answer ∧
        PartAnswer .sample (abcPart 1 1).req ((abcDisk []).file 0).mtime 1 abc answer) ∧
      (abc.length < 1 → Responds .sample calmIo (abcDisk []) (abcPart 1 1).toClientTx
        (objectGetPart .sample calmIo (abcDisk []) (abcPart 1 1))
        [{ respInitReq (abcPart 1 1).req with
            respCode := ChunkErrcode.invalidSeek.toNat }.encode]) :=
  (getPart_answers_iff .sample calmIo (abcDisk []) (abcPart 1 1) abcFn 0 (5 * chunkBlkSz) abcHdr abc
    (fun _ => rfl) rfl le_rfl rfl rfl (FileSys.lookup_creat emptyVol abcFn 0)
    ((abcDisk_file []).trans (List.append_nil _)) abcHdr_describes (by decide +kernel)
    (abcFile_length.trans_lt (by decide))).mpr (by decide)

/-- A part at the end of `abc` is not answered. -/
theorem getPart_end_dies :
    ((abcDisk []).file 0).data = objFile .sample abcHdr (abcPart 3 0).keyBytes abc ∧
      ofLe (abcPart 3 0).creqGetpart.data ≤ abc.length ∧
      objectGetPart .sample calmIo (abcDisk []) (abcPart 3 0) = none := by
  refine ⟨(abcDisk_file []).trans (List.append_nil _), by decide, ?_⟩
  exact (getPart_atEnd (fun _ => rfl) (abcDisk_open [] fun _ => rfl) (by decide)).1 (by decide)

end Hail.Chunkd
