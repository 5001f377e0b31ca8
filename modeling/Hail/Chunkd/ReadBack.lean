import Hail.Chunkd.Fs

/-!
# Objects read back

Data fed to `fs_obj_write` in any pieces, each written by any short writes, is found in the file after
the checksums of its blocks. The three readers of the file, `fs_obj_open`, `fs_obj_read` and
`fs_obj_do_sum`, agree with it.
-/
namespace Hail.Chunkd

open Library

theorem chunkBlkSz_pos : 0 < chunkBlkSz := by decide

/-! ## Loops of writes -/

/-- A round of the loop writes a piece that does not reach past the block. -/
theorem fsObjWriteLoop_round (e : Env) (now : Nat) {write : Nat → Option Nat} {i bound ino pos : Nat}
    (hw : write i = some bound) {obj : FsObj} (hfd : obj.outFd = some (ino, pos))
    (hchk : obj.checkedBytes < chunkBlkSz) {ptr : Bytes} (hp : ptr ≠ []) (fuel : Nat) (fs : Vol) :
    ∃ bs rest, bs ≠ [] ∧ ptr = bs ++ rest ∧ obj.checkedBytes + bs.length ≤ chunkBlkSz ∧
      fsObjWriteLoop e now write (fuel + 1) i fs obj ptr =
        fsObjWriteLoop e now write fuel (i + 1) (fs.write ino pos bs now) (obj.wrote e ino pos bs)
          rest := by
  have hpos : 0 < ptr.length := List.length_pos_iff.mpr hp
  set n := min (chunkBlkSz - obj.checkedBytes) ptr.length with hn
  have hlen : (ptr.take (min n (max 1 bound))).length = min n (max 1 bound) := by
    rw [List.length_take]
    omega
  refine ⟨ptr.take (min n (max 1 bound)), ptr.drop (ptr.take (min n (max 1 bound))).length, ?_, ?_, ?_,
    ?_⟩
  · rw [← List.length_pos_iff, hlen]
    omega
  · rw [hlen, List.take_append_drop]
  · omega
  · simp only [fsObjWriteLoop, hp, if_false, hfd, hw, ← hn]
    rw [if_neg (by omega)]

section

variable {e : Env} {now : Nat} {write : Nat → Option Nat} {I : Vol → FsObj → Bytes → Prop}
  {all : Bytes}

/-- What every `write` inside a block preserves, a loop of them preserves. -/
theorem fsObjWriteLoop_all
    (hstep : ∀ fs obj d bs ino pos, I fs obj d → obj.outFd = some (ino, pos) → bs ≠ [] →
      obj.checkedBytes + bs.length ≤ chunkBlkSz → d ++ bs <+: all →
      I (fs.write ino pos bs now) (obj.wrote e ino pos bs) (d ++ bs))
    {fuel i : Nat} {fs fs' : Vol} {obj obj' : FsObj} {d ptr : Bytes} (h : I fs obj d)
    (hall : d ++ ptr <+: all)
    (hloop : fsObjWriteLoop e now write fuel i fs obj ptr = (.all, fs', obj')) :
    I fs' obj' (d ++ ptr) := by
  induction fuel generalizing i fs obj d ptr with
  | zero =>
    by_cases hp : ptr = []
    · simp only [fsObjWriteLoop, hp, if_true] at hloop
      cases hloop
      rwa [hp, List.append_nil]
    · simp [fsObjWriteLoop, hp] at hloop
  | succ fuel ih =>
    by_cases hp : ptr = []
    · simp only [fsObjWriteLoop, hp, if_true] at hloop
      cases hloop
      rwa [hp, List.append_nil]
    · cases hfd : obj.outFd with
      | none => simp [fsObjWriteLoop, hp, hfd] at hloop
      | some fd =>
        cases hw : write i with
        | none => simp [fsObjWriteLoop, hp, hfd, hw] at hloop
        | some bound =>
          by_cases hchk : obj.checkedBytes < chunkBlkSz
          · obtain ⟨bs, rest, hne, hsplit, hle, heq⟩ :=
              fsObjWriteLoop_round e now hw hfd hchk hp fuel fs
            rw [heq] at hloop
            rw [hsplit, ← List.append_assoc] at hall ⊢
            have hpre : d ++ bs <+: all := (List.prefix_append _ _).trans hall
            exact ih (hstep fs obj d bs fd.1 fd.2 h hfd hne hle hpre) hall hloop
          · have hn : min (chunkBlkSz - obj.checkedBytes) ptr.length = 0 := by omega
            simp [fsObjWriteLoop, hp, hfd, hw, hn] at hloop

/-- The loop ends, when no `write` fails and no block stays full. -/
theorem fsObjWriteLoop_ends
    (hstep : ∀ fs obj d bs ino pos, I fs obj d → obj.outFd = some (ino, pos) → bs ≠ [] →
      obj.checkedBytes + bs.length ≤ chunkBlkSz → d ++ bs <+: all →
      I (fs.write ino pos bs now) (obj.wrote e ino pos bs) (d ++ bs))
    (hopen : ∀ fs obj d, I fs obj d → obj.outFd.isSome ∧ obj.checkedBytes < chunkBlkSz)
    (hwrite : ∀ i, (write i).isSome) {fuel i : Nat} {fs : Vol} {obj : FsObj} {d ptr : Bytes}
    (h : I fs obj d) (hall : d ++ ptr <+: all) (hfuel : ptr.length ≤ fuel) :
    (fsObjWriteLoop e now write fuel i fs obj ptr).1 = .all := by
  induction fuel generalizing i fs obj d ptr with
  | zero =>
    have hp : ptr = [] := List.length_eq_zero_iff.mp (by omega)
    simp [fsObjWriteLoop, hp]
  | succ fuel ih =>
    by_cases hp : ptr = []
    · simp [fsObjWriteLoop, hp]
    · obtain ⟨hsome, hchk⟩ := hopen fs obj d h
      obtain ⟨⟨ino, pos⟩, hfd⟩ := Option.isSome_iff_exists.mp hsome
      obtain ⟨bound, hw⟩ := Option.isSome_iff_exists.mp (hwrite i)
      obtain ⟨bs, rest, hne, hsplit, hle, heq⟩ := fsObjWriteLoop_round e now hw hfd hchk hp fuel fs
      rw [heq]
      rw [hsplit, ← List.append_assoc] at hall
      have hpre : d ++ bs <+: all := (List.prefix_append _ _).trans hall
      refine ih (hstep fs obj d bs ino pos h hfd hne hle hpre) hall ?_
      have hpos : 0 < bs.length := List.length_pos_iff.mpr hne
      rw [hsplit, List.length_append] at hfuel
      omega

end

/-! ## What has been written -/

/-- What `fs_obj_write` leaves as it is in an object. -/
def FsObj.layout (obj : FsObj) : Bytes × Nat × Option Path × Nat × Nat × Nat :=
  (obj.key, obj.size, obj.outFn, obj.valueOfs, obj.nBlk, obj.csumTbl.data.length)

/-- The bytes `d` have been written, from the place of the data on. -/
structure Placed (fs₀ : Vol) (obj₀ : FsObj) (ino : Nat) (fs : Vol) (obj : FsObj) (d : Bytes) : Prop where
  layout : obj.layout = obj₀.layout
  dir : fs.dir = fs₀.dir
  others : ∀ j, j ≠ ino → fs.file j = fs₀.file j
  fd : obj.outFd = some (ino, obj.valueOfs + d.length)
  data : (fs.file ino).data.drop obj.valueOfs = d
  written : obj.writtenBytes = d.length

theorem objFlushCsum_layout (e : Env) (obj : FsObj) : (objFlushCsum e obj).layout = obj.layout := by
  unfold objFlushCsum
  split
  · rfl
  · simp [FsObj.layout, Buffer.write, Buffer.splice_length]

theorem objFlushCsum_out (e : Env) (obj : FsObj) :
    (objFlushCsum e obj).outFd = obj.outFd ∧
      (objFlushCsum e obj).writtenBytes = obj.writtenBytes := by
  unfold objFlushCsum
  split <;> exact ⟨rfl, rfl⟩

theorem wrote_layout (e : Env) (obj : FsObj) (ino pos : Nat) (bs : Bytes) :
    (obj.wrote e ino pos bs).layout = obj.layout := by
  unfold FsObj.wrote
  dsimp only
  split
  · exact objFlushCsum_layout ..
  · rfl

theorem wrote_out (e : Env) (obj : FsObj) (ino pos : Nat) (bs : Bytes) :
    (obj.wrote e ino pos bs).outFd = some (ino, pos + bs.length) ∧
      (obj.wrote e ino pos bs).writtenBytes = obj.writtenBytes + bs.length := by
  unfold FsObj.wrote
  dsimp only
  split
  · exact objFlushCsum_out ..
  · exact ⟨rfl, rfl⟩

theorem layout_valueOfs {a b : FsObj} (h : a.layout = b.layout) : a.valueOfs = b.valueOfs := by
  simp only [FsObj.layout, Prod.mk.injEq] at h
  exact h.2.2.2.1

theorem Placed.wrote {fs₀ : Vol} {obj₀ : FsObj} {ino : Nat} {fs : Vol} {obj : FsObj} {d : Bytes}
    (h : Placed fs₀ obj₀ ino fs obj d) (e : Env) (now : Nat) (bs : Bytes) :
    Placed fs₀ obj₀ ino (fs.write ino (obj.valueOfs + d.length) bs now)
      (obj.wrote e ino (obj.valueOfs + d.length) bs) (d ++ bs) := by
  have hlay := wrote_layout e obj ino (obj.valueOfs + d.length) bs
  obtain ⟨hfd, hwritten⟩ := wrote_out e obj ino (obj.valueOfs + d.length) bs
  have hofs := layout_valueOfs hlay
  refine ⟨hlay.trans h.layout, h.dir, fun j hj => ?_, ?_, ?_, ?_⟩
  · exact (Function.update_of_ne hj _ _).trans (h.others j hj)
  · rw [hfd, hofs, List.length_append, Nat.add_assoc]
  · rw [FileSys.data_write, hofs, drop_writeAt h.data]
  · rw [hwritten, h.written, List.length_append]

/-- The checksums of the full blocks of `d` are in the table, and the next one is begun. -/
structure Summed (e : Env) (obj : FsObj) (d : Bytes) : Prop where
  checksum : obj.checksum = blockTail chunkBlkSz d
  checked : obj.checkedBytes = d.length % chunkBlkSz
  idx : obj.csumIdx = d.length / chunkBlkSz
  table : obj.csumTbl.data.take (obj.csumIdx * chdCsumSz) =
    ((fullBlocks chunkBlkSz d).map e.sha1).flatten

/-- The table of an object has its right size. -/
def FsObj.Fits (obj : FsObj) : Prop :=
  obj.csumTbl.data.length = obj.nBlk * chdCsumSz ∧ obj.nBlk * chdCsumSz < 2 ^ 32

theorem FsObj.Fits.of_layout {a b : FsObj} (h : a.layout = b.layout) (hb : b.Fits) : a.Fits := by
  simp only [FsObj.layout, Prod.mk.injEq] at h
  obtain ⟨-, -, -, -, hn, hl⟩ := h
  unfold FsObj.Fits
  rwa [hn, hl]

/-- Ending a block. -/
theorem objFlushCsum_table {e : Env} {obj : FsObj} (hfits : obj.Fits) (h : obj.csumIdx < obj.nBlk) :
    (objFlushCsum e obj).csumIdx = obj.csumIdx + 1 ∧
    (objFlushCsum e obj).checkedBytes = 0 ∧ (objFlushCsum e obj).checksum = [] ∧
    (objFlushCsum e obj).csumTbl.data.take ((obj.csumIdx + 1) * chdCsumSz) =
      obj.csumTbl.data.take (obj.csumIdx * chdCsumSz) ++ e.sha1 obj.checksum := by
  obtain ⟨hlen, hlt⟩ := hfits
  have hle : (obj.csumIdx + 1) * chdCsumSz ≤ obj.nBlk * chdCsumSz := Nat.mul_le_mul_right _ h
  rw [Nat.add_mul, Nat.one_mul] at hle
  have hmod : obj.csumIdx * chdCsumSz % 2 ^ 32 = obj.csumIdx * chdCsumSz :=
    Nat.mod_eq_of_lt (by omega)
  unfold objFlushCsum
  rw [if_neg (by omega)]
  refine ⟨rfl, rfl, rfl, ?_⟩
  have hsha := e.sha1_length obj.checksum
  have hend : obj.csumIdx * chdCsumSz + (e.sha1 obj.checksum).length ≤ obj.csumTbl.data.length := by
    rw [hsha]
    omega
  have htake := Buffer.take_splice hend
  rw [hsha] at htake
  simpa only [Buffer.write, hmod, Nat.add_mul, Nat.one_mul] using htake

/-- A `write` inside a block, of an object whose blocks are not all summed yet. -/
theorem Summed.wrote {e : Env} {obj : FsObj} {d : Bytes} (h : Summed e obj d) (hfits : obj.Fits)
    {bs : Bytes} (hle : obj.checkedBytes + bs.length ≤ chunkBlkSz)
    (hroom : d.length + bs.length ≤ obj.nBlk * chunkBlkSz) (ino pos : Nat) :
    Summed e (obj.wrote e ino pos bs) (d ++ bs) := by
  have htail := blockTail_length chunkBlkSz d
  unfold FsObj.wrote
  dsimp only
  rw [h.checked] at hle ⊢
  split
  · next hfull =>
    -- the block is complete
    have hsum : (blockTail chunkBlkSz d).length + bs.length = chunkBlkSz := by rw [htail, hfull]
    obtain ⟨hblocks, htail'⟩ := blocks_complete chunkBlkSz_pos hsum
    have hlen : (d ++ bs).length / chunkBlkSz = d.length / chunkBlkSz + 1 ∧
        (d ++ bs).length % chunkBlkSz = 0 := by
      rw [List.length_append]
      simp only [chunkBlkSz] at hfull ⊢
      omega
    have hidx : obj.csumIdx < obj.nBlk := by
      rw [h.idx]
      have := Nat.div_add_mod d.length chunkBlkSz
      simp only [chunkBlkSz] at *
      omega
    set grown : FsObj := { obj with
      outFd := some (ino, pos + bs.length)
      checksum := obj.checksum ++ bs
      writtenBytes := obj.writtenBytes + bs.length
      checkedBytes := d.length % chunkBlkSz + bs.length } with hgrown
    have hgfits : grown.Fits := hfits.of_layout rfl
    obtain ⟨hi, hc, hs, ht⟩ := objFlushCsum_table (e := e) hgfits hidx
    refine ⟨?_, ?_, ?_, ?_⟩
    · rw [hs, htail']
    · rw [hc, hlen.2]
    · rw [hi, hlen.1]
      exact congrArg (· + 1) h.idx
    · rw [hi, ht, hblocks, List.map_append, List.flatten_append]
      change obj.csumTbl.data.take (obj.csumIdx * chdCsumSz) ++ e.sha1 (obj.checksum ++ bs) = _
      rw [h.table, h.checksum]
      simp
  · next hpart =>
    have hlt : (blockTail chunkBlkSz d).length + bs.length < chunkBlkSz := by
      rw [htail]
      omega
    obtain ⟨hblocks, htail'⟩ := blocks_grow hlt
    have hlen : (d ++ bs).length / chunkBlkSz = d.length / chunkBlkSz ∧
        (d ++ bs).length % chunkBlkSz = d.length % chunkBlkSz + bs.length := by
      rw [List.length_append]
      simp only [chunkBlkSz] at hpart hle ⊢
      omega
    refine ⟨?_, hlen.2.symm, ?_, ?_⟩
    · rw [htail', ← h.checksum]
    · rw [hlen.1, ← h.idx]
    · rw [hblocks]
      exact h.table

/-! ## A new object and its commit -/

theorem fsObjPathname_some {e : Env} {fails : Bool} {tableId : Nat} {key : Bytes} {fn : Path}
    (h : fsObjPathname e fails tableId key = some fn) :
    fsObjPathname e false tableId key = some fn := by
  simp only [fsObjPathname] at h ⊢
  split at h
  · cases h
  · next hn =>
    rw [if_neg (by tauto)]
    exact h

theorem fsObjNew_ok {e : Env} {y : Sys} {fs fs' : Vol} {tableId dataLen : Nat} {key : Bytes}
    {obj : FsObj} (h : fsObjNew e y fs tableId key dataLen = (.ok obj, fs')) :
    ∃ fn, keyValid key = true ∧ fsObjPathname e false tableId key = some fn ∧ fs.lookup fn = none ∧
      obj = .created y fs.next fn key dataLen ∧ fs' = fs.creat fn y.now := by
  unfold fsObjNew at h
  split at h
  · cases h
  · next hkey =>
    split at h
    · cases h
    · split at h
      · cases h
      · split at h
        · cases h
        · next fn hfn =>
          split at h
          · cases h
          · split at h
            · cases h
            · next hnone =>
              dsimp only at h
              split at h
              · cases h
              · cases h
                exact ⟨fn, by simpa using hkey, fsObjPathname_some hfn, by simpa using hnone, rfl, rfl⟩

theorem created_placed (y : Sys) (fs : Vol) (fn : Path) (key : Bytes) (dataLen : Nat) :
    Placed (fs.creat fn y.now) (.created y fs.next fn key dataLen) fs.next (fs.creat fn y.now)
      (.created y fs.next fn key dataLen) [] :=
  ⟨rfl, rfl, fun _ _ => rfl, rfl, by rw [FileSys.data_creat, List.drop_nil], rfl⟩

theorem created_summed (e : Env) (y : Sys) (ino : Nat) (fn : Path) (key : Bytes) (dataLen : Nat) :
    Summed e (.created y ino fn key dataLen) [] :=
  ⟨rfl, rfl, rfl, rfl⟩

theorem malloc_length (y : Sys) (n : Nat) : (y.malloc n).length = n := by simp [Sys.malloc]

@[simp] theorem strncpy_length (n : Nat) (s : Bytes) : (strncpy n s).length = n := by
  simp only [strncpy, List.length_append, List.length_take, List.length_replicate]
  omega

theorem hdr_length (obj : FsObj) (user : Bytes) {md : Bytes} (hmd : md.length = chdCsumSz) :
    (obj.hdr user md).encode.length = beFsObjHdrSz := by
  simp [BeFsObjHdr.encode, FsObj.hdr, beFsObjMagic, hmd, chdCsumSz, beFsOwnerSz, beFsObjHdrSz]

theorem closed_layout (e : Env) (obj : FsObj) : (obj.closed e).layout = obj.layout := by
  unfold FsObj.closed
  split
  · exact objFlushCsum_layout ..
  · rfl

theorem closed_outFd (e : Env) (obj : FsObj) : (obj.closed e).outFd = obj.outFd := by
  unfold FsObj.closed
  split
  · exact (objFlushCsum_out ..).1
  · rfl

/-- The place of the data is behind the header, the key and the table. -/
def FsObj.Laid (obj : FsObj) : Prop :=
  obj.valueOfs = beFsObjHdrSz + obj.key.length + obj.csumTbl.data.length

theorem FsObj.Laid.of_layout {a b : FsObj} (h : a.layout = b.layout) (hb : b.Laid) : a.Laid := by
  simp only [FsObj.layout, Prod.mk.injEq] at h
  obtain ⟨hk, -, -, hv, -, hl⟩ := h
  unfold FsObj.Laid
  rwa [hk, hv, hl]

theorem created_laid (y : Sys) (ino : Nat) (fn : Path) (key : Bytes) (dataLen : Nat) :
    (FsObj.created y ino fn key dataLen).Laid := by
  simp [FsObj.Laid, FsObj.created, malloc_length]

/-- What a commit that succeeds leaves in the file. -/
theorem fsObjWriteCommit_ok {e : Env} {y : Sys} {fs₀ fs fs' : Vol} {obj₀ obj obj' : FsObj} {ino : Nat}
    {d user md : Bytes} {sync : Bool} (h : Placed fs₀ obj₀ ino fs obj d) (hlaid : obj.Laid)
    (hmd : md.length = chdCsumSz)
    (hcommit : fsObjWriteCommit e y fs obj user md sync = (true, fs', obj')) :
    obj.size = d.length ∧ (obj.closed e).csumIdx = obj.nBlk ∧ fs'.dir = fs₀.dir ∧
      (∀ j, j ≠ ino → fs'.file j = fs₀.file j) ∧
      (fs'.file ino).data =
        (obj.hdr user md).encode ++ obj.key ++ (obj.closed e).csumTbl.data ++ d ∧
      obj'.outFn = none := by
  have hlay := closed_layout e obj
  have hfd : (obj.closed e).outFd = some (ino, obj.valueOfs + d.length) :=
    (closed_outFd e obj).trans h.fd
  have hkey : (obj.closed e).key = obj.key := congrArg Prod.fst hlay
  have hnblk : (obj.closed e).nBlk = obj.nBlk := congrArg (·.2.2.2.2.1) hlay
  have htbl : (obj.closed e).csumTbl.data.length = obj.csumTbl.data.length :=
    congrArg (·.2.2.2.2.2) hlay
  unfold fsObjWriteCommit at hcommit
  split at hcommit
  · cases hcommit
  · next hsize =>
    dsimp only at hcommit
    split at hcommit
    · cases hcommit
    · next hidx =>
      rw [hfd] at hcommit
      dsimp only at hcommit
      split at hcommit
      · cases hcommit
      · split at hcommit
        · cases hcommit
        · split at hcommit
          · cases hcommit
          · cases hcommit
            rw [not_not] at hsize hidx
            set iov := (obj.hdr user md).encode ++ (obj.closed e).key ++ (obj.closed e).csumTbl.data
              with hiov
            have hlen : iov.length = obj.valueOfs := by
              rw [hiov, List.length_append, List.length_append, hdr_length obj user hmd, htbl, hkey]
              exact hlaid.symm
            have hne : iov ≠ [] := by
              rw [← List.length_pos_iff, hlen, hlaid]
              simp only [beFsObjHdrSz]
              omega
            refine ⟨hsize.trans h.written, hidx.trans hnblk, h.dir, fun j hj => ?_, ?_, rfl⟩
            · exact (Function.update_of_ne hj _ _).trans (h.others j hj)
            · rw [FileSys.data_write, writeAt_zero hne, hlen, h.data, hiov, hkey]

/-- When all blocks are summed, the table holds the checksums of the blocks. -/
theorem Summed.closed_table {e : Env} {obj : FsObj} {d : Bytes} (h : Summed e obj d)
    (hfits : obj.Fits) (hn : obj.nBlk = blockCount chunkBlkSz d.length) :
    (obj.closed e).csumIdx = obj.nBlk ∧
      (obj.closed e).csumTbl.data = ((blocks chunkBlkSz d).map e.sha1).flatten := by
  have hfull : ∀ {x : FsObj}, x.csumTbl.data.length = obj.csumTbl.data.length →
      x.csumTbl.data.take (obj.nBlk * chdCsumSz) = x.csumTbl.data := by
    intro x hx
    exact List.take_of_length_le (by rw [hx, hfits.1])
  have hdiv := h.idx
  unfold blockCount at hn
  rw [blocks_eq chunkBlkSz_pos]
  unfold FsObj.closed
  split
  · next hpos =>
    rw [h.checked] at hpos
    rw [if_neg (by omega)] at hn
    obtain ⟨hi, -, -, ht⟩ := objFlushCsum_table (e := e) hfits (by omega)
    have hlen : (objFlushCsum e obj).csumTbl.data.length = obj.csumTbl.data.length :=
      congrArg (·.2.2.2.2.2) (objFlushCsum_layout e obj)
    refine ⟨by omega, ?_⟩
    rw [← hfull hlen, hn, ← hdiv, ht, h.table, h.checksum, if_neg (by omega)]
    simp
  · next hzero =>
    rw [h.checked] at hzero
    have hmod : d.length % chunkBlkSz = 0 := by omega
    rw [if_pos hmod] at hn
    refine ⟨by omega, ?_⟩
    rw [← hfull rfl, hn, Nat.add_zero, ← hdiv, h.table, if_pos hmod, List.append_nil]

/-! ## The header read back -/

/-- A header whose fields have their sizes. -/
structure BeFsObjHdr.Sized (hdr : BeFsObjHdr) : Prop where
  magic : hdr.magic.length = 4
  keyLen : hdr.keyLen < 2 ^ 32
  valueLen : hdr.valueLen < 2 ^ 64
  nBlk : hdr.nBlk < 2 ^ 32
  hash : hdr.hash.length = chdCsumSz
  owner : hdr.owner.length = beFsOwnerSz

theorem BeFsObjHdr.ofBytes_encode {hdr : BeFsObjHdr} (h : hdr.Sized) :
    BeFsObjHdr.ofBytes hdr.encode = hdr := by
  obtain ⟨magic, keyLen, valueLen, nBlk, hash, owner⟩ := hdr
  obtain ⟨hm, hk, hv, hn, hh, ho⟩ := h
  simp only at hm hk hv hn hh ho
  have hle : ∀ {n x : Nat}, x < 256 ^ n → ofLe (leBytes n x) = x := by
    intro n x hx
    rw [ofLe_leBytes, Nat.mod_eq_of_lt hx]
  simp only [BeFsObjHdr.ofBytes, BeFsObjHdr.mk.injEq]
  refine ⟨?_, ?_, ?_, ?_, ?_, ?_⟩
  · simp only [BeFsObjHdr.encode, List.append_assoc]
    exact List.take_left' hm
  · have hf := take_drop_field hm (leBytes_length 4 keyLen)
      (leBytes 8 valueLen ++ leBytes 4 nBlk ++ List.replicate 12 0 ++ hash ++ owner)
    simp only [BeFsObjHdr.encode, List.append_assoc] at hf ⊢
    rw [hf, hle (by simpa using hk)]
  · have hf := take_drop_field (show (magic ++ leBytes 4 keyLen).length = 8 by simp [hm])
      (leBytes_length 8 valueLen) (leBytes 4 nBlk ++ List.replicate 12 0 ++ hash ++ owner)
    simp only [BeFsObjHdr.encode, List.append_assoc] at hf ⊢
    rw [hf, hle (by simpa using hv)]
  · have hf := take_drop_field
      (show (magic ++ leBytes 4 keyLen ++ leBytes 8 valueLen).length = 16 by simp [hm])
      (leBytes_length 4 nBlk) (List.replicate 12 0 ++ hash ++ owner)
    simp only [BeFsObjHdr.encode, List.append_assoc] at hf ⊢
    rw [hf, hle (by simpa using hn)]
  · have hf := take_drop_field
      (show (magic ++ leBytes 4 keyLen ++ leBytes 8 valueLen ++ leBytes 4 nBlk ++
        List.replicate 12 0).length = 32 by simp [hm]) hh owner
    simp only [BeFsObjHdr.encode, List.append_assoc] at hf ⊢
    exact hf
  · have hf := take_drop_field
      (show (magic ++ leBytes 4 keyLen ++ leBytes 8 valueLen ++ leBytes 4 nBlk ++
        List.replicate 12 0 ++ hash).length = 52 by simp [hm, hh, chdCsumSz]) ho []
    simp only [BeFsObjHdr.encode, List.append_assoc, List.append_nil] at hf ⊢
    exact hf

/-! ## The data read back -/

/-- No call fails, and files are read in full. -/
structure Sys.Calm (y : Sys) : Prop where
  fails : ∀ s, y.fails s = false
  reads : ∀ i, ∃ bound, y.reads i = some bound ∧ sumBuflen ≤ bound

/-- The file of an object with the data `d`. -/
def objFile (e : Env) (hdr : BeFsObjHdr) (key d : Bytes) : Bytes :=
  hdr.encode ++ key ++ ((blocks chunkBlkSz d).map e.sha1).flatten ++ d

/-- The header fits the key and the data. -/
structure BeFsObjHdr.Describes (hdr : BeFsObjHdr) (key d : Bytes) : Prop where
  sized : hdr.Sized
  magic : hdr.magic = beFsObjMagic
  keyLen : hdr.keyLen = key.length
  valueLen : hdr.valueLen = d.length
  nBlk : hdr.nBlk = blockCount chunkBlkSz d.length
  small : hdr.nBlk * chdCsumSz < 2 ^ 32

section

variable {e : Env} {hdr : BeFsObjHdr} {key d : Bytes}

theorem csums_length (e : Env) (d : Bytes) :
    ((blocks chunkBlkSz d).map e.sha1).flatten.length =
      blockCount chunkBlkSz d.length * chdCsumSz := by
  have hmap : ((blocks chunkBlkSz d).map e.sha1).map List.length =
      List.replicate (blockCount chunkBlkSz d.length) chdCsumSz := by
    rw [List.map_map, ← blocks_length]
    exact List.map_eq_replicate_iff.mpr fun b _ => e.sha1_length b
  rw [List.length_flatten, hmap, List.sum_replicate, smul_eq_mul]

theorem encode_length (h : hdr.Sized) : hdr.encode.length = beFsObjHdrSz := by
  simp [BeFsObjHdr.encode, h.magic, h.hash, h.owner, chdCsumSz, beFsOwnerSz, beFsObjHdrSz]

theorem csumBytes_eq (h : hdr.Describes key d) :
    csumBytes hdr.nBlk = ((blocks chunkBlkSz d).map e.sha1).flatten.length := by
  rw [csums_length, csumBytes, Nat.mod_eq_of_lt h.small, h.nBlk]

/-- The entry of a block in the table of an object file. -/
theorem table_entry (h : hdr.Describes key d) {k : Nat} (hk : k < blockCount chunkBlkSz d.length) :
    (((blocks chunkBlkSz d).map e.sha1).flatten.drop (k * chdCsumSz % 2 ^ 32)).take chdCsumSz =
      e.sha1 (block chunkBlkSz d k) := by
  have hlt : k < ((blocks chunkBlkSz d).map e.sha1).length := by
    rwa [List.length_map, blocks_length]
  have hmul : k * chdCsumSz ≤ hdr.nBlk * chdCsumSz := Nat.mul_le_mul_right _ (h.nBlk ▸ hk.le)
  rw [Nat.mod_eq_of_lt (hmul.trans_lt h.small), flatten_entry (fun x hx => ?_) hlt]
  · simp [blocks]
  · obtain ⟨b, -, rfl⟩ := List.mem_map.mp hx
    exact e.sha1_length b

/-- The data of an object file begins where `fs_obj_open` says. -/
theorem objFile_drop (h : hdr.Describes key d) :
    (objFile e hdr key d).drop (beFsObjHdrSz + key.length + csumBytes hdr.nBlk) = d := by
  refine List.drop_left' ?_
  rw [List.length_append, List.length_append, encode_length h.sized, csumBytes_eq h]

theorem objFile_length (h : hdr.Describes key d) :
    (objFile e hdr key d).length =
      beFsObjHdrSz + key.length + csumBytes hdr.nBlk + d.length := by
  rw [objFile, List.length_append, List.length_append, List.length_append, encode_length h.sized,
    csumBytes_eq h]

/-- `fs_obj_open` accepts an object file of the user and the key, whatever follows the data. -/
theorem fsObjOpen_objFile {y : Sys} {fs : Vol} {tableId ino : Nat} {user extra : Bytes} {fn : Path}
    (hcalm : ∀ s, y.fails s = false) (hkey : keyValid key = true)
    (hfn : fsObjPathname e false tableId key = some fn) (hlook : fs.lookup fn = some ino)
    (hfile : (fs.file ino).data = objFile e hdr key d ++ extra) (h : hdr.Describes key d)
    (howner : cstr hdr.owner = cstr user) (hsize : (objFile e hdr key d).length < 2 ^ 64) :
    fsObjOpen e y fs tableId user key =
      .ok (.opened hdr ino key ((blocks chunkBlkSz d).map e.sha1).flatten (fs.file ino).mtime) := by
  have hlen := objFile_length (e := e) h
  have hlong : (objFile e hdr key d ++ extra).length = (objFile e hdr key d).length + extra.length :=
    List.length_append
  have htake : (objFile e hdr key d ++ extra).take beFsObjHdrSz = hdr.encode := by
    rw [objFile, List.append_assoc, List.append_assoc, List.append_assoc]
    exact List.take_left' (encode_length h.sized)
  have hrest : ((objFile e hdr key d ++ extra).drop beFsObjHdrSz).take
      (key.length + csumBytes hdr.nBlk) =
        key ++ ((blocks chunkBlkSz d).map e.sha1).flatten := by
    have hmid : (key ++ ((blocks chunkBlkSz d).map e.sha1).flatten).length =
        key.length + csumBytes hdr.nBlk := by rw [List.length_append, csumBytes_eq h]
    have hf := take_drop_field (encode_length h.sized) hmid (d ++ extra)
    simpa only [objFile, List.append_assoc] using hf
  unfold fsObjOpen
  simp only [hkey, Bool.not_true, Bool.false_eq_true, if_false, hcalm, hfn, hlook, hfile, false_or,
    if_neg (show ¬ (objFile e hdr key d ++ extra).length < beFsObjHdrSz by omega), htake,
    BeFsObjHdr.ofBytes_encode h.sized]
  have hn : fsBlkCount hdr.valueLen = hdr.nBlk := by
    rw [fsBlkCount, h.valueLen, ← h.nBlk, Nat.mod_eq_of_lt h.sized.nBlk]
  have hbig : ¬ (objFile e hdr key d ++ extra).length <
      (beFsObjHdrSz + key.length + csumBytes hdr.nBlk + hdr.valueLen) % 2 ^ 64 := by
    rw [h.valueLen, ← hlen, Nat.mod_eq_of_lt hsize]
    omega
  have hwhole : (key ++ ((blocks chunkBlkSz d).map e.sha1).flatten).length =
      key.length + csumBytes hdr.nBlk := by rw [List.length_append, csumBytes_eq h]
  simp only [fsObjOpenHdr, hfile, hrest, hwhole, hbig, h.magic, howner, h.keyLen, hn, hcalm, ne_eq,
    not_true_eq_false, Bool.false_eq_true, or_self, if_false, List.take_left, List.drop_left]

/-- The opened object with its offset at a place in the data. -/
def FsObj.at (obj : FsObj) (ino pos : Nat) : FsObj :=
  { obj with inFd := some (ino, obj.valueOfs + pos), inPos := pos }

/-- A block read at its place passes the check of its sum. -/
theorem fsObjRead_block {fs : Vol} {ino bound k mtime : Nat}
    (hfile : (fs.file ino).data = objFile e hdr key d) (h : hdr.Describes key d)
    (hk : k * chunkBlkSz < d.length) (hbound : chunkBlkSz ≤ bound) :
    fsObjRead e fs (some bound)
        ((FsObj.opened hdr ino key ((blocks chunkBlkSz d).map e.sha1).flatten mtime).at ino
          (k * chunkBlkSz)) (min (d.length - k * chunkBlkSz) chunkBlkSz) =
      (some (block chunkBlkSz d k),
        (FsObj.opened hdr ino key ((blocks chunkBlkSz d).map e.sha1).flatten mtime).at ino
          (k * chunkBlkSz + (block chunkBlkSz d k).length)) := by
  have hlen := block_length chunkBlkSz d k
  set bs := block chunkBlkSz d k with hbs
  have hpos : 0 < bs.length := by
    have := chunkBlkSz_pos
    omega
  have hcount : k < hdr.nBlk := h.nBlk ▸ lt_blockCount chunkBlkSz_pos hk
  have hnblk := h.sized.nBlk
  have hread : fs.read ino (beFsObjHdrSz + key.length + csumBytes hdr.nBlk + k * chunkBlkSz)
      (min (min (d.length - k * chunkBlkSz) chunkBlkSz) (max 1 bound)) = bs := by
    have hmin : min (min (d.length - k * chunkBlkSz) chunkBlkSz) (max 1 bound) =
        min chunkBlkSz (d.drop (k * chunkBlkSz)).length := by
      rw [List.length_drop]
      omega
    rw [FileSys.read, hfile, hmin, ← List.drop_drop, objFile_drop h, ← List.take_eq_take_min,
      hbs, block]
  have hne : bs ≠ [] := List.length_pos_iff.mp hpos
  have hcur : fsBlkCount (k * chunkBlkSz) = k := by
    rw [fsBlkCount, blockCount_mul chunkBlkSz_pos, Nat.mod_eq_of_lt (by omega)]
  have hone : fsBlkCount bs.length = 1 := by
    rw [fsBlkCount, blockCount_piece hpos (by omega)]
    rfl
  have hend : (k + 1) % 2 ^ 32 - k = 1 := by
    rw [Nat.mod_eq_of_lt (by omega)]
    omega
  have htake : bs.take
      (if k + 1 = hdr.nBlk ∧ 0 < hdr.valueLen % chunkBlkSz then hdr.valueLen % chunkBlkSz
        else chunkBlkSz) = bs := by
    refine List.take_of_length_le ?_
    split
    · next hlast =>
      rw [h.nBlk, h.valueLen] at hlast
      rw [h.valueLen]
      exact last_block_length hlast.1 hlast.2
    · omega
  have hentry := table_entry (e := e) h (h.nBlk ▸ hcount)
  simp only [fsObjRead, FsObj.at, FsObj.opened, hread, hne, if_false, hcur, hone, hend, csumsMatch,
    htake, hentry, ← hbs, decide_true, Bool.true_and, Bool.not_true, Bool.and_false, Bool.false_eq_true]
  rw [Nat.add_assoc]

/-- Reading the rest of the data in pieces of the size of the buffer, as `object_get` and
`worker_cp_thr` do. -/
def fsObjReadAll (e : Env) (fs : Vol) (reads : Nat → Option Nat) :
    Nat → Nat → Nat → FsObj → Option Bytes
  | 0, _, inLen, _ => if inLen = 0 then some [] else none
  | fuel + 1, i, inLen, obj =>
    if inLen = 0 then some []
    else
      match fsObjRead e fs (reads i) obj (min inLen chunkBlkSz) with
      | (none, _) => none
      | (some bs, obj) =>
        if bs = [] then some []
        else (fsObjReadAll e fs reads fuel (i + 1) (inLen - bs.length) obj).map (bs ++ ·)

theorem fsObjReadAll_objFile {y : Sys} {fs : Vol} {ino mtime : Nat}
    (hcalm : y.Calm) (hfile : (fs.file ino).data = objFile e hdr key d) (h : hdr.Describes key d)
    {fuel k : Nat} (i : Nat) (hfuel : d.length - k * chunkBlkSz ≤ fuel) :
    fsObjReadAll e fs y.reads fuel i (d.length - k * chunkBlkSz)
        ((FsObj.opened hdr ino key ((blocks chunkBlkSz d).map e.sha1).flatten mtime).at ino
          (min (k * chunkBlkSz) d.length)) = some (d.drop (k * chunkBlkSz)) := by
  induction fuel generalizing k i with
  | zero =>
    have hle : d.length ≤ k * chunkBlkSz := by omega
    rw [fsObjReadAll, if_pos (by omega), List.drop_eq_nil_of_le hle]
  | succ fuel ih =>
    by_cases hle : d.length ≤ k * chunkBlkSz
    · rw [fsObjReadAll, if_pos (by omega), List.drop_eq_nil_of_le hle]
    · obtain ⟨bound, hread, hbound⟩ := hcalm.reads i
      have hblk := block_length chunkBlkSz d k
      have hsz := chunkBlkSz_pos
      have hmul : (k + 1) * chunkBlkSz = k * chunkBlkSz + chunkBlkSz := Nat.succ_mul _ _
      have hpos : min (k * chunkBlkSz) d.length = k * chunkBlkSz := by omega
      have hne : block chunkBlkSz d k ≠ [] := by
        rw [← List.length_pos_iff]
        omega
      have hnext : min ((k + 1) * chunkBlkSz) d.length =
          k * chunkBlkSz + (block chunkBlkSz d k).length := by omega
      have hrest : d.length - k * chunkBlkSz - (block chunkBlkSz d k).length =
          d.length - (k + 1) * chunkBlkSz := by omega
      have hbuf : chunkBlkSz ≤ bound := le_trans (by simp [chunkBlkSz, sumBuflen]) hbound
      have hstep := ih (k := k + 1) (i + 1) (by omega)
      rw [fsObjReadAll, if_neg (by omega), hread, hpos, fsObjRead_block hfile h (by omega) hbuf]
      simp only [hne, if_false]
      rw [hrest, ← hnext, hstep, Option.map_some, block_append_drop]

/-- Hashing from a place to the end of a file. -/
theorem fsObjSumLoop_all {y : Sys} {fs : Vol} {ino : Nat} (hcalm : y.Calm) {fuel pos : Nat} (i : Nat)
    (hash : Bytes) (hfuel : ((fs.file ino).data.drop pos).length < fuel) :
    fsObjSumLoop fs y.reads ino fuel i pos hash =
      some (hash ++ (fs.file ino).data.drop pos) := by
  induction fuel generalizing i pos hash with
  | zero => omega
  | succ fuel ih =>
    obtain ⟨bound, hread, hbound⟩ := hcalm.reads i
    have hmin : min sumBuflen (max 1 bound) = sumBuflen := by omega
    simp only [fsObjSumLoop, hread, hmin]
    have hlen : (fs.read ino pos sumBuflen).length =
        min sumBuflen ((fs.file ino).data.drop pos).length := by
      rw [FileSys.read, List.length_take]
    split
    · next hshort =>
      have hwhole : fs.read ino pos sumBuflen = (fs.file ino).data.drop pos :=
        List.take_of_length_le (by omega)
      rw [hwhole]
    · next hfull =>
      have hbuf : (fs.read ino pos sumBuflen).length = sumBuflen := by omega
      have hpos : 0 < sumBuflen := by simp [sumBuflen]
      rw [hbuf, ih (i + 1) _ (by rw [← List.drop_drop, List.length_drop]; omega), List.append_assoc,
        ← List.drop_drop]
      exact congrArg (fun x => some (hash ++ x)) (List.take_append_drop _ _)

theorem fsObjDoSum_objFile {y : Sys} {fs : Vol} {ino : Nat} {fn : Path} (hcalm : y.Calm)
    (hlook : fs.lookup fn = some ino) (hfile : (fs.file ino).data = objFile e hdr key d)
    (h : hdr.Describes key d) :
    fsObjDoSum e y fs fn key.length (csumBytes hdr.nBlk) = some (e.sha1 d) := by
  have hdrop := objFile_drop (e := e) h
  have hlen := objFile_length (e := e) h
  unfold fsObjDoSum
  simp only [hcalm.fails, Bool.false_eq_true, or_self, if_false, hlook]
  rw [fsObjSumLoop_all hcalm, hfile, hdrop]
  · rfl
  · rw [hfile, hdrop]
    omega

end

/-! ## Written and read back -/

/-- The pieces of an upload, each with the time and what the `write` calls for it do. -/
abbrev Feed := List (Bytes × Nat × (Nat → Option Nat))

/-- A call of `fs_obj_write` for each piece. -/
def fsObjWriteAll (e : Env) : Vol → FsObj → Feed → WriteEnd × Vol × FsObj
  | fs, obj, [] => (.all, fs, obj)
  | fs, obj, (ptr, now, write) :: feed =>
    match fsObjWrite e now write fs obj ptr with
    | (.all, fs, obj) => fsObjWriteAll e fs obj feed
    | r => r

/-- An upload of `data` of which `d` has been written. -/
def Uploading (e : Env) (fs₀ : Vol) (obj₀ : FsObj) (ino : Nat) (fs : Vol) (obj : FsObj)
    (d : Bytes) : Prop :=
  Placed fs₀ obj₀ ino fs obj d ∧ Summed e obj d

theorem Uploading.wrote {e : Env} {fs₀ fs : Vol} {obj₀ obj : FsObj} {ino ino' pos : Nat}
    {d bs data : Bytes} (h : Uploading e fs₀ obj₀ ino fs obj d) (hfits : obj₀.Fits)
    (hn : obj₀.nBlk = blockCount chunkBlkSz data.length) (hfd : obj.outFd = some (ino', pos))
    (hle : obj.checkedBytes + bs.length ≤ chunkBlkSz) (hpre : d ++ bs <+: data) (now : Nat) :
    Uploading e fs₀ obj₀ ino (fs.write ino' pos bs now) (obj.wrote e ino' pos bs) (d ++ bs) := by
  obtain ⟨hplaced, hsummed⟩ := h
  have hpos : some (ino', pos) = some (ino, obj.valueOfs + d.length) := hfd.symm.trans hplaced.fd
  cases hpos
  have hlen := hpre.length_le
  have hcount := le_blockCount_mul chunkBlkSz_pos data.length
  have hnblk : obj.nBlk = obj₀.nBlk := congrArg (·.2.2.2.2.1) hplaced.layout
  rw [List.length_append] at hlen
  refine ⟨hplaced.wrote e now bs, hsummed.wrote (hfits.of_layout hplaced.layout) hle ?_ _ _⟩
  rw [hnblk, hn]
  omega

theorem fsObjWriteAll_uploads {e : Env} {fs₀ fs : Vol} {obj₀ obj : FsObj} {ino : Nat} {d data : Bytes}
    (h : Uploading e fs₀ obj₀ ino fs obj d) (hfits : obj₀.Fits)
    (hn : obj₀.nBlk = blockCount chunkBlkSz data.length) {feed : Feed}
    (hshort : ∀ p ∈ feed, ∀ i, (p.2.2 i).isSome = true)
    (hdata : d ++ (feed.map Prod.fst).flatten <+: data) :
    ∃ fs' obj', fsObjWriteAll e fs obj feed = (.all, fs', obj') ∧
      Uploading e fs₀ obj₀ ino fs' obj' (d ++ (feed.map Prod.fst).flatten) := by
  induction feed generalizing fs obj d with
  | nil => exact ⟨fs, obj, rfl, by simpa using h⟩
  | cons piece feed ih =>
    obtain ⟨ptr, now, write⟩ := piece
    rw [List.map_cons, List.flatten_cons, ← List.append_assoc] at hdata ⊢
    have hpre : d ++ ptr <+: data := (List.prefix_append _ _).trans hdata
    have hstep : ∀ fs obj d bs ino' pos, Uploading e fs₀ obj₀ ino fs obj d →
        obj.outFd = some (ino', pos) → bs ≠ [] → obj.checkedBytes + bs.length ≤ chunkBlkSz →
        d ++ bs <+: data →
        Uploading e fs₀ obj₀ ino (fs.write ino' pos bs now) (obj.wrote e ino' pos bs) (d ++ bs) :=
      fun fs obj d bs ino' pos hu hfd _ hle hp => hu.wrote hfits hn hfd hle hp now
    have hopen : ∀ fs obj d, Uploading e fs₀ obj₀ ino fs obj d →
        obj.outFd.isSome = true ∧ obj.checkedBytes < chunkBlkSz := by
      rintro fs obj d ⟨hp, hs⟩
      rw [hp.fd, hs.checked]
      exact ⟨rfl, Nat.mod_lt _ chunkBlkSz_pos⟩
    have hwrite : ∀ i, (write i).isSome = true := hshort (ptr, now, write) (by simp)
    have hends := fsObjWriteLoop_ends hstep hopen hwrite (i := 0) h hpre le_rfl
    obtain ⟨fs', obj', hw⟩ : ∃ fs' obj', fsObjWrite e now write fs obj ptr = (.all, fs', obj') :=
      ⟨_, _, Prod.ext hends rfl⟩
    have hnext := fsObjWriteLoop_all hstep h hpre hw
    obtain ⟨fs'', obj'', hrest, hu⟩ :=
      ih hnext (fun p hp => hshort p (List.mem_cons_of_mem _ hp)) hdata
    refine ⟨fs'', obj'', ?_, hu⟩
    rw [fsObjWriteAll, hw]
    exact hrest

/-- Data that is fed in any pieces, each written by any short writes, is all written, and a commit succeeds
if no call fails. -/
theorem fsObjNew_uploads {e : Env} {y : Sys} {fs fs₁ : Vol} {tableId : Nat} {key data : Bytes}
    {obj : FsObj} {feed : Feed}
    (hsmall : blockCount chunkBlkSz data.length * chdCsumSz < 2 ^ 32)
    (hfeed : (feed.map Prod.fst).flatten = data)
    (hshort : ∀ p ∈ feed, ∀ i, (p.2.2 i).isSome = true)
    (hnew : fsObjNew e y fs tableId key data.length = (.ok obj, fs₁)) :
    obj.Fits ∧ obj.Laid ∧ obj.nBlk = blockCount chunkBlkSz data.length ∧
      ∃ fs₂ obj₂, fsObjWriteAll e fs₁ obj feed = (.all, fs₂, obj₂) ∧
        Uploading e fs₁ obj fs.next fs₂ obj₂ data ∧
        ∀ (yc : Sys) (user md : Bytes) (sync : Bool), (∀ s, yc.fails s = false) →
          (fsObjWriteCommit e yc fs₂ obj₂ user md sync).1 = true := by
  obtain ⟨fn, -, -, -, rfl, rfl⟩ := fsObjNew_ok hnew
  have hnblk : blockCount chunkBlkSz data.length < 2 ^ 32 := by
    simp only [chdCsumSz] at hsmall
    omega
  have hcount : (FsObj.created y fs.next fn key data.length).nBlk =
      blockCount chunkBlkSz data.length := Nat.mod_eq_of_lt hnblk
  have hbytes : csumBytes (blockCount chunkBlkSz data.length) =
      blockCount chunkBlkSz data.length * chdCsumSz := Nat.mod_eq_of_lt hsmall
  have hfits : (FsObj.created y fs.next fn key data.length).Fits := by
    refine ⟨?_, by rwa [hcount]⟩
    rw [hcount, ← hbytes, ← hcount]
    exact malloc_length ..
  obtain ⟨fs₂, obj₂, hwrites, hplaced, hsummed⟩ := fsObjWriteAll_uploads
    ⟨created_placed y fs fn key data.length, created_summed e y fs.next fn key data.length⟩ hfits
    hcount hshort (by rw [List.nil_append, hfeed])
  rw [List.nil_append, hfeed] at hplaced hsummed
  have hlay := hplaced.layout
  have hsize₂ : obj₂.size = data.length := congrArg (·.2.1) hlay
  obtain ⟨hidx, -⟩ := hsummed.closed_table (hfits.of_layout hlay)
    ((congrArg (·.2.2.2.2.1) hlay).trans hcount)
  refine ⟨hfits, created_laid .., hcount, fs₂, obj₂, hwrites, ⟨hplaced, hsummed⟩,
    fun yc user md sync hcalm => ?_⟩
  have hfd := (closed_outFd e obj₂).trans hplaced.fd
  have hn : (obj₂.closed e).nBlk = obj₂.nBlk := congrArg (·.2.2.2.2.1) (closed_layout e obj₂)
  simp [fsObjWriteCommit, hsize₂, hplaced.written, hidx, hn, hfd, hcalm]

/-- A stored object reads back. Data fed in any pieces to the object that `fs_obj_new` makes, each
written by any short writes, is all written; a commit succeeds if no call fails, and after one that
succeeds the three readers agree with the data. -/
theorem stored_reads_back (e : Env) (y yc : Sys) (fs fs₁ : Vol) (tableId : Nat)
    (key user md data : Bytes) (obj : FsObj) (feed : Feed) (sync : Bool)
    (huser : user.length ≤ chdUserSz ∧ ∀ b ∈ user, b ≠ 0)
    (hsmall : blockCount chunkBlkSz data.length * chdCsumSz < 2 ^ 32)
    (hfeed : (feed.map Prod.fst).flatten = data)
    (hshort : ∀ p ∈ feed, ∀ i, (p.2.2 i).isSome = true) (hmd : md.length = chdCsumSz)
    (hnew : fsObjNew e y fs tableId key data.length = (.ok obj, fs₁)) :
    ∃ fs₂ obj₂, fsObjWriteAll e fs₁ obj feed = (.all, fs₂, obj₂) ∧
      ((∀ s, yc.fails s = false) → (fsObjWriteCommit e yc fs₂ obj₂ user md sync).1 = true) ∧
      ∀ fs₃ obj₃, fsObjWriteCommit e yc fs₂ obj₂ user md sync = (true, fs₃, obj₃) →
        ∃ fn ino hdr, fsObjPathname e false tableId key = some fn ∧ fs₃.lookup fn = some ino ∧
          (fs₃.file ino).data =
            BeFsObjHdr.encode hdr ++ key ++ ((blocks chunkBlkSz data).map e.sha1).flatten ++ data ∧
          hdr = ⟨beFsObjMagic, key.length, data.length, blockCount chunkBlkSz data.length, md,
            user ++ List.replicate (beFsOwnerSz - user.length) 0⟩ ∧
          ∀ yo : Sys, yo.Calm →
            ∃ o, fsObjOpen e yo fs₃ tableId user key = .ok o ∧ o.size = data.length ∧ o.hash = md ∧
              fsObjReadAll e fs₃ yo.reads data.length 0 o.size o = some data ∧
              fsObjDoSum e yo fs₃ fn key.length (csumBytes hdr.nBlk) = some (e.sha1 data) := by
  have hnblk : blockCount chunkBlkSz data.length < 2 ^ 32 := by
    simp only [chdCsumSz] at hsmall
    omega
  have hbytes : csumBytes (blockCount chunkBlkSz data.length) =
      blockCount chunkBlkSz data.length * chdCsumSz := Nat.mod_eq_of_lt hsmall
  obtain ⟨hfits, hlaid₁, hcount, fs₂, obj₂, hwrites, ⟨hplaced, hsummed⟩, hcommits⟩ :=
    fsObjNew_uploads hsmall hfeed hshort hnew
  obtain ⟨fn, hkey, hfn, -, rfl, rfl⟩ := fsObjNew_ok hnew
  have hlay := hplaced.layout
  have hnblk₂ : obj₂.nBlk = blockCount chunkBlkSz data.length :=
    (congrArg (·.2.2.2.2.1) hlay).trans hcount
  have hkey₂ : obj₂.key = key := congrArg Prod.fst hlay
  obtain ⟨-, htable⟩ := hsummed.closed_table (hfits.of_layout hlay) hnblk₂
  refine ⟨fs₂, obj₂, hwrites, hcommits yc user md sync, fun fs₃ obj₃ hcommit => ?_⟩
  have hlaid := hlaid₁.of_layout hlay
  obtain ⟨-, -, hdir, -, hfile, -⟩ := fsObjWriteCommit_ok hplaced hlaid hmd hcommit
  have hhdr : obj₂.hdr user md = ⟨beFsObjMagic, key.length, data.length,
      blockCount chunkBlkSz data.length, md,
      user ++ List.replicate (beFsOwnerSz - user.length) 0⟩ := by
    have hlen : user.length ≤ beFsOwnerSz := huser.1.trans (by decide)
    simp only [FsObj.hdr, hkey₂, hplaced.written, hnblk₂, strncpy, cstr_eq_self huser.2,
      List.take_of_length_le hlen]
  have hlook : fs₃.lookup fn = some fs.next := by
    have h := FileSys.lookup_creat fs fn y.now
    unfold FileSys.lookup at h ⊢
    rwa [hdir]
  rw [hhdr, hkey₂, htable] at hfile
  refine ⟨fn, fs.next, _, hfn, hlook, hfile, rfl, fun yo hcalm => ?_⟩
  have hkeyLen : key.length ≤ chdKeySz := by
    simp only [keyValid, Bool.and_eq_true, decide_eq_true_eq] at hkey
    exact hkey.2
  have hdataLen : data.length ≤ blockCount chunkBlkSz data.length * chunkBlkSz :=
    le_blockCount_mul chunkBlkSz_pos data.length
  have howner : (user ++ List.replicate (beFsOwnerSz - user.length) 0).length = beFsOwnerSz := by
    have hlen : user.length ≤ beFsOwnerSz := huser.1.trans (by decide)
    rw [List.length_append, List.length_replicate]
    omega
  simp only [chunkBlkSz, chdCsumSz, chdKeySz] at hdataLen hsmall hkeyLen
  have hdesc : BeFsObjHdr.Describes ⟨beFsObjMagic, key.length, data.length,
      blockCount chunkBlkSz data.length, md,
      user ++ List.replicate (beFsOwnerSz - user.length) 0⟩ key data :=
    ⟨⟨rfl, by dsimp only; omega, by dsimp only [chunkBlkSz]; omega, hnblk, hmd, howner⟩, rfl, rfl, rfl,
      rfl, hsmall⟩
  have htotal : (objFile e ⟨beFsObjMagic, key.length, data.length,
      blockCount chunkBlkSz data.length, md,
      user ++ List.replicate (beFsOwnerSz - user.length) 0⟩ key data).length < 2 ^ 64 := by
    rw [objFile_length hdesc]
    dsimp only
    rw [hbytes]
    simp only [beFsObjHdrSz, chunkBlkSz, chdCsumSz] at *
    omega
  have hwhole := hfile.trans (List.append_nil _).symm
  refine ⟨_, fsObjOpen_objFile hcalm.fails hkey hfn hlook hwhole hdesc ?_ htotal, rfl, rfl, ?_,
    fsObjDoSum_objFile hcalm hlook hfile hdesc⟩
  · rw [cstr_append_zeros huser.2, cstr_eq_self huser.2]
  · have hfuel : data.length - 0 * chunkBlkSz ≤ data.length := by omega
    have hread := @fsObjReadAll_objFile e _ key data yo fs₃ fs.next (fs₃.file fs.next).mtime hcalm
      hfile hdesc data.length 0 0 hfuel
    simpa [FsObj.at, FsObj.opened] using hread

/-- The string `abc`. -/
def abc : Bytes := [0x61, 0x62, 0x63]

/-- The digests of `abc`, `k` and `z`; other strings have zeros here. -/
def Env.sample : Env where
  sha1 bs :=
    if bs = abc then
      [169, 153, 62, 54, 71, 6, 129, 106, 186, 62, 37, 113, 120, 80, 194, 108, 156, 208, 216, 157]
    else List.replicate chdCsumSz 0
  sha1_length bs := by split <;> rfl
  sha256 bs :=
    if bs = [0x6b] then
      [130, 84, 195, 41, 169, 40, 80, 246, 213, 57, 221, 55, 111, 72, 22, 238, 39, 100, 81, 125, 165,
        224, 35, 85, 20, 175, 67, 49, 100, 72, 13, 122]
    else if bs = [0x7a] then
      [89, 78, 81, 154, 228, 153, 49, 43, 41, 67, 59, 125, 216, 169, 127, 240, 104, 222, 252, 186,
        151, 85, 182, 213, 208, 14, 132, 197, 36, 214, 123, 6]
    else List.replicate 32 0
  sha256_length bs := by split <;> [rfl; (split <;> rfl)]
  b64hmac _ _ := []
  escape bs := bs
  time2str _ := []

/-- The header of `abc` stored by `u` under the key `k`. -/
def abcHdr : BeFsObjHdr :=
  ⟨beFsObjMagic, 1, 3, 1, Env.sample.sha1 abc, strncpy beFsOwnerSz [0x75]⟩

/-- A system in which all goes well. -/
def Sys.calm : Sys where
  now := 0
  fails _ := false
  reads _ := some sumBuflen
  writes _ _ := some chunkBlkSz
  short := 0
  junk _ := 0

theorem Sys.calm_calm : Sys.calm.Calm := ⟨fun _ => rfl, fun _ => ⟨sumBuflen, rfl, le_rfl⟩⟩

/-- A volume with no objects. -/
def emptyVol : Vol := ⟨.empty, fun _ => ⟨[], 0⟩, 0, List.nodup_nil, by simp [Table.empty]⟩

/-- The string is fed in two pieces, the first written byte by byte. -/
def abcFeed : Feed := [([0x61, 0x62], 1, fun _ => some 1), ([0x63], 2, fun _ => some 5)]

theorem stored_reads_back_abc :
    ∃ fs₂ obj₂ fs₃ obj₃ o,
      fsObjWriteAll .sample (fsObjNew .sample .calm emptyVol 1 [0x6b] 3).2
        (.created .calm 0 ⟨1, Env.sample.sha256 [0x6b]⟩ [0x6b] 3) abcFeed = (.all, fs₂, obj₂) ∧
      fsObjWriteCommit .sample .calm fs₂ obj₂ [0x75] (Env.sample.sha1 abc) true =
        (true, fs₃, obj₃) ∧
      fsObjOpen .sample .calm fs₃ 1 [0x75] [0x6b] = .ok o ∧
      fsObjReadAll .sample fs₃ Sys.calm.reads 3 0 3 o = some abc := by
  obtain ⟨fs₂, obj₂, hwrites, hcommits, hreads⟩ := stored_reads_back .sample .calm .calm emptyVol
    (fsObjNew .sample .calm emptyVol 1 [0x6b] 3).2 1 [0x6b] [0x75] (Env.sample.sha1 abc) abc
    (.created .calm 0 ⟨1, Env.sample.sha256 [0x6b]⟩ [0x6b] 3) abcFeed true (by decide +kernel) (by decide +kernel)
    (by decide +kernel) (by simp [abcFeed]) (by decide) rfl
  have hcommit := hcommits fun _ => rfl
  obtain ⟨fn, ino, hdr, -, -, -, -, hopen⟩ := hreads _ _ (Prod.ext hcommit rfl)
  obtain ⟨o, ho, hsize, -, hread, -⟩ := hopen .calm Sys.calm_calm
  rw [hsize] at hread
  exact ⟨fs₂, obj₂, _, _, o, hwrites, Prod.ext hcommit rfl, ho, hread⟩

end Hail.Chunkd
