import Hail.Chunkd.ReadBack
import Hail.Library.Run

/-!
# The table of checksums

The block count has 32 bits, and so has the size of the table computed from it. The table has an entry
for each block, and all that is stored in it and looked up in it lies inside, for data of fewer than
`2 ^ 32 / 20` blocks and no other.
-/
namespace Hail.Chunkd

open Library

/-! ## Stores -/

/-- A call of `fs_obj_write`, whatever becomes of it. -/
def writeStep (e : Env) (s : Vol × FsObj) (p : Bytes × Nat × (Nat → Option Nat)) : Vol × FsObj :=
  (fsObjWrite e p.2.1 p.2.2 s.1 s.2 p.1).2

/-- Nothing is stored behind the table by any calls of `fs_obj_write`, nor by the commit after them. -/
def StoresInside (e : Env) (fs : Vol) (obj : FsObj) : Prop :=
  ∀ feed : Feed, ((run (writeStep e) (fs, obj) feed).2.closed e).csumTbl.overrun = false

/-- What every `write` keeps, a loop of them keeps, however it ends. -/
theorem fsObjWriteLoop_keeps {e : Env} {P : FsObj → Prop}
    (hwrote : ∀ obj ino pos bs, P obj → P (obj.wrote e ino pos bs)) {now : Nat}
    {write : Nat → Option Nat} {fuel i : Nat} {fs : Vol} {obj : FsObj} {ptr : Bytes} (h : P obj) :
    P (fsObjWriteLoop e now write fuel i fs obj ptr).2.2 := by
  induction fuel generalizing i fs obj ptr with
  | zero => exact h
  | succ fuel ih =>
    simp only [fsObjWriteLoop]
    split
    · exact h
    · split
      · split
        · exact h
        · exact ih (hwrote _ _ _ _ h)
      · exact h

/-- Entries of a table that fits lie inside it. -/
theorem objFlushCsum_inside {e : Env} {obj : FsObj} (hfits : obj.Fits)
    (h : obj.csumTbl.overrun = false) : (objFlushCsum e obj).csumTbl.overrun = false := by
  obtain ⟨hlen, hlt⟩ := hfits
  unfold objFlushCsum
  split
  · exact h
  · next hidx =>
    have hle : (obj.csumIdx + 1) * chdCsumSz ≤ obj.nBlk * chdCsumSz :=
      Nat.mul_le_mul_right _ (by omega)
    rw [Nat.add_mul, Nat.one_mul] at hle
    have hmod : obj.csumIdx * chdCsumSz % 2 ^ 32 = obj.csumIdx * chdCsumSz :=
      Nat.mod_eq_of_lt (by omega)
    simp only [Buffer.write, h, e.sha1_length, hmod, hlen, Bool.false_or, decide_eq_false_iff_not]
    omega

theorem Fits.storesInside {e : Env} {obj : FsObj} (hfits : obj.Fits)
    (h : obj.csumTbl.overrun = false) (fs : Vol) : StoresInside e fs obj := by
  intro feed
  have hwrote : ∀ (x : FsObj) ino pos bs, x.Fits ∧ x.csumTbl.overrun = false →
      (x.wrote e ino pos bs).Fits ∧ (x.wrote e ino pos bs).csumTbl.overrun = false := by
    rintro x ino pos bs ⟨hf, ho⟩
    refine ⟨hf.of_layout (wrote_layout ..), ?_⟩
    unfold FsObj.wrote
    dsimp only
    split
    · exact objFlushCsum_inside (hf.of_layout rfl) ho
    · exact ho
  obtain ⟨hf, ho⟩ := @run_invariant _ _ (writeStep e) (fs, obj)
    (fun s => s.2.Fits ∧ s.2.csumTbl.overrun = false) ⟨hfits, h⟩
    (fun s p hs => fsObjWriteLoop_keeps hwrote hs) feed
  unfold FsObj.closed
  split
  · exact objFlushCsum_inside hf ho
  · exact ho

/-! ## Lookups -/

/-- A call on an object that is open for reading. -/
inductive ReadOp where
  | read (fs : Vol) (read : Option Nat) (len : Nat)
  | seek (y : Sys) (relOfs : Nat)

def readStep (e : Env) (obj : FsObj) : ReadOp → FsObj
  | .read fs read len => (fsObjRead e fs read obj len).2
  | .seek y relOfs => (fsObjSeek y obj relOfs).getD obj

/-- The places in the table with which `fs_obj_read` compares the sums of the `rc` bytes it has
read. -/
def FsObj.lookups (obj : FsObj) (rc : Nat) : List Nat :=
  if canCsumRange obj rc then
    let curBlk := fsBlkCount obj.inPos
    (List.range ((curBlk + fsBlkCount rc) % 2 ^ 32 - curBlk)).map fun k =>
      (curBlk + k) * chdCsumSz % 2 ^ 32
  else []

/-- Every lookup that any calls lead to is inside the table. -/
def LookupsInside (e : Env) (obj : FsObj) : Prop :=
  ∀ ops rc, ∀ place ∈ (run (readStep e) obj ops).lookups rc,
    place + chdCsumSz ≤ (run (readStep e) obj ops).csumTbl.data.length

/-- What reading leaves as it is. -/
def FsObj.contents (obj : FsObj) : Nat × Nat × Nat × Bytes :=
  (obj.tailPos, obj.tailLen, obj.nBlk, obj.csumTbl.data)

theorem fsObjRead_contents (e : Env) (fs : Vol) (read : Option Nat) (obj : FsObj) (len : Nat) :
    (fsObjRead e fs read obj len).2.contents = obj.contents := by
  unfold fsObjRead
  split
  · dsimp only
    split
    · rfl
    · split <;> rfl
  · rfl

theorem fsObjSeek_contents {y : Sys} {obj obj' : FsObj} {relOfs : Nat}
    (h : fsObjSeek y obj relOfs = some obj') : obj'.contents = obj.contents := by
  unfold fsObjSeek at h
  split at h
  · cases h
  · dsimp only at h
    split at h
    · cases h
    · cases h
      rfl

theorem readStep_contents (e : Env) (obj : FsObj) (op : ReadOp) :
    (readStep e obj op).contents = obj.contents := by
  cases op with
  | read fs read len => exact fsObjRead_contents ..
  | seek y relOfs =>
    cases h : fsObjSeek y obj relOfs with
    | none => simp [readStep, h]
    | some obj' => simpa [readStep, h] using fsObjSeek_contents h

/-- The blocks of a range that can be checked are blocks of the data. -/
theorem range_blocks {obj : FsObj} {rc : Nat} (h : canCsumRange obj rc = true)
    (hn : obj.nBlk = blockCount chunkBlkSz (obj.tailPos + obj.tailLen)) :
    blockCount chunkBlkSz obj.inPos + blockCount chunkBlkSz rc ≤ obj.nBlk := by
  unfold canCsumRange at h
  dsimp only at h
  split at h
  · cases h
  · split at h
    · cases h
    · next halign =>
      split at h
      · cases h
      · next hend =>
        simp only [Bool.or_eq_true, decide_eq_true_eq] at h
        rw [hn]
        simp only [blockCount_eq_ceil chunkBlkSz_pos]
        simp only [chunkBlkSz] at *
        omega

theorem Fits.lookupsInside {e : Env} {obj : FsObj} (hfits : obj.Fits)
    (hn : obj.nBlk = blockCount chunkBlkSz (obj.tailPos + obj.tailLen)) : LookupsInside e obj := by
  intro ops rc place hplace
  have hkeep := @run_invariant _ _ (readStep e) obj (fun x => x.contents = obj.contents)
    rfl (fun x op hx => (readStep_contents e x op).trans hx) ops
  generalize run (readStep e) obj ops = x at hplace hkeep ⊢
  simp only [FsObj.contents, Prod.mk.injEq] at hkeep
  obtain ⟨hpos, hlen, hnblk, htbl⟩ := hkeep
  unfold FsObj.lookups at hplace
  split at hplace
  · next hcan =>
    obtain ⟨k, hk, rfl⟩ := List.mem_map.mp hplace
    have hblocks := range_blocks hcan (by rw [hpos, hlen, hnblk, hn])
    have hk' := List.mem_range.mp hk
    obtain ⟨hsize, hlt⟩ := hfits
    rw [htbl, hsize]
    rw [hnblk] at hblocks
    simp only [fsBlkCount, chdCsumSz] at *
    omega
  · cases hplace

/-! ## The size of the table -/

theorem csumBytes_exact {n : Nat} :
    csumBytes (n % 2 ^ 32) = n * chdCsumSz ↔ n * chdCsumSz < 2 ^ 32 := by
  unfold csumBytes chdCsumSz
  omega

theorem fsObjOpen_ok {e : Env} {y : Sys} {fs : Vol} {tableId : Nat} {user key : Bytes} {obj : FsObj}
    (h : fsObjOpen e y fs tableId user key = .ok obj) :
    ∃ fn ino hdr csums, keyValid key = true ∧ fsObjPathname e false tableId key = some fn ∧
      fs.lookup fn = some ino ∧
      hdr = .ofBytes ((fs.file ino).data.take beFsObjHdrSz) ∧ hdr.magic = beFsObjMagic ∧
      cstr hdr.owner = cstr user ∧ hdr.keyLen = key.length ∧
      (beFsObjHdrSz + key.length + csumBytes hdr.nBlk + hdr.valueLen) % 2 ^ 64 ≤
        (fs.file ino).data.length ∧
      fsBlkCount hdr.valueLen = hdr.nBlk ∧
      ((fs.file ino).data.drop beFsObjHdrSz).take (key.length + csumBytes hdr.nBlk) = key ++ csums ∧
      csums.length = csumBytes hdr.nBlk ∧
      obj = .opened hdr ino key csums (fs.file ino).mtime := by
  unfold fsObjOpen at h
  split at h
  · cases h
  · next hkey =>
    split at h
    · cases h
    · split at h
      · cases h
      · next fn hfn =>
        split at h
        · cases h
        · split at h
          · cases h
          · next ino hino =>
            split at h
            · cases h
            · split at h
              · cases h
              · unfold fsObjOpenHdr at h
                dsimp only at h
                split at h
                · cases h
                · next hmagic =>
                  split at h
                  · cases h
                  · next howner =>
                    split at h
                    · cases h
                    · next hkeyLen =>
                      split at h
                      · cases h
                      · next hsize =>
                        split at h
                        · cases h
                        · next hblk =>
                          split at h
                          · cases h
                          · split at h
                            · cases h
                            · next hrest =>
                              cases h
                              rw [not_or, not_or, not_not, not_not] at hrest
                              obtain ⟨-, hlen, hk⟩ := hrest
                              refine ⟨fn, ino, _, _, by simpa using hkey, fsObjPathname_some hfn, hino,
                                rfl, not_not.mp hmagic, not_not.mp howner, not_not.mp hkeyLen,
                                not_lt.mp hsize, not_not.mp hblk, ?_, ?_, rfl⟩
                              · conv_rhs => lhs; rw [← hk]
                                exact (List.take_append_drop _ _).symm
                              · rw [List.length_drop, hlen]
                                omega

/-- The table of an object that `fs_obj_new` or `fs_obj_open` accepts has its size, and all stores and
lookups are inside, if and only if the size fits 32 bits. -/
theorem table_exact_iff (e : Env) (y : Sys) (fs : Vol) (tableId : Nat) (user key : Bytes)
    (dataLen : Nat) (obj : FsObj) :
    (∀ fs', fsObjNew e y fs tableId key dataLen = (.ok obj, fs') →
      ((obj.csumTbl.data.length = blockCount chunkBlkSz dataLen * chdCsumSz ∧
          StoresInside e fs' obj) ↔ blockCount chunkBlkSz dataLen * chdCsumSz < 2 ^ 32)) ∧
    (fsObjOpen e y fs tableId user key = .ok obj →
      ((obj.csumTbl.data.length = blockCount chunkBlkSz obj.size * chdCsumSz ∧
          LookupsInside e obj) ↔ blockCount chunkBlkSz obj.size * chdCsumSz < 2 ^ 32)) := by
  constructor
  · intro fs' hnew
    obtain ⟨fn, -, -, -, rfl, rfl⟩ := fsObjNew_ok hnew
    have hlen : (FsObj.created y fs.next fn key dataLen).csumTbl.data.length =
        csumBytes (fsBlkCount dataLen) := malloc_length ..
    rw [hlen, fsBlkCount, csumBytes_exact]
    refine ⟨And.left, fun hsmall => ⟨hsmall, ?_⟩⟩
    refine Fits.storesInside ?_ rfl _
    have hn : (FsObj.created y fs.next fn key dataLen).nBlk = blockCount chunkBlkSz dataLen := by
      refine Nat.mod_eq_of_lt ?_
      simp only [chdCsumSz] at hsmall
      omega
    rw [FsObj.Fits, hlen, hn, fsBlkCount, csumBytes_exact]
    exact ⟨hsmall, hsmall⟩
  · intro hopen
    obtain ⟨fn, ino, hdr, csums, -, -, -, -, -, -, -, -, hblk, -, hcsums, rfl⟩ := fsObjOpen_ok hopen
    change (csums.length = blockCount chunkBlkSz hdr.valueLen * chdCsumSz ∧ _) ↔ _
    rw [hcsums, ← hblk, fsBlkCount, csumBytes_exact]
    refine ⟨And.left, fun hsmall => ⟨hsmall, ?_⟩⟩
    change blockCount chunkBlkSz hdr.valueLen * chdCsumSz < 2 ^ 32 at hsmall
    have hn : hdr.nBlk = blockCount chunkBlkSz hdr.valueLen := by
      rw [← hblk]
      refine Nat.mod_eq_of_lt ?_
      simp only [chdCsumSz] at hsmall
      omega
    refine Fits.lookupsInside ⟨?_, ?_⟩ ?_
    · change csums.length = hdr.nBlk * chdCsumSz
      rw [hcsums, ← hblk, fsBlkCount, csumBytes_exact.mpr hsmall, ← fsBlkCount, hblk, hn]
    · change hdr.nBlk * chdCsumSz < 2 ^ 32
      rwa [hn]
    · change hdr.nBlk = blockCount chunkBlkSz
        (hdr.valueLen / chunkBlkSz * chunkBlkSz + hdr.valueLen % chunkBlkSz)
      rw [hn, Nat.mul_comm, Nat.div_add_mod]

/-- The objects of the string `abc`. -/
theorem table_exact_iff_abc :
    (FsObj.created .calm 0 ⟨1, Env.sample.sha256 [0x6b]⟩ [0x6b] 3).csumTbl.data.length = 20 ∧
    StoresInside .sample (emptyVol.creat ⟨1, Env.sample.sha256 [0x6b]⟩ 0)
      (.created .calm 0 ⟨1, Env.sample.sha256 [0x6b]⟩ [0x6b] 3) := by
  have h := (table_exact_iff .sample .calm emptyVol 1 [0x75] [0x6b] 3
    (.created .calm 0 ⟨1, Env.sample.sha256 [0x6b]⟩ [0x6b] 3)).1 _ rfl
  exact ⟨by decide, (h.mpr (by decide)).2⟩

/-- A whole block written to an object at the beginning of one. -/
theorem fsObjWrite_block {e : Env} {now ino pos : Nat} {write : Nat → Option Nat} {fs : Vol}
    {obj : FsObj} {ptr : Bytes} (hfd : obj.outFd = some (ino, pos)) (hchk : obj.checkedBytes = 0)
    (hw : write 0 = some chunkBlkSz) (hlen : ptr.length = chunkBlkSz) :
    fsObjWrite e now write fs obj ptr =
      (.all, fs.write ino pos ptr now, obj.wrote e ino pos ptr) := by
  have hne : ptr ≠ [] := by
    rw [← List.length_pos_iff, hlen]
    exact chunkBlkSz_pos
  have hmin : min chunkBlkSz (max 1 chunkBlkSz) = chunkBlkSz := by simp [chunkBlkSz]
  have htake : ptr.take chunkBlkSz = ptr := List.take_of_length_le hlen.le
  have hdrop : ptr.drop ptr.length = [] := List.drop_length
  obtain ⟨n, hn⟩ : ∃ n, ptr.length = n + 1 := ⟨chunkBlkSz - 1, by rw [hlen]; rfl⟩
  unfold fsObjWrite
  rw [hn]
  simp only [fsObjWriteLoop, hne, if_false, hfd, hw, hchk, hlen, Nat.sub_zero, min_self, hmin, htake,
    if_neg chunkBlkSz_pos.ne']
  rw [← hlen, hdrop]
  cases n <;> simp [fsObjWriteLoop]

/-- The checksum of the first block does not fit a table that is shorter than it. -/
theorem first_block_overruns (e : Env) (obj : FsObj) (ino pos : Nat) {bs : Bytes}
    (hlen : bs.length = chunkBlkSz) (hchk : obj.checkedBytes = 0) (hidx : obj.csumIdx = 0)
    (hn : 0 < obj.nBlk) (htbl : obj.csumTbl.data.length < chdCsumSz) :
    (obj.wrote e ino pos bs).csumTbl.overrun = true ∧
      (obj.wrote e ino pos bs).checkedBytes = 0 := by
  have hflush : ∀ x : FsObj, x.csumIdx = 0 → 0 < x.nBlk → x.csumTbl.data.length < chdCsumSz →
      (objFlushCsum e x).csumTbl.overrun = true ∧ (objFlushCsum e x).checkedBytes = 0 := by
    intro x hi hpos ht
    have hlate : ¬ x.nBlk ≤ x.csumIdx := by omega
    unfold objFlushCsum
    rw [if_neg hlate]
    simp [hi, Buffer.write, e.sha1_length, ht]
  unfold FsObj.wrote
  simp only [hchk, hlen, Nat.zero_add, if_true]
  exact hflush _ hidx hn htbl

theorem not_storesInside (e : Env) (fs : Vol) {obj : FsObj} {ino pos : Nat}
    (hfd : obj.outFd = some (ino, pos)) (hchk : obj.checkedBytes = 0) (hidx : obj.csumIdx = 0)
    (hn : 0 < obj.nBlk) (htbl : obj.csumTbl.data.length < chdCsumSz) : ¬ StoresInside e fs obj := by
  intro h
  have hlen : (List.replicate chunkBlkSz (0 : UInt8)).length = chunkBlkSz := List.length_replicate
  have hfeed := h [(List.replicate chunkBlkSz 0, 0, fun _ => some chunkBlkSz)]
  obtain ⟨hover, hdone⟩ := first_block_overruns e obj ino pos hlen hchk hidx hn htbl
  simp only [run, writeStep] at hfeed
  rw [fsObjWrite_block hfd hchk rfl hlen] at hfeed
  dsimp only at hfeed
  rw [FsObj.closed, if_neg (by omega), hover] at hfeed
  cases hfeed

/-- Data of 214748365 blocks, the number of whose checksum bytes is 4 more than `2 ^ 32`. -/
def hugeLen : Nat := 214748365 * 65536

/-- The table has 4 bytes, and the first checksum is stored behind it. -/
theorem hugeLen_overruns :
    ∃ obj fs', fsObjNew .sample .calm emptyVol 1 [0x6b] hugeLen = (.ok obj, fs') ∧
      obj.csumTbl.data.length = 4 ∧
      blockCount chunkBlkSz hugeLen * chdCsumSz = 2 ^ 32 + 4 ∧
      ¬ StoresInside .sample fs' obj := by
  have hlen : (FsObj.created .calm 0 ⟨1, Env.sample.sha256 [0x6b]⟩ [0x6b]
      hugeLen).csumTbl.data.length = 4 := malloc_length ..
  exact ⟨_, _, rfl, hlen, by decide,
    not_storesInside .sample _ rfl rfl rfl (by decide) (hlen.trans_lt (by decide))⟩

end Hail.Chunkd
