import Hail.Chunkd.Daemon
import Hail.Chunkd.Login
import Hail.Chunkd.Sums
import Hail.Library.Changes

/-!
# Uploads

The file of an upload has its name from the beginning, but no header before the commit: until then no
reader takes it for an object. What a step of a connection does to the store is told by the objects
alone: it stores one, removes one or changes none.
-/
namespace Hail.Chunkd

open Library

/-! ## Files without a header -/

/-- A file that does not begin with `BE_FS_OBJ_MAGIC`, and never will if it grows behind its header. -/
def Blank (data : Bytes) : Prop := ∀ b ∈ data.take 4, b = 0

theorem Blank.unmarked {data : Bytes} (h : Blank data) : data.take 4 ≠ beFsObjMagic := by
  intro heq
  have hc := h 0x43 (by rw [heq]; decide)
  cases hc

theorem Blank.writeAt {data : Bytes} (h : Blank data) {pos : Nat} (hpos : beFsObjHdrSz ≤ pos)
    (bs : Bytes) : Blank (writeAt data pos bs) := by
  unfold Library.writeAt
  split
  · exact h
  · intro b hb
    have hlen : 4 ≤ (data.take pos ++ List.replicate (pos - data.length) (0 : UInt8)).length := by
      simp only [beFsObjHdrSz] at hpos
      simp
      omega
    rw [List.append_assoc, List.take_append_of_le_length hlen, List.take_append, List.take_take,
      List.mem_append] at hb
    rcases hb with hb | hb
    · exact h b (List.take_subset_take_left _ (Nat.min_le_left ..) hb)
    · exact List.eq_of_mem_replicate (List.mem_of_mem_take hb)

/-- An object that is being written: its file has its name, and is written behind the header. -/
structure FsObj.Opened (obj : FsObj) (fs : Vol) (fn : Path) (ino : Nat) : Prop where
  outFn : obj.outFn = some fn
  lookup : fs.lookup fn = some ino
  outFd : ∃ pos, obj.outFd = some (ino, pos) ∧ beFsObjHdrSz ≤ pos
  blank : Blank (fs.file ino).data

theorem layout_outFn {a b : FsObj} (h : a.layout = b.layout) : a.outFn = b.outFn := by
  simp only [FsObj.layout, Prod.mk.injEq] at h
  exact h.2.2.1

theorem FsObj.Opened.wrote {obj : FsObj} {fs : Vol} {fn : Path} {ino ino' pos : Nat}
    (h : obj.Opened fs fn ino) (hfd : obj.outFd = some (ino', pos)) (e : Env) (bs : Bytes) (now : Nat) :
    ino' = ino ∧ (obj.wrote e ino' pos bs).Opened (fs.write ino' pos bs now) fn ino := by
  obtain ⟨pos', hfd', hpos⟩ := h.outFd
  obtain ⟨rfl, rfl⟩ := Prod.mk.inj (Option.some.inj (hfd.symm.trans hfd'))
  refine ⟨rfl, ⟨(layout_outFn (wrote_layout ..)).trans h.outFn, h.lookup,
    ⟨_, (wrote_out e obj ino' pos bs).1, hpos.trans (Nat.le_add_right ..)⟩, ?_⟩⟩
  rw [FileSys.data_write]
  exact h.blank.writeAt hpos bs

/-- What every `write` keeps of the volume and the object, a loop of them keeps, however it ends. -/
theorem fsObjWriteLoop_any {e : Env} {P : Vol → FsObj → Prop} {now : Nat}
    (hwrote : ∀ fs obj ino pos bs, P fs obj → obj.outFd = some (ino, pos) →
      P (fs.write ino pos bs now) (obj.wrote e ino pos bs))
    {write : Nat → Option Nat} {fuel i : Nat} {fs : Vol} {obj : FsObj} {ptr : Bytes} (h : P fs obj) :
    P (fsObjWriteLoop e now write fuel i fs obj ptr).2.1
      (fsObjWriteLoop e now write fuel i fs obj ptr).2.2 := by
  induction fuel generalizing i fs obj ptr with
  | zero => exact h
  | succ fuel ih =>
    simp only [fsObjWriteLoop]
    split
    · exact h
    · split
      · next ino pos bound hfd _ =>
        split
        · exact h
        · exact ih (hwrote _ _ _ _ _ h hfd)
      · exact h

theorem fsObjWrite_opened {e : Env} {now : Nat} {write : Nat → Option Nat} {fs fs' : Vol}
    {obj obj' : FsObj} {bs : Bytes} {r : WriteEnd} {fn : Path} {ino : Nat}
    (h : obj.Opened fs fn ino) (hwrite : fsObjWrite e now write fs obj bs = (r, fs', obj')) :
    FileSys.Touches fn fs fs' ∧ obj'.Opened fs' fn ino := by
  have hany := @fsObjWriteLoop_any e (fun fs' obj' => FileSys.Touches fn fs fs' ∧ obj'.Opened fs' fn ino)
    now ?_ write bs.length 0 fs obj bs ⟨.refl fn fs, h⟩
  · rw [show fsObjWriteLoop e now write bs.length 0 fs obj bs = _ from hwrite] at hany
    exact hany
  · rintro fs' obj' ino' pos bs' ⟨ht, ho⟩ hfd
    obtain ⟨rfl, ho'⟩ := ho.wrote hfd e bs' now
    exact ⟨ht.trans (FileSys.touches_write ho.lookup pos bs' now), ho'⟩

/-! ## What has been uploaded -/

/-- Of the object of a key, `d` has been written, and the blocks of it are summed. -/
structure Upload (e : Env) (fs : Vol) (tableId : Nat) (key : Bytes) (bo : FsObj) (ino : Nat)
    (d : Bytes) : Prop where
  opened : bo.Opened fs ⟨tableId, e.sha256 key⟩ ino
  placed : Placed fs bo ino fs bo d
  keyLen : key.length ≤ chdKeySz
  key : bo.key = key
  laid : bo.Laid
  fits : bo.Fits
  nBlk : bo.nBlk = blockCount chunkBlkSz bo.size
  summed : d.length ≤ bo.size → Summed e bo d

section

variable {e : Env} {fs fs' : Vol} {tableId ino : Nat} {key d : Bytes} {bo bo' : FsObj}

theorem pathname_eq {fn : Path} (h : fsObjPathname e false tableId key = some fn) :
    fn = ⟨tableId, e.sha256 key⟩ := by
  unfold fsObjPathname at h
  split at h
  · cases h
  · exact (Option.some.inj h).symm

/-- Nobody else touches the file. -/
theorem FsObj.Opened.kept {fn q : Path} (h : bo.Opened fs fn ino) (ht : FileSys.Touches q fs fs')
    (hq : fn ≠ q) : bo.Opened fs' fn ino :=
  ⟨h.outFn, (ht.lookup fn hq).trans h.lookup, h.outFd, by
    rw [ht.file fn hq ino h.lookup]
    exact h.blank⟩

theorem Upload.kept {q : Path} (h : Upload e fs tableId key bo ino d) (ht : FileSys.Touches q fs fs')
    (hq : (⟨tableId, e.sha256 key⟩ : Path) ≠ q) : Upload e fs' tableId key bo ino d where
  opened := h.opened.kept ht hq
  placed := ⟨rfl, rfl, fun _ _ => rfl, h.placed.fd, by
    rw [ht.file _ hq ino h.opened.lookup]
    exact h.placed.data, h.placed.written⟩
  keyLen := h.keyLen
  key := h.key
  laid := h.laid
  fits := h.fits
  nBlk := h.nBlk
  summed := h.summed

theorem fsObjNew_upload {y : Sys} {dataLen : Nat} (hsmall : blockCount chunkBlkSz dataLen * chdCsumSz < 2 ^ 32)
    (h : fsObjNew e y fs tableId key dataLen = (.ok bo, fs')) :
    fs.lookup ⟨tableId, e.sha256 key⟩ = none ∧
      FileSys.Touches ⟨tableId, e.sha256 key⟩ fs fs' ∧ Upload e fs' tableId key bo fs.next [] := by
  obtain ⟨fn, hkey, hfn, hnone, rfl, rfl⟩ := fsObjNew_ok h
  obtain rfl := pathname_eq hfn
  have hnblk : blockCount chunkBlkSz dataLen < 2 ^ 32 := by
    simp only [chdCsumSz] at hsmall
    omega
  have hcount : (FsObj.created y fs.next ⟨tableId, e.sha256 key⟩ key dataLen).nBlk =
      blockCount chunkBlkSz dataLen := Nat.mod_eq_of_lt hnblk
  refine ⟨hnone, FileSys.touches_creat _, ⟨⟨rfl, FileSys.lookup_creat .., ⟨_, rfl, ?_⟩, ?_⟩,
    created_placed .., ?_, rfl, created_laid .., ⟨?_, ?_⟩, hcount, fun _ => created_summed ..⟩⟩
  · rw [Nat.add_assoc]
    exact Nat.le_add_right ..
  · rw [FileSys.data_creat]
    intro b hb
    cases hb
  · simp only [keyValid, Bool.and_eq_true, decide_eq_true_eq] at hkey
    exact hkey.2
  · have hbytes : csumBytes (blockCount chunkBlkSz dataLen) =
        blockCount chunkBlkSz dataLen * chdCsumSz := Nat.mod_eq_of_lt hsmall
    rw [hcount, ← hbytes, ← hcount]
    exact malloc_length ..
  · rwa [hcount]

/-- An error of `fs_obj_new` leaves no file behind. -/
theorem fsObjNew_error {y : Sys} {dataLen : Nat} {err : ChunkErrcode}
    (h : fsObjNew e y fs tableId key dataLen = (.error err, fs')) :
    fs' = fs ∨ fs.lookup ⟨tableId, e.sha256 key⟩ = none ∧
      FileSys.Touches ⟨tableId, e.sha256 key⟩ fs fs' ∧ fs'.content ⟨tableId, e.sha256 key⟩ = none := by
  unfold fsObjNew at h
  split at h
  · exact .inl (Prod.mk.inj h).2.symm
  · split at h
    · exact .inl (Prod.mk.inj h).2.symm
    · split at h
      · exact .inl (Prod.mk.inj h).2.symm
      · split at h
        · exact .inl (Prod.mk.inj h).2.symm
        · next fn hfn =>
          obtain rfl := pathname_eq (fsObjPathname_some hfn)
          split at h
          · exact .inl (Prod.mk.inj h).2.symm
          · split at h
            · exact .inl (Prod.mk.inj h).2.symm
            · next hnone =>
              dsimp only at h
              split at h
              · obtain ⟨-, rfl⟩ := Prod.mk.inj h
                exact .inr ⟨by simpa using hnone,
                  (FileSys.touches_creat _).trans (FileSys.touches_unlink _ _), FileSys.content_unlink _ _⟩
              · cases (Prod.mk.inj h).1

/-- All of `bs` has been written. -/
theorem Upload.wrote {now : Nat} {write : Nat → Option Nat} {bs : Bytes}
    (h : Upload e fs tableId key bo ino d)
    (hwrite : fsObjWrite e now write fs bo bs = (.all, fs', bo')) :
    Upload e fs' tableId key bo' ino (d ++ bs) := by
  let I := fun (fs' : Vol) (bo' : FsObj) (d' : Bytes) => Placed fs bo ino fs' bo' d' ∧
    (d'.length ≤ bo.size → Summed e bo' d')
  have hstep : ∀ fs' bo' d' bs' ino' pos, I fs' bo' d' → bo'.outFd = some (ino', pos) → bs' ≠ [] →
      bo'.checkedBytes + bs'.length ≤ chunkBlkSz → d' ++ bs' <+: d ++ bs →
      I (fs'.write ino' pos bs' now) (bo'.wrote e ino' pos bs') (d' ++ bs') := by
    rintro fs' bo' d' bs' ino' pos ⟨hp, hs⟩ hfd - hle -
    obtain ⟨rfl, rfl⟩ := Prod.mk.inj (Option.some.inj (hfd.symm.trans hp.fd))
    refine ⟨hp.wrote e now bs', fun hlen => ?_⟩
    have hcount := le_blockCount_mul chunkBlkSz_pos bo.size
    have hnblk : bo'.nBlk = bo.nBlk := congrArg (·.2.2.2.2.1) hp.layout
    rw [List.length_append] at hlen
    refine (hs (by omega)).wrote (h.fits.of_layout hp.layout) hle ?_ _ _
    rw [hnblk, h.nBlk]
    omega
  obtain ⟨hp, hs⟩ := fsObjWriteLoop_all hstep ⟨h.placed, h.summed⟩ List.prefix_rfl hwrite
  have hsize : bo'.size = bo.size := congrArg (·.2.1) hp.layout
  have hnblk : bo'.nBlk = bo.nBlk := congrArg (·.2.2.2.2.1) hp.layout
  refine ⟨(fsObjWrite_opened h.opened hwrite).2, ⟨rfl, rfl, fun _ _ => rfl, hp.fd, hp.data, hp.written⟩,
    h.keyLen, (congrArg Prod.fst hp.layout).trans h.key, h.laid.of_layout hp.layout,
    h.fits.of_layout hp.layout, ?_, ?_⟩
  · rw [hnblk, hsize]
    exact h.nBlk
  · rw [hsize]
    exact hs

/-- The header of `d`, stored under a key by a user. -/
def storedHdr (e : Env) (key user d : Bytes) : BeFsObjHdr where
  magic := beFsObjMagic
  keyLen := key.length
  valueLen := d.length
  nBlk := blockCount chunkBlkSz d.length
  hash := e.sha1 d
  owner := strncpy beFsOwnerSz user

/-- The file of `d`. -/
def storedFile (e : Env) (key user d : Bytes) : Bytes := objFile e (storedHdr e key user d) key d

/-- A commit that succeeds leaves the whole file. -/
theorem Upload.committed {y : Sys} {user : Bytes} {sync : Bool}
    (h : Upload e fs tableId key bo ino d)
    (hcommit : fsObjWriteCommit e y fs bo user (e.sha1 d) sync = (true, fs', bo')) :
    FileSys.Touches ⟨tableId, e.sha256 key⟩ fs fs' ∧
      fs'.content ⟨tableId, e.sha256 key⟩ = some (storedFile e key user d) ∧
      bo'.outFn = none ∧ (storedHdr e key user d).Describes key d := by
  obtain ⟨hsize, hidx, hdir, hothers, hfile, hfn⟩ :=
    fsObjWriteCommit_ok h.placed h.laid (e.sha1_length d) hcommit
  have hnblk : bo.nBlk = blockCount chunkBlkSz d.length := by rw [h.nBlk, hsize]
  obtain ⟨-, htable⟩ := (h.summed hsize.ge).closed_table h.fits hnblk
  have hhdr : bo.hdr user (e.sha1 d) = storedHdr e key user d := by
    simp only [FsObj.hdr, storedHdr, h.key, h.placed.written, hnblk]
  have hlook : fs'.lookup ⟨tableId, e.sha256 key⟩ = some ino := by
    have hl := h.opened.lookup
    unfold FileSys.lookup at hl ⊢
    rwa [hdir]
  rw [hhdr, htable, h.key] at hfile
  refine ⟨⟨fun q _ => ?_, fun q hq j hj => ?_⟩, ?_, hfn, ?_⟩
  · unfold FileSys.lookup
    rw [hdir]
  · refine hothers j ?_
    rintro rfl
    exact hq (FileSys.lookup_inj hj h.opened.lookup)
  · rw [FileSys.content_of_lookup hlook]
    exact congrArg some hfile
  · have hsmall := h.fits.2
    have hlen := le_blockCount_mul chunkBlkSz_pos d.length
    have hkeyLen := h.keyLen
    rw [hnblk] at hsmall
    simp only [chdCsumSz, chunkBlkSz, chdKeySz] at hsmall hlen hkeyLen
    refine ⟨⟨rfl, ?_, ?_, ?_, e.sha1_length d, strncpy_length ..⟩, rfl, rfl, rfl, rfl, hsmall⟩ <;>
      simp only [storedHdr, chunkBlkSz] <;> omega

/-- A commit that fails, with what it may have written. -/
theorem FsObj.Opened.uncommitted {y : Sys} {user md : Bytes} {sync : Bool} {fn : Path}
    (h : bo.Opened fs fn ino) (hcommit : fsObjWriteCommit e y fs bo user md sync = (false, fs', bo')) :
    FileSys.Touches fn fs fs' ∧ bo'.outFn = some fn ∧
      (sync = false → (y.fails .commitWritev = true → y.short = 0) → bo'.Opened fs' fn ino) := by
  have hlay := closed_layout e bo
  have hfn : (bo.closed e).outFn = some fn := (layout_outFn hlay).trans h.outFn
  obtain ⟨pos, hfd, hpos⟩ := h.outFd
  have hfd' : (bo.closed e).outFd = some (ino, pos) := (closed_outFd e bo).trans hfd
  have hclosed : ∀ x : FsObj, x.outFn = some fn → x.outFd = some (ino, pos) → x.Opened fs fn ino :=
    fun x hx hxfd => ⟨hx, h.lookup, ⟨pos, hxfd, hpos⟩, h.blank⟩
  unfold fsObjWriteCommit at hcommit
  split at hcommit
  · obtain ⟨-, rfl, rfl⟩ := by simpa only [Prod.mk.injEq] using hcommit
    exact ⟨.refl _ _, h.outFn, fun _ _ => h⟩
  · dsimp only at hcommit
    split at hcommit
    · obtain ⟨-, rfl, rfl⟩ := by simpa only [Prod.mk.injEq] using hcommit
      exact ⟨.refl _ _, hfn, fun _ _ => hclosed _ hfn hfd'⟩
    · rw [hfd'] at hcommit
      dsimp only at hcommit
      split at hcommit
      · obtain ⟨-, rfl, rfl⟩ := by simpa only [Prod.mk.injEq] using hcommit
        exact ⟨.refl _ _, hfn, fun _ _ => hclosed _ hfn rfl⟩
      · split at hcommit
        · next hw =>
          obtain ⟨-, rfl, rfl⟩ := by simpa only [Prod.mk.injEq] using hcommit
          refine ⟨FileSys.touches_write h.lookup _ _ _, hfn, fun _ hshort => ?_⟩
          rw [hshort hw, List.take_zero]
          refine ⟨hfn, h.lookup, ⟨pos, rfl, hpos⟩, ?_⟩
          rw [FileSys.data_write]
          exact h.blank
        · split at hcommit
          · next hsync =>
            obtain ⟨-, rfl, rfl⟩ := by simpa only [Prod.mk.injEq] using hcommit
            refine ⟨FileSys.touches_write h.lookup _ _ _, hfn, ?_⟩
            rintro rfl
            cases hsync
          · cases (Prod.mk.inj hcommit).1

end

/-! ## What a client can do to the store -/

/-- The name of the file that is being written. -/
def ClientOut.upload (out : ClientOut) : Option Path := out.outBo.bind FsObj.outFn

/-- What the thread of a copy has read and not written yet, while it stores. -/
def CpAt.pending : CpAt → Option Bytes
  | .read | .commit => some []
  | .write bs => some bs
  | _ => none

/-- The name of the object of the key. -/
def Client.path (e : Env) (cli : Client) : Path := ⟨cli.tableId, e.sha256 cli.keyBytes⟩

/-- An upload or a copy at work has written what it has hashed, and no other client writes. -/
structure Client.Stores (e : Env) (fs : Vol) (cli : Client) : Prop where
  opened : ∀ bo, cli.outBo = some bo → ∀ fn, bo.outFn = some fn → ∃ ino, bo.Opened fs fn ino
  quiet : cli.worker = none → cli.state ≠ .dataIn → cli.state ≠ .dispose → cli.outBo = none
  body : cli.worker = none → cli.state = .dataIn → ∃ bo ino, cli.outBo = some bo ∧
    Upload e fs cli.tableId cli.keyBytes bo ino cli.outHash ∧
    ∀ user, cli.outUser = some user → user = cli.user
  idle : ∀ wi, cli.worker = some wi →
    wi.pc = .openSrc ∨ wi.pc = .cache ∨ wi.pc = .create ∨ wi.pc = .signal → cli.outBo = none
  copy : ∀ wi, cli.worker = some wi → ∀ bs, wi.pc.pending = some bs → ∃ bo ino d,
    cli.outBo = some bo ∧ Upload e fs cli.tableId cli.keyBytes bo ino d ∧ cli.outHash = d ++ bs

/-- The contents of a name, unless its file is that of an upload. -/
def shown (fs : Vol) (up : Option Path) (p : Path) : Option Bytes :=
  if up = some p then none else fs.content p

/-- What a client can do to the object of its key: nothing, store it whole where there is none, or remove
one of its user. -/
inductive Client.Alters (e : Env) (cli : Client) : Path → Option Bytes → Option Bytes → Prop
  | same {p : Path} {v : Option Bytes} : Alters e cli p v v
  | stored {d : Bytes} (hdesc : (storedHdr e cli.keyBytes cli.user d).Describes cli.keyBytes d) :
      Alters e cli (cli.path e) none (some (storedFile e cli.keyBytes cli.user d))
  | removed {bs : Bytes}
      (howner : cstr cli.user = cstr (BeFsObjHdr.ofBytes (bs.take beFsObjHdrSz)).owner) :
      Alters e cli (cli.path e) (some bs) none

/-- A change of one name that nobody else uploads to. -/
structure Client.Touches (e : Env) (fs fs' : Vol) (cli : Client) (up' : Option Path) (q : Path) :
    Prop where
  touches : FileSys.Touches q fs fs'
  mine : cli.upload = some q ∨ cli.upload = none ∧ ∀ bs, fs.content q = some bs → ¬ Blank bs
  upload : up' = none ∨ up' = some q
  alters : cli.Alters e q (shown fs cli.upload q) (shown fs' up' q)

/-- The volume is as it was, and so is the upload, or one name has changed. -/
inductive Client.Change (e : Env) (fs fs' : Vol) (cli : Client) (up' : Option Path) : Prop
  | same (hfs : fs' = fs) (hup : up' = cli.upload)
  | touches {q : Path} (h : cli.Touches e fs fs' up' q)

section

variable {e : Env} {io : Io} {srv srv' : Srv} {cli cli' : Client} {fs fs' : Vol}

theorem upload_eq_none (h : cli.outBo = none) : cli.upload = none := by
  rw [ClientOut.upload, h, Option.bind_none]

theorem upload_eq_some {bo : FsObj} {fn : Path} (h : cli.outBo = some bo) (hfn : bo.outFn = some fn) :
    cli.upload = some fn := by
  rw [ClientOut.upload, h, Option.bind_some, hfn]

/-- Somebody else has changed another name. -/
theorem Client.Stores.kept {q : Path} (h : cli.Stores e fs) (ht : FileSys.Touches q fs fs')
    (hq : cli.upload ≠ some q) : cli.Stores e fs' where
  opened bo hbo fn hfn := by
    obtain ⟨ino, ho⟩ := h.opened bo hbo fn hfn
    refine ⟨ino, ho.kept ht ?_⟩
    rintro rfl
    exact hq (upload_eq_some hbo hfn)
  quiet := h.quiet
  body hw hs := by
    obtain ⟨bo, ino, hbo, hu, huser⟩ := h.body hw hs
    refine ⟨bo, ino, hbo, hu.kept ht ?_, huser⟩
    rintro rfl
    exact hq (upload_eq_some hbo hu.opened.outFn)
  idle := h.idle
  copy wi hwi bs hbs := by
    obtain ⟨bo, ino, d, hbo, hu, hd⟩ := h.copy wi hwi bs hbs
    refine ⟨bo, ino, d, hbo, hu.kept ht ?_, hd⟩
    rintro rfl
    exact hq (upload_eq_some hbo hu.opened.outFn)

/-- A client that writes nothing. -/
theorem Client.Stores.of_none (hbo : cli.outBo = none) (hs : cli.worker = none → cli.state ≠ .dataIn)
    (hw : ∀ wi, cli.worker = some wi → wi.pc.pending = none) : cli.Stores e fs where
  opened bo h := by
    rw [hbo] at h
    cases h
  quiet _ _ _ := hbo
  body hnone h := absurd h (hs hnone)
  idle _ _ _ := hbo
  copy wi hwi bs h := by
    rw [hw wi hwi] at h
    cases h

/-- What is written stays as it was. -/
theorem Client.Stores.same (h : cli.Stores e fs) (hrx : cli'.toClientRx = cli.toClientRx)
    (hout : cli'.toClientOut = cli.toClientOut) (htable : cli'.tableId = cli.tableId)
    (huser : cli'.user = cli.user) (hw : cli'.worker = cli.worker)
    (hs : cli'.state = cli.state ∨ cli'.state = .dispose) : cli'.Stores e fs := by
  have hkey : cli'.keyBytes = cli.keyBytes := by
    show cli'.toClientRx.keyBytes = cli.toClientRx.keyBytes
    rw [hrx]
  have hbo : cli'.outBo = cli.outBo := congrArg ClientOut.outBo hout
  have hhash : cli'.outHash = cli.outHash := congrArg ClientOut.outHash hout
  have hou : cli'.outUser = cli.outUser := congrArg ClientOut.outUser hout
  refine ⟨?_, ?_, ?_, ?_, ?_⟩
  · rw [hbo]
    exact h.opened
  · rw [hbo, hw]
    intro hnone hdata hdisp
    rcases hs with hs | hs
    · rw [hs] at hdata hdisp
      exact h.quiet hnone hdata hdisp
    · exact absurd hs hdisp
  · rw [hbo, hhash, hou, hw, htable, hkey, huser]
    intro hnone hdata
    rcases hs with hs | hs
    · rw [hs] at hdata
      exact h.body hnone hdata
    · rw [hs] at hdata
      cases hdata
  · rw [hbo, hw]
    exact h.idle
  · rw [hbo, hhash, hw, htable, hkey]
    exact h.copy

/-- The key and the user are all that a change depends on. -/
theorem Client.Alters.of_eq {cli₁ : Client} {q : Path} {v v' : Option Bytes}
    (h : cli₁.Alters e q v v') (hkey : cli₁.keyBytes = cli.keyBytes)
    (htable : cli₁.tableId = cli.tableId) (huser : cli₁.user = cli.user) : cli.Alters e q v v' := by
  have hpath : cli₁.path e = cli.path e := by
    unfold Client.path
    rw [hkey, htable]
  cases h with
  | same => exact .same
  | stored hdesc =>
    rw [hpath]
    rw [hkey, huser] at hdesc ⊢
    exact .stored hdesc
  | removed howner =>
    rw [hpath]
    rw [huser] at howner
    exact .removed howner

theorem Client.Change.of_eq {cli₁ : Client} {up' : Option Path} (h : cli₁.Change e fs fs' up')
    (hup : cli₁.upload = cli.upload) (hkey : cli₁.keyBytes = cli.keyBytes)
    (htable : cli₁.tableId = cli.tableId) (huser : cli₁.user = cli.user) : cli.Change e fs fs' up' := by
  cases h with
  | same hfs hup' => exact .same hfs (hup'.trans hup)
  | touches h =>
    have hmine := h.mine
    have halters := h.alters
    rw [hup] at hmine halters
    exact .touches ⟨h.touches, hmine, h.upload, halters.of_eq hkey htable huser⟩

/-- A change after the client has changed the file of its upload. -/
theorem Client.Change.after {cli₁ : Client} {fs₁ : Vol} {up' : Option Path} {q : Path}
    (h : cli₁.Change e fs₁ fs' up') (hup : cli₁.upload = some q) (ht : FileSys.Touches q fs fs₁)
    (hmine : cli.upload = some q ∨ cli.upload = none ∧ fs.content q = none)
    (hkey : cli₁.keyBytes = cli.keyBytes) (htable : cli₁.tableId = cli.tableId)
    (huser : cli₁.user = cli.user) : cli.Change e fs fs' up' := by
  have hbefore : shown fs cli.upload q = none := by
    unfold shown
    rcases hmine with hm | ⟨hm, hnone⟩
    · rw [if_pos hm]
    · rw [hm, if_neg (by simp), hnone]
  have hmine' : cli.upload = some q ∨ cli.upload = none ∧ ∀ bs, fs.content q = some bs → ¬ Blank bs := by
    refine hmine.imp_right fun hm => ⟨hm.1, fun bs hbs => ?_⟩
    rw [hm.2] at hbs
    cases hbs
  cases h with
  | same hfs hup' =>
    subst hfs
    refine .touches ⟨ht, hmine', .inr (hup'.trans hup), ?_⟩
    rw [hbefore, shown, if_pos (hup'.trans hup)]
    exact .same
  | @touches q' h =>
    obtain rfl : q' = q := by
      rcases h.mine with hm | ⟨hm, -⟩
      · exact Option.some.inj (hm.symm.trans hup)
      · cases hm.symm.trans hup
    refine .touches ⟨ht.trans h.touches, hmine', h.upload, ?_⟩
    have halters := h.alters
    rw [shown, if_pos hup] at halters
    rw [hbefore]
    exact halters.of_eq hkey htable huser

/-- The end of an upload or a copy removes the file that has not been committed. -/
theorem cliOutEnd_fs (srv : Srv) (out : ClientOut) :
    (cliOutEnd srv out).1.fs = out.upload.elim srv.fs srv.fs.unlink := by
  unfold cliOutEnd ClientOut.upload fsObjFree
  cases hbo : out.outBo with
  | none => rfl
  | some bo =>
    dsimp only
    cases hfn : bo.outFn <;> simp [hfn]

theorem cliOutEnd_none (srv : Srv) {out : ClientOut} (h : out.upload = none) :
    (cliOutEnd srv out).1.fs = srv.fs := by
  rw [cliOutEnd_fs, h, Option.elim_none]

theorem cliOutEnd_some (srv : Srv) {out : ClientOut} {fn : Path} (h : out.upload = some fn) :
    (cliOutEnd srv out).1.fs = srv.fs.unlink fn := by
  rw [cliOutEnd_fs, h, Option.elim_some]

/-- The file of an upload is given up. -/
theorem Client.Change.given_up {srv₁ : Srv} {out : ClientOut} {q : Path} {up' : Option Path}
    (hup : cli.upload = some q) (hout : out.upload = some q) (ht : FileSys.Touches q fs srv₁.fs)
    (hup' : up' = none) : cli.Change e fs (cliOutEnd srv₁ out).1.fs up' := by
  subst hup'
  rw [cliOutEnd_some srv₁ hout]
  refine .touches ⟨ht.trans (FileSys.touches_unlink _ _), .inl hup, .inl rfl, ?_⟩
  rw [shown, if_pos hup, shown, if_neg (by simp), FileSys.content_unlink]
  exact .same

theorem Client.Change.outEnd (cli : Client) (srv : Srv) {up' : Option Path} (hup' : up' = none) :
    cli.Change e srv.fs (cliOutEnd srv cli.toClientOut).1.fs up' := by
  cases hup : cli.upload with
  | none => exact .same (cliOutEnd_none srv hup) (hup'.trans hup.symm)
  | some fn => exact .given_up hup hup (.refl _ _) hup'

/-- What has changed after a step, and what the client goes on with. -/
def Client.Stored (e : Env) (srv : Srv) (cli : Client) (srv' : Srv) (cli' : Client) : Prop :=
  cli.Change e srv.fs srv'.fs cli'.upload ∧ cli'.Stores e srv'.fs

/-- A file of no upload comes and goes. -/
theorem Client.Change.error {q : Path} {up' : Option Path} (hup : cli.upload = none) (hup' : up' = none)
    (h : fs' = fs ∨ fs.lookup q = none ∧ FileSys.Touches q fs fs' ∧ fs'.content q = none) :
    cli.Change e fs fs' up' := by
  subst hup'
  rcases h with rfl | ⟨hnone, ht, hgone⟩
  · exact .same rfl hup.symm
  · have hc := FileSys.content_eq_none hnone
    refine .touches ⟨ht, .inr ⟨hup, fun bs hbs => ?_⟩, .inl rfl, ?_⟩
    · rw [hc] at hbs
      cases hbs
    · rw [shown, hup, if_neg (by simp), shown, if_neg (by simp), hc, hgone]
      exact .same

/-- A file of an upload grows. -/
theorem Client.Change.grows {q : Path} {up' : Option Path} (ht : FileSys.Touches q fs fs')
    (hmine : cli.upload = some q ∨ cli.upload = none ∧ fs.lookup q = none) (hup' : up' = some q) :
    cli.Change e fs fs' up' := by
  subst hup'
  have hsame : Client.Change e fs' fs' { cli with outBo := some { outFn := some q } } (some q) :=
    .same rfl rfl
  exact hsame.after rfl ht (hmine.imp_right fun h => ⟨h.1, FileSys.content_eq_none h.2⟩) rfl rfl rfl

/-- The file of an upload has become an object. -/
theorem Client.Change.committed {d : Bytes} {up' : Option Path} (hup : cli.upload = some (cli.path e))
    (hup' : up' = none) (ht : FileSys.Touches (cli.path e) fs fs')
    (hfile : fs'.content (cli.path e) = some (storedFile e cli.keyBytes cli.user d))
    (hdesc : (storedHdr e cli.keyBytes cli.user d).Describes cli.keyBytes d) :
    cli.Change e fs fs' up' := by
  subst hup'
  refine .touches ⟨ht, .inl hup, .inl rfl, ?_⟩
  rw [shown, if_pos hup, shown, if_neg (by simp), hfile]
  exact .stored hdesc

theorem PutEnd.stored {bo : FsObj} {ino : Nat} (h : PutEnd e io srv cli srv' cli')
    (hw : cli.worker = none) (hbo : cli.outBo = some bo)
    (hu : Upload e srv.fs cli.tableId cli.keyBytes bo ino cli.outHash)
    (huser : ∀ user, cli.outUser = some user → user = cli.user) : cli.Stored e srv srv' cli' := by
  have hidle : ∀ {wi : WorkerInfo} {p : Prop}, cli.worker = some wi → p := by
    intro wi p hwi
    rw [hw] at hwi
    cases hwi
  have hup : cli.upload = some (cli.path e) := upload_eq_some hbo hu.opened.outFn
  cases h with
  | noMem =>
    refine ⟨.same rfl rfl, fun bo' hbo' fn hfn => ?_, fun _ _ hs => absurd rfl hs,
      fun _ hs => (by cases hs), fun _ => hidle, fun _ => hidle⟩
    obtain rfl := Option.some.inj (hbo.symm.trans hbo')
    obtain rfl := Option.some.inj (hu.opened.outFn.symm.trans hfn)
    exact ⟨ino, hu.opened⟩
  | @ended bo₁ bo' user ok fs tx hbo₁ huser₁ hcommit htx =>
    obtain rfl := Option.some.inj (hbo.symm.trans hbo₁)
    obtain rfl := huser user huser₁
    refine ⟨?_, .of_none rfl (fun _ hs => ?_) fun _ => hidle⟩
    · cases ok with
      | true =>
        obtain ⟨ht, hfile, hfn, hdesc⟩ := hu.committed hcommit
        have hend : (cliOutEnd { srv with fs } { cli.toClientOut with outBo := some bo' }).1.fs = fs :=
          cliOutEnd_none _ hfn
        rw [hend]
        exact .committed hup rfl ht hfile hdesc
      | false =>
        obtain ⟨ht, hfn, -⟩ := hu.opened.uncommitted hcommit
        exact .given_up hup hfn ht rfl
    · have hstate : tx.state = .dataIn := hs
      rcases htx.state with h | h <;> cases h.symm.trans hstate

/-- The size of the table of checksums for so many bytes fits its 32 bits. -/
def SmallData (dataLen : Nat) : Prop := blockCount chunkBlkSz dataLen * chdCsumSz < 2 ^ 32

theorem PutBegin.stored (h : PutBegin e io srv cli srv' cli') (hbo : cli.outBo = none)
    (hw : cli.worker = none) (hsmall : SmallData cli.req.dataLen) : cli.Stored e srv srv' cli' := by
  have hidle : ∀ {wi : WorkerInfo} {p : Prop}, cli.worker = some wi → p := by
    intro wi p hwi
    rw [hw] at hwi
    cases hwi
  have hup : cli.upload = none := upload_eq_none hbo
  cases h with
  | @refused cep actives err fs tx hget hnew htx =>
    refine ⟨.error hup rfl (fsObjNew_error hnew), .of_none rfl (fun _ hs => ?_) fun _ => hidle⟩
    have hstate : tx.state = .dataIn := hs
    rcases htx.state with h | h <;> cases h.symm.trans hstate
  | @started cep actives bo fs outUser hget hnew huser hlen =>
    obtain ⟨hnone, ht, hu⟩ := fsObjNew_upload hsmall hnew
    refine ⟨.grows ht (.inr ⟨hup, hnone⟩) (upload_eq_some rfl hu.opened.outFn), ?_, ?_, ?_, ?_, ?_⟩
    · rintro bo' ⟨⟩ fn hfn
      obtain rfl := Option.some.inj (hu.opened.outFn.symm.trans hfn)
      exact ⟨_, hu.opened⟩
    · exact fun _ hs => absurd rfl hs
    · exact fun _ _ => ⟨bo, _, rfl, hu, huser⟩
    · exact fun _ => hidle
    · exact fun _ => hidle
  | @empty cep actives bo fs outUser srv' cli' hget hnew huser hlen hend =>
    obtain ⟨hnone, ht, hu⟩ := fsObjNew_upload hsmall hnew
    obtain ⟨hchange, hstores⟩ := hend.stored hw rfl hu huser
    exact ⟨hchange.after hu.opened.outFn ht (.inr ⟨hup, FileSys.content_eq_none hnone⟩) rfl rfl rfl,
      hstores⟩

theorem DataIn.stored (h : DataIn e io srv cli srv' cli') (hst : cli.Stores e srv.fs)
    (hw : cli.worker = none) (hs : cli.state = .dataIn) : cli.Stored e srv srv' cli' := by
  have hidle : ∀ {wi : WorkerInfo} {p : Prop}, cli.worker = some wi → p := by
    intro wi p hwi
    rw [hw] at hwi
    cases hwi
  obtain ⟨bo, ino, hbo, hu, huser⟩ := hst.body hw hs
  have hup : cli.upload = some (cli.path e) := upload_eq_some hbo hu.opened.outFn
  have hgone : ∀ {tx : ClientTx}, tx.state = .dispose → tx.state ≠ .dataIn := by
    intro tx hd hs
    cases hd.symm.trans hs
  cases h with
  | idle => exact ⟨.same rfl rfl, hst.same rfl rfl rfl rfl rfl (.inl rfl)⟩
  | eof => exact ⟨.same rfl rfl, hst.same rfl rfl rfl rfl rfl (.inr rfl)⟩
  | sslFailed _ hd => exact ⟨.same rfl rfl, hst.same rfl rfl rfl rfl rfl (.inr hd)⟩
  | readFailed _ hd => exact ⟨.outEnd cli srv rfl, .of_none rfl (fun _ => hgone hd) fun _ => hidle⟩
  | @writeFailed bs bo₁ bo' fs tx hbo₁ hwrite _ _ hd =>
    obtain rfl := Option.some.inj (hbo.symm.trans hbo₁)
    obtain ⟨ht, ho⟩ := fsObjWrite_opened hu.opened hwrite
    exact ⟨.given_up hup ho.outFn ht rfl, .of_none rfl (fun _ => hgone hd) fun _ => hidle⟩
  | @wrote bs bo₁ bo' fs hbo₁ hwrite _ =>
    obtain rfl := Option.some.inj (hbo.symm.trans hbo₁)
    obtain ⟨ht, ho⟩ := fsObjWrite_opened hu.opened hwrite
    have hu' := hu.wrote hwrite
    refine ⟨.grows ht (.inl hup) (upload_eq_some rfl ho.outFn), ?_, ?_, ?_, ?_, ?_⟩
    · rintro bo'' ⟨⟩ fn hfn
      obtain rfl := Option.some.inj (ho.outFn.symm.trans hfn)
      exact ⟨ino, ho⟩
    · exact fun _ hn => absurd hs hn
    · exact fun _ _ => ⟨bo', ino, rfl, hu', huser⟩
    · exact fun _ => hidle
    · exact fun _ => hidle
  | @wroteAll bs bo₁ bo' fs srv' cli' hbo₁ hwrite _ hend =>
    obtain rfl := Option.some.inj (hbo.symm.trans hbo₁)
    obtain ⟨ht, ho⟩ := fsObjWrite_opened hu.opened hwrite
    obtain ⟨hchange, hstores⟩ := hend.stored hw rfl (hu.wrote hwrite) huser
    exact ⟨hchange.after ho.outFn ht (.inl hup) rfl rfl rfl, hstores⟩
  | ended _ hend => exact hend.stored hw hbo hu huser

/-- A file is removed if it has a header, which names its owner. -/
theorem fsObjDelete_cases {y : Sys} {fs fs' : Vol} {tableId : Nat} {user key : Bytes}
    {r : Option ChunkErrcode} (h : fsObjDelete e y fs tableId user key = (r, fs')) :
    fs' = fs ∨ ∃ bs, fs.content ⟨tableId, e.sha256 key⟩ = some bs ∧ ¬ Blank bs ∧
      cstr user = cstr (BeFsObjHdr.ofBytes (bs.take beFsObjHdrSz)).owner ∧
      fs' = fs.unlink ⟨tableId, e.sha256 key⟩ := by
  unfold fsObjDelete at h
  split at h
  · exact .inl (Prod.mk.inj h).2.symm
  · split at h
    · exact .inl (Prod.mk.inj h).2.symm
    · next fn hfn =>
      obtain rfl := pathname_eq (fsObjPathname_some hfn)
      split at h
      · exact .inl (Prod.mk.inj h).2.symm
      · split at h
        · exact .inl (Prod.mk.inj h).2.symm
        · next ino hino =>
          dsimp only at h
          split at h
          · exact .inl (Prod.mk.inj h).2.symm
          · split at h
            · exact .inl (Prod.mk.inj h).2.symm
            · split at h
              · exact .inl (Prod.mk.inj h).2.symm
              · next hmagic =>
                split at h
                · exact .inl (Prod.mk.inj h).2.symm
                · next howner =>
                  split at h
                  · exact .inl (Prod.mk.inj h).2.symm
                  · refine .inr ⟨_, FileSys.content_of_lookup hino, fun hblank => hblank.unmarked ?_,
                      not_not.mp howner, (Prod.mk.inj h).2.symm⟩
                    have hmag := not_not.mp hmagic
                    simp only [BeFsObjHdr.ofBytes, List.take_take, beFsObjHdrSz] at hmag
                    exact hmag

theorem objectDel_change (srv : Srv) {up' : Option Path} (hup : cli.upload = none) (hup' : up' = none) :
    cli.Change e srv.fs (objectDel e io srv cli).1.fs up' := by
  subst hup'
  have hdel : ∀ {r : Option ChunkErrcode} {fs' : Vol},
      fsObjDelete e io.sys srv.fs cli.tableId cli.user cli.keyBytes = (r, fs') →
      cli.Change e srv.fs fs' none := by
    intro r fs' h
    rcases fsObjDelete_cases h with rfl | ⟨bs, hbs, hmarked, howner, rfl⟩
    · exact .same rfl hup.symm
    · refine .touches (q := cli.path e) ⟨FileSys.touches_unlink _ _, .inr ⟨hup, fun bs' hbs' => ?_⟩,
        .inl rfl, ?_⟩
      · obtain rfl := Option.some.inj (hbs.symm.trans hbs')
        exact hmarked
      · have hbefore : shown srv.fs cli.upload (cli.path e) = some bs := by
          rw [shown, hup, if_neg (by simp)]
          exact hbs
        rw [hbefore, shown, if_neg (by simp)]
        exact (FileSys.content_unlink srv.fs (cli.path e)) ▸ .removed howner
  unfold objectDel
  split
  · exact .same rfl hup.symm
  · split
    · next h => exact hdel h
    · next h => exact hdel h

theorem ExecOp.stored (h : ExecOp e io srv cli srv' cli') (hs : cli.state = .recycle)
    (hbo : cli.outBo = none) (hw : cli.worker = none)
    (hsmall : cli.req.op = .put → SmallData cli.req.dataLen) : cli.Stored e srv srv' cli' := by
  have hidle : ∀ {wi : WorkerInfo} {p : Prop}, cli.worker = some wi → p := by
    intro wi p hwi
    rw [hw] at hwi
    cases hwi
  have hup : cli.upload = none := upload_eq_none hbo
  have hanswered : ∀ {tx : ClientTx}, cli.toClientTx.Answered tx → tx.state ≠ .dataIn := by
    intro tx htx hdata
    rcases htx.state with h | h <;> cases h.symm.trans hdata
  cases h with
  | answered _ _ htx =>
    exact ⟨.same rfl rfl, .of_none hbo (fun _ => hanswered htx) fun _ => hidle⟩
  | login _ =>
    obtain ⟨user, tx, heq, htx, -⟩ := @loginUser_tx e io srv.fs cli
    rw [heq]
    exact ⟨.same rfl rfl, .of_none hbo (fun _ => hanswered htx) fun _ => hidle⟩
  | put hput h => exact h.stored hbo hw (hsmall hput)
  | del _ =>
    obtain ⟨tx, heq, htx⟩ := @objectDel_tx e io srv cli hs
    rw [heq]
    exact ⟨objectDel_change srv hup hup, .of_none hbo (fun _ => hanswered htx) fun _ => hidle⟩
  | copies _ =>
    refine ⟨.same rfl rfl, .of_none hbo (fun hnone => ?_) ?_⟩
    · cases hnone
    · rintro wi ⟨⟩
      rfl
  | tableOpen _ =>
    obtain ⟨table, tableLen, tableId, tx, heq, htx⟩ := @volumeOpen_tx e io srv cli
    have hfs : (volumeOpen e io srv cli).1.fs = srv.fs := by
      unfold volumeOpen
      dsimp only
      split <;> rfl
    rw [heq]
    exact ⟨.same hfs rfl, .of_none hbo (fun _ => hanswered htx) fun _ => hidle⟩
  | checkStart _ =>
    have hfs : (chkStart e io srv cli).1.fs = srv.fs := by
      unfold chkStart
      dsimp only
      split
      · rfl
      · split <;> first | rfl | (split <;> rfl)
    exact ⟨.same hfs rfl, .of_none hbo (fun _ => hanswered (chkStart_answered srv cli)) fun _ => hidle⟩
  | @startTls ssl s _ hend =>
    refine ⟨.same rfl rfl, .of_none hbo (fun _ hdata => ?_) fun _ => hidle⟩
    have hstate : s = .dataIn := hdata
    rcases hend with h | h <;> cases h.symm.trans hstate

theorem ExecReq.stored (h : ExecReq e io srv cli srv' cli') (hst : cli.Stores e srv.fs)
    (hs : cli.state = .execReq) (hw : cli.worker = none)
    (hsmall : cli.req.op = .put → SmallData cli.req.dataLen) : cli.Stored e srv srv' cli' := by
  cases h with
  | refused _ hdisp => exact ⟨.same rfl rfl, hst.same rfl rfl rfl rfl rfl (.inr hdisp)⟩
  | passed _ _ _ _ _ hop =>
    have hbo : cli.outBo = none := hst.quiet hw (by simp [hs]) (by simp [hs])
    obtain ⟨hchange, hstores⟩ := hop.stored rfl hbo hw hsmall
    exact ⟨hchange.of_eq rfl rfl rfl rfl, hstores.same rfl rfl rfl rfl rfl (.inl rfl)⟩

/-- What a step of a copy must meet: the source is not too large, and a write of the header that fails
writes nothing. -/
def Client.CopyMeets (io : Io) (cli : Client) (wi : WorkerInfo) : Prop :=
  (wi.pc = .create → ∀ obj ∈ cli.inObj, SmallData obj.size) ∧
    (wi.pc = .commit → io.sys.fails .commitWritev = true → io.sys.short = 0)

theorem CopyStep.stored {wi : WorkerInfo} (h : CopyStep e io srv cli wi srv' cli')
    (hst : cli.Stores e srv.fs) (hw : cli.worker = some wi) (hok : cli.CopyMeets io wi) :
    cli.Stored e srv srv' cli' := by
  -- a client whose thread is at work, with an object that has its own file or is committed
  have hcopy : ∀ {fs' : Vol} {cli' : Client} {wi' : WorkerInfo} {bo' : FsObj},
      cli'.worker = some wi' → cli'.outBo = some bo' →
      (∀ fn, bo'.outFn = some fn → ∃ ino, bo'.Opened fs' fn ino) →
      (wi'.pc = .out ∨ ∃ bs ino d, wi'.pc.pending = some bs ∧
        Upload e fs' cli'.tableId cli'.keyBytes bo' ino d ∧ cli'.outHash = d ++ bs) →
      cli'.Stores e fs' := by
    intro fs' cli' wi' bo' hw' hbo' hopened hpc
    refine ⟨?_, ?_, ?_, ?_, ?_⟩
    · intro bo hbo
      obtain rfl := Option.some.inj (hbo'.symm.trans hbo)
      exact hopened
    · intro hnone
      cases hw'.symm.trans hnone
    · intro hnone
      cases hw'.symm.trans hnone
    · intro wi hwi hidle
      obtain rfl := Option.some.inj (hw'.symm.trans hwi)
      rcases hpc with hpc | ⟨bs, ino, d, hpend, -⟩
      · rcases hidle with h | h | h | h <;> cases hpc.symm.trans h
      · rcases hidle with h | h | h | h <;> · rw [h] at hpend; cases hpend
    · intro wi hwi bs hbs
      obtain rfl := Option.some.inj (hw'.symm.trans hwi)
      rcases hpc with hpc | ⟨bs', ino, d, hpend, hu, hd⟩
      · rw [hpc] at hbs
        cases hbs
      · obtain rfl := Option.some.inj (hpend.symm.trans hbs)
        exact ⟨bo', ino, d, hbo', hu, hd⟩
  have hbusy : ∀ {cli' : Client} {wi' : WorkerInfo}, cli'.worker = some wi' →
      cli'.worker = none → cli'.state ≠ .dataIn := by
    intro cli' wi' hw' hnone
    cases hw'.symm.trans hnone
  have hnone : wi.pc = .openSrc ∨ wi.pc = .cache ∨ wi.pc = .create ∨ wi.pc = .signal →
      cli.outBo = none := hst.idle wi hw
  cases h with
  | opened hpc hnext =>
    refine ⟨.same rfl rfl, .of_none (hnone (.inl hpc)) (hbusy rfl) ?_⟩
    rintro wi ⟨⟩
    rcases hnext with h | h <;> rw [h] <;> rfl
  | held hpc _ =>
    refine ⟨.same rfl rfl, .of_none (hnone (.inr (.inl hpc))) (hbusy rfl) ?_⟩
    rintro wi ⟨⟩
    rfl
  | refused hpc _ hnew =>
    have hup := upload_eq_none (hnone (.inr (.inr (.inl hpc))))
    refine ⟨.error hup rfl (fsObjNew_error hnew), .of_none rfl (hbusy rfl) ?_⟩
    rintro wi ⟨⟩
    rfl
  | created hpc hobj hnew =>
    have hup := upload_eq_none (hnone (.inr (.inr (.inl hpc))))
    obtain ⟨hgone, ht, hu⟩ := fsObjNew_upload (hok.1 hpc _ hobj) hnew
    refine ⟨.grows ht (.inr ⟨hup, hgone⟩) (upload_eq_some rfl hu.opened.outFn),
      hcopy rfl rfl (fun fn hfn => ?_) (.inr ⟨[], _, [], rfl, hu, rfl⟩)⟩
    obtain rfl := Option.some.inj (hu.opened.outFn.symm.trans hfn)
    exact ⟨_, hu.opened⟩
  | @read inObj inLen bs pc hpc hnext =>
    obtain ⟨bo, ino, d, hbo, hu, hd⟩ := hst.copy wi hw [] (by rw [hpc]; rfl)
    refine ⟨.same rfl rfl, hcopy rfl hbo (hst.opened bo hbo) ?_⟩
    have hhash : cli.outHash ++ bs = d ++ bs := by rw [hd, List.append_nil]
    rcases hnext with ⟨rfl | rfl, rfl⟩ | rfl
    · exact .inl rfl
    · exact .inr ⟨[], ino, d, rfl, hu, hhash⟩
    · exact .inr ⟨bs, ino, d, rfl, hu, hhash⟩
  | @wrote bs bo₁ bo' fs hpc hbo₁ hwrite =>
    obtain ⟨bo, ino, d, hbo, hu, hd⟩ := hst.copy wi hw bs (by rw [hpc]; rfl)
    obtain rfl := Option.some.inj (hbo.symm.trans hbo₁)
    obtain ⟨ht, ho⟩ := fsObjWrite_opened hu.opened hwrite
    have hhash : cli.outHash = d ++ bs ++ [] := by rw [hd, List.append_nil]
    refine ⟨.grows ht (.inl (upload_eq_some hbo hu.opened.outFn)) (upload_eq_some rfl ho.outFn),
      hcopy rfl rfl (fun fn hfn => ?_) (.inr ⟨[], ino, d ++ bs, rfl, hu.wrote hwrite, hhash⟩)⟩
    obtain rfl := Option.some.inj (ho.outFn.symm.trans hfn)
    exact ⟨_, ho⟩
  | @writeFailed bs bo₁ bo' fs hpc hbo₁ hwrite =>
    obtain ⟨bo, ino, d, hbo, hu, hd⟩ := hst.copy wi hw bs (by rw [hpc]; rfl)
    obtain rfl := Option.some.inj (hbo.symm.trans hbo₁)
    obtain ⟨ht, ho⟩ := fsObjWrite_opened hu.opened hwrite
    refine ⟨.grows ht (.inl (upload_eq_some hbo hu.opened.outFn)) (upload_eq_some rfl ho.outFn),
      hcopy rfl rfl (fun fn hfn => ?_) (.inl rfl)⟩
    obtain rfl := Option.some.inj (ho.outFn.symm.trans hfn)
    exact ⟨_, ho⟩
  | @committed bo₁ bo' ok fs err hpc hbo₁ hcommit =>
    obtain ⟨bo, ino, d, hbo, hu, hd⟩ := hst.copy wi hw [] (by rw [hpc]; rfl)
    obtain rfl := Option.some.inj (hbo.symm.trans hbo₁)
    rw [hd, List.append_nil] at hcommit
    have hup := upload_eq_some hbo hu.opened.outFn
    cases ok with
    | true =>
      obtain ⟨ht, hfile, hfn, hdesc⟩ := hu.committed hcommit
      refine ⟨.committed hup hfn ht hfile hdesc, hcopy rfl rfl (fun fn hfn' => ?_) (.inl rfl)⟩
      cases hfn.symm.trans hfn'
    | false =>
      obtain ⟨ht, hfn, ho⟩ := hu.opened.uncommitted hcommit
      have ho := ho rfl (hok.2 hpc)
      refine ⟨.grows ht (.inl hup) (upload_eq_some rfl hfn), hcopy rfl rfl (fun fn hfn' => ?_) (.inl rfl)⟩
      obtain rfl := Option.some.inj (hfn.symm.trans hfn')
      exact ⟨_, ho⟩
  | ended _ =>
    refine ⟨.outEnd cli srv rfl, .of_none rfl (hbusy rfl) ?_⟩
    rintro wi ⟨⟩
    rfl
  | waits _ => exact ⟨.same rfl rfl, hst⟩

/-- What a step of a connection must meet: the object of a PUT is not too large either. -/
def Client.StepMeets (io : Io) (cli : Client) (ev : ConnEv) : Prop :=
  (ev = .func → cli.worker = none → cli.state = .execReq → cli.req.op = .put →
    SmallData cli.req.dataLen) ∧
    (ev = .worker → ∀ wi ∈ cli.worker, cli.CopyMeets io wi)

/-- A step of a connection, with what it changes of the volume. -/
theorem connStep_stored {ev : ConnEv} {c : Option Client}
    (h : connStep e io srv cli ev = some (srv', c)) (hst : cli.Stores e srv.fs)
    (hok : cli.StepMeets io ev) :
    cli.Change e srv.fs srv'.fs (c.bind fun cli => cli.upload) ∧
      ∀ cli', c = some cli' → cli'.Stores e srv'.fs := by
  have hsome : ∀ {srv' : Srv} {cli' : Client}, cli.Stored e srv srv' cli' →
      cli.Change e srv.fs srv'.fs ((some cli').bind fun cli => cli.upload) ∧
        ∀ cli'', some cli' = some cli'' → cli''.Stores e srv'.fs := by
    rintro srv' cli' ⟨hchange, hstores⟩
    refine ⟨hchange, ?_⟩
    rintro cli'' ⟨⟩
    exact hstores
  -- reading, with nothing stored
  have hread : ∀ cli' : Client, cli.Waits cli' → cli.worker = none → cli.outBo = none →
      cli'.state ≠ .dataIn → cli.Stored e srv srv cli' := by
    intro cli' hwaits hw hbo hs
    have hbo' : cli'.outBo = none := (congrArg ClientOut.outBo hwaits.out).trans hbo
    refine ⟨.same rfl ((upload_eq_none hbo').trans (upload_eq_none hbo).symm),
      .of_none hbo' (fun _ => hs) fun wi hwi => ?_⟩
    rw [hwaits.worker, hw] at hwi
    cases hwi
  cases connStep_cases h with
  | idle => exact hsome ⟨.same rfl rfl, hst⟩
  | writes htx => exact hsome ⟨.same rfl rfl, hst.same rfl rfl rfl rfl rfl htx.state⟩
  | waits => exact hsome ⟨.same rfl rfl, hst.same rfl rfl rfl rfl rfl (.inl rfl)⟩
  | readFixed _ hs hw =>
    have hwaits := cliEvtRead_waits fixedRead_waits io cli.fixedWant cli
    refine hsome (hread _ hwaits hw (hst.quiet hw (by simp [hs]) (by simp [hs])) fun hdata => ?_)
    cases hs.symm.trans (hwaits.state hdata)
  | readVar _ hs hw =>
    have hwaits := cliEvtRead_waits varRead_waits io cli.varWant cli
    refine hsome (hread _ hwaits hw (hst.quiet hw (by simp [hs]) (by simp [hs])) fun hdata => ?_)
    cases hs.symm.trans (hwaits.state hdata)
  | exec hev hs hw hexec => exact hsome (hexec.stored hst hs hw (hok.1 hev hw hs))
  | dataIn _ hs hw hin => exact hsome (hin.stored hst hw hs)
  | freed _ _ => exact ⟨.outEnd cli srv rfl, by rintro cli' ⟨⟩⟩
  | recycled hs hw =>
    exact hsome (hread _ ⟨rfl, rfl, rfl, rfl, fun h => (by cases h)⟩ hw
      (hst.quiet hw (by simp [hs]) (by simp [hs])) (by simp))
  | accepted hs hw hend =>
    refine hsome (hread _ ⟨rfl, rfl, rfl, rfl, fun h => ?_⟩ hw
      (hst.quiet hw (by simp [hs]) (by simp [hs])) ?_)
    · rcases hend with rfl | rfl <;> cases h
    · rcases hend with rfl | rfl <;> simp
  | copies hev hw hthr => exact hsome ((workerCpThr_cases hthr).stored hst hw (hok.2 hev _ hw))
  | @copied wi hw hpc =>
    have hbo := hst.idle wi hw (.inr (.inr (.inr hpc)))
    have htx := ClientTx.Answered.err e io srv.fs cli.req wi.err (wi.err = .success) cli.toClientTx
    refine hsome ⟨.same rfl rfl, .of_none hbo (fun _ hdata => ?_) fun wi hwi => (by cases hwi)⟩
    rcases htx.state with h | h <;> cases h.symm.trans hdata

end

end Hail.Chunkd
