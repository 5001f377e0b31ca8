import Hail.Chunkd.Msg
import Hail.Library.Blocks
import Hail.Library.Buffer
import Hail.Library.File

/-!
# Objects in files

The functions of `be-fs.c` that write and read the file of an object. The file begins with a header,
the key and a table of checksums, one for each block of the data, which comes last.

Any call to the system may fail, and a `read` or `write` may be short. What the calls made for one
request do is given by a `Sys`.
-/
namespace Hail.Chunkd

open Library

/-- What the code takes from outside: digests of byte strings, and texts that libraries make. -/
structure Env where
  sha1 : Bytes → Bytes
  sha1_length : ∀ bs, (sha1 bs).length = chdCsumSz
  sha256 : Bytes → Bytes
  sha256_length : ∀ bs, (sha256 bs).length = 32
  /-- The base64 text of the HMAC of a byte string under a key. -/
  b64hmac : Bytes → Bytes → Bytes
  /-- `g_markup_escape_text`. -/
  escape : Bytes → Bytes
  /-- `strftime` as `time2str` calls it. -/
  time2str : Nat → Bytes

/-- The calls of which a request makes one at most. -/
inductive Site where
  -- fs_obj_open
  | openAlloc | openPathname | openFile | openStat | openHdr | openCsumTbl | openKey | openReadv
  -- fs_obj_new
  | newAlloc | newCsumTbl | newPathname | newFile | newSeek | newKey
  -- fs_obj_write_commit
  | commitSeek | commitWritev | commitSync
  -- fs_obj_seek
  | seek
  -- fs_obj_delete
  | delPathname | delFile | delHdr | delClose | delUnlink
  -- fs_obj_do_sum
  | sumBuf | sumFile | sumSeek
  -- fs_table_open
  | tblAddint | tblPath | tblMkdir | tblPut
  -- fs_list_objs_open
  | listPath | listOpen
  -- the answer
  | resp | writeq | errResp | errWriteq | bodyWriteq | bodyEntry | respBin
  -- object.c
  | partBuf | cpInfo | cpBuf | cacheEntry | userDup
  -- server.c
  | sslNew | sslSetFd | chkSpawn
  deriving DecidableEq, Repr

/-- What the system does for the calls of one request: the time, the calls that fail, for each
`fs_obj_read` and each `write` of each `fs_obj_write` the failure or a bound on the bytes moved, how
much a `writev` writes that does not write all, and the contents of new memory. -/
structure Sys where
  now : Nat
  fails : Site → Bool
  reads : Nat → Option Nat
  writes : Nat → Nat → Option Nat
  short : Nat
  junk : Nat → UInt8

/-- The name of an object's file, of which `fs_obj_pathname` makes `%X/xxx/xxxx…` from the number of
the table and the digest of the key. -/
structure Path where
  tableId : Nat
  digest : Bytes
  deriving DecidableEq, Repr

abbrev Vol := FileSys Path

/-- `BE_FS_OBJ_MAGIC`, the bytes of `CHU1`. -/
def beFsObjMagic : Bytes := [0x43, 0x48, 0x55, 0x31]

/-- `struct be_fs_obj_hdr`. -/
structure BeFsObjHdr where
  magic : Bytes
  keyLen : Nat
  valueLen : Nat
  nBlk : Nat
  hash : Bytes
  owner : Bytes
  deriving DecidableEq, Repr

/-- `sizeof(struct be_fs_obj_hdr)`. -/
def beFsObjHdrSz : Nat := 180

def beFsOwnerSz : Nat := 128

def BeFsObjHdr.encode (hdr : BeFsObjHdr) : Bytes :=
  hdr.magic ++ leBytes 4 hdr.keyLen ++ leBytes 8 hdr.valueLen ++ leBytes 4 hdr.nBlk ++
    List.replicate 12 0 ++ hdr.hash ++ hdr.owner

def BeFsObjHdr.ofBytes (buf : Bytes) : BeFsObjHdr where
  magic := buf.take 4
  keyLen := ofLe ((buf.drop 4).take 4)
  valueLen := ofLe ((buf.drop 8).take 8)
  nBlk := ofLe ((buf.drop 16).take 4)
  hash := (buf.drop 32).take chdCsumSz
  owner := (buf.drop 52).take beFsOwnerSz

/-- `struct fs_obj`. A descriptor is an inode number and an offset, `checksum` is what has been hashed
since `SHA1_Init`, and the buffer of the table has `csum_tbl_sz` bytes. -/
structure FsObj where
  key : Bytes := []
  size : Nat := 0
  mtime : Nat := 0
  hash : Bytes := List.replicate chdCsumSz 0
  outFd : Option (Nat × Nat) := none
  outFn : Option Path := none
  writtenBytes : Nat := 0
  inFd : Option (Nat × Nat) := none
  inPos : Nat := 0
  sendfileOfs : Nat := 0
  valueOfs : Nat := 0
  tailPos : Nat := 0
  tailLen : Nat := 0
  checkedBytes : Nat := 0
  checksum : Bytes := []
  csumIdx : Nat := 0
  csumTbl : Buffer := ⟨[], false⟩
  nBlk : Nat := 0

def keyValid (key : Bytes) : Bool := 1 ≤ key.length && key.length ≤ chdKeySz

def fsBlkCount (dataLen : Nat) : Nat := blockCount chunkBlkSz dataLen % 2 ^ 32

/-- `n_blk * CHD_CSUM_SZ`, of type `unsigned int`. -/
def csumBytes (nBlk : Nat) : Nat := nBlk * chdCsumSz % 2 ^ 32

def fsObjPathname (e : Env) (fails : Bool) (tableId : Nat) (key : Bytes) : Option Path :=
  if tableId = 0 ∨ key = [] ∨ fails then none else some ⟨tableId, e.sha256 key⟩

/-- The memory that `malloc` gives. -/
def Sys.malloc (y : Sys) (n : Nat) : Bytes := (List.range n).map y.junk

def fsObjFree (fs : Vol) (obj : FsObj) : Vol :=
  match obj.outFn with
  | some fn => fs.unlink fn
  | none => fs

/-! ## Writing -/

/-- The object of a new file, with the offset set to the place of the data. -/
def FsObj.created (y : Sys) (ino : Nat) (fn : Path) (key : Bytes) (dataLen : Nat) : FsObj :=
  let nBlk := fsBlkCount dataLen
  let valueOfs := beFsObjHdrSz + key.length + csumBytes nBlk
  { key, size := dataLen, outFd := some (ino, valueOfs), outFn := some fn, valueOfs
    tailPos := dataLen / chunkBlkSz * chunkBlkSz, tailLen := dataLen % chunkBlkSz
    csumTbl := ⟨y.malloc (csumBytes nBlk), false⟩, nBlk }

def fsObjNew (e : Env) (y : Sys) (fs : Vol) (tableId : Nat) (key : Bytes) (dataLen : Nat) :
    Except ChunkErrcode FsObj × Vol :=
  if !keyValid key then (.error .invalidKey, fs)
  else if y.fails .newAlloc then (.error .internalError, fs)
  else if y.fails .newCsumTbl then (.error .internalError, fs)
  else
    match fsObjPathname e (y.fails .newPathname) tableId key with
    | none => (.error .internalError, fs)
    | some fn =>
      if y.fails .newFile then (.error .internalError, fs)
      else if (fs.lookup fn).isSome then (.error .keyExists, fs)
      else
        let obj := FsObj.created y fs.next fn key dataLen
        if y.fails .newSeek ∨ y.fails .newKey then
          (.error .internalError, fsObjFree (fs.creat fn y.now) obj)
        else (.ok obj, fs.creat fn y.now)

def objFlushCsum (e : Env) (obj : FsObj) : FsObj :=
  if obj.nBlk ≤ obj.csumIdx then obj
  else
    { obj with
      csumTbl := obj.csumTbl.write (obj.csumIdx * chdCsumSz % 2 ^ 32) (e.sha1 obj.checksum)
      csumIdx := obj.csumIdx + 1
      checkedBytes := 0
      checksum := [] }

/-- The object after a `write` of `bs`, with the block ended if it is full. -/
def FsObj.wrote (e : Env) (obj : FsObj) (ino pos : Nat) (bs : Bytes) : FsObj :=
  let obj : FsObj :=
    { obj with
      outFd := some (ino, pos + bs.length)
      checksum := obj.checksum ++ bs
      writtenBytes := obj.writtenBytes + bs.length
      checkedBytes := obj.checkedBytes + bs.length }
  if obj.checkedBytes = chunkBlkSz then objFlushCsum e obj else obj

/-- How a loop of `write` calls ends: all is written, a call has failed, or it never ends. -/
inductive WriteEnd where
  | all | failed | never
  deriving DecidableEq, Repr

/-- The loop of `fs_obj_write`, for the `i`-th `write` on. A `write` of some bytes that does not fail
writes at least one of them; one of no bytes is repeated for ever. -/
def fsObjWriteLoop (e : Env) (now : Nat) (write : Nat → Option Nat) :
    Nat → Nat → Vol → FsObj → Bytes → WriteEnd × Vol × FsObj
  | 0, _, fs, obj, ptr => (if ptr = [] then .all else .never, fs, obj)
  | fuel + 1, i, fs, obj, ptr =>
    if ptr = [] then (.all, fs, obj)
    else
      let n := min (chunkBlkSz - obj.checkedBytes) ptr.length
      match obj.outFd, write i with
      | some (ino, pos), some bound =>
        if n = 0 then (.never, fs, obj)
        else
          let bs := ptr.take (min n (max 1 bound))
          fsObjWriteLoop e now write fuel (i + 1) (fs.write ino pos bs now) (obj.wrote e ino pos bs)
            (ptr.drop bs.length)
      | _, _ => (.failed, fs, obj)

/-- Every round writes a byte, so there are as many at most as there are bytes. -/
def fsObjWrite (e : Env) (now : Nat) (write : Nat → Option Nat) (fs : Vol) (obj : FsObj)
    (ptr : Bytes) : WriteEnd × Vol × FsObj :=
  fsObjWriteLoop e now write ptr.length 0 fs obj ptr

/-- `strncpy` to a field of `n` bytes. -/
def strncpy (n : Nat) (s : Bytes) : Bytes :=
  (cstr s).take n ++ List.replicate (n - (cstr s).length) 0

/-- The header that `fs_obj_write_commit` writes. -/
def FsObj.hdr (obj : FsObj) (user md : Bytes) : BeFsObjHdr where
  magic := beFsObjMagic
  keyLen := obj.key.length
  valueLen := obj.writtenBytes
  nBlk := obj.nBlk
  hash := md
  owner := strncpy beFsOwnerSz user

/-- The object with its last block ended. -/
def FsObj.closed (e : Env) (obj : FsObj) : FsObj :=
  if 0 < obj.checkedBytes then objFlushCsum e obj else obj

def fsObjWriteCommit (e : Env) (y : Sys) (fs : Vol) (obj : FsObj) (user md : Bytes)
    (syncData : Bool) : Bool × Vol × FsObj :=
  if obj.size ≠ obj.writtenBytes then (false, fs, obj)
  else
    let hdr := obj.hdr user md
    let obj := obj.closed e
    if obj.csumIdx ≠ obj.nBlk then (false, fs, obj)
    else
      let obj := { obj with csumIdx := 0 }
      match obj.outFd with
      | none => (false, fs, obj)
      | some (ino, _) =>
        if y.fails .commitSeek then (false, fs, obj)
        else
          let iov := hdr.encode ++ obj.key ++ obj.csumTbl.data
          if y.fails .commitWritev then (false, fs.write ino 0 (iov.take y.short) y.now, obj)
          else if syncData && y.fails .commitSync then (false, fs.write ino 0 iov y.now, obj)
          else
            (true, fs.write ino 0 iov y.now,
              { obj with outFd := none, outFn := none, writtenBytes := 0 })

/-! ## Reading -/

/-- The object of a file opened, with the offset behind its table of checksums. -/
def FsObj.opened (hdr : BeFsObjHdr) (ino : Nat) (key csums : Bytes) (mtime : Nat) : FsObj :=
  let valueOfs := beFsObjHdrSz + key.length + csumBytes hdr.nBlk
  { key, size := hdr.valueLen, mtime, hash := hdr.hash, inFd := some (ino, valueOfs), valueOfs
    tailPos := hdr.valueLen / chunkBlkSz * chunkBlkSz, tailLen := hdr.valueLen % chunkBlkSz
    csumTbl := ⟨csums, false⟩, nBlk := hdr.nBlk }

/-- What `fs_obj_open` does with the header. -/
def fsObjOpenHdr (y : Sys) (hdr : BeFsObjHdr) (user key : Bytes) (ino : Nat) (file : File) :
    Except ChunkErrcode FsObj :=
  let valueOfs := beFsObjHdrSz + key.length + csumBytes hdr.nBlk
  let rest := (file.data.drop beFsObjHdrSz).take (key.length + csumBytes hdr.nBlk)
  if hdr.magic ≠ beFsObjMagic then .error .internalError
  else if cstr hdr.owner ≠ cstr user then .error .accessDenied
  else if hdr.keyLen ≠ key.length then .error .internalError
  else if file.data.length < (valueOfs + hdr.valueLen) % 2 ^ 64 then .error .internalError
  else if fsBlkCount hdr.valueLen ≠ hdr.nBlk then .error .internalError
  else if y.fails .openCsumTbl ∨ y.fails .openKey then .error .internalError
  else if y.fails .openReadv ∨ rest.length ≠ key.length + csumBytes hdr.nBlk ∨
      rest.take key.length ≠ key then .error .internalError
  else .ok (.opened hdr ino key (rest.drop key.length) file.mtime)

def fsObjOpen (e : Env) (y : Sys) (fs : Vol) (tableId : Nat) (user key : Bytes) :
    Except ChunkErrcode FsObj :=
  if !keyValid key then .error .invalidKey
  else if y.fails .openAlloc then .error .internalError
  else
    match fsObjPathname e (y.fails .openPathname) tableId key with
    | none => .error .internalError
    | some fn =>
      if y.fails .openFile then .error .internalError
      else
        match fs.lookup fn with
        | none => .error .noSuchKey
        | some ino =>
          if y.fails .openStat then .error .internalError
          else if y.fails .openHdr ∨ (fs.file ino).data.length < beFsObjHdrSz then
            .error .internalError
          else
            fsObjOpenHdr y (.ofBytes ((fs.file ino).data.take beFsObjHdrSz)) user key ino
              (fs.file ino)

def canCsumRange (obj : FsObj) (len : Nat) : Bool :=
  let endPos := obj.tailPos + obj.tailLen
  let wantPos := obj.inPos + len
  if len = 0 then false
  else if obj.inPos % chunkBlkSz ≠ 0 then false
  else if endPos < wantPos then false
  else wantPos % chunkBlkSz = 0 || wantPos = endPos

def fsObjSeek (y : Sys) (obj : FsObj) (relOfs : Nat) : Option FsObj :=
  let absOfs := (obj.valueOfs + relOfs) % 2 ^ 64
  match obj.inFd with
  | none => none
  | some (ino, _) =>
    -- an offset of type off_t must not be negative
    if y.fails .seek ∨ 2 ^ 63 ≤ absOfs then none
    else some { obj with inFd := some (ino, absOfs), inPos := absOfs - obj.valueOfs }

/-- The loop of `fs_obj_read` that compares the checksums of `n` blocks. -/
def csumsMatch (e : Env) (obj : FsObj) : Nat → Nat → Bytes → Bool
  | 0, _, _ => true
  | n + 1, blkIdx, p =>
    let blkLen := if blkIdx + 1 = obj.nBlk ∧ 0 < obj.tailLen then obj.tailLen else chunkBlkSz
    e.sha1 (p.take blkLen) =
        (obj.csumTbl.data.drop (blkIdx * chdCsumSz % 2 ^ 32)).take chdCsumSz &&
      csumsMatch e obj n (blkIdx + 1) (p.drop blkLen)

/-- `fs_obj_read`, with what its `read` does. The result is `none` for a negative one. -/
def fsObjRead (e : Env) (fs : Vol) (read : Option Nat) (obj : FsObj) (len : Nat) :
    Option Bytes × FsObj :=
  match obj.inFd, read with
  | some (ino, pos), some bound =>
    let bs := fs.read ino pos (min len (max 1 bound))
    let obj := { obj with inFd := some (ino, pos + bs.length) }
    if bs = [] then (some [], obj)
    else
      let curBlk := fsBlkCount obj.inPos
      let blkEnd := (curBlk + fsBlkCount bs.length) % 2 ^ 32
      if canCsumRange obj bs.length && !csumsMatch e obj (blkEnd - curBlk) curBlk bs then (none, obj)
      else (some bs, { obj with inPos := obj.inPos + bs.length })
  | _, _ => (none, obj)

/-- `fs_obj_sendfile`, whose `sendfile` moves at most `bound` bytes: how many bytes of the file go
out, and from which offset. -/
def fsObjSendfile (fs : Vol) (obj : FsObj) (bound len : Nat) : Option (Nat × Nat × Nat × FsObj) :=
  match obj.inFd with
  | none => none
  | some (ino, _) =>
    let ofs := if obj.sendfileOfs = 0 then obj.valueOfs else obj.sendfileOfs
    let rc := min (min bound len) ((fs.file ino).data.length - ofs)
    some (ino, ofs, rc, { obj with sendfileOfs := ofs + rc })

/-! ## Deleting and checking -/

/-- `fs_obj_delete`; the result is `none` for success. -/
def fsObjDelete (e : Env) (y : Sys) (fs : Vol) (tableId : Nat) (user key : Bytes) :
    Option ChunkErrcode × Vol :=
  if !keyValid key then (some .invalidKey, fs)
  else
    match fsObjPathname e (y.fails .delPathname) tableId key with
    | none => (some .internalError, fs)
    | some fn =>
      if y.fails .delFile then (some .internalError, fs)
      else
        match fs.lookup fn with
        | none => (some .noSuchKey, fs)
        | some ino =>
          let data := (fs.file ino).data
          let hdr := BeFsObjHdr.ofBytes (data.take beFsObjHdrSz)
          if y.fails .delHdr ∨ data.length < beFsObjHdrSz then (some .internalError, fs)
          else if y.fails .delClose then (some .internalError, fs)
          else if hdr.magic ≠ beFsObjMagic then (some .internalError, fs)
          else if cstr user ≠ cstr hdr.owner then (some .accessDenied, fs)
          else if y.fails .delUnlink then (some .internalError, fs)
          else (none, fs.unlink fn)

/-- `BUFLEN` of `fs_obj_do_sum`. -/
def sumBuflen : Nat := 128 * 1024

/-- The loop of `fs_obj_do_sum`, for the `i`-th `read` on: what is hashed, unless a `read` fails. -/
def fsObjSumLoop (fs : Vol) (read : Nat → Option Nat) (ino : Nat) :
    Nat → Nat → Nat → Bytes → Option Bytes
  | 0, _, _, hash => some hash
  | fuel + 1, i, pos, hash =>
    match read i with
    | none => none
    | some bound =>
      let bs := fs.read ino pos (min sumBuflen (max 1 bound))
      if bs.length < sumBuflen then some (hash ++ bs)
      else fsObjSumLoop fs read ino fuel (i + 1) (pos + bs.length) (hash ++ bs)

/-- Every round but the last reads a byte. -/
def fsObjDoSum (e : Env) (y : Sys) (fs : Vol) (fn : Path) (klen csumlen : Nat) : Option Bytes :=
  if y.fails .sumBuf ∨ y.fails .sumFile then none
  else
    match fs.lookup fn with
    | none => none
    | some ino =>
      if y.fails .sumSeek then none
      else
        (fsObjSumLoop fs y.reads ino ((fs.file ino).data.length + 1) 0
          (beFsObjHdrSz + klen + csumlen) []).map e.sha1

end Hail.Chunkd
