import Hail.Chunkd.Fs

/-!
# Tables

`fs_table_open`, which finds or makes the number of a table in the master database, and the walk of
`be-fs.c` through the directory of a table: `fs_list_objs_next`, `fs_obj_hdr_read` and
`fs_list_objs`. An object's file lies in a subdirectory named by the first three hexadecimal digits of
its digest, under the other digits.
-/
namespace Hail.Chunkd

open Library

/-! ## The master database -/

/-- `MDB_TABLE_ID`, the bytes of `__chunkd_table_id`. -/
def mdbTableId : Bytes :=
  [0x5f, 0x5f, 0x63, 0x68, 0x75, 0x6e, 0x6b, 0x64, 0x5f, 0x74, 0x61, 0x62, 0x6c, 0x65, 0x5f, 0x69, 0x64]

/-- `tbl_master`: a database of byte strings. Under the name of a table it has the number of the table,
and there is a record `tchdbaddint` counts in. -/
abbrev TblMaster := Table (Prod.fst : Bytes × Bytes → Bytes)

/-- The key of the record that is counted in, with the terminating null. -/
def mdbTableIdKey : Bytes := mdbTableId ++ [0]

def tchdbput (hdb : TblMaster) (key val : Bytes) : TblMaster := hdb.put (fun _ _ => false) (key, val)

/-- `tchdbaddint`: the sum and the database with it, or none for an error. -/
def tchdbaddint (fails : Bool) (hdb : TblMaster) (key : Bytes) (num : Nat) :
    Option (Nat × TblMaster) :=
  if fails then none
  else
    match hdb.get key with
    | none => some (num % 2 ^ 32, tchdbput hdb key (leBytes 4 num))
    | some (_, val) =>
      if val.length ≠ 4 then none
      else
        let sum := (ofLe val + num) % 2 ^ 32
        some (sum, tchdbput hdb key (leBytes 4 sum))

/-- `fs_table_open`: the error, or none for success, and the number stored through `table_id`. A new
number is stored before the calls that may still fail. -/
def fsTableOpen (y : Sys) (hdb : TblMaster) (key : Bytes) (creat excl : Bool) (tableId : Nat) :
    Option ChunkErrcode × Nat × TblMaster :=
  if !creat && excl then (some .invalidArgument, tableId, hdb)
  else if key.length < 1 ∨ chdKeySz < key.length ∨ mdbTableId <+: key then
    (some .invalidArgument, tableId, hdb)
  else
    match hdb.get key with
    | some (_, val) =>
      if creat && excl then (some .invalidArgument, tableId, hdb) else (none, ofLe (val.take 4), hdb)
    | none =>
      if !creat then (some .invalidArgument, tableId, hdb)
      else
        match tchdbaddint (y.fails .tblAddint) hdb mdbTableIdKey 1 with
        | none => (some .internalError, tableId, hdb)
        | some (nextNum, hdb) =>
          -- the sum INT_MIN stands for an error
          if nextNum = 2 ^ 31 then (some .internalError, tableId, hdb)
          else if y.fails .tblPath ∨ y.fails .tblMkdir ∨ y.fails .tblPut then
            (some .internalError, nextNum, hdb)
          else (none, nextNum, tchdbput hdb key (leBytes 4 nextNum))

/-! ## File names -/

def hexDigit (n : Nat) : UInt8 := UInt8.ofNat (if n < 10 then 48 + n else 87 + n)

def hexstr (bs : Bytes) : Bytes :=
  bs.flatMap fun b => [hexDigit (b.toNat / 16), hexDigit (b.toNat % 16)]

def prefixLen : Nat := 3

/-- The names of a subdirectory and of a file in it. -/
abbrev FileName := Bytes × Bytes

def Path.fileName (p : Path) : FileName :=
  ((hexstr p.digest).take prefixLen, (hexstr p.digest).drop prefixLen)

/-- The file of a table that has a name. -/
def Vol.named (fs : Vol) (tableId : Nat) (fn : FileName) : Option Path :=
  (fs.dir.rows.map Prod.fst).find? fun p => p.tableId = tableId ∧ p.fileName = fn

/-! ## The walk -/

/-- What `readdir` gives for the directory of a table: a name, and if it is a directory the names in
it. `asprintf` of its path may fail, and so may `opendir`. -/
structure SubEntry where
  name : Bytes
  memory : Bool
  opens : Bool
  entries : List Bytes
  deriving DecidableEq

/-- `struct fs_obj_lister`: what is left of the directory, and of the subdirectory being read. -/
structure FsObjLister where
  root : List SubEntry
  sub : Option (Bytes × List Bytes)

def isDot (name : Bytes) : Bool := name.head? == some 0x2e

/-- `readdir` in a subdirectory, up to a name that does not begin with a dot. -/
def nextName : List Bytes → Option (Bytes × List Bytes)
  | [] => none
  | name :: names => if isDot name then nextName names else some (name, names)

/-- `fs_list_objs_next` with no subdirectory open. -/
def nextSub : List SubEntry → Option (FileName × FsObjLister)
  | [] => none
  | de :: root =>
    if isDot de.name ∨ de.name.length ≠ prefixLen then nextSub root
    else if !de.memory then none
    else if !de.opens then nextSub root
    else
      match nextName de.entries with
      | none => nextSub root
      | some (name, names) => some ((de.name, name), ⟨root, some (de.name, names)⟩)

/-- `fs_list_objs_next`, but for the `asprintf` of the file's name. The result is `none` for the end
and for an error. -/
def fsListObjsNext (t : FsObjLister) : Option (FileName × FsObjLister) :=
  match t.sub with
  | none => nextSub t.root
  | some (sub, names) =>
    match nextName names with
    | none => nextSub t.root
    | some (name, names) => some ((sub, name), { t with sub := some (sub, names) })

/-- How many names are left. -/
def FsObjLister.size (t : FsObjLister) : Nat :=
  (t.root.map fun de => de.entries.length).sum +
    match t.sub with
    | none => 0
    | some (_, names) => names.length

/-- A loop `while (fs_list_objs_next(&lister, &fn) > 0)` whose body may break, with a bound on its
rounds, each of which takes a name. -/
def listerLoop {σ : Type} (body : FileName → σ → σ × Bool) : Nat → FsObjLister → σ → σ
  | 0, _, s => s
  | fuel + 1, t, s =>
    match fsListObjsNext t with
    | none => s
    | some (fn, t) =>
      match body fn s with
      | (s, true) => listerLoop body fuel t s
      | (s, false) => s

/-! ## Headers -/

/-- What `fs_obj_hdr_read` stores through its arguments. -/
structure HdrInfo where
  owner : Bytes
  hash : Bytes
  key : Bytes
  csumlen : Nat
  size : Nat
  mtime : Nat
  deriving DecidableEq

/-- What `fs_obj_hdr_read` finds in a file. -/
def hdrInfo (file : File) : Option HdrInfo :=
  let hdr := BeFsObjHdr.ofBytes (file.data.take beFsObjHdrSz)
  let key := (file.data.drop beFsObjHdrSz).take hdr.keyLen
  if file.data.length < beFsObjHdrSz then none
  else if hdr.magic ≠ beFsObjMagic then none
  else if hdr.keyLen < 1 ∨ chdKeySz < hdr.keyLen then none
  -- the difference is unsigned
  else if (file.data.length + 2 ^ 64 - beFsObjHdrSz - hdr.keyLen) % 2 ^ 64 < hdr.valueLen then none
  else if key.length ≠ hdr.keyLen then none
  else
    some
      { owner := cstr hdr.owner, hash := hdr.hash, key, csumlen := csumBytes hdr.nBlk
        size := hdr.valueLen, mtime := file.mtime }

/-- `fs_obj_hdr_read`; `fails` when one of its calls does. -/
def fsObjHdrRead (fs : Vol) (fails : Bool) (tableId : Nat) (fn : FileName) : Option HdrInfo :=
  match (fs.named tableId fn).bind fs.lookup with
  | none => none
  | some ino => if fails then none else hdrInfo (fs.file ino)

/-! ## Listing -/

/-- `struct volume_entry`, with the name of the file it has been made from. -/
structure VolumeEntry where
  file : FileName
  size : Nat
  mtime : Nat
  key : Bytes
  hash : Bytes
  owner : Bytes
  deriving DecidableEq

/-- What the calls of a walk do: `fs_list_objs_open`, the directory as `readdir` gives it, and for
each file the calls that fail, which are the `asprintf` of its name, one of `fs_obj_hdr_read`, and
the `malloc` of its entry. -/
structure ListCalls where
  opens : Bool
  root : List SubEntry
  nameFails : FileName → Bool
  hdrFails : FileName → Bool
  entryFails : FileName → Bool

def HdrInfo.entry (info : HdrInfo) (fn : FileName) : VolumeEntry where
  file := fn
  size := info.size
  mtime := info.mtime
  key := info.key
  hash := hexstr info.hash
  owner := info.owner

/-- The body of the loop of `fs_list_objs`, and whether the loop goes on. -/
def listBody (c : ListCalls) (fs : Vol) (tableId : Nat) (user : Bytes) (fn : FileName)
    (res : List VolumeEntry) : List VolumeEntry × Bool :=
  if c.nameFails fn then (res, false)
  else
    match fsObjHdrRead fs (c.hdrFails fn) tableId fn with
    | none => (res, false)
    | some info =>
      if cstr user ≠ info.owner then (res, true)
      else if c.entryFails fn then (res, false)
      else (res ++ [info.entry fn], true)

def ListCalls.lister (c : ListCalls) : FsObjLister := ⟨c.root, none⟩

def fsListObjs (c : ListCalls) (fs : Vol) (tableId : Nat) (user : Bytes) : List VolumeEntry :=
  if !c.opens then []
  else listerLoop (listBody c fs tableId user) (c.lister.size + 1) c.lister []

end Hail.Chunkd
