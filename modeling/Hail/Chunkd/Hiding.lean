import Hail.Chunkd.Daemon
import Hail.Chunkd.Uploads
import Hail.Library.Exchange

/-!
# Objects hidden from others

What the functions of the storage and of the write queue do over a volume in which the files of a user's
objects have been exchanged for others, which differ in the data and the checksums alone. Another user
gets the same of both: the objects are opened and deleted by nobody else, and of their headers no more
than the owner counts.
-/
namespace Hail.Chunkd

open Library

/-! ## Files that differ in the data -/

/-- An object of a user, as `fs_obj_open` and `fs_obj_delete` see it. -/
structure ObjectOf (user : Bytes) (f : File) : Prop where
  length : beFsObjHdrSz ≤ f.data.length
  magic : (BeFsObjHdr.ofBytes (f.data.take beFsObjHdrSz)).magic = beFsObjMagic
  owner : cstr (BeFsObjHdr.ofBytes (f.data.take beFsObjHdrSz)).owner = cstr user

/-- A file that has the header of another and its key, but for the checksum, and is as long. -/
structure Alike (f f' : File) : Prop where
  mtime : f'.mtime = f.mtime
  length : f'.data.length = f.data.length
  front : f'.data.take 32 = f.data.take 32
  key : (f'.data.drop 52).take
      (beFsOwnerSz + (BeFsObjHdr.ofBytes (f.data.take beFsObjHdrSz)).keyLen) =
    (f.data.drop 52).take (beFsOwnerSz + (BeFsObjHdr.ofBytes (f.data.take beFsObjHdrSz)).keyLen)

namespace Alike

variable {user : Bytes} {f f' : File}

theorem refl (f : File) : Alike f f := ⟨rfl, rfl, rfl, rfl⟩

/-- The header but for the checksum. -/
theorem hdr (h : Alike f f') :
    (BeFsObjHdr.ofBytes (f'.data.take beFsObjHdrSz)).magic =
        (BeFsObjHdr.ofBytes (f.data.take beFsObjHdrSz)).magic ∧
      (BeFsObjHdr.ofBytes (f'.data.take beFsObjHdrSz)).keyLen =
        (BeFsObjHdr.ofBytes (f.data.take beFsObjHdrSz)).keyLen ∧
      (BeFsObjHdr.ofBytes (f'.data.take beFsObjHdrSz)).valueLen =
        (BeFsObjHdr.ofBytes (f.data.take beFsObjHdrSz)).valueLen ∧
      (BeFsObjHdr.ofBytes (f'.data.take beFsObjHdrSz)).owner =
        (BeFsObjHdr.ofBytes (f.data.take beFsObjHdrSz)).owner := by
  have hfront : ∀ (a b : Nat), a + b ≤ 32 →
      ((f'.data.take beFsObjHdrSz).drop a).take b = ((f.data.take beFsObjHdrSz).drop a).take b := by
    intro a b hab
    have hshort : ∀ bs : Bytes, ((bs.take beFsObjHdrSz).drop a).take b = ((bs.take 32).drop a).take b := by
      intro bs
      rw [List.drop_take, List.drop_take, List.take_take, List.take_take]
      congr 1
      simp only [beFsObjHdrSz]
      omega
    rw [hshort, hshort, h.front]
  have howner : ∀ bs : Bytes, ((bs.take beFsObjHdrSz).drop 52).take beFsOwnerSz =
      ((bs.drop 52).take
        (beFsOwnerSz + (BeFsObjHdr.ofBytes (f.data.take beFsObjHdrSz)).keyLen)).take beFsOwnerSz := by
    intro bs
    rw [List.drop_take, List.take_take, List.take_take]
    congr 1
    simp only [beFsObjHdrSz, beFsOwnerSz]
    omega
  have h0 := hfront 0 4 (by omega)
  simp only [List.drop_zero] at h0
  refine ⟨h0, ?_, ?_, ?_⟩
  · exact congrArg ofLe (hfront 4 4 (by omega))
  · exact congrArg ofLe (hfront 8 8 (by omega))
  · exact (howner f'.data).trans ((congrArg _ h.key).trans (howner f.data).symm)

theorem objectOf (h : Alike f f') (ho : ObjectOf user f) : ObjectOf user f' where
  length := h.length ▸ ho.length
  magic := h.hdr.1.trans ho.magic
  owner := (congrArg cstr h.hdr.2.2.2).trans ho.owner

/-- `fs_obj_hdr_read` finds a header in both or in none, and the owner in it. -/
theorem hdrInfo (h : Alike f f') (ho : ObjectOf user f) :
    Chunkd.hdrInfo f' = none ∧ Chunkd.hdrInfo f = none ∨
      ∃ info info', Chunkd.hdrInfo f' = some info' ∧ Chunkd.hdrInfo f = some info ∧
        info'.owner = cstr user ∧ info.owner = cstr user := by
  obtain ⟨hmagic, hkeyLen, hvalueLen, howner⟩ := h.hdr
  unfold Chunkd.hdrInfo
  dsimp only
  rw [h.length, hmagic, hkeyLen, hvalueLen, howner, List.length_take, List.length_drop,
    List.length_take, List.length_drop, h.length]
  split
  · exact .inl ⟨rfl, rfl⟩
  · split
    · exact .inl ⟨rfl, rfl⟩
    · split
      · exact .inl ⟨rfl, rfl⟩
      · split
        · exact .inl ⟨rfl, rfl⟩
        · split
          · exact .inl ⟨rfl, rfl⟩
          · exact .inr ⟨_, _, rfl, rfl, ho.owner, ho.owner⟩

end Alike

/-- The files of `S` are objects of a user; they are as they were in `fs₀` and may be exchanged for
those of `g`. -/
structure Hides (user : Bytes) (S : Finset ℕ) (g : ℕ → File) (fs₀ fs : Vol) : Prop where
  objects : ∀ ino ∈ S, ObjectOf user (fs₀.file ino)
  alike : ∀ ino ∈ S, Alike (fs₀.file ino) (g ino)
  kept : FileSys.Kept S fs₀ fs

/-- An object that is read from no file of `S`. -/
def FsObj.ReadsAside (S : Finset ℕ) (obj : FsObj) : Prop := ∀ fd ∈ obj.inFd, fd.1 ∉ S

/-- An object that is written to no file of `S`, nor under its name. -/
structure FsObj.WritesAside (S : Finset ℕ) (fs₀ : Vol) (obj : FsObj) : Prop where
  outFd : ∀ fd ∈ obj.outFd, fd.1 ∉ S
  outFn : ∀ fn ∈ obj.outFn, FileSys.NamesOther S fs₀ fn

section

variable {e : Env} {y : Sys} {fs fs' fs₀ : Vol} {S : Finset ℕ} {g : ℕ → File} {u user key : Bytes}
  {tableId : Nat} {obj obj' : FsObj}

namespace Hides

theorem of_kept (h : Hides u S g fs₀ fs) (hk : FileSys.Kept S fs₀ fs') : Hides u S g fs₀ fs' :=
  ⟨h.objects, h.alike, hk⟩

theorem objectOf (h : Hides u S g fs₀ fs) {ino : Nat} (hino : ino ∈ S) : ObjectOf u (fs.file ino) := by
  rw [h.kept.file ino hino]
  exact h.objects ino hino

theorem alike' (h : Hides u S g fs₀ fs) {ino : Nat} (hino : ino ∈ S) : Alike (fs.file ino) (g ino) := by
  rw [h.kept.file ino hino]
  exact h.alike ino hino

end Hides

/-! ## Opening and listing -/

/-- Others have no access to an object of the user. -/
theorem fsObjOpenHdr_other {f : File} {ino : Nat} (h : ObjectOf u f) (huser : cstr user ≠ cstr u) :
    fsObjOpenHdr y (.ofBytes (f.data.take beFsObjHdrSz)) user key ino f = .error .accessDenied := by
  unfold fsObjOpenHdr
  dsimp only
  rw [if_neg (not_not.mpr h.magic), if_pos]
  rw [h.owner]
  exact huser.symm

theorem fsObjOpen_exchange (h : Hides u S g fs₀ fs) (huser : cstr user ≠ cstr u) :
    fsObjOpen e y (fs.exchange S g) tableId user key = fsObjOpen e y fs tableId user key := by
  unfold fsObjOpen
  simp only [FileSys.lookup_exchange]
  split
  · rfl
  · split
    · rfl
    · split
      · rfl
      · split
        · rfl
        · split
          · rfl
          · next ino _ =>
            by_cases hmem : ino ∈ S
            · have ho := h.objectOf hmem
              have ha := h.alike' hmem
              rw [FileSys.file_exchange_of_mem hmem, ha.length,
                fsObjOpenHdr_other (ha.objectOf ho) huser, fsObjOpenHdr_other ho huser]
            · rw [FileSys.file_exchange hmem]

theorem fsObjOpenHdr_inFd {hdr : BeFsObjHdr} {ino : Nat} {f : File}
    (h : fsObjOpenHdr y hdr user key ino f = .ok obj) : ∃ pos, obj.inFd = some (ino, pos) := by
  unfold fsObjOpenHdr at h
  dsimp only at h
  repeat' split at h
  all_goals cases h
  exact ⟨_, rfl⟩

/-- What is opened is not of the user. -/
theorem fsObjOpen_aside (h : Hides u S g fs₀ fs) (huser : cstr user ≠ cstr u)
    (hopen : fsObjOpen e y fs tableId user key = .ok obj) : obj.ReadsAside S := by
  unfold fsObjOpen at hopen
  split at hopen
  · cases hopen
  · split at hopen
    · cases hopen
    · split at hopen
      · cases hopen
      · split at hopen
        · cases hopen
        · split at hopen
          · cases hopen
          · next ino _ =>
            split at hopen
            · cases hopen
            · split at hopen
              · cases hopen
              · have hmem : ino ∉ S := by
                  intro hmem
                  rw [fsObjOpenHdr_other (h.objectOf hmem) huser] at hopen
                  cases hopen
                obtain ⟨pos, hfd⟩ := fsObjOpenHdr_inFd hopen
                intro fd hfd'
                obtain rfl := Option.some.inj (hfd.symm.trans hfd')
                exact hmem

theorem listBody_exchange (h : Hides u S g fs₀ fs) (huser : cstr user ≠ cstr u) (c : ListCalls) :
    listBody c (fs.exchange S g) tableId user = listBody c fs tableId user := by
  funext fn res
  unfold listBody fsObjHdrRead
  have hnamed : (Vol.named (fs.exchange S g) tableId fn).bind (FileSys.lookup (fs.exchange S g)) =
      (fs.named tableId fn).bind fs.lookup := rfl
  rw [hnamed]
  cases hino : (fs.named tableId fn).bind fs.lookup with
  | none => rfl
  | some ino =>
    dsimp only
    by_cases hmem : ino ∈ S
    · rw [FileSys.file_exchange_of_mem hmem]
      rcases (h.alike' hmem).hdrInfo (h.objectOf hmem) with
        ⟨h', h⟩ | ⟨info, info', h', h, howner', howner⟩
      · rw [h', h]
      · cases c.nameFails fn <;> cases c.hdrFails fn <;> simp [h', h, howner', howner, huser]
    · rw [FileSys.file_exchange hmem]

theorem fsListObjs_exchange (h : Hides u S g fs₀ fs) (huser : cstr user ≠ cstr u) (c : ListCalls) :
    fsListObjs c (fs.exchange S g) tableId user = fsListObjs c fs tableId user := by
  unfold fsListObjs
  rw [listBody_exchange h huser]

/-! ## Reading -/

theorem fsObjRead_exchange (h : obj.ReadsAside S) (read : Option Nat) (len : Nat) :
    fsObjRead e (fs.exchange S g) read obj len = fsObjRead e fs read obj len := by
  unfold fsObjRead
  split
  · next ino pos bound hfd =>
    rw [FileSys.read_exchange (h _ hfd)]
  · rfl

theorem fsObjRead_aside (h : obj.ReadsAside S) {read : Option Nat} {len : Nat} {r : Option Bytes}
    (hread : fsObjRead e fs read obj len = (r, obj')) : obj'.ReadsAside S := by
  unfold fsObjRead at hread
  split at hread
  · next ino pos bound hfd =>
    have hmem : ino ∉ S := h _ hfd
    dsimp only at hread
    repeat' split at hread
    all_goals
      obtain ⟨-, rfl⟩ := Prod.mk.inj hread
      rintro fd ⟨⟩
      exact hmem
  · obtain ⟨-, rfl⟩ := Prod.mk.inj hread
    exact h

theorem fsObjSeek_aside (h : obj.ReadsAside S) {relOfs : Nat}
    (hseek : fsObjSeek y obj relOfs = some obj') : obj'.ReadsAside S := by
  unfold fsObjSeek at hseek
  dsimp only at hseek
  split at hseek
  · cases hseek
  · next ino pos hfd =>
    split at hseek
    · cases hseek
    · obtain rfl := Option.some.inj hseek
      have hmem : ino ∉ S := h _ hfd
      rintro fd ⟨⟩
      exact hmem

theorem fsObjSendfile_exchange (h : obj.ReadsAside S) (bound len : Nat) :
    fsObjSendfile (fs.exchange S g) obj bound len = fsObjSendfile fs obj bound len := by
  unfold fsObjSendfile
  split
  · rfl
  · next ino pos hfd => rw [FileSys.file_exchange (h _ hfd)]

/-- The bytes are of a file that is not in `S`. -/
theorem fsObjSendfile_aside (h : obj.ReadsAside S) {bound len ino ofs rc : Nat}
    (hsend : fsObjSendfile fs obj bound len = some (ino, ofs, rc, obj')) :
    ino ∉ S ∧ obj'.ReadsAside S := by
  unfold fsObjSendfile at hsend
  split at hsend
  · cases hsend
  · next ino' pos hfd =>
    simp only [Option.some.injEq, Prod.mk.injEq] at hsend
    obtain ⟨rfl, -, -, rfl⟩ := hsend
    exact ⟨h _ hfd, h⟩

/-! ## Storing and deleting -/

theorem fsObjFree_exchange : fsObjFree (fs.exchange S g) obj = (fsObjFree fs obj).exchange S g := by
  unfold fsObjFree
  split <;> rfl

theorem fsObjFree_hides (h : Hides u S g fs₀ fs) (ho : obj.WritesAside S fs₀) :
    Hides u S g fs₀ (fsObjFree fs obj) := by
  unfold fsObjFree
  split
  · next fn hfn => exact h.of_kept (h.kept.unlink (ho.outFn fn hfn))
  · exact h

theorem fsObjNew_exchange (h : Hides u S g fs₀ fs) {dataLen : Nat} {r : Except ChunkErrcode FsObj}
    (hnew : fsObjNew e y fs tableId key dataLen = (r, fs')) :
    fsObjNew e y (fs.exchange S g) tableId key dataLen = (r, fs'.exchange S g) := by
  suffices heq : fsObjNew e y (fs.exchange S g) tableId key dataLen =
      ((fsObjNew e y fs tableId key dataLen).1, (fsObjNew e y fs tableId key dataLen).2.exchange S g) by
    rw [heq, hnew]
  unfold fsObjNew
  simp only [FileSys.lookup_exchange, FileSys.creat_exchange h.kept.next_notMem, fsObjFree_exchange]
  split
  · rfl
  · split
    · rfl
    · split
      · rfl
      · split
        · rfl
        · split
          · rfl
          · split
            · rfl
            · split <;> rfl

theorem fsObjNew_hides (h : Hides u S g fs₀ fs) {dataLen : Nat} {r : Except ChunkErrcode FsObj}
    (hnew : fsObjNew e y fs tableId key dataLen = (r, fs')) :
    Hides u S g fs₀ fs' ∧ ∀ bo, r = .ok bo → bo.WritesAside S fs₀ := by
  unfold fsObjNew at hnew
  have hsame : ∀ {err : ChunkErrcode}, (.error err, fs) = (r, fs') →
      Hides u S g fs₀ fs' ∧ ∀ bo, r = .ok bo → bo.WritesAside S fs₀ := by
    rintro err ⟨⟩
    exact ⟨h, by simp⟩
  split at hnew
  · exact hsame hnew
  · split at hnew
    · exact hsame hnew
    · split at hnew
      · exact hsame hnew
      · split at hnew
        · exact hsame hnew
        · next fn _ =>
          split at hnew
          · exact hsame hnew
          · split at hnew
            · exact hsame hnew
            · next hlookup =>
              have hnone : fs.lookup fn = none := by simpa using hlookup
              have hkept := h.kept.creat hnone y.now
              have haside : (FsObj.created y fs.next fn key dataLen).WritesAside S fs₀ := by
                refine ⟨?_, ?_⟩
                · rintro fd ⟨⟩
                  exact h.kept.next_notMem
                · rintro fn ⟨⟩
                  exact h.kept.namesOther hnone
              dsimp only at hnew
              split at hnew
              · obtain ⟨rfl, rfl⟩ := Prod.mk.inj hnew
                exact ⟨fsObjFree_hides (h.of_kept hkept) haside, by simp⟩
              · obtain ⟨rfl, rfl⟩ := Prod.mk.inj hnew
                refine ⟨h.of_kept hkept, ?_⟩
                rintro bo ⟨⟩
                exact haside

theorem wrote_aside (e : Env) {ino pos : Nat} (h : obj.WritesAside S fs₀) (hino : ino ∉ S) (bs : Bytes) :
    (obj.wrote e ino pos bs).WritesAside S fs₀ where
  outFd fd hfd := by
    obtain rfl := Option.some.inj ((wrote_out e obj ino pos bs).1.symm.trans hfd)
    exact hino
  outFn fn hfn := h.outFn fn ((layout_outFn (wrote_layout ..)).symm.trans hfn)

theorem fsObjWriteLoop_exchange {now : Nat} {write : Nat → Option Nat} {fuel i : Nat} {ptr : Bytes}
    (h : obj.WritesAside S fs₀) :
    fsObjWriteLoop e now write fuel i (fs.exchange S g) obj ptr =
      ((fsObjWriteLoop e now write fuel i fs obj ptr).1,
        (fsObjWriteLoop e now write fuel i fs obj ptr).2.1.exchange S g,
        (fsObjWriteLoop e now write fuel i fs obj ptr).2.2) := by
  induction fuel generalizing i fs obj ptr with
  | zero => rfl
  | succ fuel ih =>
    simp only [fsObjWriteLoop]
    split
    · rfl
    · split
      · next ino pos bound hfd _ =>
        have hino : ino ∉ S := h.outFd _ hfd
        split
        · rfl
        · rw [FileSys.write_exchange hino, ih (wrote_aside e h hino _)]
      · rfl

theorem fsObjWrite_exchange {now : Nat} {write : Nat → Option Nat} {ptr : Bytes} {r : WriteEnd}
    (h : obj.WritesAside S fs₀) (hwrite : fsObjWrite e now write fs obj ptr = (r, fs', obj')) :
    fsObjWrite e now write (fs.exchange S g) obj ptr = (r, fs'.exchange S g, obj') := by
  unfold fsObjWrite at hwrite ⊢
  rw [fsObjWriteLoop_exchange h, hwrite]

theorem fsObjWrite_hides {now : Nat} {write : Nat → Option Nat} {ptr : Bytes} {r : WriteEnd}
    (h : Hides u S g fs₀ fs) (ho : obj.WritesAside S fs₀)
    (hwrite : fsObjWrite e now write fs obj ptr = (r, fs', obj')) :
    Hides u S g fs₀ fs' ∧ obj'.WritesAside S fs₀ := by
  have hany := @fsObjWriteLoop_any e (fun fs obj => Hides u S g fs₀ fs ∧ obj.WritesAside S fs₀) now ?_
    write ptr.length 0 fs obj ptr ⟨h, ho⟩
  · rw [show fsObjWriteLoop e now write ptr.length 0 fs obj ptr = _ from hwrite] at hany
    exact hany
  · rintro fs₁ obj₁ ino pos bs ⟨h₁, ho₁⟩ hfd
    have hino : ino ∉ S := ho₁.outFd _ hfd
    exact ⟨h₁.of_kept (h₁.kept.write hino _ _ _), wrote_aside e ho₁ hino bs⟩

theorem closed_aside (e : Env) (h : obj.WritesAside S fs₀) : (obj.closed e).WritesAside S fs₀ :=
  ⟨by rw [closed_outFd]; exact h.outFd, by rw [layout_outFn (closed_layout e obj)]; exact h.outFn⟩

theorem fsObjWriteCommit_exchange {md : Bytes} {sync ok : Bool} (h : obj.WritesAside S fs₀)
    (hcommit : fsObjWriteCommit e y fs obj user md sync = (ok, fs', obj')) :
    fsObjWriteCommit e y (fs.exchange S g) obj user md sync = (ok, fs'.exchange S g, obj') := by
  suffices heq : fsObjWriteCommit e y (fs.exchange S g) obj user md sync =
      ((fsObjWriteCommit e y fs obj user md sync).1,
        (fsObjWriteCommit e y fs obj user md sync).2.1.exchange S g,
        (fsObjWriteCommit e y fs obj user md sync).2.2) by
    rw [heq, hcommit]
  unfold fsObjWriteCommit
  dsimp only
  split
  · rfl
  · split
    · rfl
    · split
      · rfl
      · next ino pos heq =>
        have hino : ino ∉ S := (closed_aside e h).outFd _ heq
        simp only [FileSys.write_exchange hino]
        split
        · rfl
        · split
          · rfl
          · split <;> rfl

theorem fsObjWriteCommit_hides {md : Bytes} {sync ok : Bool} (h : Hides u S g fs₀ fs)
    (ho : obj.WritesAside S fs₀) (hcommit : fsObjWriteCommit e y fs obj user md sync = (ok, fs', obj')) :
    Hides u S g fs₀ fs' ∧ obj'.WritesAside S fs₀ := by
  have ho' := closed_aside e ho
  unfold fsObjWriteCommit at hcommit
  dsimp only at hcommit
  split at hcommit
  · obtain ⟨-, rfl, rfl⟩ := by simpa only [Prod.mk.injEq] using hcommit
    exact ⟨h, ho⟩
  · split at hcommit
    · obtain ⟨-, rfl, rfl⟩ := by simpa only [Prod.mk.injEq] using hcommit
      exact ⟨h, ho'⟩
    · split at hcommit
      · obtain ⟨-, rfl, rfl⟩ := by simpa only [Prod.mk.injEq] using hcommit
        exact ⟨h, ho'.outFd, ho'.outFn⟩
      · next ino pos heq =>
        have hino : ino ∉ S := ho'.outFd _ heq
        split at hcommit
        · obtain ⟨-, rfl, rfl⟩ := by simpa only [Prod.mk.injEq] using hcommit
          exact ⟨h, ho'.outFd, ho'.outFn⟩
        · split at hcommit
          · obtain ⟨-, rfl, rfl⟩ := by simpa only [Prod.mk.injEq] using hcommit
            exact ⟨h.of_kept (h.kept.write hino _ _ _), ho'.outFd, ho'.outFn⟩
          · split at hcommit
            · obtain ⟨-, rfl, rfl⟩ := by simpa only [Prod.mk.injEq] using hcommit
              exact ⟨h.of_kept (h.kept.write hino _ _ _), ho'.outFd, ho'.outFn⟩
            · obtain ⟨-, rfl, rfl⟩ := by simpa only [Prod.mk.injEq] using hcommit
              exact ⟨h.of_kept (h.kept.write hino _ _ _), ⟨by simp, by simp⟩⟩

/-- Others are refused when they delete an object of the user. -/
theorem fsObjDelete_exchange (h : Hides u S g fs₀ fs) (huser : cstr user ≠ cstr u)
    {r : Option ChunkErrcode} (hdel : fsObjDelete e y fs tableId user key = (r, fs')) :
    fsObjDelete e y (fs.exchange S g) tableId user key = (r, fs'.exchange S g) := by
  suffices heq : fsObjDelete e y (fs.exchange S g) tableId user key =
      ((fsObjDelete e y fs tableId user key).1, (fsObjDelete e y fs tableId user key).2.exchange S g) by
    rw [heq, hdel]
  unfold fsObjDelete
  simp only [FileSys.lookup_exchange]
  split
  · rfl
  · split
    · rfl
    · split
      · rfl
      · split
        · rfl
        · next ino _ =>
          by_cases hmem : ino ∈ S
          · have ho := h.objectOf hmem
            have ha := h.alike' hmem
            obtain ⟨hmagic, -, -, howner⟩ := ha.hdr
            have hne : cstr user ≠
                cstr (BeFsObjHdr.ofBytes ((fs.file ino).data.take beFsObjHdrSz)).owner := by
              rw [ho.owner]
              exact huser
            rw [FileSys.file_exchange_of_mem hmem, ha.length, hmagic, howner, if_pos hne]
            split
            · rfl
            · split
              · rfl
              · split <;> rfl
          · rw [FileSys.file_exchange hmem]
            split
            · rfl
            · split
              · rfl
              · split
                · rfl
                · split
                  · rfl
                  · split <;> rfl

theorem fsObjDelete_hides (h : Hides u S g fs₀ fs) (huser : cstr user ≠ cstr u) {r : Option ChunkErrcode}
    (hdel : fsObjDelete e y fs tableId user key = (r, fs')) : Hides u S g fs₀ fs' := by
  have hsame : ∀ {err : ChunkErrcode}, (some err, fs) = (r, fs') → Hides u S g fs₀ fs' := by
    rintro err ⟨⟩
    exact h
  unfold fsObjDelete at hdel
  split at hdel
  · exact hsame hdel
  · split at hdel
    · exact hsame hdel
    · next fn _ =>
      split at hdel
      · exact hsame hdel
      · split at hdel
        · exact hsame hdel
        · next ino hino =>
          dsimp only at hdel
          split at hdel
          · exact hsame hdel
          · split at hdel
            · exact hsame hdel
            · split at hdel
              · exact hsame hdel
              · split at hdel
                · exact hsame hdel
                · next howner =>
                  have hother : FileSys.NamesOther S fs fn := by
                    intro j hj hlookup
                    obtain rfl := Option.some.inj (hino.symm.trans hlookup)
                    rw [(h.objectOf hj).owner] at howner
                    exact howner huser
                  split at hdel
                  · exact hsame hdel
                  · obtain ⟨-, rfl⟩ := Prod.mk.inj hdel
                    exact h.of_kept (h.kept.unlink (h.kept.namesOther_iff.mp hother))

end

/-! ## Sending -/

/-- The object read is not in `S`, nor is any file whose bytes are on the socket. -/
structure ClientTx.Aside (S : Finset ℕ) (tx : ClientTx) : Prop where
  inObj : ∀ obj ∈ tx.inObj, obj.ReadsAside S
  sent : ∀ ino ofs, .file ino ofs ∈ tx.sent → ino ∉ S

section

variable {e : Env} {fs : Vol} {S : Finset ℕ} {g : ℕ → File} {tx tx' : ClientTx} {more : More}

namespace ClientTx.Aside

/-- Fields that do not say what is read or has been sent. -/
theorem same (h : tx.Aside S) (hobj : tx'.inObj = tx.inObj) (hsent : tx'.sent = tx.sent) :
    tx'.Aside S := by
  refine ⟨?_, ?_⟩
  · rw [hobj]
    exact h.inObj
  · rw [hsent]
    exact h.sent

theorem opened (h : tx.Aside S) {obj : FsObj} (hobj : obj.ReadsAside S) (len : Nat) :
    ClientTx.Aside S { tx with inObj := some obj, inLen := len } := by
  refine ⟨?_, h.sent⟩
  rintro obj' ⟨⟩
  exact hobj

theorem inEnd (h : tx.Aside S) : (cliInEnd tx).Aside S := ⟨by rintro obj ⟨⟩, h.sent⟩

theorem sentMem (h : tx.Aside S) {bs : Bytes} (hobj : tx'.inObj = tx.inObj)
    (hsent : tx'.sent = tx.sent ++ bs.map .mem) : tx'.Aside S := by
  refine ⟨?_, fun ino ofs hmem => ?_⟩
  · rw [hobj]
    exact h.inObj
  · rw [hsent] at hmem
    rcases List.mem_append.mp hmem with hmem | hmem
    · exact h.sent ino ofs hmem
    · simp at hmem

theorem writeq (h : tx.Aside S) {fails : Bool} {bs : Bytes} {cb : CliWriteFunc} {ok : Bool}
    (hq : cliWriteq fails bs cb tx = (tx', ok)) : tx'.Aside S := by
  unfold cliWriteq at hq
  split at hq
  · obtain ⟨rfl, -⟩ := Prod.mk.inj hq
    exact h
  · obtain ⟨rfl, -⟩ := Prod.mk.inj hq
    exact h.same rfl rfl

theorem wrSendfile (h : tx.Aside S) (fails : Bool) (cb : CliWriteFunc) :
    (cliWrSendfile fails cb tx).1.Aside S := by
  unfold cliWrSendfile
  split
  · exact h
  · exact h.same rfl rfl

theorem writeErr (h : tx.Aside S) : (cliWriteErr tx).Aside S := h.same rfl rfl

end ClientTx.Aside

/-- What a function of the write queue does over other files in `S` is the same, and nothing of those
files is sent. -/
def SameTx (S : Finset ℕ) (r' r : ClientTx × Bool) : Prop := r' = r ∧ r.1.Aside S

theorem objectReadBytes_same (h : tx.Aside S) :
    SameTx S (objectReadBytes e (fs.exchange S g) more tx) (objectReadBytes e fs more tx) := by
  unfold SameTx objectReadBytes
  dsimp only
  split
  · exact ⟨rfl, h.wrSendfile _ _⟩
  · split
    · exact ⟨rfl, h⟩
    · next obj hobj =>
      have haside := h.inObj obj hobj
      rw [fsObjRead_exchange haside]
      refine ⟨rfl, ?_⟩
      split
      · next obj' hread => exact h.opened (fsObjRead_aside haside hread) tx.inLen
      · next bs obj' hread =>
        have hobj' := h.opened (fsObjRead_aside haside hread)
        split
        · exact hobj' tx.inLen
        · have hend : ClientTx.Aside S (if tx.inLen - bs.length = 0 then
              cliInEnd { tx with inObj := some obj', inLen := tx.inLen - bs.length }
            else { tx with inObj := some obj', inLen := tx.inLen - bs.length }) := by
            split
            · exact (hobj' _).inEnd
            · exact hobj' _
          exact hend.writeq rfl

theorem objectGetMore_same (h : tx.Aside S) (done : Bool) :
    SameTx S (objectGetMore e (fs.exchange S g) more done tx) (objectGetMore e fs more done tx) := by
  unfold SameTx objectGetMore
  split
  · exact ⟨rfl, h⟩
  · split
    · exact ⟨rfl, h.inEnd⟩
    · obtain ⟨heq, haside⟩ := @objectReadBytes_same e fs S g tx more h
      rw [heq]
      refine ⟨rfl, ?_⟩
      split
      · next hread =>
        rw [hread] at haside
        exact haside
      · next hread =>
        rw [hread] at haside
        exact haside.inEnd

theorem cliWriteFree_same (h : tx.Aside S) (tmp : ClientWrite) (done : Bool) :
    SameTx S (cliWriteFree e (fs.exchange S g) more tmp done tx) (cliWriteFree e fs more tmp done tx) := by
  have hcalled : ClientTx.Aside S { tx with called := tx.called ++ [done] } := h.same rfl rfl
  unfold SameTx cliWriteFree
  cases tmp.cb with
  | none => exact ⟨rfl, hcalled⟩
  | cbFree => exact ⟨rfl, hcalled⟩
  | getMore => exact objectGetMore_same hcalled done

theorem cliWrCompleted_same (h : tx.Aside S) (fuel rc : Nat) (moreWork : Bool) :
    SameTx S (cliWrCompleted e (fs.exchange S g) more fuel rc moreWork tx)
      (cliWrCompleted e fs more fuel rc moreWork tx) := by
  unfold SameTx
  induction fuel generalizing rc moreWork tx with
  | zero => exact ⟨rfl, h⟩
  | succ fuel ih =>
    simp only [cliWrCompleted]
    split
    · exact ⟨rfl, h⟩
    · split
      · exact ⟨rfl, h⟩
      · next tmp q _ =>
        have hq : ∀ q, ClientTx.Aside S { tx with writeQ := q } := fun q => h.same rfl rfl
        split
        · obtain ⟨heq, haside⟩ := @cliWriteFree_same e fs S g { tx with writeQ := q } more (hq q) tmp true
          rw [heq]
          exact ih haside _ _
        · exact ih (hq _) _ _

theorem cliWrote_same (h : tx.Aside S) (rc : Nat) :
    SameTx S (cliWrote e (fs.exchange S g) more rc tx) (cliWrote e fs more rc tx) := by
  obtain ⟨heq, haside⟩ := @cliWrCompleted_same e fs S g tx more h (tx.writeQ.length + rc) rc false
  unfold SameTx cliWrote
  rw [heq]
  refine ⟨rfl, ?_⟩
  split
  next tx' moreWork hc =>
    rw [hc] at haside
    split
    · exact haside.same rfl rfl
    · exact haside

theorem cliSendfile_same (h : tx.Aside S) (r : WrRes) :
    SameTx S (cliSendfile e (fs.exchange S g) r tx) (cliSendfile e fs r tx) := by
  unfold SameTx cliSendfile
  split
  · next n more obj hobj =>
    have haside := h.inObj obj hobj
    rw [fsObjSendfile_exchange haside]
    split
    · exact ⟨rfl, h.writeErr⟩
    · next ino ofs rc obj' hsend =>
      obtain ⟨hino, hobj'⟩ := fsObjSendfile_aside haside hsend
      refine cliWrote_same ⟨?_, fun ino' ofs' hmem => ?_⟩ rc
      · rintro obj'' ⟨⟩
        exact hobj'
      · rcases List.mem_append.mp hmem with hmem | hmem
        · exact h.sent ino' ofs' hmem
        · obtain ⟨i, -, heq⟩ := List.mem_map.mp hmem
          obtain ⟨rfl, -⟩ := Octet.file.inj heq
          exact hino
  · exact ⟨rfl, h.writeErr⟩

theorem cliSslWrite_same (h : tx.Aside S) (r : WrRes) (bs : Bytes) :
    SameTx S (cliSslWrite e (fs.exchange S g) r bs tx) (cliSslWrite e fs r bs tx) := by
  unfold SameTx cliSslWrite
  split
  · refine cliWrote_same ?_ _
    exact h.sentMem rfl rfl
  · exact ⟨rfl, h.same rfl rfl⟩
  · exact ⟨rfl, h⟩
  · exact ⟨rfl, h.writeErr⟩

theorem cliWritev_same (h : tx.Aside S) (r : WrRes) :
    SameTx S (cliWritev e (fs.exchange S g) r tx) (cliWritev e fs r tx) := by
  unfold SameTx cliWritev
  dsimp only
  split
  · refine cliWrote_same ?_ _
    exact h.sentMem rfl rfl
  · exact ⟨rfl, h.same rfl rfl⟩
  · exact ⟨rfl, h.same rfl rfl⟩
  · exact ⟨rfl, h.same rfl rfl⟩

theorem cliWriteOnce_same (h : tx.Aside S) (r : WrRes) :
    SameTx S (cliWriteOnce e (fs.exchange S g) r tx) (cliWriteOnce e fs r tx) := by
  unfold SameTx cliWriteOnce
  split
  · exact ⟨rfl, h⟩
  · exact cliSendfile_same h r
  · split
    · exact cliSslWrite_same h r _
    · exact cliWritev_same h r

theorem cliWritable_same (h : tx.Aside S) (wr : List WrRes) :
    cliWritable e (fs.exchange S g) wr tx = cliWritable e fs wr tx ∧ (cliWritable e fs wr tx).Aside S := by
  induction wr generalizing tx with
  | nil =>
    obtain ⟨heq, haside⟩ := @cliWriteOnce_same e fs S g tx h .again
    exact ⟨congrArg Prod.fst heq, haside⟩
  | cons r rs ih =>
    obtain ⟨heq, haside⟩ := @cliWriteOnce_same e fs S g tx h r
    simp only [cliWritable]
    rw [heq]
    split
    · next hr =>
      rw [hr] at haside
      exact ih haside
    · next hr =>
      rw [hr] at haside
      exact ⟨rfl, haside⟩

theorem cliWriteStart_same (h : tx.Aside S) (wr : List WrRes) :
    cliWriteStart e (fs.exchange S g) wr tx = cliWriteStart e fs wr tx ∧
      (cliWriteStart e fs wr tx).Aside S := by
  obtain ⟨heq, haside⟩ := @cliWritable_same e fs S g tx h wr
  unfold cliWriteStart
  rw [heq]
  refine ⟨rfl, ?_⟩
  split
  · exact h
  · dsimp only
    split
    · exact haside
    · exact haside.same rfl rfl

theorem cliRespond_same (h : tx.Aside S) (io : Io) (fails : Bool) (bs : Bytes) :
    cliRespond e io (fs.exchange S g) fails bs tx = cliRespond e io fs fails bs tx ∧
      (cliRespond e io fs fails bs tx).Aside S := by
  unfold cliRespond
  split
  · next hq => exact ⟨rfl, h.writeq hq⟩
  · next hq => exact cliWriteStart_same (h.writeq hq) io.wr

theorem cliErr_same (h : tx.Aside S) (io : Io) (creq : ChunksrvReq) (code : ChunkErrcode) (ok : Bool) :
    cliErr e io (fs.exchange S g) creq code ok tx = cliErr e io fs creq code ok tx ∧
      (cliErr e io fs creq code ok tx).Aside S := by
  unfold cliErr
  split
  · exact ⟨rfl, h.same rfl rfl⟩
  · refine cliRespond_same ?_ io _ _
    exact h.same rfl rfl

end

end Hail.Chunkd
